/-!
# The call stack

Return addresses are kept in sixteen slots, of which the first `depth` are in use. A push past the
last slot and a pop of an empty stack have no result. Popping leaves the address in its slot, where
the next push overwrites it; `toList` shows only the slots in use.
-/

namespace Chip8

/-- Sixteen slots for return addresses, the first `depth` of them in use. -/
structure Stack where
  slots : Vector UInt16 16
  depth : Nat
  depth_le : depth ≤ 16 := by omega
  deriving DecidableEq

namespace Stack

/-- The stack with no address. -/
def empty : Stack where
  slots := Vector.replicate 16 0
  depth := 0

/-- The stored addresses, the oldest first. -/
def toList (s : Stack) : List UInt16 := s.slots.toList.take s.depth

/-- The stack with `a` as its newest address, if a slot is free. -/
def push? (s : Stack) (a : UInt16) : Option Stack :=
  if h : s.depth < 16 then
    some { slots := s.slots.set s.depth a, depth := s.depth + 1, depth_le := h }
  else none

/-- The newest address and the stack without it, if there is one. -/
def pop? (s : Stack) : Option (UInt16 × Stack) :=
  if h : s.depth = 0 then none
  else
    have := s.depth_le
    some (s.slots[s.depth - 1], { slots := s.slots, depth := s.depth - 1, depth_le := by omega })

/-! ## The stored addresses -/

@[simp] theorem length_toList (s : Stack) : s.toList.length = s.depth := by
  have := s.depth_le
  simp [toList]
  omega

@[simp] theorem toList_empty : empty.toList = [] := by simp [toList, empty]

theorem push?_eq_none_iff {s : Stack} {a : UInt16} : s.push? a = none ↔ s.depth = 16 := by
  have := s.depth_le
  unfold push?
  split <;> simp <;> omega

theorem pop?_eq_none_iff {s : Stack} : s.pop? = none ↔ s.depth = 0 := by
  unfold pop?
  split <;> simp_all

theorem toList_push {s t : Stack} {a : UInt16} (h : s.push? a = some t) :
    t.toList = s.toList ++ [a] := by
  unfold push? at h
  split at h
  · rename_i hd
    cases h
    simp only [toList, Vector.toList_set]
    rw [← List.take_append_getElem (by simpa using hd), List.take_set_of_le (Nat.le_refl _)]
    simp
  · cases h

theorem toList_pop {s t : Stack} {a : UInt16} (h : s.pop? = some (a, t)) :
    s.toList = t.toList ++ [a] := by
  unfold pop? at h
  split at h
  · cases h
  · rename_i hd
    cases h
    have hle := s.depth_le
    have hlt : s.depth - 1 < s.slots.toList.length := by simp; omega
    have := List.take_append_getElem hlt
    rw [Nat.sub_add_cancel (by omega)] at this
    simpa [toList] using this.symm

end Stack

end Chip8
