import Chip8.Fault

/-!
# The keypad

Sixteen keys, each pressed or not. A key number above fifteen names no key: it cannot be set and
is never pressed.
-/

namespace Chip8

/-- The sixteen keys, `true` for pressed. -/
structure Keypad where
  keys : Vector Bool 16
  deriving DecidableEq

namespace Keypad

/-- The keypad with no key pressed. -/
def released : Keypad := ⟨Vector.replicate 16 false⟩

/-- Whether the key `k` is pressed. -/
def isPressed (p : Keypad) (k : UInt8) : Bool := p.keys[k.toNat]?.getD false

/-- The keypad with the key `k` pressed or released; a number that names no key is refused. -/
def set (p : Keypad) (k : UInt8) (pressed : Bool) : Except Fault Keypad :=
  if h : k.toNat < 16 then .ok ⟨p.keys.set k.toNat pressed⟩ else .error (.noSuchKey k)

/-- The numbers of the pressed keys, ascending. -/
def pressed (p : Keypad) : List UInt8 :=
  ((List.range 16).map UInt8.ofNat).filter p.isPressed

/-- The lowest pressed key, and the keypad with that key released. -/
def takeFirst? (p : Keypad) : Option (UInt8 × Keypad) :=
  p.pressed.head?.map fun k => (k, ⟨p.keys.setIfInBounds k.toNat false⟩)

/-! ## Which keys are pressed -/

theorem mem_pressed {p : Keypad} {k : UInt8} : k ∈ p.pressed ↔ p.isPressed k = true := by
  unfold pressed
  rw [List.mem_filter]
  constructor
  · exact fun h => h.2
  · intro h
    refine ⟨?_, h⟩
    rw [List.mem_map]
    refine ⟨k.toNat, ?_, by simp⟩
    rw [List.mem_range]
    apply Decidable.byContradiction
    intro hk
    simp [isPressed, hk] at h

theorem isPressed_set {p q : Keypad} {k : UInt8} {b : Bool} (h : p.set k b = .ok q) (j : UInt8) :
    q.isPressed j = if j = k then b else p.isPressed j := by
  unfold set at h
  split at h
  · rename_i hk
    cases h
    unfold isPressed
    by_cases hj : j = k
    · subst hj; simp [hk]
    · have : k.toNat ≠ j.toNat := fun h => hj (UInt8.toNat_inj.mp h.symm)
      simp [hj, this]
  · cases h

theorem isPressed_released (k : UInt8) : released.isPressed k = false := by
  unfold isPressed released
  by_cases hlt : k.toNat < 16 <;> simp [hlt]

theorem lt_of_isPressed {p : Keypad} {k : UInt8} (h : p.isPressed k = true) : k < 16 := by
  apply Decidable.byContradiction
  intro hk
  have hle : 16 ≤ k.toNat := Nat.le_of_not_lt hk
  have hnone : p.keys[k.toNat]? = none := Vector.getElem?_eq_none hle
  rw [isPressed, hnone] at h
  cases h

/-! ## Which key is taken -/

theorem pairwise_pressed (p : Keypad) : p.pressed.Pairwise (· < ·) :=
  List.Pairwise.filter _ (by decide)

/-- The key that is taken is the lowest pressed one, and it alone is released. -/
theorem of_takeFirst? {p q : Keypad} {k : UInt8} (h : p.takeFirst? = some (k, q)) :
    p.isPressed k = true ∧ (∀ j, p.isPressed j = true → k ≤ j) ∧
      ∀ j, q.isPressed j = (p.isPressed j && j != k) := by
  obtain ⟨i, hi, hq⟩ := Option.map_eq_some_iff.mp h
  cases hq
  obtain ⟨ks, hks⟩ := List.head?_eq_some_iff.mp hi
  have hk : p.isPressed k = true := mem_pressed.mp (hks ▸ List.mem_cons_self)
  refine ⟨hk, fun j hj => ?_, fun j => ?_⟩
  · have hlt := p.pairwise_pressed
    have hmem := mem_pressed.mpr hj
    rw [hks] at hlt hmem
    rcases List.mem_cons.mp hmem with rfl | hmem
    · exact UInt8.le_refl j
    · exact UInt8.le_of_lt (List.rel_of_pairwise_cons hlt hmem)
  · unfold isPressed
    by_cases hj : j = k
    · subst hj
      have hlt : j.toNat < 16 := lt_of_isPressed hk
      simp [hlt]
    · have hne : k.toNat ≠ j.toNat := fun h => hj (UInt8.toNat_inj.mp h.symm)
      simp [hj, hne]

theorem isSome_takeFirst? {p : Keypad} {k : UInt8} (h : p.isPressed k = true) :
    p.takeFirst?.isSome := by
  unfold takeFirst?
  cases hp : p.pressed with
  | nil =>
    have hmem := mem_pressed.mpr h
    rw [hp] at hmem
    cases hmem
  | cons j js => rfl

theorem takeFirst?_eq_none_iff {p : Keypad} : p.takeFirst? = none ↔ p.pressed = [] := by
  rw [takeFirst?, Option.map_eq_none_iff, List.head?_eq_none_iff]

theorem pressed_eq_nil_iff {p : Keypad} : p.pressed = [] ↔ ∀ k, p.isPressed k = false := by
  rw [List.eq_nil_iff_forall_not_mem]
  simp only [mem_pressed, Bool.not_eq_true]

end Keypad

end Chip8
