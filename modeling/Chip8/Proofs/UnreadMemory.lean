import Chip8.Proofs.Lockstep
import Mathlib.Data.Set.Defs

/-!
# Bytes that are not read

A machine reads memory in two ways: a step fetches the word at the program counter, and a drawing
and a register load read from `I` on (`Machine.Reads`). Storing registers or digits reads nothing,
and neither does a step that polls for a key. So on two machines that differ in the bytes of a set
`D` of addresses alone, a run which reads none of these comes to the same, and the machines differ
in bytes of `D` alone at every moment (`unread_bytes_free`). Writes may well go to `D`: they lay the
same bytes over both memories.
-/

namespace Chip8

/-! ## Memories that agree outside of some addresses -/

namespace Memory

variable {D : Set Nat} {m m' : Memory} {a n : Nat}

/-- The memories hold the same bytes at addresses that are not in `D`. -/
def AgreeOutside (D : Set Nat) (m m' : Memory) : Prop := ∀ k, k ∉ D → m'.byteAt k = m.byteAt k

/-- An access to `n` bytes from the address `a` on goes through and covers the address `k`. -/
def Covers (a n k : Nat) : Prop := a + n ≤ size ∧ a ≤ k ∧ k < a + n

instance (a n k : Nat) : Decidable (Covers a n k) := by
  unfold Covers
  infer_instance

theorem AgreeOutside.setByte (h : AgreeOutside D m m') (a : Nat) (b : UInt8) :
    AgreeOutside D (m.setByte a b) (m'.setByte a b) := by
  intro k hk
  rw [byteAt_setByte, byteAt_setByte, h k hk]

theorem AgreeOutside.overlay (h : AgreeOutside D m m') (a : Nat) (bs : List UInt8) :
    AgreeOutside D (m.overlay a bs) (m'.overlay a bs) := by
  induction bs generalizing m m' a with
  | nil => exact h
  | cons b bs ih => exact ih (h.setByte a b) (a + 1)

theorem AgreeOutside.read_eq (h : AgreeOutside D m m') (hD : ∀ k ∈ D, ¬ Covers a n k) :
    m'.read a n = m.read a n := by
  unfold Memory.read
  by_cases hfit : a + n ≤ size
  · rw [check_of_le hfit]
    refine congrArg Except.ok (List.map_congr_left fun k hk => h _ fun hmem => ?_)
    have hlt := List.mem_range.mp hk
    exact hD _ hmem ⟨hfit, by omega, by omega⟩
  · rw [check_of_lt (Nat.lt_of_not_le hfit)]
    rfl

theorem AgreeOutside.word_eq (h : AgreeOutside D m m') (hD : ∀ k ∈ D, ¬ Covers a 2 k) :
    m'.word a = m.word a := by
  unfold word
  by_cases hfit : a + 2 ≤ size
  · have hhigh : m'.byteAt a = m.byteAt a :=
      h _ fun hmem => hD _ hmem ⟨hfit, by omega, by omega⟩
    have hlow : m'.byteAt (a + 1) = m.byteAt (a + 1) :=
      h _ fun hmem => hD _ hmem ⟨hfit, by omega, by omega⟩
    rw [hhigh, hlow]
  · rw [check_of_lt (Nat.lt_of_not_le hfit)]
    rfl

end Memory

/-- The number of bytes from `I` on that an instruction reads. -/
def Instruction.reads : Instruction → Nat
  | draw _ _ n => n.toNat
  | load x => x.toNat + 1
  | _ => 0

namespace Machine

/-- A call reads the byte at the address `a`: it fetches a word there, or its instruction reads
there. -/
inductive Reads (m : Machine) (c : Call) (a : Nat) : Prop
  | word (hf : m.Fetches c) (ha : Memory.Covers m.pc.toNat 2 a)
  | data {i : Instruction} (hi : m.instruction? c = some i)
      (ha : Memory.Covers m.index.toNat i.reads a)

theorem reads_iff {m : Machine} {c : Call} {a : Nat} :
    m.Reads c a ↔ m.Fetches c ∧ Memory.Covers m.pc.toNat 2 a ∨
      Memory.Covers m.index.toNat ((m.instruction? c).elim 0 Instruction.reads) a := by
  constructor
  · rintro (⟨hf, ha⟩ | ⟨hi, ha⟩)
    · exact .inl ⟨hf, ha⟩
    · rw [hi]
      exact .inr ha
  · rintro (⟨hf, ha⟩ | ha)
    · exact .word hf ha
    · cases hi : m.instruction? c with
      | none =>
        rw [hi] at ha
        exact absurd ha.2.1 (Nat.not_le_of_lt ha.2.2)
      | some i =>
        rw [hi] at ha
        exact .data hi ha

instance (m : Machine) (c : Call) (a : Nat) : Decidable (m.Reads c a) :=
  decidable_of_iff _ reads_iff.symm

/-- The machines differ in the bytes at addresses of `D` alone. -/
def SameOutside (D : Set Nat) (m m' : Machine) : Prop :=
  ∃ memory, m.memory.AgreeOutside D memory ∧ m' = { m with memory := memory }

end Machine

open Machine

variable {D : Set Nat}

theorem Part.common_sameOutside {p : Part} (hp : p ≠ .memory) : p.Common (SameOutside D) where
  same := by
    rintro m _ ⟨memory, -, rfl⟩
    cases p <;> first | rfl | exact absurd rfl hp
  put := by
    rintro m _ v ⟨memory, hagree, rfl⟩
    cases p <;> first | exact ⟨memory, hagree, rfl⟩ | exact absurd rfl hp

/-! ## Instructions -/

namespace Work

theorem sameOutside_overlaid {m m' : Machine} (vs : List UInt8) (h : SameOutside D m m') :
    SameOutside D (m.overlaid vs) (m'.overlaid vs) := by
  obtain ⟨memory, hagree, rfl⟩ := h
  exact ⟨_, hagree.overlay _ _, rfl⟩

/-- The machines differ in the bytes of `D` alone, and `n` bytes from `I` on are none of them. -/
def Unread (D : Set Nat) (n : Nat) (m m' : Machine) : Prop :=
  SameOutside D m m' ∧ ∀ a ∈ D, ¬ Memory.Covers m.index.toNat n a

theorem Unread.common {n : Nat} {p : Part} (hp : p ≠ .memory) (hi : p ≠ .index) :
    p.Common (Unread D n) where
  same h := (Part.common_sameOutside hp).same h.1
  put := by
    rintro m m' v ⟨h, hD⟩
    refine ⟨(Part.common_sameOutside hp).put v h, ?_⟩
    cases p <;> first | exact hD | exact absurd rfl hi

theorem Unread.alike_readBytes (n : Nat) : Alike (Unread D n) (readBytes n) := by
  refine .get_bind (fun {m m'} h => ?_) fun m => .orRefuse _
  obtain ⟨⟨memory, hagree, rfl⟩, hD⟩ := h
  rw [hagree.read_eq hD]

/-- An instruction that reads no byte of `D` comes to the same. -/
theorem match_of_unread {m m' : Machine} (i : Instruction) (h : SameOutside D m m')
    (hD : ∀ a ∈ D, ¬ Memory.Covers m.index.toNat i.reads a) :
    Match (SameOutside D) (i.effect.run m) (i.effect.run m') := by
  have hregisters : Part.registers.Common (SameOutside D) := Part.common_sameOutside nofun
  have hindex : Part.index.Common (SameOutside D) := Part.common_sameOutside nofun
  have hdialect : ∀ {m m' : Machine}, SameOutside D m m' → m.dialect = m'.dialect := by
    rintro m _ ⟨memory, -, rfl⟩
    rfl
  cases i with
  | draw x y n =>
    have hdisplay : Part.display.Common (Unread D n.toNat) := Unread.common nofun nofun
    have halike := Alike.drawSprite (Unread.common nofun nofun) hdisplay.screen hdisplay.put
      (Unread.alike_readBytes n.toNat) x y
    exact (halike m m' ⟨h, hD⟩).mono fun h => h.1
  | load x =>
    have halike := Alike.loadRegisters (Unread.common (D := D) nofun nofun)
      (Unread.alike_readBytes (x.toNat + 1))
    exact (halike m m' ⟨h, hD⟩).mono fun h => h.1
  | decimal x => exact Alike.storeDecimal hregisters hindex sameOutside_overlaid x m m' h
  | store x => exact Alike.storeRegisters hregisters hindex sameOutside_overlaid x m m' h
  | _ =>
    -- The other instructions do not use memory.
    refine alike_effect _ (fun p hp => Part.common_sameOutside ?_) (fun _ => hdialect) m m' h
    rintro rfl
    exact absurd hp Bool.false_ne_true

end Work

namespace Machine

variable {m m' : Machine} {c : Call}

/-! ## A call -/

theorem steady_sameOutside : Steady (SameOutside D) where
  reason := by
    rintro m _ ⟨memory, -, rfl⟩
    rfl
  paused := by
    rintro m _ ⟨memory, -, rfl⟩
    rfl
  halt := by
    rintro m _ f ⟨memory, hagree, rfl⟩
    exact ⟨memory, hagree, rfl⟩
  lastWord := by
    rintro m _ w ⟨memory, hagree, rfl⟩
    exact ⟨memory, hagree, rfl⟩
  awaiting := Part.common_sameOutside nofun
  pc := Part.common_sameOutside nofun

theorem word_of_sameOutside (h : SameOutside D m m') (hD : ∀ a ∈ D, ¬ m.Reads c a)
    (hf : m.Fetches c) : m.memory.word m.pc.toNat = m'.memory.word m'.pc.toNat := by
  obtain ⟨memory, hagree, rfl⟩ := h
  exact (hagree.word_eq fun a ha hcovers => hD a ha (.word hf hcovers)).symm

theorem alike_of_runs (h : SameOutside D m m') (hr : c.runs) (hD : ∀ a ∈ D, ¬ m.Reads c a) :
    Turn.Alike (SameOutside D) (m.call c) (m'.call c) := by
  refine alike_runs_of_match steady_sameOutside h hr (word_of_sameOutside h hD) fun i hi => ?_
  have hready : SameOutside D (m.ready c) (m'.ready c) :=
    steady_sameOutside.ready h fun hstep hx =>
      word_of_sameOutside h hD ⟨hstep, admits_of_instruction? hi, hx⟩
  exact Work.match_of_unread i hready fun a ha hcovers => hD a ha (.data hi hcovers)

theorem alike_load (h : SameOutside D m m') (program : List UInt8) :
    Turn.Alike (SameOutside D) (m.call (.load program)) (m'.call (.load program)) := by
  obtain ⟨memory, hagree, rfl⟩ := h
  rw [call, call, load, load, Memory.load, Memory.load]
  by_cases hfit : program.length ≤ Memory.room
  · rw [if_pos hfit, if_pos hfit]
    exact ⟨rfl, _, hagree.overlay _ _, rfl⟩
  · rw [if_neg hfit, if_neg hfit]
    exact ⟨rfl, memory, hagree, rfl⟩

theorem alike_of_host (h : SameOutside D m m') (hr : c.runs = false) (hone : c.isMany = false) :
    Turn.Alike (SameOutside D) (m.call c) (m'.call c) := by
  cases c with
  | load program => exact alike_load h program
  | _ =>
    obtain ⟨memory, hagree, rfl⟩ := h
    refine alike_host ⟨memory, hagree, rfl⟩ hr hone (fun p hp => Part.common_sameOutside ?_) rfl
      (fun mode => ⟨memory, hagree, rfl⟩) ⟨Memory.initial, fun _ _ => rfl, rfl⟩
    rintro rfl
    cases hp

theorem alike_of_unread (h : SameOutside D m m') (hone : c.isMany = false)
    (hD : ∀ a ∈ D, ¬ m.Reads c a) : Turn.Alike (SameOutside D) (m.call c) (m'.call c) := by
  cases hr : c.runs with
  | true => exact alike_of_runs h hr hD
  | false => exact alike_of_host h hr hone

/-! ## Runs -/

/-- **Bytes that are not read make no difference.** On two machines that differ in the bytes at
addresses of `D` alone, calls answer the same and leave machines that differ in bytes of `D` alone,
if none of them reads such a byte on the first machine. -/
theorem unread_bytes_free (D : Set Nat) (m m' : Machine) (h : SameOutside D m m') (cs : List Call)
    (hD : m.Along (fun m c => ∀ a ∈ D, ¬ m.Reads c a) (m.unroll cs)) :
    List.Forall₂ (Turn.Alike (SameOutside D)) (m.calls cs) (m'.calls cs) :=
  alike_calls (fun h hone hc => alike_of_unread h hone hc) h hD

/-- A program that stores a register over one of two bytes in which the memories differ and loads
one from elsewhere. -/
theorem unread_bytes_free_overwritten :
    let D : Set Nat := {a | a ∈ [0x300, 0x301]}
    let m := ((initial {} (Generator.ofSeed 0)).call
      (.load [0xA3, 0x00, 0xF0, 0x55, 0xA2, 0x00, 0xF0, 0x65])).machine
    let m' := { m with memory := m.memory.overlay 0x300 [7, 8] }
    let cs : List Call := [.step, .tickDelay, .cycle, .setKey 3 true, .step, .step]
    SameOutside D m m' ∧ m.memory.byteAt 0x301 ≠ m'.memory.byteAt 0x301 ∧
      m.Along (fun m c => ∀ a ∈ D, ¬ m.Reads c a) (m.unroll cs) ∧
      List.Forall₂ (Turn.Alike (SameOutside D)) (m.calls cs) (m'.calls cs) := by
  intro D m m' cs
  have h : SameOutside D m m' := by
    refine ⟨_, fun k hk => ?_, rfl⟩
    have hoff : k ∉ [0x300, 0x301] := hk
    rw [Memory.byteAt_overlay _ _ _ _ (by decide), dif_neg]
    simp at hoff ⊢
    omega
  have hD : m.Along (fun m c => ∀ a ∈ [0x300, 0x301], ¬ m.Reads c a) (m.unroll cs) := by
    decide +kernel
  exact ⟨h, by decide +kernel, hD, unread_bytes_free D m m' h cs hD⟩

end Machine

end Chip8
