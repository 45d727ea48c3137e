import Chip8.Proofs.Arithmetic
import Chip8.Proofs.Footprint

/-!
# Where a word leads

The digits of a word and a few parts of the machine tell where the machine goes on after the word
(`Word.next?`): jumps, calls and returns name the place, a wait for a key that finds none stays
where it is, and any other word leads to the one after it, or past that one if it skips
(`Word.Skips`).
Every word that is run to its end leads there, and of two skips on opposite conditions exactly one
skips (`control_flow_exact`).

An instruction takes effect with the program counter past it already, so from there a skip goes two
bytes further, and a wait goes two bytes back (`next?_of_effect`).
-/

namespace Chip8

namespace Word

/-- Whether a word skips the word after it. A value above fifteen is the number of no key, so it is
never among the pressed ones. -/
def Skips (w : Word) (m : Machine) : Prop :=
  w.family = 0x3 ∧ m.value w.x = w.byte ∨
  w.family = 0x4 ∧ m.value w.x ≠ w.byte ∨
  w.family = 0x5 ∧ w.nibble = 0 ∧ m.value w.x = m.value w.y ∨
  w.family = 0x9 ∧ w.nibble = 0 ∧ m.value w.x ≠ m.value w.y ∨
  w.family = 0xE ∧ w.byte = 0x9E ∧ m.value w.x ∈ m.keypad.pressed ∨
  w.family = 0xE ∧ w.byte = 0xA1 ∧ m.value w.x ∉ m.keypad.pressed

instance (w : Word) (m : Machine) : Decidable (w.Skips m) := by
  unfold Skips
  infer_instance

/-- Where the machine goes on after a word that it runs to its end. -/
def next? (w : Word) (m : Machine) : Option Nat :=
  if w.family = 0x1 ∨ w.family = 0x2 then some w.address.toNat
  else if w.family = 0xB then some ((m.value 0).toNat + w.address.toNat)
  else if w = 0x00EE then m.stack.toList.getLast?.map UInt16.toNat
  else if w.IsWait ∧ m.keypad.pressed = [] then some m.pc.toNat
  else if w.Skips m then some ((m.pc.toNat + 4) % 65536)
  else some ((m.pc.toNat + 2) % 65536)

end Word

namespace Instruction

/-- Whether an instruction skips the next one, if it is one that may. -/
def skip? (m : Machine) : Instruction → Option Bool
  | skipEqByte x n => some (m.value x == n)
  | skipNeByte x n => some (m.value x != n)
  | skipEq x y => some (m.value x == m.value y)
  | skipNe x y => some (m.value x != m.value y)
  | skipPressed x => some (m.keypad.isPressed (m.value x))
  | skipReleased x => some (!m.keypad.isPressed (m.value x))
  | _ => none

/-- Where an instruction leaves the program counter of a machine that is past it. -/
def next? (m : Machine) : Instruction → Option UInt16
  | ret => m.stack.toList.getLast?
  | jump a | call a => some a
  | jumpOffset a => some (UInt16.ofNat (m.jumpTarget a))
  | awaitKey _ => some (if m.keypad.pressed = [] then m.pc - 2 else m.pc)
  | i => some (if i.skip? m = some true then m.pc + 2 else m.pc)

/-- The instructions skip on opposite conditions of the same operands. -/
inductive Opposes : Instruction → Instruction → Prop
  | byte (x n : UInt8) : Opposes (skipEqByte x n) (skipNeByte x n)
  | register (x y : UInt8) : Opposes (skipEq x y) (skipNe x y)
  | key (x : UInt8) : Opposes (skipPressed x) (skipReleased x)

end Instruction

/-- The machine past a word. -/
def Machine.past (m : Machine) (w : Word) : Machine :=
  { m with lastWord := some w, awaiting := none, pc := m.pc + 2 }

/-- Both words are run to their end, and one of them skips while the other does not. -/
def Machine.OneSkips (m : Machine) (w w' : Word) : Prop :=
  let t := m.call (.stepWith w)
  let t' := m.call (.stepWith w')
  t.result = .ok .done ∧ t'.result = .ok .done ∧
    (t.machine.pc = m.pc + 4 ∧ t'.machine.pc = m.pc + 2 ∨
      t.machine.pc = m.pc + 2 ∧ t'.machine.pc = m.pc + 4)

/-! ## The effect of an instruction -/

namespace Work

variable {m m' : Machine} {i : Instruction}

theorem run_of_skip? {b : Bool} (ho : ∀ o ∈ i.operands, o.Fits) (hs : i.skip? m = some b) :
    i.effect.run m = .ok () (if b then { m with pc := m.pc + 2 } else m) := by
  have hlt : ∀ r, .register r ∈ i.operands → r.toNat < 16 :=
    fun r hr => Operand.toNat_lt_of_fits (ho _ hr)
  have hread : ∀ r, .register r ∈ i.operands → (register r).run m = .ok (m.value r) m := by
    intro r hr
    rw [run_register_of_lt (hlt r hr), Machine.value_of_lt (hlt r hr)]
  cases i with
  | skipEqByte x n | skipNeByte x n | skipPressed x | skipReleased x =>
    cases hs
    rw [Instruction.effect, EStateM.run_bind, hread x (.head _)]
    rfl
  | skipEq x y | skipNe x y =>
    cases hs
    rw [Instruction.effect, skipBy, EStateM.run_bind, hread x (.head _)]
    dsimp only
    rw [EStateM.run_bind, hread y (.tail _ (.head _))]
    rfl
  | _ => cases hs

/-- The program counter is left where the instruction says. -/
theorem next?_of_effect (ho : ∀ o ∈ i.operands, o.Fits) (hr : i.effect.run m = .ok () m') :
    i.next? m = some m'.pc := by
  cases i with
  | jump a =>
    cases hr
    rfl
  | call a =>
    rw [Instruction.effect, run_enterCall] at hr
    split at hr
    · cases hr
    · cases hr
      rfl
  | ret =>
    rw [Instruction.next?, toList_of_ret hr, List.getLast?_concat]
  | jumpOffset a =>
    rw [Instruction.effect, run_jumpOffset] at hr
    split at hr
    · cases hr
    · split at hr
      · cases hr
      · cases hr
        rfl
  | awaitKey x =>
    rw [Instruction.effect] at hr
    cases hk : m.keypad.takeFirst? with
    | none =>
      rw [run_pollKey_of_none hk] at hr
      cases hr
      rw [Instruction.next?, if_pos (Keypad.takeFirst?_eq_none_iff.mp hk)]
    | some found =>
      have hpressed : m.keypad.pressed ≠ [] := by
        rw [Ne, ← Keypad.takeFirst?_eq_none_iff, hk]
        exact Option.some_ne_none found
      rw [run_pollKey_of_some hk] at hr
      have hput : Keeps Machine.pc (put x found.1) := .put (fun _ _ _ => rfl) _
      have hkept : m'.pc = m.pc := hput.of_ok (m := { m with keypad := found.2 }) hr
      rw [Instruction.next?, if_neg hpressed, hkept]
  | skipEqByte | skipNeByte | skipEq | skipNe | skipPressed | skipReleased =>
    cases (run_of_skip? ho rfl).symm.trans hr
    simp only [Instruction.next?, Instruction.skip?, Option.some_inj]
    split <;> rfl
  | _ =>
    have hkept : m'.pc = m.pc := (keeps_part .pc (by rfl)).of_ok hr
    rw [hkept]
    rfl

end Work

/-! ## The digits of a word and its instruction -/

namespace Word

variable {w : Word} {m : Machine} {i : Instruction}

theorem skip?_of_ofWord? (hi : Instruction.ofWord? w = some i) :
    i.skip? m = some true ↔ w.Skips m := by
  unfold Instruction.ofWord? Instruction.arithmetic? Instruction.keys? Instruction.system? at hi
  repeat' split at hi
  all_goals cases hi
  all_goals simp_all [Instruction.skip?, Skips, Keypad.mem_pressed, ← UInt8.toNat_inj]

/-- Where no place is named, the digits and the instruction tell a skip from the next word alike. -/
theorem skipped_of_ofWord? (hi : Instruction.ofWord? w = some i) :
    (if w.Skips m then some ((m.pc.toNat + 4) % 65536) else some ((m.pc.toNat + 2) % 65536)) =
      some (if i.skip? (m.past w) = some true then (m.past w).pc + 2 else (m.past w).pc).toNat := by
  have hskip : i.skip? (m.past w) = some true ↔ w.Skips m := skip?_of_ofWord? hi
  have hpast : (m.past w).pc.toNat = (m.pc.toNat + 2) % 65536 := UInt16.toNat_add _ _
  have hskipped : ((m.past w).pc + 2).toNat = (m.pc.toNat + 4) % 65536 := by
    rw [UInt16.toNat_add, hpast, Nat.mod_add_mod]
    rfl
  by_cases hs : w.Skips m
  · rw [if_pos hs, if_pos (hskip.mpr hs), hskipped]
  · rw [if_neg hs, if_neg (fun h => hs (hskip.mp h)), hpast]

theorem toNat_jumpTarget (m : Machine) (w : Word) :
    (UInt16.ofNat ((m.past w).jumpTarget w.address)).toNat =
      (m.value 0).toNat + w.address.toNat := by
  have haddress : w.address.toNat < 4096 := Operand.address_lt_of_fits (Instruction.fits_address w)
  have htarget := (m.past w).jumpTarget_le haddress
  rw [Machine.value_of_lt (by decide)]
  exact UInt16.toNat_ofNat_of_lt' (by rw [UInt16.size]; omega)

theorem next?_of_ofWord? (hi : Instruction.ofWord? w = some i) :
    w.next? m = (i.next? (m.past w)).map UInt16.toNat := by
  have hplain := skipped_of_ofWord? (m := m) hi
  have hjump := toNat_jumpTarget m w
  have hback : (m.past w).pc - 2 = m.pc := UInt16.add_sub_cancel _ _
  have hkeypad : (m.past w).keypad = m.keypad := rfl
  have hstack : (m.past w).stack = m.stack := rfl
  have hwait : ∀ x, Instruction.skip? (m.past w) (.awaitKey x) = none := fun _ => rfl
  have hret : w.family.toNat ≠ 0 → w ≠ 0x00EE := by
    rintro hf rfl
    exact hf rfl
  unfold Instruction.ofWord? Instruction.arithmetic? Instruction.keys? Instruction.system? at hi
  repeat' split at hi
  all_goals cases hi
  all_goals simp_all [next?, Instruction.next?, IsWait, ← UInt8.toNat_inj]
  -- A wait is left, which names a place only if no key is pressed.
  split <;> rfl

end Word

namespace Instruction.Opposes

variable {m : Machine} {i i' : Instruction}

theorem skip? (h : Opposes i i') : ∃ b, i.skip? m = some b ∧ i'.skip? m = some !b := by
  cases h with
  | byte x n => exact ⟨m.value x == n, rfl, rfl⟩
  | register x y => exact ⟨m.value x == m.value y, rfl, rfl⟩
  | key x => exact ⟨m.keypad.isPressed (m.value x), rfl, rfl⟩

end Instruction.Opposes

namespace Machine

variable {m : Machine} {w : Word} {i : Instruction} {b : Bool}

theorem stepWith_of_skip? (hi : Instruction.ofWord? w = some i) (hs : i.skip? m = some b)
    (hm : m.mode.reason? = none) :
    (m.call (.stepWith w)).result = .ok .done ∧
      (m.call (.stepWith w)).machine.pc = if b then m.pc + 4 else m.pc + 2 := by
  have hadmits : m.admits (.stepWith w) := decide_eq_true hm
  have hinstruction : m.instruction? (.stepWith w) = some i := by
    rw [instruction?, if_pos hadmits]
    exact hi
  have hready : i.skip? (m.ready (.stepWith w)) = some b := by
    cases i <;> exact hs
  have hrun := Work.run_of_skip? (Instruction.fits_of_ofWord? hi) hready
  obtain ⟨hresult, hmachine⟩ := call_of_effect hinstruction hrun
  refine ⟨hresult, ?_⟩
  rw [hmachine]
  cases b with
  | false => rfl
  | true => exact UInt16.add_assoc m.pc 2 2

/-- **Control flow.** A word that a call fetches or is given, and runs to its end, leads where its
digits say; a value above fifteen is never the number of a pressed key there. Of two words that skip
on opposite conditions, a machine that is not halted runs either to its end, and skips with one of
them only. -/
theorem control_flow_exact (m : Machine) :
    (∀ c w, m.word? c = some w → (m.call c).result = .ok c.reply →
      w.next? m = some (m.call c).machine.pc.toNat) ∧
    (∀ k ∈ m.keypad.pressed, k.toNat < 16) ∧
    ∀ w w' i i', Instruction.ofWord? w = some i → Instruction.ofWord? w' = some i' →
      i.Opposes i' → m.mode.reason? = none → m.OneSkips w w' := by
  refine ⟨?_, ?_, ?_⟩
  · intro c w hw hok
    obtain ⟨i, hi, hperforms⟩ := performs_of_word hw hok
    have hrun : i.effect.run (m.past w) = .ok () (m.call c).machine := by
      rw [past, ← ready_of_word hw]
      exact hperforms.run_effect
    rw [Word.next?_of_ofWord? hi, Work.next?_of_effect (Instruction.fits_of_ofWord? hi) hrun]
    rfl
  · intro k hk
    exact UInt8.lt_iff_toNat_lt.mp (Keypad.lt_of_isPressed (Keypad.mem_pressed.mp hk))
  · intro w w' i i' hi hi' hopposes hm
    obtain ⟨b, hs, hs'⟩ := hopposes.skip? (m := m)
    obtain ⟨hok, hpc⟩ := stepWith_of_skip? hi hs hm
    obtain ⟨hok', hpc'⟩ := stepWith_of_skip? hi' hs' hm
    refine ⟨hok, hok', ?_⟩
    rw [hpc, hpc']
    cases b with
    | true => exact .inl ⟨rfl, rfl⟩
    | false => exact .inr ⟨rfl, rfl⟩

/-- At the end of the addresses that a program counter has, with a wait pending: `V3` is the number
of no key, so the word that skips unless it is pressed goes on at the address two. -/
theorem control_flow_exact_outside_pad :
    let m : Machine :=
      { initial {} (Generator.ofSeed 0) with
        registers := (Vector.replicate 16 0).setIfInBounds 3 20, pc := 0xFFFE, awaiting := some 7 }
    (m.word? (.stepWith 0xE3A1) = some 0xE3A1 ∧ (m.call (.stepWith 0xE3A1)).result = .ok .done ∧
      (m.call (.stepWith 0xE3A1)).machine.pc.toNat = 2) ∧
    (Instruction.Opposes (.skipPressed 3) (.skipReleased 3) ∧ m.mode.reason? = none ∧
      m.OneSkips 0xE39E 0xE3A1) := by
  intro m
  obtain ⟨hnext, -, hskips⟩ := control_flow_exact m
  have hone : m.OneSkips 0xE39E 0xE3A1 := hskips _ _ _ _ (by decide) (by decide) (.key 3) rfl
  have hpc := hnext (.stepWith 0xE3A1) 0xE3A1 rfl hone.2.1
  have htwo : Word.next? 0xE3A1 m = some 2 := by decide +kernel
  exact ⟨⟨rfl, hone.2.1, Option.some_inj.mp (hpc.symm.trans htwo)⟩, .key 3, rfl, hone⟩

end Machine

end Chip8
