import Chip8.Proofs.Answer
import Chip8.Proofs.Coding
import Chip8.Proofs.Outcome

/-!
# What a word may change

The digits of a word tell which parts of the machine it may change (`Word.MayChange`), in which
registers it may store a value (`Word.MayStore`) and which bytes of memory it may write
(`Word.MayWrite`). A call that runs a word to its end changes nothing else: neither another register,
nor a byte before or after those that are stored, nor an address that is deeper on the stack
(`within_footprint`).
-/

namespace Chip8

namespace Word

/-- Whether a word is `FX0A`, the wait for a key. -/
def IsWait (w : Word) : Prop := w.family = 0xF ∧ w.byte = 0x0A

instance (w : Word) : Decidable w.IsWait := by
  unfold IsWait
  infer_instance

/-- Whether a word may store a value in the register `r`: in `VX`, in the flag register, or in one
of `V0` to `VX`. -/
def MayStore (w : Word) (r : UInt8) : Prop :=
  r = w.x ∧ (w.family ∈ [0x6, 0x7, 0x8, 0xC] ∨ w.family = 0xF ∧ (w.byte = 0x07 ∨ w.byte = 0x0A)) ∨
  r = 0xF ∧ (w.family = 0x8 ∧ w.nibble ∈ [0x4, 0x5, 0x6, 0x7, 0xE] ∨ w.family = 0xD) ∨
  r ≤ w.x ∧ w.family = 0xF ∧ w.byte = 0x65

/-- Whether a word may write the byte at the address `a` where `I` is `index`: `FX33` writes three
bytes, and `FX55` one for each of `V0` to `VX`. -/
def MayWrite (w : Word) (index a : Nat) : Prop :=
  w.family = 0xF ∧ index ≤ a ∧
    (w.byte = 0x33 ∧ a ≤ index + 2 ∨ w.byte = 0x55 ∧ a ≤ index + w.x.toNat)

/-- Whether a word may change a part of the machine. Of the registers, `MayStore` says more; every
word moves the program counter, and takes back a wait for a key. -/
def MayChange (w : Word) : Part → Prop
  | .index => w.family = 0xA ∨ w.family = 0xF ∧ (w.byte = 0x1E ∨ w.byte = 0x29)
  | .stack => w.family = 0x2 ∨ w = 0x00EE
  | .delay => w.family = 0xF ∧ w.byte = 0x15
  | .sound => w.family = 0xF ∧ w.byte = 0x18
  | .keypad => w.IsWait
  | .generator => w.family = 0xC
  | .display => w = 0x00E0 ∨ w.family = 0xD
  | .memory => w.family = 0xF ∧ (w.byte = 0x33 ∨ w.byte = 0x55)
  | .registers | .pc | .awaiting => True

/-! ## The digits of a word and its instruction -/

variable {w : Word} {i : Instruction} {p : Part} {r : UInt8} {index a : Nat}

theorem mayStore_of_targets (hi : Instruction.ofWord? w = some i) (ht : i.Targets r) :
    w.MayStore r := by
  -- The digits that select an instruction in the decoder are those that the tables name.
  unfold Instruction.ofWord? Instruction.arithmetic? Instruction.keys? Instruction.system? at hi
  repeat' split at hi
  all_goals cases hi
  all_goals simp_all [Instruction.Targets, MayStore, ← UInt8.toNat_inj]

theorem mayWrite_of_span (hi : Instruction.ofWord? w = some i) (ht : i.touches .memory)
    (hle : index ≤ a) (hlt : a < index + i.span) : w.MayWrite index a := by
  unfold Instruction.ofWord? Instruction.arithmetic? Instruction.keys? Instruction.system? at hi
  repeat' split at hi
  all_goals cases hi <;> cases ht
  all_goals simp_all [Instruction.span, MayWrite, ← UInt8.toNat_inj]
  all_goals omega

theorem mayChange_of_touches (hi : Instruction.ofWord? w = some i) (ht : i.touches p) :
    w.MayChange p := by
  unfold Instruction.ofWord? Instruction.arithmetic? Instruction.keys? Instruction.system? at hi
  repeat' split at hi
  all_goals cases hi <;> cases p <;> cases ht
  all_goals simp_all [MayChange, IsWait, ← UInt8.toNat_inj]

theorem isWait_iff (hi : Instruction.ofWord? w = some i) : w.IsWait ↔ i = .awaitKey w.x := by
  constructor
  · rintro ⟨hf, hb⟩
    have hword : Instruction.ofWord? w = some (.awaitKey w.x) := by
      simp [Instruction.ofWord?, Instruction.system?, hf, hb]
    exact Option.some_inj.mp (hi.symm.trans hword)
  · rintro rfl
    exact mayChange_of_touches (p := .keypad) hi rfl

end Word

namespace Work

variable {m m' : Machine} {i : Instruction} {a : Nat}

/-- Of memory, an instruction that ends has changed only bytes that it covers. -/
theorem covers_of_byteAt (hr : i.effect.run m = .ok () m') (ho : ∀ o ∈ i.operands, o.Fits)
    (ha : m'.memory.byteAt a ≠ m.memory.byteAt a) :
    i.touches .memory ∧ m.index.toNat ≤ a ∧ a < m.index.toNat + i.span := by
  cases i with
  | decimal x =>
    have hx := Operand.toNat_lt_of_fits (ho _ (.head _))
    have hfit := Answers.fits_of_ok (.storeDecimal hx) hr
    cases (run_storeDecimal hx hfit).symm.trans hr
    exact ⟨rfl, Memory.covers_of_byteAt_overlay hfit ha⟩
  | store x =>
    have hx := Operand.toNat_lt_of_fits (ho _ (.head _))
    have hfit := Answers.fits_of_ok (.storeRegisters hx) hr
    have hlength : (m.registers.toList.take (x.toNat + 1)).length = x.toNat + 1 := by
      simp
      omega
    cases (run_storeRegisters hx hfit).symm.trans hr
    have hcovers := Memory.covers_of_byteAt_overlay (by rwa [hlength]) ha
    rw [hlength] at hcovers
    exact ⟨rfl, hcovers⟩
  | _ =>
    have hm : m'.memory = m.memory := (keeps_part .memory (by rfl)).of_ok hr
    rw [hm] at ha
    exact absurd rfl ha

end Work

namespace Machine

variable {m m' : Machine} {c : Call} {w : Word} {i : Instruction}

/-- The machine `m'`, which the word `w` leaves of `m`, differs from it within the footprint of the
word. -/
structure WithinFootprint (m : Machine) (w : Word) (m' : Machine) : Prop where
  parts : ∀ p : Part, p.content m' ≠ p.content m → w.MayChange p
  registers : ∀ r, m'.register? r ≠ m.register? r → w.MayStore r
  memory : ∀ a, m'.memory.byteAt a ≠ m.memory.byteAt a → w.MayWrite m.index.toNat a
  /-- The addresses that are on the stack before a call stay there. -/
  pushed : w.family = 0x2 → m'.stack.toList = m.stack.toList ++ [m.pc + 2]
  /-- All but the newest address stay on the stack in a return. -/
  popped : w = 0x00EE → m.stack.toList = m'.stack.toList ++ [m'.pc]
  /-- A wait that finds no key takes none and stores none. -/
  idle : w.IsWait → m.keypad.pressed = [] → m'.keypad = m.keypad ∧ m'.registers = m.registers
  /-- A wait is pending after such a word alone, whatever was pending before. -/
  awaiting : m'.awaiting = if w.IsWait ∧ m.keypad.pressed = [] then some w.x else none
  dialect : m'.dialect = m.dialect
  mode : m'.mode = m.mode

/-! ## The effect of a word -/

theorem mayChange_of_content (hi : Instruction.ofWord? w = some i)
    (hr : i.effect.run m = .ok () m') {p : Part} (hp : p.content m' ≠ p.content m) :
    w.MayChange p := by
  refine Word.mayChange_of_touches hi ?_
  cases ht : i.touches p with
  | true => rfl
  | false => exact absurd ((Work.keeps_part p ht).of_ok hr) hp

theorem mayStore_of_register (hi : Instruction.ofWord? w = some i)
    (hr : i.effect.run m = .ok () m') {r : UInt8} (hne : m'.register? r ≠ m.register? r) :
    w.MayStore r := by
  by_cases ht : i.Targets r
  · exact Word.mayStore_of_targets hi ht
  · exact absurd ((Work.keeps_register ht).of_ok hr) hne

theorem mayWrite_of_byteAt (hi : Instruction.ofWord? w = some i) (hr : i.effect.run m = .ok () m')
    {a : Nat} (ha : m'.memory.byteAt a ≠ m.memory.byteAt a) : w.MayWrite m.index.toNat a := by
  obtain ⟨ht, hle, hlt⟩ := Work.covers_of_byteAt hr (Instruction.fits_of_ofWord? hi) ha
  exact Word.mayWrite_of_span hi ht hle hlt

theorem idle_of_isWait (hi : Instruction.ofWord? w = some i) (hr : i.effect.run m = .ok () m')
    (hwait : w.IsWait) (hk : m.keypad.pressed = []) :
    m' = { m with pc := m.pc - 2, awaiting := some w.x } := by
  cases (Word.isWait_iff hi).mp hwait
  rw [Instruction.effect, Work.run_pollKey_of_none (Keypad.takeFirst?_eq_none_iff.mpr hk)] at hr
  cases hr
  rfl

theorem awaiting_of_word (hi : Instruction.ofWord? w = some i) (hm : m.awaiting = none)
    (hr : i.effect.run m = .ok () m') :
    m'.awaiting = if w.IsWait ∧ m.keypad.pressed = [] then some w.x else none := by
  by_cases hidle : w.IsWait ∧ m.keypad.pressed = []
  · rw [if_pos hidle, idle_of_isWait hi hr hidle.1 hidle.2]
  · rw [if_neg hidle]
    cases hx : m'.awaiting with
    | none => rfl
    | some x =>
      obtain ⟨rfl, hnone, -⟩ := Work.awaiting_of_effect hm (Work.left_of_ok hr) hx
      have hwait : w.IsWait := Word.mayChange_of_touches (p := .keypad) hi rfl
      exact absurd ⟨hwait, Keypad.takeFirst?_eq_none_iff.mp hnone⟩ hidle

/-- **Words stay within their footprint.** A call that fetches a word or is given one, and runs it to
its end, changes nothing of the machine that the word may not change. -/
theorem within_footprint (m : Machine) (c : Call) (w : Word) (hw : m.word? c = some w)
    (hok : (m.call c).result = .ok c.reply) : m.WithinFootprint w (m.call c).machine := by
  obtain ⟨i, hi, hperforms⟩ := performs_of_word hw hok
  have hr := hperforms.run_effect
  have hpc : (m.ready c).pc = m.pc + 2 := by rw [ready_of_word hw]
  generalize (m.call c).machine = m' at hr ⊢
  exact {
    parts := by
      intro p hp
      cases p with
      | registers | pc | awaiting => trivial
      | _ => exact mayChange_of_content hi hr hp
    registers := fun r => mayStore_of_register hi hr
    memory := fun a => mayWrite_of_byteAt (m := m.ready c) hi hr
    pushed := by
      intro hf
      have hcall : Instruction.ofWord? w = some (.call w.address) := by
        simp [Instruction.ofWord?, hf]
      cases hi.symm.trans hcall
      rw [Work.toList_of_call hr, hpc]
      rfl
    popped := by
      rintro rfl
      cases hi
      exact Work.toList_of_ret (m := m.ready c) hr
    idle := by
      intro hwait hk
      rw [idle_of_isWait (m := m.ready c) hi hr hwait hk]
      exact ⟨rfl, rfl⟩
    awaiting := awaiting_of_word (m := m.ready c) hi rfl hr
    dialect := (Work.keeps_dialect i).of_ok (m := m.ready c) hr
    mode := (Work.keeps_mode i).of_ok (m := m.ready c) hr }

/-- With a wait for a key pending, `V5` is stored in decimal, and another wait begins. -/
theorem within_footprint_waits :
    let m : Machine := { initial {} (Generator.ofSeed 0) with index := 0x300, awaiting := some 2 }
    (m.word? (.stepWith 0xF533) = some 0xF533 ∧
      (m.call (.stepWith 0xF533)).result = .ok .done ∧
      m.WithinFootprint 0xF533 (m.call (.stepWith 0xF533)).machine ∧
      (m.call (.stepWith 0xF533)).machine.awaiting = none) ∧
    ((m.call (.stepWith 0xF50A)).result = .ok .done ∧
      (m.call (.stepWith 0xF50A)).machine.awaiting = some 5) := by
  intro m
  have hdecimal := within_footprint m (.stepWith 0xF533) 0xF533 rfl rfl
  have hwait := within_footprint m (.stepWith 0xF50A) 0xF50A rfl rfl
  exact ⟨⟨rfl, rfl, hdecimal, hdecimal.awaiting⟩, rfl, hwait.awaiting⟩

end Machine

end Chip8
