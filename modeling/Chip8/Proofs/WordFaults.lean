import Chip8.Proofs.Safety

/-!
# Which words fail

Whether a word fails on a machine, and with which fault, can be told from its digits and from three
parts of the machine: the depth of the stack, `V0` and `I` (`Word.FailsOn`). The digits say the same
as the instruction that the word encodes and its fault (`failsOn_iff`). So a step on a machine that
is not halted fails exactly if there is no word at the program counter, or if that word fails, while
a wait for a key never fails (`failure_exact`).
-/

namespace Chip8

/-- The word `w` fails on the machine `m` with a fault. -/
inductive Word.FailsOn (w : Word) (m : Machine) : Fault → Prop
  /-- The word encodes no instruction. -/
  | unsupported (hw : w.IsGap) : FailsOn w m (.unsupported w)
  /-- `00EE`: there is no address to return to. -/
  | stackUnderflow (hw : w = 0x00EE) (hd : m.stack.depth = 0) : FailsOn w m .stackUnderflow
  /-- `2NNN`: there is no slot for another address. -/
  | stackOverflow (hw : w.family = 0x2) (hd : 16 ≤ m.stack.depth) : FailsOn w m .stackOverflow
  /-- `BNNN`: the sum of `V0` and `NNN` is not an address of twelve bits. -/
  | jump (hw : w.family = 0xB) (ht : 0xFFF < m.jumpTarget w.address) :
      FailsOn w m (.outOfRange (UInt32.ofNat (m.jumpTarget w.address)))
  /-- `DXYN`: the `N` rows of the sprite reach past the end of memory. -/
  | sprite (hw : w.family = 0xD) (he : 4096 < m.index.toNat + w.nibble.toNat) :
      FailsOn w m (.outOfRange (UInt32.ofNat (m.index.toNat + w.nibble.toNat - 1)))
  /-- `FX33`: the three digits do. -/
  | decimal (hw : w.family = 0xF) (hb : w.byte = 0x33) (he : 4096 < m.index.toNat + 3) :
      FailsOn w m (.outOfRange (UInt32.ofNat (m.index.toNat + 2)))
  /-- `FX55` and `FX65`: the registers `V0` to `VX` do. -/
  | registers (hw : w.family = 0xF) (hb : w.byte = 0x55 ∨ w.byte = 0x65)
      (he : 4096 < m.index.toNat + w.x.toNat + 1) :
      FailsOn w m (.outOfRange (UInt32.ofNat (m.index.toNat + w.x.toNat)))

/-- The fault of a word on a machine, from the instruction that the word encodes. -/
def Word.fault? (w : Word) (m : Machine) : Option Fault :=
  match Instruction.ofWord? w with
  | some i => i.refusal? m
  | none => some (.unsupported w)

/-- The call `c`, which runs the word `w` on the machine `m`, fails exactly as the word does. If the
word does not fail, the call succeeds and leaves the mode. -/
structure Machine.AnswersWord (m : Machine) (c : Call) (w : Word) : Prop where
  fails : ∀ stop, (m.call c).result = .error stop ↔ ∃ f, stop = .fault f ∧ w.FailsOn m f
  succeeds : (∀ f, ¬ w.FailsOn m f) →
    (m.call c).result = .ok c.reply ∧ (m.call c).machine.mode = m.mode

/-! ## The digits of a word and its instruction -/

namespace Word

variable {w : Word} {m : Machine} {f : Fault} {i : Instruction}

theorem refusal?_eq_some {a n : Nat} :
    Memory.refusal? a n = some f ↔ 4096 < a + n ∧ f = .outOfRange (UInt32.ofNat (a + n - 1)) := by
  unfold Memory.refusal? Memory.size
  split
  · simp [*, eq_comm]
  · simp [*]

theorem fault?_of_failsOn (h : w.FailsOn m f) : w.fault? m = some f := by
  have hfull : 16 ≤ m.stack.depth → m.stack.depth = 16 := Nat.le_antisymm m.stack.depth_le
  unfold fault?
  cases h with
  | unsupported hw => simp only [Instruction.ofWord?_eq_none_iff.mpr hw]
  | stackUnderflow hw hd =>
    subst hw
    exact if_pos hd
  | stackOverflow hw hd => simp [Instruction.ofWord?, hw, Instruction.refusal?, hfull hd]
  | jump hw ht => simp [Instruction.ofWord?, hw, Instruction.refusal?, ht]
  | sprite hw he =>
    simp [Instruction.ofWord?, hw, Instruction.refusal?, Instruction.span, refusal?_eq_some, he]
  | decimal hw hb he =>
    simp [Instruction.ofWord?, hw, Instruction.system?, hb, Instruction.refusal?, Instruction.span,
      refusal?_eq_some, he]
  | registers hw hb he =>
    rcases hb with hb | hb <;>
      simp [Instruction.ofWord?, hw, Instruction.system?, hb, Instruction.refusal?,
        Instruction.span, refusal?_eq_some, ← Nat.add_assoc, he]

theorem failsOn_registers {n x : UInt8} (hn : n = 0x55 ∨ n = 0x65) (hx : x < 16)
    (h : Memory.refusal? m.index.toNat (x.toNat + 1) = some f) :
    (Instruction.byteWord 0xF x n).FailsOn m f := by
  obtain ⟨hfamily, hregister, hbyte⟩ := Instruction.parts_byteWord (f := 0xF) (n := n) (by decide) hx
  obtain ⟨he, rfl⟩ := refusal?_eq_some.mp h
  have hfails := FailsOn.registers (m := m) (UInt8.toNat_inj.mp hfamily) (by rwa [hbyte])
  rw [hregister] at hfails
  exact hfails he

theorem failsOn_of_refusal? (hi : Instruction.ofWord? w = some i) (h : i.refusal? m = some f) :
    w.FailsOn m f := by
  have hword := Instruction.encode_of_ofWord? hi
  have hfits := Instruction.fits_of_ofWord? hi
  subst hword
  cases i with
  | ret =>
    simp only [Instruction.refusal?] at h
    split at h <;> cases h
    exact .stackUnderflow rfl ‹_›
  | call a =>
    obtain ⟨hfamily, -⟩ := Instruction.parts_addressWord (f := 0x2) (by decide) (hfits _ (.head _))
    simp only [Instruction.refusal?] at h
    split at h <;> cases h
    exact .stackOverflow (UInt8.toNat_inj.mp hfamily) (Nat.le_of_eq (Eq.symm ‹_›))
  | jumpOffset a =>
    obtain ⟨hfamily, haddress⟩ :=
      Instruction.parts_addressWord (f := 0xB) (by decide) (hfits _ (.head _))
    simp only [Instruction.refusal?] at h
    split at h <;> cases h
    have hjump := FailsOn.jump (m := m) (UInt8.toNat_inj.mp hfamily)
    rw [haddress] at hjump
    exact hjump ‹_›
  | draw x y n =>
    have hn := Instruction.rows_lt_of_ofWord? hi
    obtain ⟨hfamily, -, -, hnibble⟩ := Instruction.parts_digitsWord (f := 0xD) (by decide)
      (hfits _ (.head _)) (hfits _ (.tail _ (.head _))) hn
    obtain ⟨he, rfl⟩ := refusal?_eq_some.mp h
    have hsprite := FailsOn.sprite (m := m) (UInt8.toNat_inj.mp hfamily)
    rw [hnibble] at hsprite
    exact hsprite he
  | decimal x =>
    obtain ⟨hfamily, -, hbyte⟩ :=
      Instruction.parts_byteWord (f := 0xF) (n := 0x33) (by decide) (hfits _ (.head _))
    obtain ⟨he, rfl⟩ := refusal?_eq_some.mp h
    exact .decimal (UInt8.toNat_inj.mp hfamily) hbyte he
  | store x => exact failsOn_registers (.inl rfl) (hfits _ (.head _)) h
  | load x => exact failsOn_registers (.inr rfl) (hfits _ (.head _)) h
  | _ => cases h

/-- **The digits of a word tell its fault.** -/
theorem failsOn_iff : w.FailsOn m f ↔ w.fault? m = some f := by
  refine ⟨fault?_of_failsOn, fun h => ?_⟩
  unfold fault? at h
  cases hi : Instruction.ofWord? w with
  | some i =>
    rw [hi] at h
    exact failsOn_of_refusal? hi h
  | none =>
    rw [hi] at h
    cases h
    exact .unsupported (Instruction.ofWord?_eq_none_iff.mp hi)

end Word

/-! ## The calls that run a word -/

namespace Machine

variable {m : Machine} {c : Call} {w : Word}

theorem refusal?_ready (i : Instruction) (m : Machine) (c : Call) :
    i.refusal? (m.ready c) = i.refusal? m := by
  cases i <;> rfl

/-- A call that runs a word fails with the fault of the word, or it succeeds and leaves the mode. -/
theorem call_of_word (ha : m.admits c) (hw : m.word? c = some w) (hindex : m.index ≤ 0xFFF) :
    (∃ f, w.fault? m = some f ∧ (m.call c).result = .error (.fault f)) ∨
      w.fault? m = none ∧ (m.call c).result = .ok c.reply ∧ (m.call c).machine.mode = m.mode := by
  have hruns : c.runs := by cases c <;> first | rfl | cases ha
  have hinstruction : m.instruction? c = Instruction.ofWord? w := by
    rw [instruction?, if_pos ha, choice?_of_word hw]
  have ho := outcome_call m hruns
  generalize (m.call c).result = r, (m.call c).machine = m' at ho ⊢
  cases ho with
  | refused hm => exact absurd hm (not_halted_of_admits ha)
  | idle hc hm => exact absurd hm (not_paused_of_admits (hc ▸ ha))
  | unfetched _ hnone =>
    rw [hw] at hnone
    cases hnone
  | undecoded _ hword _ hd =>
    rw [hw] at hword
    cases hword
    exact .inl ⟨_, by simp only [Word.fault?, hd], rfl⟩
  | ended hi hr =>
    have hd := hinstruction.symm.trans hi
    have hnone := Work.refusal?_of_ok (m := m.ready c) (Instruction.fits_of_ofWord? hd) hindex hr
    rw [refusal?_ready] at hnone
    exact .inr ⟨by simp only [Word.fault?, hd, hnone], rfl, mode_of_ended hr⟩
  | failed hi hr =>
    have hd := hinstruction.symm.trans hi
    obtain ⟨f, hf, hsome⟩ :=
      Work.refusal?_of_stop (m := m.ready c) (Instruction.fits_of_ofWord? hd) hindex hr
    cases hf
    rw [refusal?_ready] at hsome
    exact .inl ⟨_, by simp only [Word.fault?, hd, hsome], rfl⟩
  | crashed hi hr =>
    -- An instruction of a word that stops has a fault.
    have hd := hinstruction.symm.trans hi
    obtain ⟨f, hf, -⟩ :=
      Work.refusal?_of_stop (m := m.ready c) (Instruction.fits_of_ofWord? hd) hindex hr
    cases hf

theorem answersWord (ha : m.admits c) (hw : m.word? c = some w) (hindex : m.index ≤ 0xFFF) :
    m.AnswersWord c w := by
  rcases call_of_word ha hw hindex with ⟨f, hf, hresult⟩ | ⟨hnone, hresult, hmode⟩
  · refine ⟨fun stop => ?_, fun h => absurd (Word.failsOn_iff.mpr hf) (h f)⟩
    simp only [hresult, Word.failsOn_iff, hf]
    constructor
    · rintro ⟨⟩
      exact ⟨f, rfl, rfl⟩
    · rintro ⟨_, rfl, ⟨⟩⟩
      rfl
  · refine ⟨fun stop => ?_, fun _ => ⟨hresult, hmode⟩⟩
    simp only [hresult, Word.failsOn_iff, hnone]
    constructor
    · rintro ⟨⟩
    · rintro ⟨_, _, ⟨⟩⟩

theorem fetched?_of_le (h : m.pc.toNat + 2 ≤ 4096) : m.fetched? =
    some (Word.ofBytes (m.memory.byteAt m.pc.toNat) (m.memory.byteAt (m.pc.toNat + 1))) := by
  have hcheck : Memory.check m.pc.toNat 2 = .ok () := Memory.check_of_le h
  rw [fetched?, Memory.word, hcheck]
  rfl

theorem not_failsOn_of_lt {a : Nat} (hindex : m.index ≤ 0xFFF) (ha : a < 4096) :
    ¬ w.FailsOn m (.outOfRange (UInt32.ofNat a)) := by
  intro h
  have hfault := Word.failsOn_iff.mp h
  unfold Word.fault? at hfault
  split at hfault
  · have hfits := Instruction.fits_of_ofWord? ‹_›
    have hends := Instruction.endsRun_of_refusal? hfits hindex hfault
    have hle := (UInt32.le_ofNat_iff (Nat.lt_trans ha (by decide))).mp hends
    exact absurd hle (Nat.not_le_of_lt ha)
  · cases hfault

theorem step_of_lt (hm : m.mode.reason? = none) (hw : m.awaiting = none)
    (hpc : 4096 < m.pc.toNat + 2) :
    (m.call .step).result = .error (.fault (.outOfRange (UInt32.ofNat (m.pc.toNat + 1)))) := by
  have hcheck : Memory.check m.pc.toNat 2 = .error (.outOfRange (UInt32.ofNat (m.pc.toNat + 1))) :=
    Memory.check_of_lt hpc
  rw [call, step, unlessHalted_of_reason?_eq_none hm, hw]
  simp only [fetch, Memory.word, hcheck]
  rfl

theorem step_of_le (hm : m.mode.reason? = none) (hindex : m.index ≤ 0xFFF)
    (hw : m.awaiting = none) (hpc : m.pc.toNat + 2 ≤ 4096) :
    m.AnswersWord .step
      (Word.ofBytes (m.memory.byteAt m.pc.toNat) (m.memory.byteAt (m.pc.toNat + 1))) := by
  have hfetched := fetched?_of_le hpc
  refine answersWord (decide_eq_true hm) ?_ hindex
  simp [word?, hw, hfetched]

theorem step_of_awaiting {x : UInt8} (hm : m.mode.reason? = none) (hw : m.awaiting = some x)
    (hx : x < 16) :
    (m.call .step).result = .ok .done ∧ (m.call .step).machine.mode = m.mode := by
  have ha : m.admits .step := decide_eq_true hm
  have hi : m.instruction? .step = some (.awaitKey x) := by simp [instruction?, ha, choice?, hw]
  have hends : Work.Ends (Instruction.awaitKey x).effect :=
    .pollKey (Operand.toNat_lt_of_fits hx)
  obtain ⟨u, m', hr⟩ := hends (m.ready .step)
  obtain ⟨hresult, hmachine⟩ := call_of_effect hi hr
  exact ⟨hresult, hmachine ▸ mode_of_ended hr⟩

/-- **Failure is exactly characterised.** On a machine that is not halted, a step without a pending
wait fails for the address behind the program counter exactly if that lies past the end of memory,
and otherwise fails exactly as the word there does; a step that polls a wait succeeds; and a supplied
word fails exactly as it does. What does not fail succeeds and leaves the mode. -/
theorem failure_exact (m : Machine) (hm : m.mode.reason? = none) (hindex : m.index ≤ 0xFFF) :
    (m.awaiting = none →
      ((m.call .step).result = .error (.fault (.outOfRange (UInt32.ofNat (m.pc.toNat + 1)))) ↔
        4096 < m.pc.toNat + 2)) ∧
    (∀ x, m.awaiting = some x → x < 16 →
      (m.call .step).result = .ok .done ∧ (m.call .step).machine.mode = m.mode) ∧
    (m.awaiting = none → m.pc.toNat + 2 ≤ 4096 →
      m.AnswersWord .step
        (Word.ofBytes (m.memory.byteAt m.pc.toNat) (m.memory.byteAt (m.pc.toNat + 1)))) ∧
    ∀ w, m.AnswersWord (.stepWith w) w := by
  refine ⟨fun hw => ⟨fun hfail => ?_, step_of_lt hm hw⟩, fun x => step_of_awaiting hm,
    step_of_le hm hindex, fun w => answersWord (decide_eq_true hm) rfl hindex⟩
  -- Within memory, a word would have to fail with an address that lies there.
  rcases Nat.lt_or_ge 4096 (m.pc.toNat + 2) with hlt | hle
  · exact hlt
  · obtain ⟨f, hf, hfails⟩ := ((step_of_le hm hindex hw hle).fails _).mp hfail
    cases hf
    exact (not_failsOn_of_lt hindex (by omega) hfails).elim

/-- A sprite of two rows at the last byte of memory fails there, and one row is drawn; a wait is
polled on a machine whose program counter is past the end, and without the wait nothing is there. -/
theorem failure_exact_last :
    let m := { initial {} (Generator.ofSeed 0) with index := 0xFFF, pc := 0xFFF }
    m.mode.reason? = none ∧ m.index ≤ 0xFFF ∧
      (m.call .step).result = .error (.fault (.outOfRange 0x1000)) ∧
      (({ m with awaiting := some 3 } : Machine).call .step).result = .ok .done ∧
      (m.call (.stepWith 0xD002)).result = .error (.fault (.outOfRange 0x1000)) ∧
      (m.call (.stepWith 0xD001)).result = .ok .done := by
  intro m
  have hm : m.mode.reason? = none := rfl
  have hindex : m.index ≤ 0xFFF := by decide
  obtain ⟨hfetch, -, -, hword⟩ := failure_exact m hm hindex
  obtain ⟨-, hpoll, -, -⟩ := failure_exact { m with awaiting := some 3 } hm hindex
  have hsprite : Word.FailsOn 0xD002 m (.outOfRange 0x1000) := .sprite rfl (by decide)
  have hrow : ∀ f, ¬ Word.FailsOn 0xD001 m f := by
    intro f h
    have hnone : Word.fault? 0xD001 m = none := rfl
    rw [Word.failsOn_iff, hnone] at h
    cases h
  exact ⟨hm, hindex, (hfetch rfl).mpr (by decide), (hpoll 3 rfl (by decide)).1,
    ((hword 0xD002).fails _).mpr ⟨_, rfl, hsprite⟩, ((hword 0xD001).succeeds hrow).1⟩

end Machine

end Chip8
