import Chip8.Proofs.Answer
import Chip8.Proofs.Coding
import Chip8.Proofs.Runs

/-!
# No call crashes

An instruction has no meaning where it names a register beyond `VF` or where an address sum leaves
sixteen bits. A word names no such register, and the sums stay small because `I` does. So on a
machine that was only ever given words, or instructions that words encode, nothing of the kind can
happen, whatever the program in memory and whatever the host asks for (`never_crashes`). What carries
the proof is `Sound`: it holds at power-on, and every call keeps it (`sound_call`).
-/

namespace Chip8

/-- The faults that halt a machine. A program or a key is refused without halting it. -/
def Fault.EndsRun : Fault → Prop
  | unsupported _ | stackOverflow | stackUnderflow => True
  | outOfRange a => 0x1000 ≤ a
  | tooLarge _ _ | noSuchKey _ | halted _ => False

/-- The instructions that a call supplies. -/
def Call.instructions : Call → List Instruction
  | .execute i => [i]
  | .executeAll is => is
  | _ => []

/-- Whether each instruction that a call supplies is one that a word encodes. -/
def Call.FromWords (c : Call) : Prop := ∀ i ∈ c.instructions, ∃ w, Instruction.ofWord? w = some i

/-! ## The faults that halt a machine -/

theorem Fault.endsRun_outOfRange {k : Nat} (hlo : 0x1000 ≤ k) (hhi : k < UInt32.size) :
    (Fault.outOfRange (UInt32.ofNat k)).EndsRun :=
  (UInt32.le_ofNat_iff hhi).mpr hlo

theorem Instruction.endsRun_of_refusal? {i : Instruction} {m : Machine} {f : Fault}
    (ho : ∀ o ∈ i.operands, o.Fits) (hm : m.index ≤ 0xFFF) (h : i.refusal? m = some f) :
    f.EndsRun := by
  rcases refusal?_eq_some ho hm h with rfl | rfl | ⟨k, rfl, hlo, hhi⟩
  · trivial
  · trivial
  · exact Fault.endsRun_outOfRange hlo (Nat.lt_of_le_of_lt hhi (by decide))

theorem Memory.word_eq_error {memory : Memory} {a : Nat} {f : Fault}
    (h : memory.word a = .error f) : size < a + 2 ∧ f = .outOfRange (UInt32.ofNat (a + 1)) := by
  rcases Nat.lt_or_ge size (a + 2) with hlt | hle
  · rw [word, check_of_lt hlt] at h
    cases h
    exact ⟨hlt, rfl⟩
  · rw [word, check_of_le hle] at h
    cases h

/-! ## Where an instruction could leave its bounds -/

/-- The instruction `i` stays within the registers, memory and the stack of the machine `m` and
within the range of its numbers, as far as it gets. -/
structure Instruction.InBounds (i : Instruction) (m : Machine) : Prop where
  /-- Each register that it names is one of the sixteen. -/
  registers : i.RegistersValid
  /-- If it is not refused, it covers no byte past the end of memory. -/
  memory : ∀ m', i.effect.run m = .ok () m' → m.index.toNat + i.span ≤ Memory.size
  /-- If it is not refused, there is a slot for the address that it stores. -/
  push : ∀ a m', i = .call a → i.effect.run m = .ok () m' → m.stack.depth < 16
  /-- If it is not refused, there is an address to return to. -/
  pop : ∀ m', i = .ret → i.effect.run m = .ok () m' → 0 < m.stack.depth
  /-- The sum that moves `I` fits into sixteen bits. -/
  indexSum : ∀ x v, i = .addIndex x → m.register? x = some v →
    m.index.toNat + v.toNat < 65536
  /-- The sum that an indexed jump goes to fits into sixteen bits. -/
  jumpSum : ∀ a, i = .jumpOffset a → m.jumpTarget a < 65536
  /-- The address of a glyph fits into sixteen bits. -/
  glyphAddress : ∀ x v, i = .glyph x → m.register? x = some v →
    Memory.glyphSize * v.toNat < 65536

theorem Instruction.inBounds_of_fits {i : Instruction} {m : Machine}
    (ho : ∀ o ∈ i.operands, o.Fits) (hm : m.index ≤ 0xFFF) : i.InBounds m where
  registers := fun r h => ho _ h
  memory := by
    intro m' hr
    have hindex : m.index.toNat ≤ 0xFFF := UInt16.le_iff_toNat_le.mp hm
    have hnone := Work.refusal?_of_ok ho hm hr
    cases i with
    | draw | decimal | store | load =>
      simp only [refusal?, Memory.refusal?] at hnone
      split at hnone
      · cases hnone
      · exact Nat.le_of_not_lt ‹_›
    | _ =>
      show m.index.toNat + 0 ≤ 4096
      omega
  push := by
    rintro a m' rfl hr
    have hnone := Work.refusal?_of_ok ho hm hr
    have hle := m.stack.depth_le
    simp only [refusal?] at hnone
    split at hnone
    · cases hnone
    · omega
  pop := by
    rintro m' rfl hr
    have hnone := Work.refusal?_of_ok ho hm hr
    simp only [refusal?] at hnone
    split at hnone
    · cases hnone
    · omega
  indexSum := by
    intro x v _ _
    have hindex : m.index.toNat ≤ 0xFFF := UInt16.le_iff_toNat_le.mp hm
    have hvalue := v.toNat_lt
    omega
  jumpSum := by
    rintro a rfl
    have htarget := m.jumpTarget_le (Operand.address_lt_of_fits (ho _ (.head _)))
    omega
  glyphAddress := by
    intro x v _ _
    have hvalue := v.toNat_lt
    unfold Memory.glyphSize
    omega

namespace Work

variable {i : Instruction} {m m' : Machine}

theorem index_le_of_effect (ho : ∀ o ∈ i.operands, o.Fits) (hm : m.index ≤ 0xFFF)
    (hr : i.effect.run m = .ok () m') : m'.index ≤ 0xFFF := by
  rw [UInt16.le_iff_toNat_le]
  cases i with
  | setIndex a =>
    cases hr
    have ha := Operand.address_lt_of_fits (ho _ (.head _))
    exact Nat.le_of_lt_succ ha
  | addIndex x =>
    rw [Instruction.effect, run_advanceIndex (Operand.toNat_lt_of_fits (ho _ (.head _)))] at hr
    simp only at hr
    split at hr
    · cases hr
    · cases hr
      simp
      omega
  | glyph x =>
    have hx := Operand.toNat_lt_of_fits (ho _ (.head _))
    have hvalue := m.registers[x.toNat].toNat_lt
    rw [Instruction.effect, EStateM.run_bind, run_register_of_lt hx] at hr
    cases hr
    have hlt : Memory.glyphSize * m.registers[x.toNat].toNat < 0x1000 := by
      unfold Memory.glyphSize
      omega
    show (UInt16.ofNat _).toNat ≤ 0xFFF
    rw [UInt16.toNat_ofNat_of_lt' (Nat.lt_trans hlt (by decide))]
    exact Nat.le_of_lt_succ hlt
  | _ =>
    have hkept : m'.index = m.index := (keeps_part .index (by rfl)).of_ok hr
    rw [hkept]
    exact UInt16.le_iff_toNat_le.mp hm

end Work

/-! ## What every call keeps -/

namespace Machine

variable {m : Machine} {c : Call} {i : Instruction}

/-- What keeps a machine from crashing, and what can be told of its state beside that. -/
structure Sound (m : Machine) : Prop where
  index_le : m.index ≤ 0xFFF
  depth_le : m.stack.depth ≤ 16
  pixel_le : ∀ x y, (m.display.screen.get x y).toNat ≤ 1
  awaiting_lt : ∀ x, m.awaiting = some x → x < 16
  reason : ∀ f, m.mode = .halted f → f.EndsRun

/-- The stack and the screen are sound by the way they are built. -/
theorem sound_of (hindex : m.index ≤ 0xFFF) (hawaiting : ∀ x, m.awaiting = some x → x < 16)
    (hreason : ∀ f, m.mode = .halted f → f.EndsRun) : m.Sound where
  index_le := hindex
  depth_le := m.stack.depth_le
  pixel_le := fun _ _ => Bool.toNat_le _
  awaiting_lt := hawaiting
  reason := hreason

theorem sound_initial (dialect : Dialect) (generator : Generator) :
    (initial dialect generator).Sound := by
  refine sound_of ?_ nofun nofun
  show (0 : UInt16) ≤ 0xFFF
  decide

theorem fits_of_instruction? (h : m.Sound) (hc : c.FromWords) (hi : m.instruction? c = some i) :
    ∀ o ∈ i.operands, o.Fits := by
  have hchoice := choice?_of_instruction? hi
  cases c with
  | step | cycle =>
    simp only [choice?] at hchoice
    split at hchoice
    · -- The register that a wait remembers is one of the sixteen.
      rename_i x hx
      cases hchoice
      intro o ho
      cases ho with
      | head => exact h.awaiting_lt x hx
      | tail _ ho => cases ho
    · obtain ⟨w, -, hw⟩ := Option.bind_eq_some_iff.mp hchoice
      exact Instruction.fits_of_ofWord? hw
  | stepWith w => exact Instruction.fits_of_ofWord? hchoice
  | execute j =>
    cases hchoice
    obtain ⟨w, hw⟩ := hc i (.head _)
    exact Instruction.fits_of_ofWord? hw
  | _ => cases hchoice

theorem sound_run (h : m.Sound) (hc : c.FromWords) (hr : c.runs) :
    (m.call c).machine.Sound ∧ (m.call c).result ≠ .error .crash := by
  have ho := outcome_call m hr
  generalize (m.call c).result = r, (m.call c).machine = m' at ho ⊢
  cases ho with
  | refused | idle => exact ⟨h, nofun⟩
  | unfetched _ _ _ hf =>
    have hpc := m.pc.toNat_lt
    obtain ⟨hlt, rfl⟩ := Memory.word_eq_error hf
    unfold Memory.size at hlt
    refine ⟨sound_of h.index_le h.awaiting_lt ?_, nofun⟩
    rintro f ⟨⟩
    have hfit : m.pc.toNat + 1 < UInt32.size := Nat.lt_of_le_of_lt hpc (by decide)
    exact Fault.endsRun_outOfRange (by omega) hfit
  | undecoded =>
    refine ⟨sound_of h.index_le h.awaiting_lt ?_, nofun⟩
    rintro f ⟨⟩
    trivial
  | ended hi hr =>
    -- Of what `Sound` says, an instruction can touch no more than `I` and the wait.
    have hfits := fits_of_instruction? h hc hi
    have hindex := Work.index_le_of_effect (m := m.ready c) hfits h.index_le hr
    refine ⟨sound_of hindex ?_ ?_, nofun⟩
    · intro x hx
      obtain ⟨rfl, -, -⟩ := Work.awaiting_of_effect (m := m.ready c) rfl (Work.left_of_ok hr) hx
      exact hfits _ (.head _)
    · exact mode_of_ended hr ▸ h.reason
  | failed hi hr =>
    have hfits := fits_of_instruction? h hc hi
    obtain ⟨f, hf, hrefusal⟩ := Work.refusal?_of_stop (m := m.ready c) hfits h.index_le hr
    cases hf
    refine ⟨sound_of h.index_le nofun ?_, nofun⟩
    rintro f ⟨⟩
    exact Instruction.endsRun_of_refusal? (m := m.ready c) hfits h.index_le hrefusal
  | crashed hi hr =>
    -- An instruction that stops has a fault.
    have hfits := fits_of_instruction? h hc hi
    obtain ⟨f, hf, -⟩ := Work.refusal?_of_stop (m := m.ready c) hfits h.index_le hr
    cases hf

theorem sound_host (h : m.Sound) (hs : c.single) (hr : c.runs = false) :
    (m.call c).machine.Sound ∧ (m.call c).result ≠ .error .crash := by
  obtain ⟨memory, keypad, mode, delay, sound, display, hm, -⟩ := machine_of_host m hs hr
  have hreason := reason?_of_host m hs hr
  refine ⟨?_, ?_⟩
  · rw [hm] at hreason ⊢
    refine sound_of h.index_le h.awaiting_lt fun f hf => h.reason f ?_
    rw [← Mode.reason?_eq_some_iff, ← hreason]
    exact Mode.reason?_eq_some_iff.mpr hf
  · rcases result_of_host m hs hr with ⟨reply, h⟩ | ⟨size, room, h⟩ | ⟨k, h⟩ <;> rw [h] <;> nofun

theorem sound_executeAll {is : List Instruction} (h : m.Sound)
    (hc : (Call.executeAll is).FromWords) :
    (m.call (.executeAll is)).machine.Sound ∧
      (m.call (.executeAll is)).result ≠ .error .crash := by
  have hstep : ∀ m : Machine, ∀ i ∈ is, m.Sound →
      (m.call (.execute i)).machine.Sound ∧ (m.call (.execute i)).result ≠ .error .crash := by
    intro m i hi hm
    refine sound_run hm (fun j hj => ?_) rfl
    cases hj with
    | head => exact hc i hi
    | tail _ hj => cases hj
  obtain ⟨hmachine, hresult⟩ := executeAll_induction h fun m i hi hm => (hstep m i hi hm).1
  refine ⟨hmachine, fun hcrash => ?_⟩
  obtain ⟨m', i, hi, hm', hstop⟩ := hresult .crash (Turn.result_of_map_error hcrash)
  refine (hstep m' i hi hm').2 ?_
  rw [call, Turn.map, hstop]
  rfl

/-- Every call keeps a sound machine sound, and does not crash. -/
theorem sound_call (h : m.Sound) (hc : c.FromWords) :
    (m.call c).machine.Sound ∧ (m.call c).result ≠ .error .crash := by
  cases hr : c.runs with
  | true => exact sound_run h hc hr
  | false =>
    cases c with
    | executeAll is => exact sound_executeAll h hc
    | reset => exact ⟨sound_initial _ _, nofun⟩
    | _ => exact sound_host h rfl hr

theorem sound_after {cs : List Call} (h : m.Sound) (hcs : ∀ c ∈ cs, c.FromWords) :
    (m.after cs).Sound :=
  after_induction h fun _ c hc hm => (sound_call hm (hcs c hc)).1

/-- **No call crashes.** On a run from power-on on which each instruction comes from a word, be it
in memory, supplied or decoded by the host, the machine is sound at any time and no call crashes; and
any instruction of a word stays within its bounds on such a machine, whether its program counter
already points past it or not. -/
theorem never_crashes (dialect : Dialect) (generator : Generator) (cs : List Call)
    (hcs : ∀ c ∈ cs, c.FromWords) :
    ((initial dialect generator).after cs).Sound ∧
      (∀ t ∈ (initial dialect generator).calls cs, t.result ≠ .error .crash) ∧
      ∀ (c : Call) (w : Word) (i : Instruction), Instruction.ofWord? w = some i →
        i.InBounds (((initial dialect generator).after cs).ready c) := by
  have h₀ := sound_initial dialect generator
  have h := sound_after h₀ hcs
  refine ⟨h, ?_, ?_⟩
  · refine calls_induction h₀ ?_ ?_
    · exact fun m c hc hm => (sound_call hm (hcs c hc)).1
    · exact fun m c hc hm => (sound_call hm (hcs c hc)).2
  · intro c w i hw
    exact Instruction.inBounds_of_fits (Instruction.fits_of_ofWord? hw) h.index_le

/-- The largest sums, a key that there is not, and a return that halts the machine. -/
theorem never_crashes_bounds :
    let m := initial {} (Generator.ofSeed 0)
    let cs : List Call := [.stepWith 0x60FF, .stepWith 0xAFFF, .stepWith 0xF01E, .setKey 16 true,
      .executeAll [.awaitKey 15, .setIndex 0xFFF], .execute .ret, .stepWith 0xBFFF]
    (∀ c ∈ cs, c.FromWords) ∧ (m.after cs).index = 0xFFF ∧
      (m.after cs).mode = .halted .stackUnderflow ∧ (m.after cs).Sound ∧
      (∀ t ∈ m.calls cs, t.result ≠ .error .crash) ∧
      (Instruction.addIndex 0).InBounds ((m.after cs).ready .step) := by
  intro m cs
  have hcs : ∀ c ∈ cs, c.FromWords := by
    simp [cs, Call.FromWords, Call.instructions]
    exact ⟨⟨⟨0xFF0A, rfl⟩, ⟨0xAFFF, rfl⟩⟩, ⟨0x00EE, rfl⟩⟩
  obtain ⟨hsound, hresults, hbounds⟩ := never_crashes {} (Generator.ofSeed 0) cs hcs
  exact ⟨hcs, by decide +kernel, by decide +kernel, hsound, hresults, hbounds .step 0xF01E _ rfl⟩

end Machine

end Chip8
