import Chip8.Proofs.History
import Chip8.Proofs.SideBySide
import Mathlib.Data.List.Forall2

/-!
# Runs side by side

A call that runs an instruction comes to the same on two related machines if the instruction does
(`alike_runs`), provided that the relation tells nothing apart that the call itself looks at
(`Steady`). If every call comes to the same on related machines, so does every turn of a run, and
the machines stay related along it (`alike_calls`). What is asked of a call may depend on the
machine it is made on (`Along`), and several instructions that are run at once are looked at one by
one.
-/

namespace Chip8

variable {R : Machine → Machine → Prop}

/-- The turn `t'` comes to what `t` comes to, and leaves a machine that is related. -/
def Turn.Alike {α : Type} (R : Machine → Machine → Prop) (t t' : Turn α) : Prop :=
  t.result = t'.result ∧ R t.machine t'.machine

/-- Related machines are the same in what a call looks at before it runs an instruction, and stay
related where it notes what came of that. -/
structure Machine.Steady (R : Machine → Machine → Prop) : Prop where
  reason : ∀ {m m' : Machine}, R m m' → m.mode.reason? = m'.mode.reason?
  paused : ∀ {m m' : Machine}, R m m' → (m.mode = .paused ↔ m'.mode = .paused)
  halt : ∀ {m m' : Machine} (f : Fault), R m m' →
    R { m with mode := .halted f } { m' with mode := .halted f }
  lastWord : ∀ {m m' : Machine} (w : Word), R m m' →
    R { m with lastWord := some w } { m' with lastWord := some w }
  awaiting : Part.awaiting.Common R
  pc : Part.pc.Common R

/-- The part of the machine that a call is about, if it runs no instruction. -/
def Call.part? : Call → Option Part
  | .load _ => some .memory
  | .setKey _ _ => some .keypad
  | .tickDelay => some .delay
  | .tickSound => some .sound
  | .takeRedraw => some .display
  | _ => none

/-- A call fetches the word at the program counter. -/
structure Machine.Fetches (m : Machine) (c : Call) : Prop where
  stepping : c = .step ∨ c = .cycle
  admitted : m.admits c
  unawaited : m.awaiting = none

/-- `Q` holds of each call of a run and the machine that it is made on. -/
def Machine.Along (Q : Machine → Call → Prop) (m : Machine) : List Call → Prop
  | [] => True
  | c :: cs => Q m c ∧ (m.call c).machine.Along Q cs

instance (m : Machine) (c : Call) : Decidable (m.Fetches c) :=
  decidable_of_iff ((c = .step ∨ c = .cycle) ∧ m.admits c ∧ m.awaiting = none)
    ⟨fun h => ⟨h.1, h.2.1, h.2.2⟩, fun h => ⟨h.stepping, h.admitted, h.unawaited⟩⟩

instance Machine.decidableAlong (Q : Machine → Call → Prop) [∀ m c, Decidable (Q m c)] :
    ∀ (m : Machine) (cs : List Call), Decidable (m.Along Q cs)
  | _, [] => .isTrue trivial
  | m, c :: cs =>
    have := decidableAlong Q (m.call c).machine cs
    inferInstanceAs (Decidable (Q m c ∧ (m.call c).machine.Along Q cs))

/-! ## A call -/

namespace Turn

theorem Alike.map {α β : Type} {t t' : Turn α} (g : α → β) (h : Alike R t t') :
    Alike R (t.map g) (t'.map g) := ⟨congrArg (Except.map g) h.1, h.2⟩

theorem alike_of_map {reply : Reply} {t t' : Turn Unit}
    (h : Alike R (t.map fun _ => reply) (t'.map fun _ => reply)) : Alike R t t' := by
  obtain ⟨result, machine, log⟩ := t
  obtain ⟨result', machine', log'⟩ := t'
  refine ⟨?_, h.2⟩
  have hresult := h.1
  cases result <;> cases result' <;> cases hresult <;> rfl

theorem alike_conclude (hR : Machine.Steady R) {r r' : EStateM.Result Stop Machine Unit}
    (log log' : List Event) (h : Work.Match R r r') :
    Alike R (conclude log r) (conclude log' r') := by
  cases h with
  | ok a h => exact ⟨rfl, h⟩
  | error stop h =>
    cases stop with
    | crash => exact ⟨rfl, h⟩
    | fault f => exact ⟨rfl, hR.halt f h⟩

end Turn

namespace Machine

variable {m m' : Machine} {c : Call} {cs ds : List Call} {i : Instruction}
  {Q : Machine → Call → Prop}

theorem alike_unlessHalted (hR : Steady R) (h : R m m') {t t' : Turn Unit}
    (ht : m.mode.reason? = none → Turn.Alike R t t') :
    Turn.Alike R (m.unlessHalted t) (m'.unlessHalted t') := by
  have hreason := hR.reason h
  unfold unlessHalted
  rw [← hreason]
  cases hm : m.mode.reason? with
  | none => exact ht hm
  | some f => exact ⟨rfl, h⟩

theorem ready_step_of_fetched? {w : Word} (hx : m.awaiting = none) (hw : m.fetched? = some w) :
    m.ready .step = m.ready (.stepWith w) := by
  have hword : m.wordAfter .step = m.wordAfter (.stepWith w) := by simp [wordAfter, word?, hx, hw]
  simp only [ready, hword]

theorem ready_step_of_awaiting {x : UInt8} (hx : m.awaiting = some x) :
    m.ready .step = m.pastInstruction.forgetWait := by
  have hword : m.wordAfter .step = m.lastWord := by simp [wordAfter, word?, hx]
  simp only [ready, hword]
  rfl

theorem alike_run (hR : Steady R) (h : R m m') (w : Word)
    (hi : ∀ i, Instruction.ofWord? w = some i →
      Work.Match R (i.effect.run (m.ready (.stepWith w))) (i.effect.run (m'.ready (.stepWith w)))) :
    Turn.Alike R (m.run w) (m'.run w) := by
  have hw := hR.lastWord w h
  unfold run
  cases hd : Instruction.decode w with
  | error f => exact Turn.alike_conclude hR _ _ (.error _ hw)
  | ok i =>
    have hmatch := hi i (Instruction.decode_eq_ok_iff.mp hd)
    exact Turn.alike_conclude hR _ _ (.advance hR.pc hw hmatch)

theorem alike_step (hR : Steady R) (h : R m m')
    (hw : m.Fetches .step → m.memory.word m.pc.toNat = m'.memory.word m'.pc.toNat)
    (hi : ∀ i, m.instruction? .step = some i →
      Work.Match R (i.effect.run (m.ready .step)) (i.effect.run (m'.ready .step))) :
    Turn.Alike R m.step m'.step := by
  refine alike_unlessHalted hR h fun hm => ?_
  have hadmits : m.admits .step := decide_eq_true hm
  have hawaiting : m.awaiting = m'.awaiting := hR.awaiting.same h
  rw [← hawaiting]
  cases hx : m.awaiting with
  | some x =>
    have hmatch := hi (.awaitKey x) (by simp [instruction?, hadmits, choice?, hx])
    rw [ready_step_of_awaiting hx, ready_step_of_awaiting (hawaiting.symm.trans hx)] at hmatch
    exact Turn.alike_conclude hR _ _ (.advance hR.pc h hmatch)
  | none =>
    have hsame := hw ⟨.inl rfl, hadmits, hx⟩
    simp only [fetch]
    rw [← hsame]
    cases hword : m.memory.word m.pc.toNat with
    | error f => exact Turn.alike_conclude hR _ _ (.error _ h)
    | ok w =>
      have hfetched : m.fetched? = some w := by rw [fetched?, hword]; rfl
      have hfetched' : m'.fetched? = some w := by rw [fetched?, ← hsame, hword]; rfl
      refine alike_run hR h w fun i hd => ?_
      have hmatch := hi i (by simp [instruction?, hadmits, choice?, hx, hfetched, hd])
      rwa [ready_step_of_fetched? hx hfetched,
        ready_step_of_fetched? (hawaiting.symm.trans hx) hfetched'] at hmatch

/-- A call comes to the same on related machines if the instruction that it runs does there. -/
theorem alike_runs_of_match (hR : Steady R) (h : R m m') (hc : c.runs)
    (hw : m.Fetches c → m.memory.word m.pc.toNat = m'.memory.word m'.pc.toNat)
    (hi : ∀ i, m.instruction? c = some i →
      Work.Match R (i.effect.run (m.ready c)) (i.effect.run (m'.ready c))) :
    Turn.Alike R (m.call c) (m'.call c) := by
  cases c with
  | step => exact (alike_step hR h hw hi).map _
  | cycle =>
    by_cases hp : m.mode = .paused
    · have hp' := (hR.paused h).mp hp
      rw [call, call, cycle, cycle, if_pos hp, if_pos hp']
      exact ⟨rfl, h⟩
    · have hp' : m'.mode ≠ .paused := fun hp' => hp ((hR.paused h).mpr hp')
      rw [cycle_of_not_paused hp, cycle_of_not_paused hp']
      -- A machine that is neither halted nor paused takes the step that a cycle is.
      have hadmits : m.admits .step → m.admits .cycle :=
        fun ha => decide_eq_true (Mode.eq_running (reason?_of_admits ha) hp)
      have hword : m.Fetches .step → m.memory.word m.pc.toNat = m'.memory.word m'.pc.toNat :=
        fun hf => hw ⟨.inr rfl, hadmits hf.admitted, hf.unawaited⟩
      refine (alike_step hR h hword fun i hstep => hi i ?_).map _
      have hchoice : m.choice? .step = some i := choice?_of_instruction? hstep
      rw [instruction?, if_pos (hadmits (admits_of_instruction? hstep))]
      exact hchoice
  | stepWith w =>
    refine (alike_unlessHalted hR h fun hm => alike_run hR h w fun i hd => hi i ?_).map _
    have hadmits : m.admits (.stepWith w) := decide_eq_true hm
    rw [instruction?, if_pos hadmits]
    exact hd
  | execute i =>
    refine (alike_unlessHalted hR h fun hm => ?_).map _
    have hadmits : m.admits (.execute i) := decide_eq_true hm
    have hmatch := hi i (if_pos hadmits)
    exact Turn.alike_conclude hR _ _ hmatch
  | _ => cases hc

theorem Steady.ready (hR : Steady R) (h : R m m')
    (hw : c = .step ∨ c = .cycle → m.awaiting = none →
      m.memory.word m.pc.toNat = m'.memory.word m'.pc.toNat) : R (m.ready c) (m'.ready c) := by
  have hawaiting : m.awaiting = m'.awaiting := hR.awaiting.same h
  have hsame : m.word? c = m'.word? c := by
    cases c with
    | step | cycle =>
      simp only [word?, ← hawaiting, fetched?]
      cases hx : m.awaiting with
      | none => rw [hw (by simp) hx]
      | some x => rfl
    | _ => rfl
  have hword : R { m with lastWord := m.wordAfter c } { m' with lastWord := m'.wordAfter c } := by
    unfold wordAfter
    rw [← hsame]
    cases m.word? c with
    | none => exact h
    | some w => exact hR.lastWord w h
  have hpc : m.pc = m'.pc := hR.pc.same h
  have hforgotten := hR.awaiting.put none hword
  cases c <;> exact hR.pc.put_congr hforgotten (by rw [hpc])

theorem alike_runs (hR : Steady R) (h : R m m') (hc : c.runs)
    (hw : m.Fetches c → m.memory.word m.pc.toNat = m'.memory.word m'.pc.toNat)
    (hi : ∀ i, m.instruction? c = some i → Work.Alike R i.effect) :
    Turn.Alike R (m.call c) (m'.call c) := by
  refine alike_runs_of_match hR h hc hw fun i hinstruction => hi i hinstruction _ _ ?_
  exact hR.ready h fun hstep hx => hw ⟨hstep, admits_of_instruction? hinstruction, hx⟩

/-- A call that runs no instruction comes to the same on related machines if the part that it is
about is common to them. -/
theorem alike_host (h : R m m') (hr : c.runs = false) (hone : c.isMany = false)
    (hpart : ∀ p, c.part? = some p → p.Common R) (hmode : m.mode = m'.mode)
    (hput : ∀ mode, R { m with mode := mode } { m' with mode := mode })
    (hreset : R m.reset m'.reset) : Turn.Alike R (m.call c) (m'.call c) := by
  cases c with
  | load program =>
    have hcommon := hpart .memory rfl
    have hsame : m.memory = m'.memory := hcommon.same h
    rw [call, call, load, load, ← hsame]
    cases m.memory.load program with
    | ok memory => exact ⟨rfl, hcommon.put memory h⟩
    | error f => exact ⟨rfl, h⟩
  | setKey k b =>
    have hcommon := hpart .keypad rfl
    have hsame : m.keypad = m'.keypad := hcommon.same h
    rw [call, call, setKey, setKey, ← hsame]
    cases m.keypad.set k b with
    | ok keypad => exact ⟨rfl, hcommon.put keypad h⟩
    | error f => exact ⟨rfl, h⟩
  | tickDelay =>
    have hcommon := hpart .delay rfl
    exact ⟨rfl, hcommon.put_congr h (congrArg countDown (hcommon.same h))⟩
  | tickSound =>
    have hcommon := hpart .sound rfl
    exact ⟨rfl, hcommon.put_congr h (congrArg countDown (hcommon.same h))⟩
  | takeRedraw =>
    have hcommon := hpart .display rfl
    have hsame : m.display = m'.display := hcommon.same h
    rw [call, call, takeRedraw, takeRedraw, ← hsame]
    exact ⟨rfl, hcommon.put m.display.takeRedraw.2 h⟩
  | pause | resume | togglePause =>
    refine ⟨rfl, ?_⟩
    simp only [call, togglePause, pause, resume, Turn.done, ← hmode]
    cases m.mode <;> first | exact h | exact hput _
  | reset => exact ⟨rfl, hreset⟩
  | step | cycle | stepWith | execute => cases hr
  | executeAll => cases hone

/-! ## Runs -/

theorem along_append : m.Along Q (cs ++ ds) ↔ m.Along Q cs ∧ (m.after cs).Along Q ds := by
  induction cs generalizing m with
  | nil => simp [Along, after]
  | cons c cs ih =>
    simp only [List.cons_append, Along, after, ih, and_assoc]

theorem along_of_forall (h : ∀ c ∈ cs, ∀ m, Q m c) : m.Along Q cs := by
  induction cs generalizing m with
  | nil => trivial
  | cons c cs ih =>
    exact ⟨h c List.mem_cons_self m, ih fun d hd => h d (List.mem_cons_of_mem c hd)⟩

theorem alike_executeAll
    (hstep : ∀ {m m' : Machine} {c : Call}, R m m' → c.isMany = false → Q m c →
      Turn.Alike R (m.call c) (m'.call c))
    {is : List Instruction} (h : R m m') (hQ : m.Along Q ((m.tried is).map .execute)) :
    Turn.Alike R (m.executeAll is) (m'.executeAll is) := by
  induction is generalizing m m' with
  | nil => exact ⟨rfl, h⟩
  | cons i is ih =>
    unfold tried at hQ
    have hi : Q m (.execute i) → Turn.Alike R (m.execute i) (m'.execute i) :=
      fun hq => Turn.alike_of_map (hstep (c := .execute i) h rfl hq)
    cases hr : (m.execute i).result with
    | ok u =>
      rw [hr] at hQ
      obtain ⟨hresult, hmachine⟩ := hi hQ.1
      rw [executeAll_cons_of_ok hr, executeAll_cons_of_ok (hresult.symm.trans hr)]
      exact ih hmachine hQ.2
    | error stop =>
      rw [hr] at hQ
      have halike := hi hQ.1
      rw [executeAll_cons_of_error hr, executeAll_cons_of_error (halike.1.symm.trans hr)]
      exact halike

/-- If each call of a run comes to the same on related machines, so does the run at any time. -/
theorem alike_calls
    (hstep : ∀ {m m' : Machine} {c : Call}, R m m' → c.isMany = false → Q m c →
      Turn.Alike R (m.call c) (m'.call c))
    (h : R m m') (hQ : m.Along Q (m.unroll cs)) :
    List.Forall₂ (Turn.Alike R) (m.calls cs) (m'.calls cs) := by
  induction cs generalizing m m' with
  | nil => exact .nil
  | cons c cs ih =>
    obtain ⟨hfirst, hrest⟩ := along_append.mp hQ
    rw [after_unrolled] at hrest
    have hcall : Turn.Alike R (m.call c) (m'.call c) := by
      cases c with
      | executeAll is => exact (alike_executeAll hstep h hfirst).map _
      | _ => exact hstep h rfl hfirst.1
    exact .cons hcall (ih hcall.2 hrest)

end Machine

end Chip8
