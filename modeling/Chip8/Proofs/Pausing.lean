import Chip8.Proofs.Runs
import Chip8.Proofs.SideBySide

/-!
# Pausing

A host that pauses and resumes a machine changes nothing but when the machine runs. If the calls
that are about pausing alone are dropped from a run, and with them the cycles that a paused machine
idles through, the calls that are left answer the same, and they leave the same machine, but that it
runs where the other is paused (`pausing_is_transparent`). What carries the proof is that an
instruction does not look at the mode: a paused machine and the same machine resumed, side by side,
come to the same (`resumed_call`).
-/

namespace Chip8

/-- `m'` is the paused machine `m`, resumed. -/
def Machine.Resumed (m m' : Machine) : Prop := m.mode = .paused ∧ m' = { m with mode := .running }

/-- `t'` comes to what `t` comes to, and leaves the machine that `t` leaves, resumed. -/
def Turn.Resumed {α : Type} (t t' : Turn α) : Prop :=
  t'.result = t.result ∧ t'.machine = t.machine.resume

/-- No instruction uses the mode. -/
theorem Part.common_resumed (p : Part) : p.Common Machine.Resumed where
  same := by
    rintro m m' ⟨-, rfl⟩
    cases p <;> rfl
  put := by
    rintro m m' v ⟨hm, rfl⟩
    cases p <;> exact ⟨hm, rfl⟩

theorem Work.alike_resumed (i : Instruction) : Work.Alike Machine.Resumed i.effect := by
  refine alike_effect i (fun p _ => p.common_resumed) fun _ => ?_
  rintro m m' ⟨-, rfl⟩
  rfl

namespace Machine

/-- Whether a call does nothing but to pause or resume the machine, or to idle while it is paused. -/
def skips (m : Machine) : Call → Bool
  | .pause | .resume | .togglePause => true
  | .cycle => m.mode = .paused
  | _ => false

/-- The other calls of a run, each with the machine it is made on. -/
def remaining (m : Machine) : List Call → List (Machine × Call)
  | [] => []
  | c :: cs =>
    if m.skips c then (m.call c).machine.remaining cs
    else (m, c) :: (m.call c).machine.remaining cs

/-- The other calls of a run. -/
def erased (m : Machine) (cs : List Call) : List Call := (m.remaining cs).map Prod.snd

variable {m m' : Machine} {c : Call} {i : Instruction}

/-! ## Resuming -/

theorem resume_of_ne_paused (h : m.mode ≠ .paused) : m.resume = m := by
  unfold resume
  split
  · exact absurd ‹_› h
  · rfl
  · rfl

theorem resume_of_paused (h : m.mode = .paused) : m.resume = { m with mode := .running } := by
  simp only [resume, h]

theorem resumed_resume (h : m.mode = .paused) : m.Resumed m.resume := ⟨h, resume_of_paused h⟩

theorem Resumed.eq_resume (h : m.Resumed m') : m' = m.resume :=
  h.2.trans (resume_of_paused h.1).symm

theorem Resumed.reason? (h : m.Resumed m') : m.mode.reason? = none ∧ m'.mode.reason? = none := by
  obtain ⟨hm, rfl⟩ := h
  rw [hm]
  exact ⟨rfl, rfl⟩

end Machine

namespace Turn

open Machine

theorem resumed_conclude {r r' : EStateM.Result Stop Machine Unit} (log log' : List Event)
    (h : Work.Match Machine.Resumed r r') : (conclude log r).Resumed (conclude log' r') := by
  cases h with
  | ok a h => exact ⟨rfl, h.eq_resume⟩
  | error stop h =>
    cases stop with
    | crash => exact ⟨rfl, h.eq_resume⟩
    | fault f =>
      obtain ⟨hm, rfl⟩ := h
      exact ⟨rfl, rfl⟩

theorem Resumed.map {α β : Type} {t t' : Turn α} (g : α → β) (h : t.Resumed t') :
    (t.map g).Resumed (t'.map g) := ⟨congrArg (Except.map g) h.1, h.2⟩

end Turn

namespace Machine

variable {m m' : Machine} {c : Call} {i : Instruction}

/-! ## A paused machine that runs an instruction -/

theorem resumed_run (h : m.Resumed m') (w : Word) : (m.run w).Resumed (m'.run w) := by
  have hw : Resumed { m with lastWord := some w } { m' with lastWord := some w } := by
    obtain ⟨hm, rfl⟩ := h
    exact ⟨hm, rfl⟩
  unfold run
  cases Instruction.decode w with
  | error f => exact Turn.resumed_conclude _ _ (.error _ hw)
  | ok i =>
    have hi := (Work.alike_resumed i).advance Part.awaiting.common_resumed Part.pc.common_resumed
    exact Turn.resumed_conclude _ _ (hi _ _ hw)

theorem resumed_step (h : m.Resumed m') : m.step.Resumed m'.step := by
  obtain ⟨hr, hr'⟩ := h.reason?
  unfold step
  rw [unlessHalted_of_reason?_eq_none hr, unlessHalted_of_reason?_eq_none hr']
  have hawaiting : m.awaiting = m'.awaiting := Part.awaiting.common_resumed.same h
  rw [← hawaiting]
  cases m.awaiting with
  | some x =>
    have hi := (Work.alike_resumed (.awaitKey x)).advance Part.awaiting.common_resumed
      Part.pc.common_resumed
    exact Turn.resumed_conclude _ _ (hi _ _ h)
  | none =>
    have hpc : m.pc = m'.pc := Part.pc.common_resumed.same h
    have hmemory : m.memory = m'.memory := Part.memory.common_resumed.same h
    simp only [fetch]
    rw [← hpc, ← hmemory]
    cases m.memory.word m.pc.toNat with
    | ok w => exact resumed_run h w
    | error f => exact Turn.resumed_conclude _ _ (.error _ h)

theorem resumed_execute (h : m.Resumed m') (i : Instruction) :
    (m.execute i).Resumed (m'.execute i) := by
  obtain ⟨hr, hr'⟩ := h.reason?
  unfold execute
  rw [unlessHalted_of_reason?_eq_none hr, unlessHalted_of_reason?_eq_none hr']
  have hi := (Work.alike_resumed i).perform Part.awaiting.common_resumed
  exact Turn.resumed_conclude _ _ (hi _ _ h)

/-! ## The mode after a call -/

theorem mode_of_runs (hn : m.mode.reason? = none) (hc : c.runs) :
    (m.call c).machine.mode =
      match (m.call c).result with
      | .error (.fault f) => .halted f
      | _ => m.mode := by
  have ho := outcome_call m hc
  generalize (m.call c).result = r, (m.call c).machine = m₁ at ho ⊢
  cases ho with
  | refused hm =>
    rw [hm] at hn
    cases hn
  | idle | unfetched | undecoded | failed => rfl
  | ended hi hr => exact mode_of_ended hr
  | crashed hi hr =>
    have hmode := mode_of_stopped hr
    exact hmode

theorem ne_paused_of_runs (hm : m.mode ≠ .paused) (hc : c.runs) :
    (m.call c).machine.mode ≠ .paused := by
  have ho := outcome_call m hc
  generalize (m.call c).result = r, (m.call c).machine = m₁ at ho ⊢
  cases ho with
  | refused => exact hm
  | idle _ hp => exact absurd hp hm
  | unfetched | undecoded | failed => exact Mode.noConfusion
  | ended hi hr => rwa [mode_of_ended hr]
  | crashed hi hr =>
    have hmode := mode_of_stopped hr
    exact hmode.symm ▸ hm

theorem ne_paused_of_skips (hm : m.mode ≠ .paused) (hc : m.skips c = false) :
    (m.call c).machine.mode ≠ .paused := by
  cases c with
  | step | cycle | stepWith | execute => exact ne_paused_of_runs hm rfl
  | executeAll is =>
    refine (executeAll_induction (P := fun m => m.mode ≠ .paused) hm fun m i _ h => ?_).1
    exact ne_paused_of_runs (c := .execute i) h rfl
  | load program =>
    rw [call, load]
    cases m.memory.load program <;> exact hm
  | setKey k b =>
    rw [call, setKey]
    cases m.keypad.set k b <;> exact hm
  | tickDelay | tickSound | takeRedraw => exact hm
  | reset => exact Mode.noConfusion
  | pause | resume | togglePause => cases hc

/-! ## Calls on a machine and on the same machine resumed -/

theorem resumed_execute_resume (m : Machine) (i : Instruction) :
    (m.execute i).Resumed (m.resume.execute i) := by
  by_cases hm : m.mode = .paused
  · exact resumed_execute (resumed_resume hm) i
  · rw [resume_of_ne_paused hm]
    refine ⟨rfl, (resume_of_ne_paused ?_).symm⟩
    exact ne_paused_of_runs (c := .execute i) hm rfl

theorem resumed_executeAll (m : Machine) (is : List Instruction) :
    (m.executeAll is).Resumed (m.resume.executeAll is) := by
  induction is generalizing m with
  | nil => exact ⟨rfl, rfl⟩
  | cons i is ih =>
    have hi := resumed_execute_resume m i
    cases hr : (m.execute i).result with
    | error stop =>
      rw [executeAll_cons_of_error hr, executeAll_cons_of_error (hi.1.trans hr)]
      exact hi
    | ok u =>
      rw [executeAll_cons_of_ok hr, executeAll_cons_of_ok (hi.1.trans hr), hi.2]
      exact ih _

/-- A call that is not about pausing alone comes to the same on a machine and on the same machine
resumed. -/
theorem resumed_call (hc : m.skips c = false) : (m.call c).Resumed (m.resume.call c) := by
  by_cases hm : m.mode = .paused
  · have h := resumed_resume hm
    cases c with
    | step => exact (resumed_step h).map _
    | stepWith w =>
      obtain ⟨hr, hr'⟩ := h.reason?
      rw [call, call, stepWith, stepWith, unlessHalted_of_reason?_eq_none hr,
        unlessHalted_of_reason?_eq_none hr']
      exact (resumed_run h w).map _
    | execute i => exact (resumed_execute_resume m i).map _
    | executeAll is => exact (resumed_executeAll m is).map _
    | load program =>
      have hmemory : m.memory = m.resume.memory := Part.memory.common_resumed.same h
      rw [call, call, load, load, ← hmemory]
      cases m.memory.load program with
      | ok memory => exact ⟨rfl, (Part.memory.common_resumed.put memory h).eq_resume⟩
      | error f => exact ⟨rfl, rfl⟩
    | setKey k b =>
      have hkeypad : m.keypad = m.resume.keypad := Part.keypad.common_resumed.same h
      rw [call, call, setKey, setKey, ← hkeypad]
      cases m.keypad.set k b with
      | ok keypad => exact ⟨rfl, (Part.keypad.common_resumed.put keypad h).eq_resume⟩
      | error f => exact ⟨rfl, rfl⟩
    | tickDelay =>
      have hdelay := congrArg countDown (Part.delay.common_resumed.same h)
      exact ⟨rfl, (Part.delay.common_resumed.put_congr h hdelay).eq_resume⟩
    | tickSound =>
      have hsound := congrArg countDown (Part.sound.common_resumed.same h)
      exact ⟨rfl, (Part.sound.common_resumed.put_congr h hsound).eq_resume⟩
    | takeRedraw =>
      have hdisplay : m.display = m.resume.display := Part.display.common_resumed.same h
      rw [call, call, takeRedraw, takeRedraw, ← hdisplay]
      exact ⟨rfl, (Part.display.common_resumed.put m.display.takeRedraw.2 h).eq_resume⟩
    | reset =>
      rw [resume_of_paused hm]
      exact ⟨rfl, rfl⟩
    | cycle => exact absurd hm (of_decide_eq_false hc)
    | pause | resume | togglePause => cases hc
  · rw [resume_of_ne_paused hm]
    exact ⟨rfl, (resume_of_ne_paused (ne_paused_of_skips hm hc)).symm⟩

theorem resume_of_skips (hc : m.skips c) : (m.call c).machine.resume = m.resume := by
  cases c with
  | pause | resume | togglePause =>
    cases hm : m.mode <;> simp [call, togglePause, pause, resume, hm, Turn.done]
    all_goals rw [← hm]
  | cycle =>
    have hm : m.mode = .paused := of_decide_eq_true hc
    rw [call, cycle, if_pos hm]
    rfl
  | _ => cases hc

/-! ## Runs -/

theorem calls_erased (m : Machine) (cs : List Call) :
    (m.resume.calls (m.erased cs)).map Turn.result =
        (m.remaining cs).map (fun p => (p.1.call p.2).result) ∧
      m.resume.after (m.erased cs) = (m.after cs).resume := by
  induction cs generalizing m with
  | nil => exact ⟨rfl, rfl⟩
  | cons c cs ih =>
    obtain ⟨hresults, hafter⟩ := ih (m.call c).machine
    unfold erased remaining
    cases hc : m.skips c with
    | true =>
      rw [← resume_of_skips hc]
      exact ⟨hresults, hafter⟩
    | false =>
      obtain ⟨hresult, hmachine⟩ := resumed_call hc
      rw [← hmachine] at hresults hafter
      exact ⟨List.cons_eq_cons.mpr ⟨hresult, hresults⟩, hafter⟩

/-- **Pausing is transparent.** Drop from a run on a machine that is not paused the calls that are
about pausing alone, and the cycles that the machine idles through while it is paused. The calls
that are left answer the same without them, and leave the same machine, but that it runs where the
other is paused. A cycle that is dropped changes nothing and says that it did not run; a step on a
paused machine leaves it paused, unless it fails and halts the machine. -/
theorem pausing_is_transparent :
    (∀ (m : Machine) (cs : List Call), m.mode ≠ .paused →
      (m.calls (m.erased cs)).map Turn.result =
          (m.remaining cs).map (fun p => (p.1.call p.2).result) ∧
        m.after (m.erased cs) = (m.after cs).resume) ∧
    ∀ m : Machine, m.mode = .paused →
      m.call .cycle = .done (.flag false) m ∧
        ∀ c : Call, c = .step ∨ (∃ w, c = .stepWith w) →
          (∀ reply, (m.call c).result = .ok reply → (m.call c).machine.mode = .paused) ∧
            ∀ f, (m.call c).result = .error (.fault f) → (m.call c).machine.mode = .halted f := by
  refine ⟨fun m cs hm => ?_, fun m hm => ⟨?_, fun c hc => ?_⟩⟩
  · have h := calls_erased m cs
    rwa [resume_of_ne_paused hm] at h
  · rw [call, cycle, if_pos hm]
    rfl
  · have hruns : c.runs := by rcases hc with rfl | ⟨w, rfl⟩ <;> rfl
    have hmode := mode_of_runs (m := m) (by rw [hm]; rfl) hruns
    refine ⟨fun reply h => ?_, fun f h => ?_⟩
    · rw [hmode, h, hm]
    · rw [hmode, h]

/-- A wait for a key on a paused machine: the cycle and the two calls around it are dropped, and the
step finds the key. -/
theorem pausing_is_transparent_wait :
    let m := initial {} (Generator.ofSeed 0)
    let cs : List Call := [.stepWith 0xF50A, .togglePause, .cycle, .setKey 7 true, .step, .resume]
    m.mode ≠ .paused ∧ m.erased cs = [.stepWith 0xF50A, .setKey 7 true, .step] ∧
      (m.calls (m.erased cs)).map Turn.result =
        (m.remaining cs).map (fun p => (p.1.call p.2).result) ∧
      m.after (m.erased cs) = (m.after cs).resume ∧
      m.pause.call .cycle = .done (.flag false) m.pause ∧
      (m.pause.call (.stepWith 0x00E0)).machine.mode = .paused ∧
      (m.pause.call (.stepWith 0x00EE)).machine.mode = .halted .stackUnderflow := by
  intro m cs
  obtain ⟨hrun, hpaused⟩ := pausing_is_transparent
  have hm : m.mode ≠ .paused := Mode.noConfusion
  obtain ⟨hresults, hafter⟩ := hrun m cs hm
  obtain ⟨hcycle, hstep⟩ := hpaused m.pause rfl
  have hclear := (hstep (.stepWith 0x00E0) (.inr ⟨_, rfl⟩)).1 .done rfl
  have hreturn := (hstep (.stepWith 0x00EE) (.inr ⟨_, rfl⟩)).2 .stackUnderflow rfl
  exact ⟨hm, by decide +kernel, hresults, hafter, hcycle, hclear, hreturn⟩

end Machine

end Chip8
