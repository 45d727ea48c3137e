import Chip8.Machine.Call
import Chip8.Proofs.Refusal

/-!
# What a call comes to

Four calls run at most one instruction: `step`, `cycle`, `stepWith` and `execute`. `Outcome` lists
all that such a call can come to, and `outcome_call` says that the list is complete. What is true
of every step is proved by cases on it. Of the calls that run no instruction, `machine_of_host`
says what they leave alone.
-/

namespace Chip8

theorem Mode.reason?_eq_some_iff {mode : Mode} {f : Fault} :
    mode.reason? = some f ↔ mode = .halted f := by
  cases mode <;> simp [Mode.reason?]

theorem Mode.eq_running {mode : Mode} (hr : mode.reason? = none) (hp : mode ≠ .paused) :
    mode = .running := by
  cases mode with
  | running => rfl
  | paused => exact absurd rfl hp
  | halted f => cases hr

theorem Turn.result_of_map_error {α β : Type} {g : α → β} {t : Turn α} {stop : Stop}
    (h : (t.map g).result = .error stop) : t.result = .error stop := by
  unfold Turn.map at h
  cases ht : t.result with
  | ok a =>
    rw [ht] at h
    cases h
  | error e =>
    rw [ht] at h
    cases h
    rfl

namespace Work

variable {i : Instruction} {m m' : Machine} {stop : Stop}

theorem run_advance_of_ok (h : i.effect.run m.pastInstruction.forgetWait = .ok () m') :
    (advance i).run m = .ok () m' := by
  have hp : perform i m.pastInstruction = .ok () m' := h
  simp only [EStateM.run, advance, hp]

theorem run_advance_of_error (h : i.effect.run m.pastInstruction.forgetWait = .error stop m') :
    (advance i).run m = .error stop { m' with pc := m.pc } := by
  have hp : perform i m.pastInstruction = .error stop m' := h
  simp only [EStateM.run, advance, hp]

end Work

/-- Whether a call runs at most one instruction and does nothing else. -/
def Call.runs : Call → Bool
  | .step | .cycle | .stepWith _ | .execute _ => true
  | _ => false

/-- Whether a call runs at most one instruction and does not return the machine to power-on. -/
def Call.single : Call → Bool
  | .executeAll _ | .reset => false
  | _ => true

/-- What a call that runs an instruction to its end answers. -/
def Call.reply : Call → Reply
  | .cycle => .flag true
  | _ => .done

namespace Machine

/-- Whether a call gets as far as looking for an instruction. -/
def admits (m : Machine) : Call → Bool
  | .step | .stepWith _ | .execute _ => m.mode.reason? = none
  | .cycle => m.mode = .running
  | _ => false

/-- The word at the program counter. -/
def fetched? (m : Machine) : Option Word := (m.memory.word m.pc.toNat).toOption

/-- The word that a call fetches or supplies, if it does. -/
def word? (m : Machine) : Call → Option Word
  | .step | .cycle => if m.awaiting.isSome then none else m.fetched?
  | .stepWith w => some w
  | _ => none

/-- The instruction that a call polls for, decodes or is given, if there is one. -/
def choice? (m : Machine) : Call → Option Instruction
  | .step | .cycle =>
    match m.awaiting with
    | some x => some (.awaitKey x)
    | none => m.fetched?.bind Instruction.ofWord?
  | .stepWith w => Instruction.ofWord? w
  | .execute i => some i
  | _ => none

/-- The instruction that a call runs, if it runs one. -/
def instruction? (m : Machine) (c : Call) : Option Instruction :=
  if m.admits c then m.choice? c else none

/-- The last word after a call. -/
def wordAfter (m : Machine) (c : Call) : Option Word := (m.word? c).or m.lastWord

/-- The machine on which the instruction of a call takes effect. -/
def ready (m : Machine) (c : Call) : Machine :=
  { m with
    lastWord := m.wordAfter c
    awaiting := none
    pc := match c with
      | .execute _ => m.pc
      | _ => m.pc + 2 }

/-- The results and the machines that a call which runs at most one instruction can come to. -/
inductive Outcome (m : Machine) (c : Call) : Except Stop Reply → Machine → Prop
  /-- A halted machine refuses. -/
  | refused {f : Fault} (hm : m.mode = .halted f) : Outcome m c (.error (.fault (.halted f))) m
  /-- A paused machine idles through a cycle. -/
  | idle (hc : c = .cycle) (hm : m.mode = .paused) : Outcome m c (.ok (.flag false)) m
  /-- The program counter is too close to the end of memory. -/
  | unfetched {f : Fault} (ha : m.admits c) (hw : m.word? c = none) (hi : m.instruction? c = none)
      (hf : m.memory.word m.pc.toNat = .error f) :
      Outcome m c (.error (.fault f)) { m with mode := .halted f }
  /-- The word encodes no instruction. -/
  | undecoded {w : Word} (ha : m.admits c) (hw : m.word? c = some w) (hi : m.instruction? c = none)
      (hd : Instruction.ofWord? w = none) :
      Outcome m c (.error (.fault (.unsupported w)))
        { m with lastWord := some w, mode := .halted (.unsupported w) }
  /-- The instruction takes effect. -/
  | ended {i : Instruction} {m' : Machine} (hi : m.instruction? c = some i)
      (hr : i.effect.run (m.ready c) = .ok () m') : Outcome m c (.ok c.reply) m'
  /-- The instruction is refused. -/
  | failed {i : Instruction} {f : Fault} (hi : m.instruction? c = some i)
      (hr : i.effect.run (m.ready c) = .error (.fault f) (m.ready c)) :
      Outcome m c (.error (.fault f)) { m.ready c with pc := m.pc, mode := .halted f }
  /-- The instruction has no meaning. -/
  | crashed {i : Instruction} {m' : Machine} {a : UInt16} (hi : m.instruction? c = some i)
      (hr : i.effect.run (m.ready c) = .error .crash m') :
      Outcome m c (.error .crash) { m' with pc := a }

variable {m m₀ : Machine} {c : Call} {i : Instruction}

theorem reason?_of_admits (h : m.admits c) : m.mode.reason? = none := by
  cases c with
  | cycle =>
    have hm : m.mode = .running := of_decide_eq_true h
    rw [hm]
    rfl
  | step | stepWith | execute => exact of_decide_eq_true h
  | _ => cases h

theorem not_halted_of_admits {f : Fault} (h : m.admits c) : m.mode ≠ .halted f := by
  intro hm
  have hnone := reason?_of_admits h
  rw [hm] at hnone
  cases hnone

theorem not_paused_of_admits (h : m.admits .cycle) : m.mode ≠ .paused := by
  intro hm
  have hrunning : m.mode = .running := of_decide_eq_true h
  rw [hm] at hrunning
  cases hrunning

theorem admits_of_instruction? (h : m.instruction? c = some i) : m.admits c := by
  unfold instruction? at h
  split at h
  · assumption
  · cases h

theorem choice?_of_instruction? (h : m.instruction? c = some i) : m.choice? c = some i := by
  rwa [instruction?, if_pos (admits_of_instruction? h)] at h

theorem choice?_of_word {w : Word} (hw : m.word? c = some w) :
    m.choice? c = Instruction.ofWord? w := by
  cases c with
  | step | cycle =>
    cases hx : m.awaiting with
    | some x => simp [word?, hx] at hw
    | none =>
      have hfetched : m.fetched? = some w := by simpa [word?, hx] using hw
      simp [choice?, hx, hfetched]
  | stepWith =>
    cases hw
    rfl
  | _ => cases hw

theorem ready_of_word {w : Word} (hw : m.word? c = some w) :
    m.ready c = { m with lastWord := some w, awaiting := none, pc := m.pc + 2 } := by
  have hword : m.wordAfter c = some w := by
    rw [wordAfter, hw]
    rfl
  unfold ready
  rw [hword]
  cases c with
  | step | cycle | stepWith => rfl
  | _ => cases hw

theorem mode_of_ended {m' : Machine} (hr : i.effect.run (m.ready c) = .ok () m') :
    m'.mode = m.mode := (Work.keeps_mode i).of_ok (m := m.ready c) hr

theorem mode_of_stopped {m' : Machine} {stop : Stop}
    (hr : i.effect.run (m.ready c) = .error stop m') : m'.mode = m.mode :=
  (Work.keeps_mode i).of_error (m := m.ready c) hr

theorem outcome_advance (hi : m.instruction? c = some i)
    (hr : m₀.pastInstruction.forgetWait = m.ready c)
    (hf : m₀.forgetWait = { m.ready c with pc := m.pc }) (log : List Event) :
    let t := Turn.conclude log ((Work.advance i).run m₀)
    Outcome m c (t.result.map fun _ => c.reply) t.machine := by
  cases hx : i.effect.run (m.ready c) with
  | ok u m' =>
    rw [Work.run_advance_of_ok (hr ▸ hx)]
    exact .ended hi hx
  | error stop m' =>
    rw [Work.run_advance_of_error (hr ▸ hx)]
    cases stop with
    | crash => exact .crashed hi hx
    | fault f =>
      -- Refused work has changed nothing, so the program counter alone has to go back.
      have hm := Work.atomic_effect i _ _ _ hx
      subst hm
      have hp : m₀.forgetWait.pc = m.pc := by rw [hf]
      rw [show m₀.pc = m.pc from hp]
      exact .failed hi hx

theorem outcome_run {w : Word} (ha : m.admits c) (hw : m.word? c = some w)
    (hi : m.choice? c = Instruction.ofWord? w) (hp : (m.ready c).pc = m.pc + 2) :
    Outcome m c ((m.run w).result.map fun _ => c.reply) (m.run w).machine := by
  have hword : m.wordAfter c = some w := by rw [wordAfter, hw]; rfl
  unfold run
  cases hd : Instruction.ofWord? w with
  | none =>
    rw [Instruction.decode_eq_error_iff.mpr ⟨hd, rfl⟩]
    exact .undecoded ha hw (by rw [instruction?, if_pos ha, hi, hd]) hd
  | some i =>
    rw [Instruction.decode_eq_ok_iff.mpr hd]
    refine outcome_advance ?_ ?_ ?_ _
    · rw [instruction?, if_pos ha, hi, hd]
    · simp [ready, pastInstruction, forgetWait, hword] at hp ⊢
      exact hp.symm
    · simp [ready, forgetWait, hword]

theorem outcome_fetch (hc : c = .step ∨ c = .cycle) (ha : m.admits c) (hw : m.awaiting = none) :
    Outcome m c (m.fetch.result.map fun _ => c.reply) m.fetch.machine := by
  have hword : m.word? c = m.fetched? := by rcases hc with rfl | rfl <;> simp [word?, hw]
  have hi : m.choice? c = m.fetched?.bind Instruction.ofWord? := by
    rcases hc with rfl | rfl <;> simp [choice?, hw]
  unfold fetch
  cases hf : m.memory.word m.pc.toNat with
  | error f =>
    have hn : m.fetched? = none := by rw [fetched?, hf]; rfl
    exact .unfetched ha (hword.trans hn) (by rw [instruction?, if_pos ha, hi, hn]; rfl) hf
  | ok w =>
    have hs : m.fetched? = some w := by rw [fetched?, hf]; rfl
    refine outcome_run ha (hword.trans hs) (by rw [hi, hs]; rfl) ?_
    rcases hc with rfl | rfl <;> rfl

theorem outcome_poll {x : UInt8} (hc : c = .step ∨ c = .cycle) (ha : m.admits c)
    (hw : m.awaiting = some x) :
    Outcome m c ((m.poll x).result.map fun _ => c.reply) (m.poll x).machine := by
  have hi : m.instruction? c = some (.awaitKey x) := by
    rw [instruction?, if_pos ha]
    rcases hc with rfl | rfl <;> simp [choice?, hw]
  have hword : m.wordAfter c = m.lastWord := by
    rcases hc with rfl | rfl <;> simp [wordAfter, word?, hw]
  refine outcome_advance hi ?_ ?_ _
  · rcases hc with rfl | rfl <;> simp [ready, pastInstruction, forgetWait, hword]
  · simp [ready, forgetWait, hword]

theorem outcome_next (hc : c = .step ∨ c = .cycle) (ha : m.admits c)
    (hm : m.mode.reason? = none) :
    Outcome m c (m.step.result.map fun _ => c.reply) m.step.machine := by
  unfold step
  rw [unlessHalted_of_reason?_eq_none hm]
  cases hw : m.awaiting with
  | none => exact outcome_fetch hc ha hw
  | some x => exact outcome_poll hc ha hw

theorem outcome_execute (i : Instruction) (ha : m.admits (.execute i)) :
    Outcome m (.execute i) (m.call (.execute i)).result (m.call (.execute i)).machine := by
  have hi : m.instruction? (.execute i) = some i := by rw [instruction?, if_pos ha]; rfl
  have he : m.call (.execute i) =
      (Turn.conclude (i.events m) (i.effect.run (m.ready (.execute i)))).map fun _ => .done := by
    rw [call, execute, unlessHalted_of_reason?_eq_none (reason?_of_admits ha)]
    rfl
  rw [he]
  cases hx : i.effect.run (m.ready (.execute i)) with
  | ok u m' => exact .ended hi hx
  | error stop m' =>
    cases stop with
    | crash => exact .crashed (a := m'.pc) hi hx
    | fault f =>
      have hm := Work.atomic_effect i _ _ _ hx
      subst hm
      exact .failed hi hx

theorem cycle_of_not_paused (h : m.mode ≠ .paused) :
    m.call .cycle = m.step.map fun _ => Reply.flag true := by
  unfold call cycle
  rw [if_neg h]
  cases hs : m.step with
  | mk result machine log => cases result <;> rfl

/-- `Outcome` lists all that a call which runs an instruction can come to. -/
theorem outcome_call (m : Machine) {c : Call} (hc : c.runs) :
    Outcome m c (m.call c).result (m.call c).machine := by
  cases hr : m.mode.reason? with
  | some f =>
    have hm : m.mode = .halted f := Mode.reason?_eq_some_iff.mp hr
    have hstep : m.step = .refused (.halted f) m := unlessHalted_of_halted hm _
    cases c with
    | step => rw [call, hstep]; exact .refused hm
    | cycle =>
      rw [cycle_of_not_paused (by rw [hm]; nofun), hstep]
      exact .refused hm
    | stepWith w => rw [call, stepWith, unlessHalted_of_halted hm]; exact .refused hm
    | execute i => rw [call, execute, unlessHalted_of_halted hm]; exact .refused hm
    | _ => cases hc
  | none =>
    have ha : m.admits .step := decide_eq_true hr
    cases c with
    | step => exact outcome_next (.inl rfl) ha hr
    | cycle =>
      by_cases hp : m.mode = .paused
      · rw [call, cycle, if_pos hp]
        exact .idle rfl hp
      · rw [cycle_of_not_paused hp]
        exact outcome_next (.inr rfl) (decide_eq_true (Mode.eq_running hr hp)) hr
    | stepWith w =>
      rw [call, stepWith, unlessHalted_of_reason?_eq_none hr]
      exact outcome_run ha rfl rfl rfl
    | execute i => exact outcome_execute i ha
    | _ => cases hc

/-- What the instruction of a call keeps and its bookkeeping does not show, the call keeps. -/
theorem kept_of_runs {γ : Type} {f : Machine → γ} (hc : c.runs)
    (hf : ∀ (m : Machine) mode word register pc,
      f { m with mode := mode, lastWord := word, awaiting := register, pc := pc } = f m)
    (hi : ∀ i, m.instruction? c = some i → Work.Keeps f i.effect) : f (m.call c).machine = f m := by
  have hready : f (m.ready c) = f m := hf m m.mode _ _ _
  have ho := outcome_call m hc
  generalize (m.call c).result = r, (m.call c).machine = m' at ho ⊢
  cases ho with
  | refused | idle => rfl
  | unfetched | undecoded => exact hf m _ _ _ _
  | failed => exact hf m _ _ _ _
  | ended h hr => exact ((hi _ h).of_ok hr).trans hready
  | crashed h hr => exact (hf _ _ _ _ _).trans (((hi _ h).of_error hr).trans hready)

/-- The call `c` runs the instruction `i` to its end. -/
def Performs (m : Machine) (c : Call) (i : Instruction) : Prop :=
  m.instruction? c = some i ∧ (m.call c).result = .ok c.reply

theorem runs_of_instruction? (h : m.instruction? c = some i) : c.runs := by
  have ha := admits_of_instruction? h
  cases c <;> first | rfl | cases ha

theorem exists_performs (hc : c.runs) (h : (m.call c).result = .ok c.reply) :
    ∃ i, m.Performs c i := by
  have ho := outcome_call m hc
  rw [h] at ho
  generalize hreply : Except.ok c.reply = r, (m.call c).machine = m' at ho
  cases ho with
  | idle hc hm =>
    rw [hc] at hreply
    cases hreply
  | ended hi hr => exact ⟨_, hi, h⟩
  | _ => cases hreply

theorem performs_of_word {w : Word} (hw : m.word? c = some w)
    (h : (m.call c).result = .ok c.reply) :
    ∃ i, Instruction.ofWord? w = some i ∧ m.Performs c i := by
  have hc : c.runs := by cases c <;> first | rfl | cases hw
  obtain ⟨i, hi⟩ := exists_performs hc h
  exact ⟨i, (choice?_of_word hw).symm.trans (choice?_of_instruction? hi.1), hi⟩

/-- A call that runs an instruction comes to what the instruction comes to. One that is refused halts
the machine with the program counter in front of it. -/
theorem call_of_instruction? (hi : m.instruction? c = some i) :
    match i.effect.run (m.ready c) with
    | .ok _ m' => (m.call c).result = .ok c.reply ∧ (m.call c).machine = m'
    | .error (.fault f) m' => (m.call c).result = .error (.fault f) ∧
        (m.call c).machine = { m' with pc := m.pc, mode := .halted f }
    | .error .crash m' => (m.call c).result = .error .crash ∧
        ∃ a, (m.call c).machine = { m' with pc := a } := by
  have ha := admits_of_instruction? hi
  have ho := outcome_call m (runs_of_instruction? hi)
  generalize (m.call c).result = r, (m.call c).machine = m₁ at ho ⊢
  cases ho with
  | refused hm => exact absurd hm (not_halted_of_admits ha)
  | idle hc hm => exact absurd hm (not_paused_of_admits (hc ▸ ha))
  | unfetched _ _ hn | undecoded _ _ hn =>
    rw [hi] at hn
    cases hn
  | ended hi' hr | failed hi' hr =>
    rw [hi] at hi'
    cases hi'
    rw [hr]
    exact ⟨rfl, rfl⟩
  | crashed hi' hr =>
    rw [hi] at hi'
    cases hi'
    rw [hr]
    exact ⟨rfl, _, rfl⟩

theorem call_of_effect {m' : Machine} (hi : m.instruction? c = some i)
    (hr : i.effect.run (m.ready c) = .ok () m') :
    (m.call c).result = .ok c.reply ∧ (m.call c).machine = m' := by
  have hcall := call_of_instruction? hi
  rwa [hr] at hcall

theorem run_effect_of_ok {reply : Reply} (hi : m.instruction? c = some i)
    (h : (m.call c).result = .ok reply) :
    reply = c.reply ∧ i.effect.run (m.ready c) = .ok () (m.call c).machine := by
  have hcall := call_of_instruction? hi
  rw [h] at hcall
  cases hr : i.effect.run (m.ready c) with
  | ok u m' =>
    rw [hr] at hcall
    cases hcall.1
    exact ⟨rfl, by rw [hcall.2]⟩
  | error stop m' =>
    rw [hr] at hcall
    cases stop <;> cases hcall.1

theorem Performs.run_effect (h : m.Performs c i) :
    i.effect.run (m.ready c) = .ok () (m.call c).machine :=
  (run_effect_of_ok h.1 h.2).2

/-- What does not see the mode and the program counter sees of the machine after a call what the
instruction of the call leaves. -/
theorem seen_of_instruction? {γ : Type} {f : Machine → γ}
    (hf : ∀ (m : Machine) mode pc, f { m with mode := mode, pc := pc } = f m)
    (hi : m.instruction? c = some i) :
    f (m.call c).machine = f (Work.left (i.effect.run (m.ready c))) := by
  have hcall := call_of_instruction? hi
  cases hr : i.effect.run (m.ready c) with
  | ok u m' =>
    rw [hr] at hcall
    rw [hcall.2]
    rfl
  | error stop m' =>
    rw [hr] at hcall
    cases stop with
    | crash =>
      obtain ⟨-, a, hmachine⟩ := hcall
      rw [hmachine]
      exact hf m' _ _
    | fault =>
      rw [hcall.2]
      exact hf m' _ _

/-! ## Calls that run no instruction -/

/-- Such a call changes what the host has to do with, and memory only to load a program. -/
theorem machine_of_host (m : Machine) (hs : c.single) (hr : c.runs = false) :
    ∃ memory keypad mode delay sound display,
      (m.call c).machine = { m with
        memory := memory, keypad := keypad, mode := mode, delay := delay, sound := sound
        display := display } ∧
      ((∀ program, c ≠ .load program) → memory = m.memory) := by
  cases c with
  | load program =>
    rw [call, load]
    cases m.memory.load program <;>
      exact ⟨_, _, _, _, _, _, rfl, fun h => absurd rfl (h program)⟩
  | setKey k b =>
    rw [call, setKey]
    cases m.keypad.set k b <;> exact ⟨_, _, _, _, _, _, rfl, fun _ => rfl⟩
  | pause =>
    rw [call, pause]
    cases m.mode <;> exact ⟨_, _, _, _, _, _, rfl, fun _ => rfl⟩
  | resume =>
    rw [call, resume]
    cases m.mode <;> exact ⟨_, _, _, _, _, _, rfl, fun _ => rfl⟩
  | togglePause =>
    rw [call, togglePause, pause, resume]
    cases m.mode <;> exact ⟨_, _, _, _, _, _, rfl, fun _ => rfl⟩
  | tickDelay | tickSound | takeRedraw => exact ⟨_, _, _, _, _, _, rfl, fun _ => rfl⟩
  | step | cycle | stepWith | execute => cases hr
  | executeAll | reset => cases hs

theorem reason?_of_host (m : Machine) (hs : c.single) (hr : c.runs = false) :
    (m.call c).machine.mode.reason? = m.mode.reason? := by
  cases c with
  | load program =>
    rw [call, load]
    cases m.memory.load program <;> rfl
  | setKey k b =>
    rw [call, setKey]
    cases m.keypad.set k b <;> rfl
  | pause | resume | togglePause =>
    cases hm : m.mode <;> simp [call, togglePause, pause, resume, hm, Turn.done, Mode.reason?]
  | tickDelay | tickSound | takeRedraw => rfl
  | step | cycle | stepWith | execute => cases hr
  | executeAll | reset => cases hs

theorem result_of_host (m : Machine) (hs : c.single) (hr : c.runs = false) :
    (∃ reply, (m.call c).result = .ok reply) ∨
      (∃ size room, (m.call c).result = .error (.fault (.tooLarge size room))) ∨
      ∃ k, (m.call c).result = .error (.fault (.noSuchKey k)) := by
  cases c with
  | load program =>
    rw [call, load, Memory.load]
    by_cases h : program.length ≤ Memory.room
    · rw [if_pos h]
      exact .inl ⟨_, rfl⟩
    · rw [if_neg h]
      exact .inr (.inl ⟨_, _, rfl⟩)
  | setKey k b =>
    rw [call, setKey, Keypad.set]
    by_cases h : k.toNat < 16
    · rw [dif_pos h]
      exact .inl ⟨_, rfl⟩
    · rw [dif_neg h]
      exact .inr (.inr ⟨_, rfl⟩)
  | pause | resume | togglePause | tickDelay | tickSound | takeRedraw => exact .inl ⟨_, rfl⟩
  | step | cycle | stepWith | execute => cases hr
  | executeAll | reset => cases hs

end Machine

end Chip8
