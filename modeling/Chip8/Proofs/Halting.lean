import Chip8.Proofs.Runs
import Chip8.Proofs.Safety

/-!
# A halted machine

A halted machine runs nothing: whatever asks it to is refused with the fault that halted it, wrapped
once. What the host still can do is to load programs, to count the timers down, to press keys and to
take the redraw request, so all that such a machine can become is a fold over the calls (`still`). A
reset alone starts it again.

The halt is reported once. A call reports an error exactly if the machine was not halted before it
and is after it, so a run without a reset reports one error at most (`halting_is_final`).
-/

namespace Chip8

/-- What is left of the memory of a halted machine by a call. -/
def Memory.heed (memory : Memory) : Call → Memory
  | .load program => (memory.load program).toOption.getD memory
  | _ => memory

/-- What is left of the keypad of a halted machine by a call. -/
def Keypad.heed (keypad : Keypad) : Call → Keypad
  | .setKey k pressed => (keypad.set k pressed).toOption.getD keypad
  | _ => keypad

/-- Whether a call asks for an instruction to be run. -/
def Call.demands : Call → Bool
  | .step | .cycle | .stepWith _ | .execute _ => true
  | .executeAll is => !is.isEmpty
  | _ => false

/-- Whether a call does something to a halted machine without a reset. -/
def Call.heeded : Call → Bool
  | .load _ | .setKey _ _ | .tickDelay | .tickSound | .takeRedraw => true
  | _ => false

/-- The errors that a turn reports. -/
def Turn.errors {α : Type} (t : Turn α) : List Event := t.log.filter fun e => e.level = .error

theorem Event.line_halting (pc : UInt16) (f : Fault) :
    (halting pc f).line =
      "ERROR Halting at " ++ Numeral.hex 3 pc.toNat ++ ": " ++ f.message := by
  have hline : (halting pc f).line =
      "ERROR" ++ " " ++ ("Halting at " ++ Numeral.hex 3 pc.toNat ++ ": " ++ f.message) := rfl
  have hstart : "ERROR" ++ " " ++ "Halting at " = "ERROR Halting at " := by decide
  rw [hline, ← hstart]
  simp only [String.append_assoc]

namespace Machine

/-- What calls leave of a halted machine, unless they reset it. -/
def still (m : Machine) (cs : List Call) : Machine := { m with
  memory := cs.foldl Memory.heed m.memory
  keypad := cs.foldl Keypad.heed m.keypad
  delay := UInt8.ofNat (m.delay.toNat - cs.count .tickDelay)
  sound := UInt8.ofNat (m.sound.toNat - cs.count .tickSound)
  display := { m.display with redraw := m.display.redraw && !cs.contains .takeRedraw } }

/-- The machine on which the first of several instructions fails, or the last of them ends. -/
def failing (m : Machine) : List Instruction → Machine
  | [] => m
  | i :: is =>
    match (m.execute i).result with
    | .ok _ => (m.execute i).machine.failing is
    | .error _ => m

/-- The machine on which the instruction is run that a call ends with. -/
def ending (m : Machine) : Call → Machine
  | .executeAll is => m.failing is
  | _ => m

/-- The error that is due for a machine that has become `m'`, if it halted on the way. -/
def halting (m m' : Machine) : List Event :=
  match m.mode.reason?, m'.mode.reason? with
  | none, some f => [.halting m'.pc f]
  | _, _ => []

variable {m m' : Machine} {c : Call} {cs : List Call} {f : Fault}

/-! ## The calls on a halted machine -/

theorem ofNat_toNat_sub (t : UInt8) (j k : Nat) :
    UInt8.ofNat ((UInt8.ofNat (t.toNat - j)).toNat - k) = UInt8.ofNat (t.toNat - (j + k)) := by
  have ht := t.toNat_lt
  rw [UInt8.toNat_ofNat_of_lt' (Nat.lt_of_le_of_lt (Nat.sub_le _ _) ht), Nat.sub_sub]

theorem still_nil (m : Machine) : m.still [] = m := by
  simp [still]

theorem still_cons (m : Machine) (c : Call) (cs : List Call) :
    m.still (c :: cs) = (m.still [c]).still cs := by
  have hcount : ∀ d, (c :: cs).count d = [c].count d + cs.count d := by
    intro d
    rw [← List.count_append, List.singleton_append]
  have hredraw : (m.display.redraw && !(c :: cs).contains .takeRedraw) =
      ((m.display.redraw && !([c].contains .takeRedraw)) && !cs.contains .takeRedraw) := by
    simp [Bool.and_assoc]
  simp only [still, hcount, ofNat_toNat_sub, hredraw, List.foldl_cons, List.foldl_nil]

theorem countDown_eq (t : UInt8) : countDown t = UInt8.ofNat (t.toNat - 1) := by
  have hlt : t.toNat - 1 < UInt8.size := Nat.lt_of_le_of_lt (Nat.sub_le _ _) t.toNat_lt
  rw [← UInt8.toNat_inj, toNat_countDown, UInt8.toNat_ofNat_of_lt' hlt]

theorem still_of_unheeded (hc : c.heeded = false) : m.still [c] = m := by
  cases c with
  | load | setKey | tickDelay | tickSound | takeRedraw => cases hc
  | _ => simp [still, Memory.heed, Keypad.heed]

theorem call_of_demand (hm : m.mode = .halted f) (hc : c.demands) :
    m.call c = .refused (.halted f) m := by
  cases c with
  | step =>
    rw [call, step, unlessHalted_of_halted hm]
    rfl
  | cycle =>
    have hp : m.mode ≠ .paused := by
      rw [hm]
      exact Mode.noConfusion
    rw [call, cycle, if_neg hp, step, unlessHalted_of_halted hm]
    rfl
  | stepWith w =>
    rw [call, stepWith, unlessHalted_of_halted hm]
    rfl
  | execute i =>
    rw [call, execute, unlessHalted_of_halted hm]
    rfl
  | executeAll is =>
    cases is with
    | nil => cases hc
    | cons i is =>
      rw [call, executeAll, execute, unlessHalted_of_halted hm]
      rfl
  | _ => cases hc

theorem machine_of_halted (hm : m.mode = .halted f) (hc : c ≠ .reset) :
    (m.call c).machine = m.still [c] := by
  cases c with
  | reset => exact absurd rfl hc
  | step | cycle | stepWith | execute =>
    rw [call_of_demand hm rfl, still_of_unheeded rfl]
    rfl
  | executeAll is =>
    rw [still_of_unheeded rfl]
    cases is with
    | nil => rfl
    | cons i is =>
      rw [call_of_demand hm rfl]
      rfl
  | pause | resume | togglePause =>
    rw [still_of_unheeded rfl]
    simp [call, pause, resume, togglePause, hm, Turn.done]
  | load program =>
    rw [call, load]
    cases hl : m.memory.load program <;>
      simp [still, Memory.heed, Keypad.heed, hl, Except.toOption, Turn.map, Turn.refused]
  | setKey k b =>
    rw [call, setKey]
    cases hk : m.keypad.set k b <;>
      simp [still, Memory.heed, Keypad.heed, hk, Except.toOption, Turn.map, Turn.refused, Turn.done]
  | tickDelay =>
    simp [call, tickDelay, still, Memory.heed, Keypad.heed, countDown_eq, Turn.done]
  | tickSound =>
    simp [call, tickSound, still, Memory.heed, Keypad.heed, countDown_eq, Turn.done]
  | takeRedraw =>
    simp [call, takeRedraw, still, Memory.heed, Keypad.heed, Display.takeRedraw, Turn.done]

/-- Until a reset, a halted machine stays as it is but for what the host does to it. -/
theorem after_of_halted (hm : m.mode = .halted f) (hcs : .reset ∉ cs) :
    m.after cs = m.still cs := by
  induction cs generalizing m with
  | nil => exact (still_nil m).symm
  | cons c cs ih =>
    have hc : c ≠ .reset := fun h => hcs (h ▸ List.mem_cons_self)
    rw [still_cons, after, machine_of_halted hm hc]
    exact ih hm fun h => hcs (List.mem_cons_of_mem c h)

/-! ## What is reported -/

theorem halting_of_eq (h : m'.mode.reason? = m.mode.reason?) : m.halting m' = [] := by
  unfold halting
  rw [h]
  cases m.mode.reason? <;> rfl

theorem halting_of_halted (h : m.mode = .halted f) (m' : Machine) : m.halting m' = [] := by
  simp [halting, h, Mode.reason?]

theorem halting_of_fault (hm : m.mode.reason? = none) (hf : m'.mode = .halted f) :
    m.halting m' = [.halting m'.pc f] := by
  simp only [halting, hm, Mode.reason?_eq_some_iff.mpr hf]

theorem halting_congr {m₁ : Machine} (h : m₁.mode.reason? = m.mode.reason?) (m' : Machine) :
    m₁.halting m' = m.halting m' := by
  simp only [halting, h]

theorem length_halting_le (m m' : Machine) : (m.halting m').length ≤ 1 := by
  unfold halting
  split
  · exact Nat.le_refl 1
  · exact Nat.zero_le 1

theorem level_events (i : Instruction) (m : Machine) : ∀ e ∈ i.events m, e.level ≠ .error := by
  intro e he
  cases i with
  | sys a =>
    obtain rfl := List.mem_singleton.mp he
    nofun
  | awaitKey x =>
    simp only [Instruction.events] at he
    split at he
    · obtain rfl := List.mem_singleton.mp he
      nofun
    · split at he
      · cases he
      · obtain rfl := List.mem_singleton.mp he
        nofun
  | _ => cases he

theorem keeps_mode_perform (i : Instruction) : Work.Keeps Machine.mode (Work.perform i) :=
  .bind (.modify fun _ => rfl) fun _ => Work.keeps_mode i

theorem keeps_mode_advance (i : Instruction) : Work.Keeps Machine.mode (Work.advance i) := by
  intro m
  have hp := keeps_mode_perform i m.pastInstruction
  simp only [EStateM.run, Work.advance] at hp ⊢
  cases hr : Work.perform i m.pastInstruction <;> rw [hr] at hp <;> exact hp

theorem filter_error_eq_nil {log : List Event} (hlog : ∀ e ∈ log, e.level ≠ .error) :
    log.filter (fun e => e.level = .error) = [] := by
  rw [List.filter_eq_nil_iff]
  exact fun e he => by simpa using hlog e he

/-- A fault is reported where work is concluded, and nowhere before. -/
theorem errors_conclude_fault {log : List Event} (hlog : ∀ e ∈ log, e.level ≠ .error)
    (hm : m.mode.reason? = none) (f : Fault) (m₁ : Machine) :
    (Turn.conclude log (.error (.fault f) m₁)).errors =
      m.halting (Turn.conclude log (.error (.fault f) m₁)).machine := by
  rw [Turn.conclude_fault, halting_of_fault (f := f) hm rfl, Turn.errors, List.filter_append,
    filter_error_eq_nil hlog]
  rfl

theorem errors_conclude {log : List Event} {w : Work Unit} (hlog : ∀ e ∈ log, e.level ≠ .error)
    (hm : m.mode.reason? = none) (hw : Work.Keeps Machine.mode w) :
    (Turn.conclude log (w.run m)).errors = m.halting (Turn.conclude log (w.run m)).machine := by
  have hmode := hw m
  have hnone := filter_error_eq_nil hlog
  cases hr : w.run m with
  | ok u m' =>
    rw [hr] at hmode
    exact hnone.trans (halting_of_eq (congrArg Mode.reason? hmode)).symm
  | error stop m' =>
    rw [hr] at hmode
    cases stop with
    | crash => exact hnone.trans (halting_of_eq (congrArg Mode.reason? hmode)).symm
    | fault f => exact errors_conclude_fault hlog hm f m'

theorem errors_run (w : Word) (hm : m.mode.reason? = none) :
    (m.run w).errors = m.halting (m.run w).machine := by
  unfold run
  cases Instruction.decode w with
  | error f => exact errors_conclude_fault (List.forall_mem_nil _) hm f _
  | ok i =>
    refine errors_conclude (m := { m with lastWord := some w }) ?_ hm (keeps_mode_advance i)
    intro e he
    rcases List.mem_cons.mp he with rfl | he
    · nofun
    · exact level_events i _ e he

theorem errors_step (hm : m.mode.reason? = none) : m.step.errors = m.halting m.step.machine := by
  unfold step
  rw [unlessHalted_of_reason?_eq_none hm]
  cases m.awaiting with
  | some x => exact errors_conclude (level_events _ m) hm (keeps_mode_advance _)
  | none =>
    simp only [fetch]
    cases m.memory.word m.pc.toNat with
    | ok w => exact errors_run w hm
    | error f => exact errors_conclude_fault (List.forall_mem_nil _) hm f _

theorem errors_of_runs (m : Machine) (hc : c.runs) :
    (m.call c).errors = m.halting (m.call c).machine := by
  cases hm : m.mode.reason? with
  | some f =>
    have hf := Mode.reason?_eq_some_iff.mp hm
    have hd : c.demands := by cases c <;> first | rfl | cases hc
    rw [call_of_demand hf hd, halting_of_halted hf]
    rfl
  | none =>
    cases c with
    | step => exact errors_step hm
    | cycle =>
      by_cases hp : m.mode = .paused
      · rw [call, cycle, if_pos hp]
        exact (halting_of_eq (m := m) rfl).symm
      · rw [cycle_of_not_paused hp]
        exact errors_step hm
    | stepWith w =>
      rw [call, stepWith, unlessHalted_of_reason?_eq_none hm]
      exact errors_run w hm
    | execute i =>
      rw [call, execute, unlessHalted_of_reason?_eq_none hm]
      exact errors_conclude (level_events i m) hm (keeps_mode_perform i)
    | _ => cases hc

theorem errors_of_host (m : Machine) (hs : c.single) (hr : c.runs = false) :
    (m.call c).errors = m.halting (m.call c).machine := by
  rw [halting_of_eq (reason?_of_host m hs hr)]
  cases c with
  | load program =>
    rw [call, load]
    cases m.memory.load program <;> rfl
  | setKey k b =>
    rw [call, setKey]
    cases m.keypad.set k b <;> rfl
  | pause | resume | togglePause | tickDelay | tickSound | takeRedraw => rfl
  | step | cycle | stepWith | execute => cases hr
  | executeAll | reset => cases hs

theorem reason?_of_ok {reply : Reply} (hc : c.runs) (h : (m.call c).result = .ok reply) :
    (m.call c).machine.mode.reason? = m.mode.reason? := by
  have ho := outcome_call m hc
  rw [h] at ho
  generalize hreply : Except.ok reply = r, (m.call c).machine = m' at ho ⊢
  cases ho with
  | idle => rfl
  | ended hi hr => exact congrArg Mode.reason? (mode_of_ended hr)
  | _ => cases hreply

theorem reason?_of_execute_ok {i : Instruction} {u : Unit} (h : (m.execute i).result = .ok u) :
    (m.execute i).machine.mode.reason? = m.mode.reason? := by
  have hcall : (m.call (.execute i)).result = .ok .done := by
    rw [call, Turn.map, h]
    rfl
  exact reason?_of_ok (c := .execute i) rfl hcall

theorem halts_of_runs (hc : c.runs) (hn : m.mode.reason? = none)
    (hf : (m.call c).machine.mode = .halted f) :
    (m.call c).result = .error (.fault f) ∧ (m.call c).machine.pc = m.pc := by
  have ho := outcome_call m hc
  generalize (m.call c).result = r, (m.call c).machine = m' at ho hf ⊢
  cases ho with
  | refused hm =>
    rw [hm] at hn
    cases hn
  | idle _ hm =>
    rw [hm] at hf
    cases hf
  | unfetched | undecoded | failed =>
    cases hf
    exact ⟨rfl, rfl⟩
  | ended hi hr =>
    rw [← mode_of_ended hr, hf] at hn
    cases hn
  | @crashed i m₁ a hi hr =>
    rw [← mode_of_stopped hr, show m₁.mode = .halted f from hf] at hn
    cases hn

theorem errors_executeAll (m : Machine) (is : List Instruction) :
    (m.executeAll is).errors = m.halting (m.executeAll is).machine := by
  induction is generalizing m with
  | nil => exact (halting_of_eq rfl).symm
  | cons i is ih =>
    have hi : (m.execute i).errors = m.halting (m.execute i).machine :=
      errors_of_runs m (c := .execute i) rfl
    cases hr : (m.execute i).result with
    | error stop => rwa [executeAll_cons_of_error hr]
    | ok u =>
      -- An instruction that ends halts nothing, so the error that is due comes after it.
      have hreason := reason?_of_execute_ok hr
      rw [executeAll_cons_of_ok hr, ← halting_congr hreason, ← ih]
      simp only [Turn.errors, List.filter_append]
      rw [show (m.execute i).log.filter (fun e => e.level = .error) = _ from hi,
        halting_of_eq hreason, List.nil_append]

theorem halts_of_executeAll (is : List Instruction) (hn : m.mode.reason? = none)
    (hf : (m.executeAll is).machine.mode = .halted f) :
    (m.executeAll is).result = .error (.fault f) ∧
      (m.executeAll is).machine.pc = (m.failing is).pc := by
  induction is generalizing m with
  | nil =>
    rw [show m.mode = .halted f from hf] at hn
    cases hn
  | cons i is ih =>
    cases hr : (m.execute i).result with
    | error stop =>
      rw [executeAll_cons_of_error hr] at hf ⊢
      obtain ⟨hresult, hpc⟩ := halts_of_runs (c := .execute i) rfl hn hf
      simp only [failing, hr]
      exact ⟨Turn.result_of_map_error hresult ▸ hr.symm ▸ rfl, hpc⟩
    | ok u =>
      rw [executeAll_cons_of_ok hr] at hf ⊢
      simp only [failing, hr]
      exact ih ((reason?_of_execute_ok hr).trans hn) hf

theorem errors_call (m : Machine) (c : Call) :
    (m.call c).errors = m.halting (m.call c).machine := by
  cases hr : c.runs with
  | true => exact errors_of_runs m hr
  | false =>
    cases c with
    | executeAll is => exact errors_executeAll m is
    | reset => cases hm : m.mode.reason? <;> simp only [halting, hm] <;> rfl
    | _ => exact errors_of_host m rfl hr

/-- A call that halts the machine fails with the fault that halted it, and leaves the program
counter at the instruction that failed. -/
theorem halts_call (hn : m.mode.reason? = none) (hf : (m.call c).machine.mode = .halted f) :
    (m.call c).result = .error (.fault f) ∧ (m.call c).machine.pc = (m.ending c).pc := by
  cases hr : c.runs with
  | true =>
    have h := halts_of_runs hr hn hf
    cases c <;> first | exact h | cases hr
  | false =>
    cases c with
    | executeAll is =>
      obtain ⟨hresult, hpc⟩ := halts_of_executeAll is hn hf
      exact ⟨by rw [call, Turn.map, hresult]; rfl, hpc⟩
    | reset => cases hf
    | step | cycle | stepWith | execute => cases hr
    | _ =>
      rw [← reason?_of_host m rfl hr, hf] at hn
      cases hn

/-- A run without a reset reports the error that is due for what it leaves of the machine. -/
theorem errors_calls (m : Machine) (hcs : .reset ∉ cs) :
    (m.calls cs).flatMap Turn.errors = m.halting (m.after cs) := by
  induction cs generalizing m with
  | nil => exact (halting_of_eq rfl).symm
  | cons c cs ih =>
    have hc : c ≠ .reset := fun h => hcs (h ▸ List.mem_cons_self)
    have hrest : .reset ∉ cs := fun h => hcs (List.mem_cons_of_mem c h)
    rw [calls, List.flatMap_cons, errors_call, ih _ hrest, after]
    cases hr : (m.call c).machine.mode.reason? with
    | some f =>
      -- Halted by this call or before it, the machine keeps its mode and its program counter.
      have hf := Mode.reason?_eq_some_iff.mp hr
      rw [halting_of_halted hf, List.append_nil, after_of_halted hf hrest]
      rfl
    | none =>
      cases hm : m.mode.reason? with
      | some f =>
        rw [machine_of_halted (Mode.reason?_eq_some_iff.mp hm) hc, still, hm] at hr
        cases hr
      | none =>
        rw [halting_of_eq (hr.trans hm.symm), halting_congr (hr.trans hm.symm), List.nil_append]

/-- **Halting is final and is reported once.** Until a reset, a halted machine becomes nothing but
what `still` tells, and refuses to run anything with the fault that halted it. A run without a reset
reports one error at most, and a call reports one exactly if it halts the machine; then the line
names the fault that the call returns, and the program counter, which the failure has left alone. -/
theorem halting_is_final :
    (∀ (m : Machine) (f : Fault) (cs : List Call), m.mode = .halted f → .reset ∉ cs →
      m.after cs = m.still cs ∧
        ∀ c, c.demands → (m.after cs).call c = .refused (.halted f) (m.after cs)) ∧
    (∀ (m : Machine) (cs : List Call), .reset ∉ cs →
      (m.calls cs).flatMap Turn.errors = m.halting (m.after cs) ∧
        ((m.calls cs).flatMap Turn.errors).length ≤ 1) ∧
    ∀ (m : Machine) (c : Call),
      (m.call c).errors = m.halting (m.call c).machine ∧
        ∀ f, m.mode.reason? = none → (m.call c).machine.mode = .halted f →
          (m.call c).result = .error (.fault f) ∧
            (m.call c).machine.pc = (m.ending c).pc ∧
            (m.call c).errors.map Event.line =
              ["ERROR Halting at " ++ Numeral.hex 3 (m.ending c).pc.toNat ++ ": " ++
                f.message] := by
  refine ⟨fun m f cs hm hcs => ?_, fun m cs hcs => ?_, fun m c => ⟨errors_call m c, ?_⟩⟩
  · have hafter := after_of_halted hm hcs
    have hmode : (m.after cs).mode = .halted f := hafter ▸ hm
    exact ⟨hafter, fun c hc => call_of_demand hmode hc⟩
  · have herrors := errors_calls m hcs
    exact ⟨herrors, herrors ▸ length_halting_le _ _⟩
  · intro f hn hf
    obtain ⟨hresult, hpc⟩ := halts_call hn hf
    refine ⟨hresult, hpc, ?_⟩
    rw [errors_call, halting_of_fault hn hf, hpc, List.map_singleton, Event.line_halting]

/-- A return with no call before it, then everything that the host may try. -/
theorem halting_is_final_underflow :
    let m := initial {} (Generator.ofSeed 0)
    let cs : List Call := [.load [0x12, 0x00], .tickDelay, .setKey 5 true, .resume, .togglePause,
      .executeAll [.clearScreen], .stepWith 0x00E0]
    let m' := (m.call (.stepWith 0x00EE)).machine
    m'.mode = .halted .stackUnderflow ∧ .reset ∉ cs ∧ m'.after cs = m'.still cs ∧
      (m'.after cs).call .step = .refused (.halted .stackUnderflow) (m'.after cs) ∧
      ((m.calls (.stepWith 0x00EE :: cs)).flatMap Turn.errors).length ≤ 1 ∧
      (m.call (.stepWith 0x00EE)).errors.map Event.line =
        ["ERROR Halting at " ++ Numeral.hex 3 0x200 ++ ": " ++ Fault.stackUnderflow.message] := by
  intro m cs m'
  obtain ⟨hstill, honce, herror⟩ := halting_is_final
  have hm : m.mode.reason? = none := rfl
  have hm' : m'.mode = .halted .stackUnderflow := rfl
  have hcs : .reset ∉ cs := by decide
  obtain ⟨hafter, hrefused⟩ := hstill m' .stackUnderflow cs hm' hcs
  obtain ⟨-, hlength⟩ := honce m (.stepWith 0x00EE :: cs) (by decide)
  obtain ⟨-, -, hline⟩ := (herror m (.stepWith 0x00EE)).2 .stackUnderflow hm hm'
  exact ⟨hm', hcs, hafter, hrefused .step rfl, hlength, hline⟩

end Machine

end Chip8
