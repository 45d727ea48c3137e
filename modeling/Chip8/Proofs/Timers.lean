import Chip8.Proofs.Lockstep

/-!
# The timers are determined by their history

A timer holds what was moved into it last, less the counts since then, and never less than zero
(`timers_from_history`). What can be moved into it is the value of a register, by the instruction for
that timer, and zero, by a return to power-on (`Machine.moved?`). No other call changes a timer but the
one that counts it down, so a run in which nothing is moved into the timer counts it down as often as
the host asks for (`value_after`).
-/

namespace Chip8

/-- One of the two timers. -/
inductive Timer where
  | delay
  | sound
  deriving DecidableEq

namespace Timer

/-- The value of the timer. -/
def value : Timer → Machine → UInt8
  | delay => Machine.delay
  | sound => Machine.sound

/-- The machine with `v` in the timer. -/
def put : Timer → Machine → UInt8 → Machine
  | delay, m, v => { m with delay := v }
  | sound, m, v => { m with sound := v }

/-- The instruction that moves the value of the register `x` into the timer. -/
def setter : Timer → UInt8 → Instruction
  | delay, x => .setDelay x
  | sound, x => .setSound x

/-- The call that counts the timer down. -/
def tick : Timer → Call
  | delay => .tickDelay
  | sound => .tickSound

/-- The register whose value an instruction moves into the timer, if it does. -/
def source? : Timer → Instruction → Option UInt8
  | delay, .setDelay x => some x
  | sound, .setSound x => some x
  | _, _ => none

end Timer

namespace Machine

/-- What a call moves into the timer, if it does: the value of a register, or zero at power-on. -/
def moved? (m : Machine) (t : Timer) (c : Call) : Option UInt8 :=
  if c = .reset then some 0 else ((m.performed? c).bind t.source?).bind m.register?

/-- No call of a run moves anything into the timer. -/
def Unmoved (m : Machine) (t : Timer) (cs : List Call) : Prop :=
  m.Along (fun m c => m.moved? t c = none) cs

instance (m : Machine) (t : Timer) (cs : List Call) : Decidable (m.Unmoved t cs) :=
  inferInstanceAs (Decidable (m.Along (fun m c => m.moved? t c = none) cs))

/-- What the run `cs` moved into the timer last is `v`, and `since` are the calls after that. Where
nothing was moved, it is the zero of power-on. -/
inductive LastMoved (m : Machine) (t : Timer) : List Call → UInt8 → List Call → Prop
  | moved (before : List Call) (c : Call) {since : List Call} {v : UInt8}
      (hv : (m.after before).moved? t c = some v)
      (hsince : ((m.after before).call c).machine.Unmoved t since) :
      LastMoved m t (before ++ c :: since) v since
  | unmoved {cs : List Call} (h : m.Unmoved t cs) : LastMoved m t cs 0 cs

variable {m : Machine} {t : Timer} {c : Call} {cs since : List Call} {i : Instruction} {v x : UInt8}

/-! ## One call -/

theorem eq_setter_of_source? (hx : t.source? i = some x) : i = t.setter x := by
  cases t <;> cases i <;> cases hx <;> rfl

theorem run_setter (m : Machine) (t : Timer) (x : UInt8) :
    (t.setter x).effect.run m =
      match m.register? x with
      | some v => .ok () (t.put m v)
      | none => .error .crash m := by
  cases t with
  | delay | sound =>
    rw [Timer.setter, Instruction.effect, Work.register]
    simp only [EStateM.run_bind, EStateM.run_get]
    cases m.register? x <;> rfl

theorem value_of_source? (hx : t.source? i = some x) (m : Machine) :
    t.value (Work.left (i.effect.run m)) = (m.register? x).getD (t.value m) := by
  rw [eq_setter_of_source? hx, run_setter]
  cases t with
  | delay | sound => cases m.register? x <;> rfl

theorem keeps_value (hx : t.source? i = none) : Work.Keeps t.value i.effect := by
  cases t with
  | delay =>
    refine Work.keeps_part .delay ?_
    cases i <;> first | rfl | cases hx
  | sound =>
    refine Work.keeps_part .sound ?_
    cases i <;> first | rfl | cases hx

theorem moved?_of_source? (hi : m.instruction? c = some i) (hx : t.source? i = some x) :
    m.moved? t c = m.register? x := by
  have hreset : c ≠ .reset := by
    rintro rfl
    cases runs_of_instruction? hi
  rw [moved?, if_neg hreset]
  cases hv : m.register? x with
  | none =>
    cases hp : m.performed? c with
    | none => rfl
    | some j =>
      cases (performed?_eq_some_iff.mp hp).1.symm.trans hi
      simp [hx, hv]
  | some v =>
    have hready : (m.ready c).register? x = some v := hv
    have hr : i.effect.run (m.ready c) = .ok () (t.put (m.ready c) v) := by
      rw [eq_setter_of_source? hx, run_setter, hready]
    have hp := performed?_eq_some_iff.mpr ⟨hi, (call_of_effect hi hr).1⟩
    simp [hp, hx, hv]

theorem moved?_of_source?_eq_none (hreset : c ≠ .reset)
    (h : ∀ i, m.instruction? c = some i → t.source? i = none) : m.moved? t c = none := by
  rw [moved?, if_neg hreset]
  cases hp : m.performed? c with
  | none => rfl
  | some i => simp [h i (performed?_eq_some_iff.mp hp).1]

theorem value_of_runs (hr : c.runs) :
    t.value (m.call c).machine = (m.moved? t c).getD (t.value m) := by
  by_cases h : ∃ i x, m.instruction? c = some i ∧ t.source? i = some x
  · obtain ⟨i, x, hi, hx⟩ := h
    have hseen : t.value (m.call c).machine = t.value (Work.left (i.effect.run (m.ready c))) :=
      seen_of_instruction? (by cases t <;> exact fun _ _ _ => rfl) hi
    rw [hseen, value_of_source? hx, moved?_of_source? hi hx]
    cases t <;> rfl
  · have hnone : ∀ i, m.instruction? c = some i → t.source? i = none := by
      intro i hi
      cases hx : t.source? i with
      | none => rfl
      | some x => exact absurd ⟨i, x, hi, hx⟩ h
    have hreset : c ≠ .reset := by
      rintro rfl
      cases hr
    rw [moved?_of_source?_eq_none hreset hnone]
    exact kept_of_runs hr (by cases t <;> exact fun _ _ _ _ _ => rfl) fun i hi =>
      keeps_value (hnone i hi)

/-- After a call the timer holds what the call moves into it, if it does. Otherwise it is counted down
by its own call and left by every other. -/
theorem value_call (hone : c.isMany = false) :
    t.value (m.call c).machine =
      (m.moved? t c).getD (if c = t.tick then countDown (t.value m) else t.value m) := by
  cases hr : c.runs with
  | true =>
    have htick : c ≠ t.tick := by
      rintro rfl
      cases t <;> cases hr
    rw [value_of_runs hr, if_neg htick]
  | false =>
    have hmoved : c ≠ .reset → m.moved? t c = none := by
      intro hreset
      rw [moved?, if_neg hreset, performed?_of_host m hr]
      rfl
    cases c with
    | reset => cases t <;> rfl
    | load program =>
      rw [hmoved Call.noConfusion, call, load]
      cases m.memory.load program <;> cases t <;> rfl
    | setKey k b =>
      rw [hmoved Call.noConfusion, call, setKey]
      cases m.keypad.set k b <;> cases t <;> rfl
    | pause | resume | togglePause =>
      rw [hmoved Call.noConfusion, call]
      cases hm : m.mode <;> cases t <;>
        simp [togglePause, pause, resume, hm, Turn.done, Timer.value, Timer.tick]
    | tickDelay | tickSound | takeRedraw =>
      rw [hmoved Call.noConfusion]
      cases t <;> rfl
    | step | cycle | stepWith | execute => cases hr
    | executeAll => cases hone

/-! ## Runs -/

theorem value_after (hcs : ∀ c ∈ cs, c.isMany = false) (h : m.Unmoved t cs) :
    (t.value (m.after cs)).toNat = (t.value m).toNat - cs.count t.tick := by
  induction cs generalizing m with
  | nil => rfl
  | cons c cs ih =>
    obtain ⟨hc, hrest⟩ := h
    have hcall := value_call (m := m) (t := t) (hcs c List.mem_cons_self)
    rw [hc, Option.getD_none] at hcall
    rw [after, ih (fun d hd => hcs d (List.mem_cons_of_mem c hd)) hrest, hcall]
    by_cases htick : c = t.tick
    · rw [if_pos htick, toNat_countDown, htick, List.count_cons_self]
      omega
    · rw [if_neg htick, List.count_cons_of_ne htick]

theorem value_of_lastMoved (hcs : ∀ c ∈ cs, c.isMany = false) (hm : t.value m = 0)
    (h : m.LastMoved t cs v since) :
    (t.value (m.after cs)).toNat = v.toNat - since.count t.tick := by
  cases h with
  | moved before c hv hsince =>
    have hone : c.isMany = false := hcs c (by simp)
    have hrest : ∀ d ∈ since, d.isMany = false := fun d hd => hcs d (by simp [hd])
    have hcall := value_call (m := m.after before) (t := t) hone
    rw [hv, Option.getD_some] at hcall
    rw [after_append, after, value_after hrest hsince, hcall]
  | unmoved h => rw [value_after hcs h, hm]

theorem exists_lastMoved (m : Machine) (t : Timer) (cs : List Call) :
    ∃ v since, m.LastMoved t cs v since := by
  induction cs generalizing m with
  | nil => exact ⟨0, [], .unmoved trivial⟩
  | cons c cs ih =>
    obtain ⟨v, since, h⟩ := ih (m.call c).machine
    cases h with
    | moved before d hv hsince => exact ⟨v, since, .moved (c :: before) d hv hsince⟩
    | unmoved h =>
      cases hc : m.moved? t c with
      | some v => exact ⟨v, cs, .moved [] c hc h⟩
      | none => exact ⟨0, c :: cs, .unmoved ⟨hc, h⟩⟩

/-- **The timers are determined by their history.** After any run from power-on a timer holds what was
moved into it last, less the times that it was counted down since then, and zero if these are more. The
host should make a sound exactly if the sound timer is positive. Counting down does this to a machine in
any mode, also one that waits for a key, and nothing else. -/
theorem timers_from_history (dialect : Dialect) (generator : Generator) (cs : List Call)
    (hcs : ∀ c ∈ cs, c.RegistersValid) :
    let m := initial dialect generator
    (∀ t : Timer, (∃ v since, m.LastMoved t (m.unroll cs) v since) ∧
      ∀ v since, m.LastMoved t (m.unroll cs) v since →
        (t.value (m.after cs)).toNat = v.toNat - since.count t.tick) ∧
    ((m.after cs).soundActive = true ↔ 0 < (Timer.sound.value (m.after cs)).toNat) ∧
    ∀ (t : Timer) (m' : Machine), ∃ v : UInt8, v.toNat = (t.value m').toNat - 1 ∧
      m'.call t.tick = .done .done (t.put m' v) := by
  intro m
  refine ⟨fun t => ⟨exists_lastMoved m t _, fun v since h => ?_⟩, ?_, fun t m' => ?_⟩
  · have hone : ∀ c ∈ m.unroll cs, c.isMany = false :=
      fun c hc => (valid_of_mem_unroll hcs c hc).1
    have hzero : t.value m = 0 := by cases t <;> rfl
    rw [← after_unroll, value_of_lastMoved hone hzero h]
  · exact decide_eq_true_iff
  · exact ⟨countDown (t.value m'), toNat_countDown _, by cases t <;> rfl⟩

/-- Both timers are set to five by a call that fails then, and counted down on the halted machine. -/
theorem timers_from_history_halted :
    let m := initial {} (Generator.ofSeed 0)
    let ticks : List Call := [.tickDelay, .tickSound, .tickDelay]
    let cs : List Call := [.stepWith 0x6005, .executeAll [.setDelay 0, .setSound 0, .ret]] ++ ticks
    (∀ c ∈ cs, c.RegistersValid) ∧
      m.LastMoved .delay (m.unroll cs) 5 ([.execute (.setSound 0), .execute .ret] ++ ticks) ∧
      m.LastMoved .sound (m.unroll cs) 5 (.execute .ret :: ticks) ∧
      (m.after cs).delay.toNat = 3 ∧ (m.after cs).sound.toNat = 4 := by
  intro m ticks cs
  have hcs : ∀ c ∈ cs, c.RegistersValid := by
    simp [cs, ticks, Call.RegistersValid, Call.instructions, Instruction.RegistersValid,
      Instruction.operands]
  have hdelay : m.LastMoved .delay (m.unroll cs) 5
      ([.execute (.setSound 0), .execute .ret] ++ ticks) :=
    .moved [.stepWith 0x6005] (.execute (.setDelay 0)) (by decide +kernel) (by decide +kernel)
  have hsound : m.LastMoved .sound (m.unroll cs) 5 (.execute .ret :: ticks) :=
    .moved [.stepWith 0x6005, .execute (.setDelay 0)] (.execute (.setSound 0)) (by decide +kernel)
      (by decide +kernel)
  obtain ⟨hvalue, -, -⟩ := timers_from_history {} (Generator.ofSeed 0) cs hcs
  exact ⟨hcs, hdelay, hsound, (hvalue .delay).2 _ _ hdelay, (hvalue .sound).2 _ _ hsound⟩

end Machine

end Chip8
