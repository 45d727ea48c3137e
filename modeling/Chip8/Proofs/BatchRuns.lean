import Chip8.Batch
import Chip8.Proofs.Halting
import Chip8.Proofs.KeyWait

/-!
# Batch runs and their budgets

A batch run with a larger budget does what one with a smaller budget does, and goes on from there
unless that has ended (`budget_is_monotone`). What carries the proof is that a run which has not
ended has a machine that runs, awaits no key and will find none (`Going`). So there are three ways in
which a cycle can come out (`Attempt`): it runs an instruction and leaves such a machine, it runs into
a wait for a key, or it fails; and the run ends with the last two.
-/

namespace Chip8

/-! ## A cycle -/

namespace Machine

/-- A machine that runs, awaits no key and will find none. -/
structure Going (m : Machine) : Prop where
  running : m.mode = .running
  awaiting : m.awaiting = none
  released : m.keypad = Keypad.released
  sound : m.Sound

/-- The results and the machines that a cycle of such a machine can come to. -/
inductive Cycled (m : Machine) : Except Stop Bool → Machine → Prop
  /-- An instruction is run. -/
  | ran {i : Instruction} {m' : Machine} (hi : m.Performs .cycle i) (hne : ∀ x, i ≠ .awaitKey x)
      (hm : m'.Going) : Cycled m (.ok true) m'
  /-- A wait for a key begins, and the program counter stays. -/
  | awaits {x : UInt8} (hi : m.Performs .cycle (.awaitKey x)) :
      Cycled m (.ok true) { m.ready .cycle with pc := m.pc, awaiting := some x }
  /-- The cycle fails, and the program counter stays. -/
  | failed {f : Fault} {m' : Machine} (hmode : m'.mode = .halted f) (hpc : m'.pc = m.pc) :
      Cycled m (.error (.fault f)) m'

variable {m : Machine} {i : Instruction} {x : UInt8}

theorem going_tick (h : m.Going) : m.tick.Going where
  running := h.running
  awaiting := h.awaiting
  released := h.released
  sound := sound_of h.sound.index_le h.sound.awaiting_lt h.sound.reason

theorem performs_awaitKey (h : m.Going) (hi : m.instruction? .cycle = some (.awaitKey x)) :
    m.Performs .cycle (.awaitKey x) ∧
      (m.call .cycle).machine = { m.ready .cycle with pc := m.pc, awaiting := some x } := by
  have hnone : (m.ready .cycle).keypad.takeFirst? = none := by
    have hkeypad : (m.ready .cycle).keypad = Keypad.released := h.released
    rw [hkeypad]
    decide
  have hpc : (m.ready .cycle).pc - 2 = m.pc := UInt16.add_sub_cancel _ _
  obtain ⟨hresult, hmachine⟩ := call_of_effect hi (Work.run_pollKey_of_none (x := x) hnone)
  rw [hpc] at hmachine
  exact ⟨⟨hi, hresult⟩, hmachine⟩

theorem going_of_ended (h : m.Going) {m' : Machine} (hne : ∀ x, i ≠ .awaitKey x)
    (hr : i.effect.run (m.ready .cycle) = .ok () m') (hsound : m'.Sound) : m'.Going where
  running := (mode_of_ended hr).trans h.running
  awaiting := by
    cases hx : m'.awaiting with
    | none => rfl
    | some x =>
      obtain ⟨hi, -, -⟩ :=
        Work.awaiting_of_effect (m := m.ready .cycle) rfl (Work.left_of_ok hr) hx
      exact absurd hi (hne x)
  released := by
    have htouches : i.touches .keypad = false := by
      cases i with
      | awaitKey x => exact absurd rfl (hne x)
      | _ => rfl
    have hkept : m'.keypad = m.keypad :=
      (Work.keeps_part .keypad htouches).of_ok (m := m.ready .cycle) hr
    exact hkept.trans h.released
  sound := hsound

theorem result_cycle_of_call {b : Bool} (h : (m.call .cycle).result = .ok (.flag b)) :
    m.cycle.result = .ok b := by
  have hresult : (m.call .cycle).result = m.cycle.result.map .flag := rfl
  rw [hresult] at h
  cases hr : m.cycle.result with
  | ok b' =>
    rw [hr] at h
    cases h
    rfl
  | error stop =>
    rw [hr] at h
    cases h

theorem Performs.result_cycle (h : m.Performs .cycle i) : m.cycle.result = .ok true :=
  result_cycle_of_call h.2

/-- `Cycled` lists all that a cycle can come to. -/
theorem cycled (h : m.Going) : m.Cycled m.cycle.result m.cycle.machine := by
  have ho := outcome_call m (c := .cycle) rfl
  obtain ⟨hsound, hcrash⟩ := sound_run (c := .cycle) h.sound nofun rfl
  have hmachine : m.cycle.machine = (m.call .cycle).machine := rfl
  rw [hmachine]
  generalize hr : (m.call .cycle).result = r, hleft : (m.call .cycle).machine = m'
    at ho hsound hcrash ⊢
  cases ho with
  | refused hm | idle _ hm =>
    rw [h.running] at hm
    cases hm
  | unfetched | undecoded | failed =>
    rw [Turn.result_of_map_error hr]
    exact .failed rfl rfl
  | @ended i _ hi hrun =>
    rw [result_cycle_of_call hr]
    by_cases hx : ∃ x, i = .awaitKey x
    · obtain ⟨x, rfl⟩ := hx
      obtain ⟨hperforms, hwait⟩ := performs_awaitKey h hi
      rw [← hleft, hwait]
      exact .awaits hperforms
    · have hne : ∀ x, i ≠ .awaitKey x := fun x hi => hx ⟨x, hi⟩
      exact .ran ⟨hi, hr⟩ hne (going_of_ended h hne hrun hsound)
  | crashed => exact absurd rfl hcrash

end Machine

/-! ## A run -/

namespace Batch

/-- The run of a program, before its first cycle. -/
def loaded (options : Options) (program : List UInt8) : Progress :=
  .start ((Machine.initial options.dialect (Generator.ofSeed options.seed)).load program).machine

/-- What is done before the cycle `k` beside cycles. -/
def ticksBefore (k : Nat) : List Call :=
  if k % cyclesPerTick = 0 then [.tickDelay, .tickSound] else []

/-- What is done before the cycle `k`. -/
def callsBefore : Nat → List Call
  | 0 => ticksBefore 0
  | k + 1 => callsBefore k ++ .cycle :: ticksBefore (k + 1)

namespace Progress

/-- The machine that the next cycle is attempted on. -/
def due (p : Progress) : Machine :=
  if p.attempted % cyclesPerTick = 0 then p.machine.tick else p.machine

/-- The machines that a run attempts up to `n` more cycles on, one after the other. -/
def attempts (p : Progress) : Nat → List Machine
  | 0 => []
  | n + 1 => if p.ending.isSome then [] else p.due :: p.next.attempts n

/-- How far a run has come before the first of up to `n` more cycles, and after each. -/
def stages (p : Progress) : Nat → List Progress
  | 0 => [p]
  | n + 1 => if p.ending.isSome then [p] else p :: p.next.stages n

/-- A run that has not ended, nor come across an error. -/
structure Going (p : Progress) : Prop where
  ending : p.ending = none
  log : p.log = []
  machine : p.machine.Going

/-- What one more cycle makes of a run. -/
inductive Attempt (p : Progress) : Prop
  /-- The run goes on. -/
  | ran {i : Instruction} (hi : p.due.Performs .cycle i) (hne : ∀ x, i ≠ .awaitKey x)
      (hp : p.next.Going)
  /-- It ends with a wait for a key, which has no register changed. -/
  | awaits {x : UInt8} (hi : p.due.Performs .cycle (.awaitKey x))
      (he : p.next.ending = some .keyAwaited)
      (hm : p.next.machine = { p.due.ready .cycle with pc := p.due.pc, awaiting := some x })
  /-- It ends with a failing cycle, which is reported. -/
  | failed {f : Fault} (hf : p.due.cycle.result = .error (.fault f))
      (he : p.next.ending = some (.stopped (.fault f)))
      (hl : p.next.log = [.halting p.due.pc f])

/-- What can be told of the cycles that a run attempts, of up to `n` more. -/
structure Course (p : Progress) (n : Nat) : Prop where
  /-- They are counted. -/
  count : (p.advance n).attempted = (p.attempts n).length
  /-- The cycle `k` is attempted after `k` others and after `k / 12 + 1` ticks of each timer. -/
  ticks : ∀ k m, (p.attempts n)[k]? = some m →
    m = p.machine.after (callsBefore k) ∧ (callsBefore k).count .tickDelay = k / 12 + 1 ∧
      (callsBefore k).count .tickSound = k / 12 + 1
  /-- No cycle is idle. -/
  busy : ∀ m ∈ p.attempts n,
    (∃ i, m.Performs .cycle i) ∨ ∃ f, m.cycle.result = .error (.fault f)
  /-- A cycle that fails is the last, and it is the one that is reported. -/
  fails : ∀ k m stop, (p.attempts n)[k]? = some m → m.cycle.result = .error stop →
    k + 1 = (p.attempts n).length ∧ ∃ f, stop = .fault f ∧
      (p.advance n).outcome.stderr = logLine (.halting m.pc f) ++ failureLine f
  /-- A wait for a key is the last that is run, and it does not complete. -/
  waits : ∀ k m x, (p.attempts n)[k]? = some m → m.instruction? .cycle = some (.awaitKey x) →
    k + 1 = (p.attempts n).length ∧ (p.advance n).ending = some .keyAwaited ∧
      (p.advance n).machine.awaiting = some x ∧ (p.advance n).machine.registers = m.registers ∧
      (p.advance n).machine.pc = m.pc ∧
      (p.advance n).machine.memory.word m.pc.toNat = .ok (0xF00A + 256 * x.toUInt16)

variable {p q : Progress} {m s : Machine} {n n' j k : Nat}

theorem going_due (hp : p.Going) : p.due.Going := by
  unfold due
  split
  · exact Machine.going_tick hp.machine
  · exact hp.machine

theorem ending_next_of_ok {b : Bool} (h : p.due.cycle.result = .ok b) :
    p.next.ending =
      if p.due.cycle.machine.awaiting.isSome then some .keyAwaited else none := by
  unfold due at h ⊢
  simp only [next, h]

theorem ending_next_of_error {stop : Stop} (h : p.due.cycle.result = .error stop) :
    p.next.ending = some (.stopped stop) := by
  unfold due at h
  simp only [next, h]

/-- `Attempt` lists all that one more cycle can make of a run. -/
theorem attempt (hp : p.Going) : p.Attempt := by
  have hdue := going_due hp
  have hcycled := Machine.cycled hdue
  have herrors : p.next.log = p.due.halting p.due.cycle.machine := by
    have hlog : p.next.log = p.log ++ (p.due.call .cycle).errors := rfl
    rw [hlog, hp.log, Machine.errors_of_runs _ rfl]
    rfl
  have hmachine : p.next.machine = p.due.cycle.machine := rfl
  have hreason : p.due.mode.reason? = none := by
    rw [hdue.running]
    rfl
  generalize hr : p.due.cycle.result = r, hleft : p.due.cycle.machine = m'
    at hcycled herrors hmachine
  cases hcycled with
  | ran hi hne hm =>
    refine .ran hi hne ⟨?_, ?_, hmachine ▸ hm⟩
    · rw [ending_next_of_ok hr, hleft, hm.awaiting]
      rfl
    · rw [herrors, Machine.halting_of_eq]
      rw [hm.running, hdue.running]
  | awaits hi =>
    refine .awaits hi ?_ hmachine
    rw [ending_next_of_ok hr, hleft]
    rfl
  | failed hmode hpc =>
    refine .failed hr (ending_next_of_error hr) ?_
    rw [herrors, Machine.halting_of_fault hreason hmode, hpc]

/-! ## Budgets -/

theorem advance_of_ended (h : p.ending.isSome) (n : Nat) : p.advance n = p := by
  cases n with
  | zero => rfl
  | succ n => rw [advance, if_pos h]

theorem attempts_of_ended (h : p.ending.isSome) (n : Nat) : p.attempts n = [] := by
  cases n with
  | zero => rfl
  | succ n => rw [attempts, if_pos h]

theorem stages_of_ended (h : p.ending.isSome) (n : Nat) : p.stages n = [p] := by
  cases n with
  | zero => rfl
  | succ n => rw [stages, if_pos h]

theorem advance_succ (h : p.ending.isSome = false) (n : Nat) :
    p.advance (n + 1) = p.next.advance n := by rw [advance, h]; rfl

theorem attempts_succ (h : p.ending.isSome = false) (n : Nat) :
    p.attempts (n + 1) = p.due :: p.next.attempts n := by rw [attempts, h]; rfl

theorem stages_succ (h : p.ending.isSome = false) (n : Nat) :
    p.stages (n + 1) = p :: p.next.stages n := by rw [stages, h]; rfl

theorem take_stages (h : n ≤ n') : (p.stages n').take (n + 1) = p.stages n := by
  induction n generalizing p n' with
  | zero =>
    cases hp : p.ending.isSome with
    | true => rw [stages_of_ended hp]; rfl
    | false =>
      cases n' with
      | zero => rfl
      | succ n' => rw [stages_succ hp]; rfl
  | succ n ih =>
    obtain ⟨n', rfl⟩ := Nat.exists_eq_add_of_le' (Nat.le_trans (Nat.le_add_left 1 n) h)
    cases hp : p.ending.isSome with
    | true => rw [stages_of_ended hp, stages_of_ended hp]; rfl
    | false => rw [stages_succ hp, stages_succ hp, List.take_succ_cons, ih (Nat.le_of_succ_le_succ h)]

theorem getLast?_stages (p : Progress) (n : Nat) : (p.stages n).getLast? = some (p.advance n) := by
  induction n generalizing p with
  | zero => rfl
  | succ n ih =>
    cases hp : p.ending.isSome with
    | true => rw [stages_of_ended hp, advance_of_ended hp]; rfl
    | false => rw [stages_succ hp, advance_succ hp, List.getLast?_cons, ih]; rfl

theorem advance_of_le (h : n ≤ n') (he : (p.advance n).ending.isSome) :
    p.advance n' = p.advance n := by
  induction n generalizing p n' with
  | zero => exact advance_of_ended he n'
  | succ n ih =>
    obtain ⟨n', rfl⟩ := Nat.exists_eq_add_of_le' (Nat.le_trans (Nat.le_add_left 1 n) h)
    cases hp : p.ending.isSome with
    | true => rw [advance_of_ended hp, advance_of_ended hp]
    | false =>
      rw [advance_succ hp] at he ⊢
      rw [advance_succ hp]
      exact ih (Nat.le_of_succ_le_succ h) he

/-! ## The cycles of a run -/

theorem attempted_advance (p : Progress) (n : Nat) :
    (p.advance n).attempted = p.attempted + (p.attempts n).length := by
  induction n generalizing p with
  | zero => rfl
  | succ n ih =>
    cases hp : p.ending.isSome with
    | true => rw [advance_of_ended hp, attempts_of_ended hp]; rfl
    | false =>
      have hnext : p.next.attempted = p.attempted + 1 := rfl
      rw [advance_succ hp, attempts_succ hp, ih, hnext, List.length_cons]
      omega

theorem going_next (hp : p.Going) (h : p.next.ending.isSome = false) : p.next.Going := by
  cases attempt hp with
  | ran _ _ hnext => exact hnext
  | awaits _ he | failed _ he =>
    rw [he] at h
    cases h

/-- A cycle is attempted by a run that has not ended; if it ends with that, there is no other. -/
theorem exists_of_getElem? (hp : p.Going) (h : (p.attempts n)[k]? = some m) :
    ∃ q : Progress, q.Going ∧ q.due = m ∧
      (q.next.ending.isSome → k + 1 = (p.attempts n).length ∧ p.advance n = q.next) := by
  have hending : p.ending.isSome = false := by rw [hp.ending]; rfl
  induction n generalizing p k with
  | zero => cases h
  | succ n ih =>
    rw [attempts_succ hending] at h ⊢
    rw [advance_succ hending]
    cases k with
    | zero =>
      refine ⟨p, hp, Option.some.inj h, fun hend => ?_⟩
      rw [attempts_of_ended hend, advance_of_ended hend]
      exact ⟨rfl, rfl⟩
    | succ k =>
      rw [List.getElem?_cons_succ] at h
      cases hnext : p.next.ending.isSome with
      | true =>
        rw [attempts_of_ended hnext] at h
        cases h
      | false =>
        obtain ⟨q, hq, hdue, hend⟩ := ih (going_next hp hnext) h hnext
        refine ⟨q, hq, hdue, fun he => ?_⟩
        rw [List.length_cons, ← (hend he).1]
        exact ⟨rfl, (hend he).2⟩

theorem exists_of_ended (hp : p.Going) (h : (p.advance n).ending.isSome) :
    ∃ q : Progress, q.Going ∧ q.due ∈ p.attempts n ∧ p.advance n = q.next := by
  have hending : p.ending.isSome = false := by rw [hp.ending]; rfl
  induction n generalizing p with
  | zero =>
    rw [advance, hending] at h
    cases h
  | succ n ih =>
    rw [attempts_succ hending]
    rw [advance_succ hending] at h ⊢
    cases hnext : p.next.ending.isSome with
    | true => exact ⟨p, hp, List.mem_cons_self, advance_of_ended hnext n⟩
    | false =>
      obtain ⟨q, hq, hmem, heq⟩ := ih (going_next hp hnext) h hnext
      exact ⟨q, hq, List.mem_cons_of_mem _ hmem, heq⟩

theorem due_next (ha : p.attempted = j) (hd : p.due = s.after (callsBefore j)) :
    p.next.due = s.after (callsBefore (j + 1)) := by
  have hnext : p.next.due =
      if (p.attempted + 1) % cyclesPerTick = 0 then p.due.cycle.machine.tick
      else p.due.cycle.machine := rfl
  rw [hnext, hd, ha, callsBefore, Machine.after_append, ticksBefore]
  split <;> rfl

theorem eq_after_of_getElem? (ha : p.attempted = j) (hd : p.due = s.after (callsBefore j))
    (h : (p.attempts n)[k]? = some m) : m = s.after (callsBefore (j + k)) := by
  induction n generalizing p j k with
  | zero => cases h
  | succ n ih =>
    cases hp : p.ending.isSome with
    | true =>
      rw [attempts_of_ended hp] at h
      cases h
    | false =>
      rw [attempts_succ hp] at h
      cases k with
      | zero => exact (Option.some.inj h).symm.trans hd
      | succ k =>
        have hnext : p.next.attempted = j + 1 := congrArg (· + 1) ha
        rw [ih hnext (due_next ha hd) h, Nat.add_right_comm]
        rfl

end Progress

/-- Before the cycle `k`, each timer has counted down once and once more for every twelve cycles. -/
theorem count_callsBefore {c : Call} (hc : c = .tickDelay ∨ c = .tickSound) (k : Nat) :
    (callsBefore k).count c = k / 12 + 1 := by
  have hticks : ∀ k, (ticksBefore k).count c = if k % 12 = 0 then 1 else 0 := by
    intro k
    unfold ticksBefore cyclesPerTick
    rcases hc with rfl | rfl <;> split <;> rfl
  have hcycle : ∀ ds : List Call, (Call.cycle :: ds).count c = ds.count c := by
    intro ds
    rcases hc with rfl | rfl <;> simp
  induction k with
  | zero => exact hticks 0
  | succ k ih =>
    rw [callsBefore, List.count_append, ih, hcycle, hticks]
    split <;> omega

/-! ## The run of a program -/

variable {options : Options} {program : List UInt8}

theorem going_loaded (options : Options) (program : List UInt8) :
    (loaded options program).Going where
  ending := rfl
  log := rfl
  machine := by
    unfold loaded Progress.start Machine.load
    have hsound := Machine.sound_initial options.dialect (Generator.ofSeed options.seed)
    cases (Machine.initial options.dialect (Generator.ofSeed options.seed)).memory.load program <;>
      exact ⟨rfl, rfl, rfl, Machine.sound_of hsound.index_le hsound.awaiting_lt hsound.reason⟩

theorem run_of_le (h : program.length ≤ Memory.room) :
    run options program = ((loaded options program).advance options.cycles).outcome := by
  unfold run loaded
  rw [Machine.load, Memory.load, if_pos h]

namespace Progress

variable {p : Progress} {n : Nat}

theorem code_eq_one_iff : p.outcome.code = 1 ↔ ∃ f, p.ending = some (.stopped (.fault f)) := by
  unfold outcome
  split <;> simp [*]

theorem code_advance_iff (hp : p.Going) : (p.advance n).outcome.code = 1 ↔
    ∃ m ∈ p.attempts n, ∃ stop, m.cycle.result = .error stop := by
  rw [code_eq_one_iff]
  constructor
  · rintro ⟨f, hf⟩
    obtain ⟨q, hq, hmem, hadvance⟩ := exists_of_ended hp (by rw [hf]; rfl)
    rw [hadvance] at hf
    cases attempt hq with
    | ran _ _ hnext =>
      rw [hnext.ending] at hf
      cases hf
    | awaits _ he =>
      rw [he] at hf
      cases hf
    | failed hfail => exact ⟨q.due, hmem, _, hfail⟩
  · rintro ⟨m, hm, stop, hstop⟩
    obtain ⟨k, hk⟩ := List.getElem?_of_mem hm
    obtain ⟨q, hq, rfl, hend⟩ := exists_of_getElem? hp hk
    cases attempt hq with
    | ran hi | awaits hi => cases hstop.symm.trans hi.result_cycle
    | failed _ he => exact ⟨_, (hend (by rw [he]; rfl)).2 ▸ he⟩

theorem course (hp : p.Going) (h₀ : p.attempted = 0) (n : Nat) : p.Course n where
  count := by rw [attempted_advance, h₀, Nat.zero_add]
  ticks := by
    intro k m hk
    have hdue : p.due = p.machine.after (callsBefore 0) := by rw [due, h₀]; rfl
    have hm := eq_after_of_getElem? h₀ hdue hk
    rw [Nat.zero_add] at hm
    exact ⟨hm, count_callsBefore (.inl rfl) k, count_callsBefore (.inr rfl) k⟩
  busy := by
    intro m hm
    obtain ⟨k, hk⟩ := List.getElem?_of_mem hm
    obtain ⟨q, hq, rfl, -⟩ := exists_of_getElem? hp hk
    cases attempt hq with
    | ran hi | awaits hi => exact .inl ⟨_, hi⟩
    | failed hf => exact .inr ⟨_, hf⟩
  fails := by
    intro k m stop hk hstop
    obtain ⟨q, hq, rfl, hend⟩ := exists_of_getElem? hp hk
    cases attempt hq with
    | ran hi | awaits hi => cases hstop.symm.trans hi.result_cycle
    | failed hf he hl =>
      obtain ⟨hlast, hadvance⟩ := hend (by rw [he]; rfl)
      refine ⟨hlast, _, Except.error.inj (hstop.symm.trans hf), ?_⟩
      rw [hadvance, outcome, he, hl]
      simp [String.join]
  waits := by
    intro k m x hk hi
    obtain ⟨q, hq, rfl, hend⟩ := exists_of_getElem? hp hk
    have hdue := going_due hq
    obtain ⟨hperforms, -⟩ := Machine.performs_awaitKey hdue hi
    have hwait := Machine.waitsAtWord_of_awaiting hdue.awaiting
    obtain ⟨-, -, hword, -⟩ := Machine.word_of_awaitKey hwait (.inr rfl) hi
    cases attempt hq with
    | ran hi' hne => exact absurd (Option.some.inj (hi'.1.symm.trans hi)) (hne x)
    | awaits hi' he hm =>
      cases hi'.1.symm.trans hi
      obtain ⟨hlast, hadvance⟩ := hend (by rw [he]; rfl)
      rw [hadvance, hm]
      exact ⟨hlast, he, rfl, rfl, rfl, hword⟩
    | failed hf => cases hf.symm.trans hperforms.result_cycle

end Progress

/-- **A larger budget changes nothing but where a run ends.** A run of a program with the larger
budget goes through the stages of the one with the smaller, up to what that comes to, and if that
has ended, both print the same. A run fails exactly if a cycle does that it attempts; `Course` says
what else can be told of these. -/
theorem budget_is_monotone (options : Options) (program : List UInt8)
    (fits : program.length ≤ Memory.room) (n n' : Nat) (h : n ≤ n') :
    let p := loaded options program
    let outcome := run { options with cycles := n } program
    let outcome' := run { options with cycles := n' } program
    (outcome = (p.advance n).outcome ∧ outcome' = (p.advance n').outcome) ∧
      ((p.stages n').take (n + 1) = p.stages n ∧
        (p.stages n).getLast? = some (p.advance n)) ∧
      ((p.advance n).ending.isSome → outcome' = outcome) ∧
      (outcome.code = 1 ↔ ∃ m ∈ p.attempts n, ∃ stop, m.cycle.result = .error stop) ∧
      p.Course n := by
  intro p outcome outcome'
  have hrun : outcome = (p.advance n).outcome := run_of_le fits
  have hrun' : outcome' = (p.advance n').outcome := run_of_le fits
  have hp : p.Going := going_loaded options program
  have hcourse := Progress.course hp rfl n
  refine ⟨⟨hrun, hrun'⟩, ⟨Progress.take_stages h, p.getLast?_stages n⟩, fun he => ?_, ?_, hcourse⟩
  · rw [hrun', hrun, Progress.advance_of_le h he]
  · rw [hrun]
    exact Progress.code_advance_iff hp

/-- A return without a call in the second cycle ends a run, whatever the budget beyond that. -/
theorem budget_is_monotone_underflow :
    let program : List UInt8 := [0x60, 0x2A, 0x00, 0xEE]
    let p := loaded {} program
    program.length ≤ Memory.room ∧ 2 ≤ 10000 ∧
      run { cycles := 10000 } program = run { cycles := 2 } program ∧
      (run { cycles := 2 } program).code = 1 ∧ p.Course 2 := by
  intro program p
  have fits : program.length ≤ Memory.room := by decide
  obtain ⟨⟨hrun, -⟩, -, hsame, -, hcourse⟩ :=
    budget_is_monotone {} program fits 2 10000 (by decide)
  have hended : (p.advance 2).ending = some (.stopped (.fault .stackUnderflow)) := by
    decide +kernel
  refine ⟨fits, by decide, hsame (by rw [hended]; rfl), ?_, hcourse⟩
  exact (congrArg Outcome.code hrun).trans (Progress.code_eq_one_iff.mpr ⟨_, hended⟩)

/-- A wait for a key ends a run where it stands. -/
example : let m := ((loaded {} [0x60, 0x2A, 0xF3, 0x0A]).advance 10000).machine
    m.pc = 0x202 ∧ m.awaiting = some 3 ∧ m.register? 0 = some 0x2A := by decide +kernel

end Batch

end Chip8
