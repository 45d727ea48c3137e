import Chip8.Machine.Call
import Chip8.Session.Basic

/-!
# Runs of a session

A session goes through rounds: the keyboard has inputs for it, cycles and ticks are due, and the
terminal is brought up to date. A turn of a session is a round whose inputs come from a poll of the
keyboard (`turn_eq_round`).

All that an input can come to is listed in `Handled`; whatever successful calls keep, the cycles and
the ticks of a round keep (`work_induction`); and what each round keeps, all of them keep
(`rounds_induction`).
-/

namespace Chip8

open Keyboard Terminal

/-- The call that an input makes on the machine, if it is allowed and makes one alone. -/
def Keyboard.Input.call? : Input → Option Call
  | .press k => some (.setKey k true)
  | .release k => some (.setKey k false)
  | .control .togglePause => some .togglePause
  | .control .step => some .step
  | .control .quit | .control .restart => none

theorem Keyboard.Input.call?_eq_some {i : Input} {c : Call} (h : i.call? = some c) :
    (∃ k b, c = .setKey k b) ∨ c = .togglePause ∨ c = .step := by
  cases i with
  | press k =>
    cases h
    exact .inl ⟨k, true, rfl⟩
  | release k =>
    cases h
    exact .inl ⟨k, false, rfl⟩
  | control d =>
    cases d with
    | quit | restart => cases h
    | togglePause =>
      cases h
      exact .inr (.inl rfl)
    | step =>
      cases h
      exact .inr (.inr rfl)

namespace Session

/-- What a round of a session takes from outside. -/
structure Round where
  /-- What the keyboard makes of the keys that are held: inputs, and the keys that are held then. -/
  keyboard : Held → List Input × Held
  /-- The cycles that are due. -/
  cycles : Nat
  /-- The ticks that are due. -/
  ticks : Nat

/-- The first half of a round: the inputs are handled. -/
def heed (s : Session) (r : Round) : Progress :=
  let (inputs, held) := r.keyboard s.held
  { s with held := held }.handleAll inputs

/-- A round of the session. -/
def round (s : Session) (r : Round) : Progress := do
  let (s, drawn) ← s.heed r
  let (s, shown) ← s.proceed r.cycles r.ticks
  return (s, drawn ++ shown)

/-- Rounds one after the other. -/
def rounds (s : Session) : List Round → Progress
  | [] => .ok (s, [])
  | r :: rs => do
    let (s, drawn) ← s.round r
    let (s, more) ← s.rounds rs
    return (s, drawn ++ more)

/-- A new session that goes through rounds. -/
def run (dialect : Dialect) (generator : Generator) (program : List UInt8) (rs : List Round) :
    Progress := do
  let (s, drawn) ← start dialect generator program
  let (s, shown) ← s.rounds rs
  return (s, drawn ++ shown)

/-- What an input comes to that does not end the session. -/
inductive Handled (s : Session) : Input → Session → List Command → Prop
  /-- It makes one call on the machine. -/
  | called {i : Input} {c : Call} (hc : i.call? = some c)
      (hr : (s.machine.call c).result = .ok .done) :
      Handled s i { s with machine := (s.machine.call c).machine } []
  /-- A machine that is not paused makes no single step. -/
  | ignored (hm : s.machine.mode ≠ .paused) : Handled s (.control .step) s []
  /-- The program is loaded afresh, and the screen is shown. -/
  | restarted {memory : Memory} (hm : s.machine.reset.memory.load s.program = .ok memory) :
      Handled s (.control .restart)
        { s with machine := { s.machine.reset with memory := memory } }
        (Picture.screen Screen.dark)

variable {s s' : Session} {i : Input} {cs : List Command}

theorem turn_eq_round (s : Session) (events : List (Key × Nat)) (now cycles ticks : Nat) :
    s.turn events now cycles ticks = s.round ⟨fun held => held.poll events now, cycles, ticks⟩ :=
  rfl

/-! ## Sequences of steps of a session -/

theorem ok_of_andThen {p : Progress} {f : Session → Progress}
    (h : (do let (s, drawn) ← p; let (s, more) ← f s; return (s, drawn ++ more)) =
      .ok (s', cs)) :
    ∃ s₁ cs₁ cs₂, p = .ok (s₁, cs₁) ∧ f s₁ = .ok (s', cs₂) ∧ cs = cs₁ ++ cs₂ := by
  cases p with
  | error e => cases h
  | ok q =>
    obtain ⟨s₁, cs₁⟩ := q
    change (f s₁ >>= fun x => pure (x.1, cs₁ ++ x.2)) = Except.ok (s', cs) at h
    cases hn : f s₁ with
    | error e =>
      rw [hn] at h
      cases h
    | ok q₂ =>
      rw [hn] at h
      cases h
      exact ⟨s₁, cs₁, q₂.2, rfl, hn, rfl⟩

theorem start_eq_ok {dialect : Dialect} {generator : Generator} {program : List UInt8}
    (h : start dialect generator program = .ok (s, cs)) :
    ∃ memory, s = ⟨program, { Machine.initial dialect generator with memory := memory },
        .empty standardHold⟩ ∧
      cs = Picture.border ++ Picture.screen Screen.dark := by
  unfold start at h
  simp only at h
  unfold Machine.load after at h
  cases hl : (Machine.initial dialect generator).memory.load program with
  | error f =>
    rw [hl] at h
    cases h
  | ok memory =>
    rw [hl] at h
    cases h
    exact ⟨memory, rfl, rfl⟩

theorem run_eq_ok {dialect : Dialect} {generator : Generator} {program : List UInt8}
    {rs : List Round} (h : run dialect generator program rs = .ok (s, cs)) :
    ∃ s₀ drawn shown, start dialect generator program = .ok (s₀, drawn) ∧
      s₀.rounds rs = .ok (s, shown) ∧ cs = drawn ++ shown :=
  ok_of_andThen (p := start dialect generator program) (f := fun s => s.rounds rs) h

/-! ## Inputs -/

theorem after_eq_ok {t : Turn Unit} (h : s.after t = .ok s') :
    t.result = .ok () ∧ s' = { s with machine := t.machine } := by
  unfold after at h
  cases hr : t.result with
  | ok u =>
    rw [hr] at h
    cases h
    exact ⟨rfl, rfl⟩
  | error stop =>
    rw [hr] at h
    cases h

theorem handled_call {t : Turn Unit} {c : Call} (hc : i.call? = some c)
    (ht : s.machine.call c = t.map fun _ => .done)
    (h : (s.after t).map (fun s => (s, ([] : List Command))) = .ok (s', cs)) :
    s.Handled i s' cs := by
  cases ha : s.after t with
  | error e =>
    rw [ha] at h
    cases h
  | ok s₁ =>
    rw [ha] at h
    cases h
    obtain ⟨hr, rfl⟩ := after_eq_ok ha
    have hmachine : t.machine = (s.machine.call c).machine := by rw [ht]; rfl
    rw [hmachine]
    exact .called hc (by rw [ht, Turn.map, hr]; rfl)

/-- `Handled` lists all that an input can come to. -/
theorem handled_of_handle (h : s.handle i = .ok (s', cs)) : s.Handled i s' cs := by
  cases i with
  | press k => exact handled_call (c := .setKey k true) rfl rfl h
  | release k => exact handled_call (c := .setKey k false) rfl rfl h
  | control c =>
    cases c with
    | quit => cases h
    | togglePause =>
      cases h
      exact .called (c := .togglePause) rfl rfl
    | step =>
      rw [handle] at h
      split at h
      · exact handled_call (c := .step) rfl rfl h
      · cases h
        exact .ignored ‹_›
    | restart =>
      change s.restart = _ at h
      unfold restart at h
      cases ha : s.after (s.machine.reset.load s.program) with
      | error e =>
        rw [ha] at h
        cases h
      | ok s₁ =>
        rw [ha] at h
        cases h
        obtain ⟨hr, rfl⟩ := after_eq_ok ha
        unfold Machine.load at hr ⊢
        cases hl : s.machine.reset.memory.load s.program with
        | error f =>
          rw [hl] at hr
          cases hr
        | ok memory => exact .restarted hl

/-- What each of several inputs keeps, all of them keep. -/
theorem handleAll_induction {P : Session → List Command → Prop} {inputs : List Input}
    (h : s.handleAll inputs = .ok (s', cs)) (hs : P s [])
    (hstep : ∀ s drawn i s' cs, P s drawn → i ∈ inputs → s.Handled i s' cs → P s' (drawn ++ cs)) :
    P s' cs := by
  suffices hmore : ∀ drawn, P s drawn → P s' (drawn ++ cs) from hmore [] hs
  clear hs
  induction inputs generalizing s cs with
  | nil =>
    cases h
    intro drawn hs
    rwa [List.append_nil]
  | cons i is ih =>
    obtain ⟨s₁, cs₁, cs₂, hi, his, rfl⟩ :=
      ok_of_andThen (p := s.handle i) (f := fun s => s.handleAll is) h
    intro drawn hs
    have hfirst := hstep s drawn i s₁ cs₁ hs List.mem_cons_self (handled_of_handle hi)
    rw [← List.append_assoc]
    refine ih his (fun s drawn j s' cs hs hj => ?_) _ hfirst
    exact hstep s drawn j s' cs hs (List.mem_cons_of_mem i hj)

theorem handleAll_append {inputs inputs' : List Input}
    (h : s.handleAll (inputs ++ inputs') = .ok (s', cs)) :
    ∃ s₁ cs₁ cs₂, s.handleAll inputs = .ok (s₁, cs₁) ∧ s₁.handleAll inputs' = .ok (s', cs₂) := by
  induction inputs generalizing s cs with
  | nil => exact ⟨s, [], cs, rfl, h⟩
  | cons i is ih =>
    obtain ⟨s₁, cs₁, cs₂, hi, his, -⟩ :=
      ok_of_andThen (p := s.handle i) (f := fun s => s.handleAll (is ++ inputs')) h
    obtain ⟨s₂, cs₃, cs₄, hfirst, hsecond⟩ := ih his
    refine ⟨s₂, cs₁ ++ cs₃, cs₄, ?_, hsecond⟩
    rw [handleAll, hi]
    change (s₁.handleAll is >>= fun x => pure (x.1, cs₁ ++ x.2)) = _
    rw [hfirst]
    rfl

theorem held_of_handleAll {inputs : List Input} (h : s.handleAll inputs = .ok (s', cs)) :
    s'.held = s.held := by
  refine handleAll_induction (P := fun s' _ => s'.held = s.held) h rfl ?_
  intro s₁ drawn i s₂ cs hs _ hi
  cases hi <;> exact hs

/-! ## Cycles, ticks and rounds -/

variable {P : Machine → Prop} {m m' : Machine}

theorem runCycles_induction {n : Nat} (h : runCycles m n = .ok m') (hm : P m)
    (hcycle : ∀ m reply, P m → (m.call .cycle).result = .ok reply → P (m.call .cycle).machine) :
    P m' := by
  induction n generalizing m with
  | zero =>
    cases h
    exact hm
  | succ n ih =>
    unfold runCycles at h
    split at h
    · rename_i b m₁ log hc
      have hcall : m.call .cycle = ⟨.ok (.flag b), m₁, log⟩ := by rw [Machine.call, hc]; rfl
      have hnext := hcycle m (.flag b) hm (by rw [hcall])
      rw [hcall] at hnext
      exact ih h hnext
    · cases h

theorem ticks_induction (n : Nat) (hm : P m) (hdelay : ∀ m, P m → P m.tickDelay)
    (hsound : ∀ m, P m → P m.tickSound) : P (Nat.repeat Machine.tick n m) := by
  induction n with
  | zero => exact hm
  | succ n ih => exact hsound _ (hdelay _ ih)

theorem work_induction {cycles ticks : Nat} (h : s.work cycles ticks = .ok s') (hs : P s.machine)
    (hcall : ∀ m c reply, c = .cycle ∨ c = .tickDelay ∨ c = .tickSound → P m →
      (m.call c).result = .ok reply → P (m.call c).machine) :
    P s'.machine ∧ s' = { s with machine := s'.machine } := by
  unfold work at h
  split at h
  · cases h
    exact ⟨hs, rfl⟩
  · split at h
    · rename_i m hm
      cases h
      refine ⟨ticks_induction ticks ?_ ?_ ?_, rfl⟩
      · exact runCycles_induction hm hs fun m reply h hr => hcall m _ reply (.inl rfl) h hr
      · exact fun m h => hcall m .tickDelay .done (.inr (.inl rfl)) h rfl
      · exact fun m h => hcall m .tickSound .done (.inr (.inr rfl)) h rfl
    · cases h

theorem round_eq_ok {r : Round} (h : s.round r = .ok (s', cs)) :
    ∃ s₁ drawn s₂, s.heed r = .ok (s₁, drawn) ∧ s₁.work r.cycles r.ticks = .ok s₂ ∧
      s' = s₂.present.1 ∧ cs = drawn ++ s₂.present.2 := by
  obtain ⟨s₁, drawn, shown, hinputs, hproceed, rfl⟩ :=
    ok_of_andThen (p := s.heed r) (f := fun s => s.proceed r.cycles r.ticks) h
  unfold proceed at hproceed
  cases hw : s₁.work r.cycles r.ticks with
  | error e =>
    rw [hw] at hproceed
    cases hproceed
  | ok s₂ =>
    rw [hw] at hproceed
    cases hproceed
    exact ⟨s₁, drawn, s₂, hinputs, hw, rfl, rfl⟩

/-- What each round keeps, all of them keep. -/
theorem rounds_induction {P : Session → List Command → Prop} {rs : List Round}
    {drawn : List Command} (h : s.rounds rs = .ok (s', cs)) (hs : P s drawn)
    (hstep : ∀ s drawn r s' cs, P s drawn → s.round r = .ok (s', cs) → P s' (drawn ++ cs)) :
    P s' (drawn ++ cs) := by
  induction rs generalizing s drawn cs with
  | nil =>
    cases h
    rwa [List.append_nil]
  | cons r rs ih =>
    obtain ⟨s₁, cs₁, cs₂, hr, hrs, rfl⟩ :=
      ok_of_andThen (p := s.round r) (f := fun s => s.rounds rs) h
    have hfirst := hstep s drawn r s₁ cs₁ hs hr
    rw [← List.append_assoc]
    exact ih hrs hfirst

end Session

end Chip8
