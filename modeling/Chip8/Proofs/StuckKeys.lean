import Chip8.Proofs.Holding
import Chip8.Proofs.Runs
import Chip8.Proofs.Sessions

/-!
# No key gets stuck

The keyboard and the machine each have a notion of which keys are down, and they part: an
instruction that waits for a key takes it from the machine alone, and so does a restart. They part in
one direction only. Whatever happens between two polls, the keys that the machine takes for pressed
are keys that the keyboard holds (`Covers`), so a key that the keyboard lets go is not pressed any
more (`no_key_stuck`).
-/

namespace Chip8

open Keyboard Terminal

/-! ## Only a key press presses a key -/

theorem Keyboard.Input.eq_press_of_call? {i : Input} {k : UInt8}
    (h : i.call? = some (.setKey k true)) : i = .press k := by
  cases i with
  | press j =>
    cases h
    rfl
  | release j => cases h
  | control d => cases d <;> cases h

namespace Work

theorem isPressed_of_effect (i : Instruction) (m : Machine) {k : UInt8}
    (hk : (left (i.effect.run m)).keypad.isPressed k) : m.keypad.isPressed k := by
  cases htouch : i.touches .keypad with
  | false =>
    have hkeypad : (left (i.effect.run m)).keypad = m.keypad := keeps_part .keypad htouch m
    rwa [hkeypad] at hk
  | true =>
    cases i with
    | awaitKey x =>
      rw [Instruction.effect] at hk
      cases ht : m.keypad.takeFirst? with
      | none => rwa [run_pollKey_of_none ht] at hk
      | some found =>
        have hput : Keeps Machine.keypad (put x found.1) := .put (fun _ _ _ => rfl) _
        rw [run_pollKey_of_some ht, hput] at hk
        have hkept := (Keypad.of_takeFirst? ht).2.2 k
        rw [hk] at hkept
        exact (Bool.and_eq_true_iff.mp hkept.symm).1
    | _ =>
      -- No other instruction touches the keypad.
      cases htouch

end Work

namespace Machine

variable {m : Machine} {c : Call} {k : UInt8}

theorem isPressed_of_runs (hc : c.runs) (hk : (m.call c).machine.keypad.isPressed k) :
    m.keypad.isPressed k := by
  have ho := outcome_call m hc
  generalize (m.call c).result = r, (m.call c).machine = m' at ho hk
  cases ho with
  | refused | idle | unfetched | undecoded | failed => exact hk
  | @ended i m' hi hr => exact Work.isPressed_of_effect i (m.ready c) (Work.left_of_ok hr ▸ hk)
  | @crashed i m₁ a hi hr =>
    refine Work.isPressed_of_effect i (m.ready c) ?_
    rw [hr]
    exact hk

theorem isPressed_of_setKey {j : UInt8} {b : Bool} {reply : Reply}
    (hr : (m.call (.setKey j b)).result = .ok reply) :
    (m.call (.setKey j b)).machine.keypad.isPressed k = if k = j then b else m.keypad.isPressed k := by
  rw [call, setKey] at hr ⊢
  cases hset : m.keypad.set j b with
  | error f =>
    rw [hset] at hr
    cases hr
  | ok keypad => exact Keypad.isPressed_set hset k

theorem isPressed_of_call (hk : (m.call c).machine.keypad.isPressed k) :
    m.keypad.isPressed k ∨ c = .setKey k true := by
  cases c with
  | step | cycle | stepWith | execute => exact .inl (isPressed_of_runs rfl hk)
  | executeAll is =>
    left
    refine (executeAll_induction (P := fun m' => m'.keypad.isPressed k → m.keypad.isPressed k) id
      fun m' i _ hm hk => ?_).1 hk
    exact hm (isPressed_of_runs (c := .execute i) rfl hk)
  | load program =>
    rw [call, load] at hk
    left
    cases hl : m.memory.load program <;> rw [hl] at hk <;> exact hk
  | setKey j b =>
    rw [call, setKey] at hk
    cases hset : m.keypad.set j b with
    | error f =>
      rw [hset] at hk
      exact .inl hk
    | ok keypad =>
      rw [hset] at hk
      have hpressed := (Keypad.isPressed_set hset k).symm.trans hk
      split at hpressed
      · subst k
        subst b
        exact .inr rfl
      · exact .inl hpressed
  | pause | resume | togglePause =>
    left
    cases hm : m.mode <;> simpa [call, togglePause, pause, resume, hm, Turn.done] using hk
  | tickDelay | tickSound | takeRedraw => exact .inl hk
  | reset =>
    have hnone := (Keypad.isPressed_released k).symm.trans hk
    cases hnone

end Machine

/-! ## What the keyboard holds and what the machine takes for pressed -/

namespace Keyboard.Held

variable {h : Held} {m : Machine} {c : Call}

/-- Each key that the machine takes for pressed is held. -/
def Covers (h : Held) (m : Machine) : Prop :=
  ∀ k, m.keypad.isPressed k → (h.pressedAt? k).isSome

theorem covers_reset (h : Held) (m : Machine) (memory : Memory) :
    h.Covers { m.reset with memory := memory } := by
  intro k hk
  have hnone := (Keypad.isPressed_released k).symm.trans hk
  cases hnone

/-- No call uncovers a key, unless it presses one that is not held. -/
theorem Covers.call (hm : h.Covers m) (hpress : ∀ k, c = .setKey k true → (h.pressedAt? k).isSome) :
    h.Covers (m.call c).machine := fun k hk =>
  (Machine.isPressed_of_call hk).elim (hm k) (hpress k)

end Keyboard.Held

namespace Session

variable {h : Held} {s s' : Session} {cs : List Command}

theorem covers_handled {i : Input} (hs : h.Covers s.machine) (hi : s.Handled i s' cs)
    (hpress : ∀ k, i = .press k → (h.pressedAt? k).isSome) : h.Covers s'.machine := by
  cases hi with
  | called hc hr =>
    refine hs.call fun k hk => hpress k ?_
    subst hk
    exact Input.eq_press_of_call? hc
  | ignored => exact hs
  | restarted => exact h.covers_reset _ _

theorem covers_typed {events : List (Key × Nat)} (hs : h.Covers s.machine)
    (ht : s.handleAll (h.translateAll events).1 = .ok (s', cs)) :
    (h.translateAll events).2.Covers s'.machine := by
  have hbefore : (h.translateAll events).2.Covers s.machine := by
    intro k hk
    rw [Held.pressedAt?_translateAll, Option.isSome_or, hs k hk, Bool.or_true]
  refine handleAll_induction (P := fun s _ => (h.translateAll events).2.Covers s.machine) ht
    hbefore ?_
  intro s drawn i s' cs hs hi hhandled
  refine covers_handled hs hhandled ?_
  rintro k rfl
  exact Held.isSome_of_press hi

theorem isPressed_of_releases {inputs : List Input} {k : UInt8}
    (hinputs : ∀ i ∈ inputs, ∃ j, i = .release j) (ht : s.handleAll inputs = .ok (s', cs))
    (hk : s'.machine.keypad.isPressed k) :
    s.machine.keypad.isPressed k ∧ .release k ∉ inputs := by
  induction inputs generalizing s cs with
  | nil =>
    cases ht
    exact ⟨hk, List.not_mem_nil⟩
  | cons i is ih =>
    obtain ⟨s₁, cs₁, cs₂, hi, his, -⟩ :=
      ok_of_andThen (p := s.handle i) (f := fun s => s.handleAll is) ht
    obtain ⟨hpressed, hrest⟩ := ih (fun i hi => hinputs i (List.mem_cons_of_mem _ hi)) his
    obtain ⟨j, rfl⟩ := hinputs i List.mem_cons_self
    cases handled_of_handle hi with
    | called hc hr =>
      cases hc
      rw [Machine.isPressed_of_setKey hr] at hpressed
      split at hpressed
      · cases hpressed
      · rename_i hne
        refine ⟨hpressed, fun hmem => ?_⟩
        rcases List.mem_cons.mp hmem with heq | hmem
        · cases heq
          exact hne rfl
        · exact hrest hmem

theorem covers_expired {now : Nat} (hs : h.Covers s.machine)
    (ht : s.handleAll (h.expire now).1 = .ok (s', cs)) : (h.expire now).2.Covers s'.machine := by
  intro k hk
  have hreleases : ∀ i ∈ (h.expire now).1, ∃ j, i = .release j := by
    intro i hi
    obtain ⟨j, -, hj⟩ := (h.mem_expire now i).mp hi
    exact ⟨j, hj⟩
  obtain ⟨hpressed, hkept⟩ := isPressed_of_releases hreleases ht hk
  have hfresh : ¬h.overdue now (h.pressedAt? k) := fun ho =>
    hkept ((h.mem_expire now _).mpr ⟨k, ho, rfl⟩)
  rw [Held.pressedAt?_expire, if_neg hfresh]
  exact hs k hpressed

/-! ## Rounds that begin with a poll -/

/-- A round whose inputs come from the keyboard. -/
structure Beat where
  /-- The keys since the last poll, each with its time. -/
  events : List (Key × Nat)
  /-- The time of the poll. -/
  now : Nat
  cycles : Nat
  ticks : Nat

/-- The round of a beat. -/
def Beat.round (b : Beat) : Round := ⟨fun held => held.poll b.events b.now, b.cycles, b.ticks⟩

/-- All keys of several beats. -/
def Beat.history (beats : List Beat) : List (Key × Nat) := beats.flatMap Beat.events

/-- What a session that was just polled becomes before the next poll. -/
inductive Since (s : Session) : Session → Prop
  /-- Some of its cycles and ticks have been run. -/
  | worked {s' : Session} (cycles ticks : Nat) (h : s.work cycles ticks = .ok s') : Since s s'
  /-- The terminal has been brought up to date, too. -/
  | shown {s' : Session} (cycles ticks : Nat) {shown : List Command}
      (h : s.proceed cycles ticks = .ok (s', shown)) : Since s s'

/-- The keys that the machine takes for pressed are held, and what is held was struck last when the
keyboard says so. -/
structure Tracks (s : Session) (past : List (Key × Nat)) : Prop where
  hold_eq : s.held.hold = standardHold
  covers : s.held.Covers s.machine
  lastStroke?_eq : ∀ k t, s.held.pressedAt? k = some t → lastStroke? k past = some t

variable {past events : List (Key × Nat)} {now cycles ticks : Nat}

theorem covers_work (hs : s.held.Covers s.machine) (hw : s.work cycles ticks = .ok s') :
    s'.held = s.held ∧ s'.held.Covers s'.machine := by
  have hcall : ∀ (m : Machine) (c : Call) (reply : Reply),
      c = .cycle ∨ c = .tickDelay ∨ c = .tickSound → s.held.Covers m →
      (m.call c).result = .ok reply → s.held.Covers (m.call c).machine := by
    intro m c reply hc hm _
    rcases hc with rfl | rfl | rfl
    all_goals exact hm.call nofun
  obtain ⟨hcovers, heq⟩ := work_induction hw hs hcall
  rw [heq]
  exact ⟨rfl, hcovers⟩

theorem covers_since (hs : s.held.Covers s.machine) (h : s.Since s') :
    s'.held = s.held ∧ s'.held.Covers s'.machine := by
  cases h with
  | worked cycles ticks h => exact covers_work hs h
  | shown cycles ticks h =>
    unfold proceed at h
    cases hw : s.work cycles ticks with
    | error e =>
      rw [hw] at h
      cases h
    | ok s₁ =>
      rw [hw] at h
      cases h
      -- To bring the terminal up to date touches neither the keypad nor what is held.
      obtain ⟨hheld, hcovers⟩ := covers_work hs hw
      exact ⟨hheld, fun k hk => hcovers k hk⟩

/-- After a poll, the keys that the machine takes for pressed are held. -/
theorem covers_poll (hs : s.held.Covers s.machine) (hp : s.poll events now = .ok (s', cs)) :
    s'.held = (s.held.poll events now).2 ∧ s'.held.Covers s'.machine := by
  have hheld : s'.held = (s.held.poll events now).2 := held_of_handleAll hp
  obtain ⟨s₁, cs₁, cs₂, htyped, hexpired⟩ := handleAll_append hp
  refine ⟨hheld, ?_⟩
  rw [hheld]
  have hcovers := covers_typed (s := { s with held := (s.held.poll events now).2 }) hs htyped
  exact covers_expired hcovers hexpired

theorem tracks_poll (hs : s.Tracks past) (hp : s.poll events now = .ok (s', cs)) :
    s'.Tracks (past ++ events) := by
  obtain ⟨hheld, hcovers⟩ := covers_poll hs.covers hp
  refine ⟨?_, hcovers, ?_⟩
  · rw [hheld, Held.hold_poll, hs.hold_eq]
  · intro k t hk
    rw [hheld] at hk
    have hlast := (Held.pressedAt?_poll hk).1
    rw [lastStroke?_append]
    cases hevents : lastStroke? k events with
    | some t' => rwa [hevents] at hlast
    | none =>
      rw [hevents] at hlast
      exact hs.lastStroke?_eq k t hlast

theorem tracks_since (hs : s.Tracks past) (h : s.Since s') : s'.Tracks past := by
  obtain ⟨hheld, hcovers⟩ := covers_since hs.covers h
  exact ⟨hheld ▸ hs.hold_eq, hcovers, hheld ▸ hs.lastStroke?_eq⟩

theorem tracks_rounds {beats : List Beat} (hs : s.Tracks past)
    (hr : s.rounds (beats.map Beat.round) = .ok (s', cs)) :
    s'.Tracks (past ++ Beat.history beats) := by
  induction beats generalizing s past cs with
  | nil =>
    cases hr
    rwa [Beat.history, List.flatMap_nil, List.append_nil]
  | cons b bs ih =>
    obtain ⟨s₁, cs₁, cs₂, hround, hrest, -⟩ :=
      ok_of_andThen (p := s.round b.round) (f := fun s => s.rounds (bs.map Beat.round)) hr
    obtain ⟨s₂, drawn, shown, hpoll, hproceed, -⟩ :=
      ok_of_andThen (p := s.heed b.round) (f := fun s => s.proceed b.cycles b.ticks) hround
    have hpolled : s₂.Tracks (past ++ b.events) := tracks_poll hs hpoll
    have hnext := ih (tracks_since hpolled (.shown b.cycles b.ticks hproceed)) hrest
    rwa [List.append_assoc] at hnext

theorem tracks_start {dialect : Dialect} {generator : Generator} {program : List UInt8}
    (hs : start dialect generator program = .ok (s, cs)) : s.Tracks [] := by
  obtain ⟨memory, rfl, -⟩ := start_eq_ok hs
  refine ⟨rfl, ?_, ?_⟩
  · exact (Held.empty standardHold).covers_reset (Machine.initial dialect generator) memory
  · intro k t hk
    have hlt := Held.toNat_lt_of_pressedAt? hk
    simp [Held.pressedAt?, Held.empty, hlt] at hk

/-- **No key gets stuck.** Take any run of a session whose rounds begin with polls of the keyboard,
and one poll more. From then until the next poll each key that the machine takes for pressed is held,
so if the poll comes at least a quarter of a second after the last stroke of each key, no key is
pressed afterwards. And no poll asks for a key that the machine would refuse. -/
theorem no_key_stuck (dialect : Dialect) (generator : Generator) (program : List UInt8)
    (beats : List Beat) (events : List (Key × Nat)) (now : Nat)
    (hrun : run dialect generator program (beats.map Beat.round) = .ok (s, cs)) :
    (∀ s₁ drawn s₂, s.poll events now = .ok (s₁, drawn) → s₁.Since s₂ →
      (∀ k, s₂.machine.keypad.isPressed k → (s₂.held.pressedAt? k).isSome) ∧
        ((∀ k t, lastStroke? k (Beat.history beats ++ events) = some t → t + standardHold ≤ now) →
          ∀ k, s₂.machine.keypad.isPressed k = false)) ∧
      ∀ k, .press k ∈ (s.held.poll events now).1 ∨ .release k ∈ (s.held.poll events now).1 →
        ∀ (m : Machine) (b : Bool), (m.setKey k b).result = .ok () := by
  obtain ⟨s₀, drawn, shown, hstart, hrounds, -⟩ := run_eq_ok hrun
  have htracks : s.Tracks (Beat.history beats) := tracks_rounds (tracks_start hstart) hrounds
  refine ⟨fun s₁ drawn s₂ hpoll hsince => ?_, fun k hk m b => ?_⟩
  · obtain ⟨hheld, hcovers⟩ := covers_since (covers_poll htracks.covers hpoll).2 hsince
    refine ⟨hcovers, fun hlate k => Bool.eq_false_iff.mpr fun hk => ?_⟩
    obtain ⟨t, ht⟩ := Option.isSome_iff_exists.mp (hcovers k hk)
    rw [hheld] at ht
    have hpast := hlate k t ((tracks_poll htracks hpoll).lastStroke?_eq k t ht)
    rw [(covers_poll htracks.covers hpoll).1] at ht
    have hfresh := (Held.pressedAt?_poll ht).2
    have hhold : standardHold ≤ now - t := by omega
    rw [Held.overdue, Held.hold_translateAll, htracks.hold_eq, decide_eq_false_iff_not] at hfresh
    exact hfresh hhold
  · have hlt := Held.toNat_lt_of_poll hk
    rw [Machine.setKey, Keypad.set, dif_pos hlt]
    rfl

/-- A key that is struck again after a restart, and let go a quarter of a second later. -/
theorem no_key_stuck_restart :
    let beats : List Beat := [⟨[(.char 'w', 0), (.char '0', 1), (.char 'W', 2)], 3, 2, 1⟩]
    ∃ s cs s₁ drawn, run {} (Generator.ofSeed 0) [0x12, 0x00] (beats.map Beat.round) = .ok (s, cs) ∧
      s.machine.keypad.isPressed 5 = true ∧ s.poll [] 250002 = .ok (s₁, drawn) ∧ s₁.Since s₁ ∧
      (∀ k, s₁.machine.keypad.isPressed k → (s₁.held.pressedAt? k).isSome) ∧
      (∀ k t, lastStroke? k (Beat.history beats ++ []) = some t → t + standardHold ≤ 250002) ∧
      ∀ k, s₁.machine.keypad.isPressed k = false := by
  intro beats
  have hfacts : ((run {} (Generator.ofSeed 0) [0x12, 0x00] (beats.map Beat.round)).toOption.any
      fun p => p.1.machine.keypad.isPressed 5 && (p.1.poll [] 250002).isOk) = true := by
    decide +kernel
  have hlate : ∀ k t, lastStroke? k (Beat.history beats ++ []) = some t →
      t + standardHold ≤ 250002 := by
    intro k t ht
    change (Option.or (Option.or (Option.or none (if some 5 = some k then some 2 else none))
      (if none = some k then some 1 else none)) (if some 5 = some k then some 0 else none)) =
        some t at ht
    by_cases hk : 5 = k
    · subst k
      cases ht
      decide
    · simp [hk] at ht
  cases hrun : run {} (Generator.ofSeed 0) [0x12, 0x00] (beats.map Beat.round) with
  | error e =>
    rw [hrun] at hfacts
    cases hfacts
  | ok p =>
    obtain ⟨s, cs⟩ := p
    rw [hrun] at hfacts
    obtain ⟨hpressed, hok⟩ := Bool.and_eq_true_iff.mp hfacts
    cases hpoll : s.poll [] 250002 with
    | error e =>
      simp only [hpoll] at hok
      cases hok
    | ok q =>
      have hsince : q.1.Since q.1 := by
        refine .worked 0 0 ?_
        unfold work
        split <;> rfl
      obtain ⟨hall, -⟩ := no_key_stuck {} (Generator.ofSeed 0) _ beats [] 250002 hrun
      obtain ⟨hheld, hreleased⟩ := hall q.1 q.2 q.1 hpoll hsince
      exact ⟨s, cs, q.1, q.2, rfl, hpressed, hpoll, hsince, hheld, hlate, hreleased hlate⟩

end Session

end Chip8
