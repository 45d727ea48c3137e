import Chip8.Proofs.Lockstep

/-!
# Calls that may be made in either order

A host counts the timers down and presses keys between the instructions of a program. Whether it
does so just before an instruction or just after it makes no difference, unless the instruction has
to do with that timer or that key (`host_calls_commute`): both orders answer the same and leave the
same machine (`Commute`), also where the instruction fails and where the machine is paused or halted.

Such a call changes one part of the machine. So a machine after it and the same machine before it,
side by side, differ in that part alone (`Changed`), and an instruction that does not use the part
keeps that difference as it is. The two instructions that skip on a key look at the keypad, but at
one key only.
-/

namespace Chip8

/-- The calls `c` and `d` may be made in either order: each answers what it answers when it is made
first, and both orders leave the same machine. -/
structure Machine.Commute (m : Machine) (c d : Call) : Prop where
  left : ((m.call d).machine.call c).result = (m.call c).result
  right : ((m.call c).machine.call d).result = (m.call d).result
  machine : m.after [c, d] = m.after [d, c]

/-- The keypad with a key pressed or released, if there is that key. -/
def Keypad.withKey (k : UInt8) (b : Bool) (keypad : Keypad) : Keypad :=
  (keypad.set k b).toOption.getD keypad

theorem Keypad.isPressed_withKey {k j : UInt8} (b : Bool) (keypad : Keypad) (h : j ≠ k) :
    (keypad.withKey k b).isPressed j = keypad.isPressed j := by
  unfold withKey
  cases hset : keypad.set k b with
  | error f => rfl
  | ok p =>
    have hpressed := isPressed_set hset j
    rwa [if_neg h] at hpressed

/-- `m'` is the machine `m` with `g` applied to a part. -/
def Machine.Changed (p : Part) (g : p.Content → p.Content) (m m' : Machine) : Prop :=
  m' = p.put m (g (p.content m))

/-- Whether a part of the machine decides which instruction a call runs. -/
def Part.directs : Part → Bool
  | pc | awaiting | memory => true
  | _ => false

variable {p q : Part} {g : p.Content → p.Content}

/-! ## Machines that differ in one part -/

theorem Part.common_changed (h : q ≠ p) : q.Common (Machine.Changed p g) where
  same := by
    rintro m _ rfl
    cases p <;> cases q <;> first | exact absurd rfl h | rfl
  put := by
    rintro m _ v rfl
    cases p <;> cases q <;> first | exact absurd rfl h | rfl

theorem Part.ne_of_directs (hp : p.directs = false) (hq : q.directs) : q ≠ p := by
  rintro rfl
  rw [hp] at hq
  cases hq

theorem Machine.steady_changed (hp : p.directs = false) : Steady (Changed p g) where
  reason := by
    rintro m _ rfl
    cases p <;> rfl
  paused := by
    rintro m _ rfl
    cases p <;> rfl
  halt := by
    rintro m _ f rfl
    cases p <;> rfl
  lastWord := by
    rintro m _ w rfl
    cases p <;> rfl
  awaiting := Part.common_changed (Part.ne_of_directs hp rfl)
  pc := Part.common_changed (Part.ne_of_directs hp rfl)

namespace Work

open Machine

/-- An instruction that does not use the part comes to the same. -/
theorem alike_changed {i : Instruction} (h : i.uses.contains p = false) :
    Alike (Changed p g) i.effect := by
  refine alike_effect i (fun q hq => Part.common_changed ?_) fun _ => ?_
  · rintro rfl
    rw [h] at hq
    cases hq
  · rintro m _ rfl
    cases p <;> rfl

theorem run_skipByKey (c : Bool → Bool) (x : UInt8) (m : Machine) :
    (do let v ← register x; skipIf (c ((← get).keypad.isPressed v)) : Work Unit).run m =
      match m.register? x with
      | none => .error .crash m
      | some v => .ok () (if c (m.keypad.isPressed v) then { m with pc := m.pc + 2 } else m) := by
  unfold register
  rw [EStateM.run_bind, EStateM.run_bind, EStateM.run_get]
  cases h : m.register? x with
  | none =>
    simp only [h]
    rfl
  | some v =>
    simp only [h]
    rfl

/-- A skip on a key comes to the same if no other than the key in `VX` has changed. -/
theorem match_skipByKey {g : Keypad → Keypad} (c : Bool → Bool) {x : UInt8} {m m' : Machine}
    (h : Changed .keypad g m m')
    (hx : ∀ v, m.register? x = some v → (g m.keypad).isPressed v = m.keypad.isPressed v) :
    Match (Changed .keypad g)
      ((do let v ← register x; skipIf (c ((← get).keypad.isPressed v)) : Work Unit).run m)
      ((do let v ← register x; skipIf (c ((← get).keypad.isPressed v)) : Work Unit).run m') := by
  subst h
  have hregister : (Part.keypad.put m (g m.keypad)).register? x = m.register? x := rfl
  rw [run_skipByKey, run_skipByKey, Part.content, hregister]
  cases hr : m.register? x with
  | none => exact .error _ rfl
  | some v =>
    have hv : (Part.keypad.put m (g m.keypad)).keypad.isPressed v = m.keypad.isPressed v := hx v hr
    simp only [hv]
    refine .ok () ?_
    split <;> rfl

end Work

namespace Machine

variable {m : Machine} {c d : Call} {i : Instruction}

/-! ## Two orders -/

/-- What a call of the host that changes the part `p` does: it succeeds and applies `g`. -/
def Applies (p : Part) (g : p.Content → p.Content) (d : Call) : Prop :=
  ∀ m : Machine, m.call d = .done .done (p.put m (g (p.content m)))

theorem Applies.changed (hd : Applies p g d) : Changed p g m (m.call d).machine := by
  rw [hd]
  rfl

theorem commute_of_alike (hd : Applies p g d)
    (h : Turn.Alike (Changed p g) (m.call c) ((m.call d).machine.call c)) : m.Commute d c := by
  obtain ⟨hresult, hmachine⟩ := h
  refine ⟨?_, hresult.symm, ?_⟩
  · rw [hd, hd]
    rfl
  · have hlast : (m.after [c, d]) = p.put (m.call c).machine (g (p.content (m.call c).machine)) :=
      congrArg Turn.machine (hd (m.call c).machine)
    rw [hlast]
    exact hmachine

theorem Changed.word (hp : p.directs = false) {m' : Machine} (h : Changed p g m m') :
    m.memory.word m.pc.toNat = m'.memory.word m'.pc.toNat := by
  rw [h]
  cases p <;> first | rfl | cases hp

/-- A call that changes one part commutes with one that runs an instruction which does not use it. -/
theorem commute_of_unused (hp : p.directs = false) (hd : Applies p g d) (hc : c.runs)
    (hi : ∀ i, m.instruction? c = some i → i.uses.contains p = false) : m.Commute d c :=
  commute_of_alike hd <|
    alike_runs (steady_changed hp) hd.changed hc (fun _ => hd.changed.word hp)
      fun i h => Work.alike_changed (hi i h)

/-! ## The timers and the keys -/

theorem applies_tickDelay : Applies .delay countDown .tickDelay := fun _ => rfl

theorem applies_tickSound : Applies .sound countDown .tickSound := fun _ => rfl

theorem applies_setKey {k : UInt8} (b : Bool) (hk : k < 16) :
    Applies .keypad (Keypad.withKey k b) (.setKey k b) := by
  intro m
  have hset : m.keypad.set k b = .ok ⟨m.keypad.keys.set k.toNat b hk⟩ := dif_pos hk
  rw [call, setKey, Part.content, Keypad.withKey, hset]
  rfl

/-- Beside a wait, an instruction comes to the same whether a key is pressed, unless it skips on that
key. -/
theorem match_withKey {k : UInt8} {b : Bool} {m' : Machine}
    (h : Changed .keypad (Keypad.withKey k b) m m') (hwait : ∀ x, i ≠ .awaitKey x)
    (hskip : ∀ x, i = .skipPressed x ∨ i = .skipReleased x → m.register? x ≠ some k) :
    Work.Match (Changed .keypad (Keypad.withKey k b)) (i.effect.run m) (i.effect.run m') := by
  have hother : ∀ x, i = .skipPressed x ∨ i = .skipReleased x → ∀ v, m.register? x = some v →
      (m.keypad.withKey k b).isPressed v = m.keypad.isPressed v := by
    intro x hx v hv
    refine Keypad.isPressed_withKey b m.keypad ?_
    rintro rfl
    exact hskip x hx hv
  cases i with
  | skipPressed x => exact Work.match_skipByKey id h (hother x (.inl rfl))
  | skipReleased x => exact Work.match_skipByKey (!·) h (hother x (.inr rfl))
  | awaitKey x => exact absurd rfl (hwait x)
  | _ => exact Work.alike_changed rfl _ _ h

/-- **Host calls commute with independent instructions.** A count-down of the delay timer and a call
that runs an instruction may be made in either order, unless the instruction reads or sets that
timer; so may a count-down of the sound timer, unless the instruction sets it, and pressing or
releasing a key, unless the instruction waits for a key or skips on that one. This does not depend
on whether the instruction fails, or whether the machine is paused or halted. -/
theorem host_calls_commute (m : Machine) (c : Call) (hc : c.runs) :
    ((∀ x, m.instruction? c ≠ some (.getDelay x) ∧ m.instruction? c ≠ some (.setDelay x)) →
      m.Commute .tickDelay c) ∧
    ((∀ x, m.instruction? c ≠ some (.setSound x)) → m.Commute .tickSound c) ∧
    ∀ k b, k < 16 → (∀ x, m.instruction? c ≠ some (.awaitKey x)) →
      (∀ x, m.instruction? c = some (.skipPressed x) ∨ m.instruction? c = some (.skipReleased x) →
        m.register? x ≠ some k) →
      m.Commute (.setKey k b) c := by
  refine ⟨fun h => ?_, fun h => ?_, fun k b hk hwait hskip => ?_⟩
  · refine commute_of_unused rfl applies_tickDelay hc fun i hi => ?_
    cases i with
    | getDelay x => exact absurd hi (h x).1
    | setDelay x => exact absurd hi (h x).2
    | _ => rfl
  · refine commute_of_unused rfl applies_tickSound hc fun i hi => ?_
    cases i with
    | setSound x => exact absurd hi (h x)
    | _ => rfl
  · have hd := applies_setKey b hk
    have hchanged := hd.changed (m := m)
    have hsteady : Steady (Changed .keypad (Keypad.withKey k b)) := steady_changed rfl
    have hword := hchanged.word rfl
    refine commute_of_alike hd ?_
    refine alike_runs_of_match hsteady hchanged hc (fun _ => hword) fun i hi => ?_
    refine match_withKey (hsteady.ready hchanged fun _ _ => hword) (fun x hx => ?_) fun x hx => ?_
    · exact hwait x (hx ▸ hi)
    · refine hskip x ?_
      rcases hx with rfl | rfl
      · exact .inl hi
      · exact .inr hi

/-- Just before `V3` is set to the delay timer a sound may be counted down and a key pressed, but a
count-down of the delay timer makes a difference. -/
theorem host_calls_commute_getDelay :
    let m := (initial {} (Generator.ofSeed 0)).after
      [.stepWith 0x6305, .execute (.setDelay 3), .load [0xF3, 0x07, 0xF3, 0x07]]
    m.instruction? .step = some (.getDelay 3) ∧ m.Commute .tickSound .step ∧
      m.Commute (.setKey 4 true) .step ∧ ¬ m.Commute .tickDelay .step := by
  intro m
  have hi : m.instruction? .step = some (.getDelay 3) := by decide +kernel
  obtain ⟨-, hsound, hkey⟩ := host_calls_commute m .step rfl
  refine ⟨hi, hsound fun x => ?_, hkey 4 true (by decide) (fun x => ?_) (fun x hx => ?_), fun h => ?_⟩
  · rw [hi]
    exact nofun
  · rw [hi]
    exact nofun
  · rw [hi] at hx
    rcases hx with hx | hx <;> cases hx
  · have hregister := congrArg (fun m : Machine => m.register? 3) h.machine
    exact absurd hregister (by decide +kernel)

end Machine

end Chip8
