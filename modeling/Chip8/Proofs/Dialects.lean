import Chip8.Proofs.Lockstep

/-!
# The dialect and the shifts

Interpreters disagree on the register that the two shifts read, and on nothing else here. Take a
machine and the same machine in another dialect, and let both make the same calls. As long as each
shift finds the same value in its two registers, both answer the same and stay the same but for the
dialect, which no call changes, a return to power-on included (`shift_source_isolated`).

The other instructions do not look at the dialect at all. A shift looks at it once, to choose the
register that it reads; where both registers hold the same value the choice makes no difference
(`run_shiftOperand`), and what the shift does after that is the same work in every dialect.
-/

namespace Chip8

/-- `m'` is the machine `m` in the dialect `d`. -/
def Machine.InDialect (d : Dialect) (m m' : Machine) : Prop := m' = { m with dialect := d }

/-- If the call runs a shift, both its registers hold the same. -/
def Machine.ShiftsEqual (m : Machine) (c : Call) : Prop :=
  ∀ x y, m.instruction? c = some (.shiftRight x y) ∨ m.instruction? c = some (.shiftLeft x y) →
    m.register? x = m.register? y

variable {d : Dialect}

theorem Part.common_inDialect (p : Part) : p.Common (Machine.InDialect d) where
  same := by
    rintro m _ rfl
    cases p <;> rfl
  put := by
    rintro m _ v rfl
    cases p <;> rfl

/-! ## The shifts -/

namespace Work

open Machine

variable {x y : UInt8} {m m' : Machine}

theorem run_shiftOperand (h : m.register? x = m.register? y) :
    (shiftOperand x y).run m = (register x).run m := by
  have hx : (register x).run m = (orCrash (m.register? x)).run m := rfl
  have hy : (register y).run m = (orCrash (m.register? y)).run m := rfl
  unfold shiftOperand
  rw [EStateM.run_bind, EStateM.run_get]
  dsimp only
  cases m.dialect.shiftSource with
  | vx => rfl
  | vy => rw [hx, h, ← hy]

theorem match_shift {f : UInt8 → UInt8} {c : UInt8 → Bool} (h : InDialect d m m')
    (hxy : m.register? x = m.register? y) :
    Match (InDialect d)
      ((do let v ← shiftOperand x y; putWithFlag x (f v) (c v) : Work Unit).run m)
      ((do let v ← shiftOperand x y; putWithFlag x (f v) (c v) : Work Unit).run m') := by
  have hr : Part.registers.Common (InDialect d) := Part.common_inDialect _
  have hxy' : m'.register? x = m'.register? y := by
    rw [h]
    exact hxy
  have halike : Alike (InDialect d) (do let v ← register x; putWithFlag x (f v) (c v)) :=
    .bind (.register hr x) fun _ => .putWithFlag hr x _ _
  have hmatch := halike m m' h
  rw [EStateM.run_bind, EStateM.run_bind] at hmatch ⊢
  rwa [run_shiftOperand hxy, run_shiftOperand hxy']

/-- An instruction comes to the same in another dialect, if a shift finds the same in both its
registers. -/
theorem match_inDialect {i : Instruction} (h : InDialect d m m')
    (hi : ∀ x y, i = .shiftRight x y ∨ i = .shiftLeft x y → m.register? x = m.register? y) :
    Match (InDialect d) (i.effect.run m) (i.effect.run m') := by
  by_cases hs : i.shifts
  · cases i with
    | shiftRight x y => exact match_shift h (hi x y (.inl rfl))
    | shiftLeft x y => exact match_shift h (hi x y (.inr rfl))
    | _ => exact absurd hs Bool.false_ne_true
  · exact alike_effect i (fun p _ => p.common_inDialect) (fun hs' => absurd hs' hs) m m' h

end Work

namespace Machine

variable {m m' : Machine} {c : Call} {cs : List Call}

/-! ## No call changes the dialect -/

theorem dialect_of_runs (hr : c.runs) : (m.call c).machine.dialect = m.dialect :=
  kept_of_runs hr (fun _ _ _ _ _ => rfl) fun i _ => Work.keeps_dialect i

theorem dialect_call : (m.call c).machine.dialect = m.dialect := by
  cases hr : c.runs with
  | true => exact dialect_of_runs hr
  | false =>
    cases c with
    | executeAll is =>
      refine (executeAll_induction (P := fun m₁ => m₁.dialect = m.dialect) rfl fun m₁ i _ h => ?_).1
      exact (dialect_of_runs (c := .execute i) rfl).trans h
    | reset => rfl
    | _ =>
      obtain ⟨memory, keypad, mode, delay, sound, display, hm, -⟩ := machine_of_host m rfl hr
      rw [hm]

theorem dialect_after : (m.after cs).dialect = m.dialect :=
  after_induction (P := fun m₁ => m₁.dialect = m.dialect) rfl fun _ _ _ h => dialect_call.trans h

/-! ## Two dialects -/

theorem steady_inDialect : Steady (InDialect d) where
  reason := by
    rintro m _ rfl
    rfl
  paused := by
    rintro m _ rfl
    rfl
  halt := by
    rintro m _ f rfl
    rfl
  lastWord := by
    rintro m _ w rfl
    rfl
  awaiting := Part.common_inDialect _
  pc := Part.common_inDialect _

theorem alike_inDialect (h : InDialect d m m') (hone : c.isMany = false) (hc : m.ShiftsEqual c) :
    Turn.Alike (InDialect d) (m.call c) (m'.call c) := by
  have hword : m.memory.word m.pc.toNat = m'.memory.word m'.pc.toNat := by
    rw [h]
  cases hr : c.runs with
  | true =>
    refine alike_runs_of_match steady_inDialect h hr (fun _ => hword) fun i hi => ?_
    refine Work.match_inDialect (steady_inDialect.ready h fun _ _ => hword) fun x y hxy => ?_
    refine hc x y ?_
    rcases hxy with rfl | rfl
    · exact .inl hi
    · exact .inr hi
  | false =>
    refine alike_host h hr hone (fun p _ => p.common_inDialect) ?_ (fun mode => ?_) ?_
    all_goals
      subst h
      rfl

/-- **The dialect shows in the shifts alone.** No call changes the dialect of a machine. Two machines
that are the same but for their dialects answer the same calls alike and stay the same but for their
dialects, as long as each shift that is run finds the same in both its registers. -/
theorem shift_source_isolated (m : Machine) (d : Dialect) (cs : List Call) :
    (m.after cs).dialect = m.dialect ∧ ({ m with dialect := d }.after cs).dialect = d ∧
      (m.Along ShiftsEqual (m.unroll cs) →
        List.Forall₂ (fun t t' => t'.result = t.result ∧ t'.machine = { t.machine with dialect := d })
          (m.calls cs) ({ m with dialect := d }.calls cs)) := by
  refine ⟨dialect_after, dialect_after, fun hcs => ?_⟩
  have hruns : List.Forall₂ (Turn.Alike (InDialect d)) (m.calls cs)
      ({ m with dialect := d }.calls cs) :=
    alike_calls (fun h hone hc => alike_inDialect h hone hc) rfl hcs
  exact hruns.imp fun t t' h => ⟨h.1.symm, h.2⟩

/-- With the same in `V1` and `V2`, a shift of `V1` with `V2`, one of the flag with itself and a return
to power-on come to the same in both dialects. A second shift of `V1` with `V2` does not. -/
theorem shift_source_isolated_copied :
    let m := (initial {} (Generator.ofSeed 0)).after [.stepWith 0x6183, .stepWith 0x8210]
    let vip := { m with dialect := .cosmacVip }
    let cs : List Call := [.stepWith 0x8126, .execute (.shiftRight 15 15), .reset]
    m.Along ShiftsEqual (m.unroll cs) ∧
      List.Forall₂ (fun t t' => t'.result = t.result ∧
        t'.machine = { t.machine with dialect := .cosmacVip }) (m.calls cs) (vip.calls cs) ∧
      (m.after [.stepWith 0x8126, .stepWith 0x8126]).register? 1 = some 0x20 ∧
      (vip.after [.stepWith 0x8126, .stepWith 0x8126]).register? 1 = some 0x41 := by
  intro m vip cs
  have hcs : m.Along ShiftsEqual (m.unroll cs) := by
    refine ⟨fun x y h => ?_, fun x y h => ?_, fun x y h => ?_, trivial⟩
    · rcases h with h | h <;> cases h
      decide +kernel
    · rcases h with h | h <;> cases h
      rfl
    · rcases h with h | h <;> cases h
  obtain ⟨-, -, hsame⟩ := shift_source_isolated m .cosmacVip cs
  exact ⟨hcs, hsame hcs, by decide +kernel, by decide +kernel⟩

end Machine

end Chip8
