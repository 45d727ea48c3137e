import Chip8.Proofs.Safety

/-!
# What a run has done

What a machine has become depends on the instructions that were run on it to their end, in their
order. This module makes a list of them (`Machine.performed`), for runs on which every instruction
names registers that there are. A call that runs several instructions counts as the calls that run
them one by one, up to the first that stops: `Machine.unroll` puts these in its place, and what they
leave is the same (`after_unroll`). So what is proved of calls that run one instruction, at any
moment of an unrolled run, holds of all calls.
-/

namespace Chip8

/-- Whether each instruction that a call supplies names registers that there are. -/
def Call.RegistersValid (c : Call) : Prop := ∀ i ∈ c.instructions, i.RegistersValid

/-- Whether a call runs several instructions. -/
def Call.isMany : Call → Bool
  | .executeAll _ => true
  | _ => false

namespace Machine

/-- The instruction that a call runs to its end, if it runs one. -/
def performed? (m : Machine) (c : Call) : Option Instruction :=
  match (m.call c).result with
  | .ok _ => m.instruction? c
  | .error _ => none

/-- The instructions that a run has run to their end, each by a call of its own. -/
def performed (m : Machine) : List Call → List Instruction
  | [] => []
  | c :: cs => (m.performed? c).toList ++ (m.call c).machine.performed cs

/-- Of several instructions, those up to the first that stops. -/
def tried (m : Machine) : List Instruction → List Instruction
  | [] => []
  | i :: is =>
    match (m.execute i).result with
    | .ok _ => i :: (m.execute i).machine.tried is
    | .error _ => [i]

/-- What a call amounts to: several instructions are run one by one. -/
def unrolled (m : Machine) : Call → List Call
  | .executeAll is => (m.tried is).map .execute
  | c => [c]

/-- What a run amounts to. -/
def unroll (m : Machine) : List Call → List Call
  | [] => []
  | c :: cs => m.unrolled c ++ (m.call c).machine.unroll cs

/-- The pending wait, if there is one, is for a register that there is. -/
def WaitsForRegister (m : Machine) : Prop := ∀ x, m.awaiting = some x → x < 16

variable {m : Machine} {c : Call} {cs ds : List Call} {i : Instruction}

/-! ## Runs without calls that run several instructions -/

theorem after_tried (m : Machine) (is : List Instruction) :
    m.after ((m.tried is).map .execute) = (m.executeAll is).machine := by
  induction is generalizing m with
  | nil => rfl
  | cons i is ih =>
    unfold tried
    cases hr : (m.execute i).result with
    | ok u =>
      rw [executeAll_cons_of_ok hr]
      exact ih _
    | error stop =>
      rw [executeAll_cons_of_error hr]
      rfl

theorem after_unrolled (m : Machine) (c : Call) : m.after (m.unrolled c) = (m.call c).machine := by
  cases c with
  | executeAll is => exact after_tried m is
  | _ => rfl

theorem after_unroll (m : Machine) (cs : List Call) : m.after (m.unroll cs) = m.after cs := by
  induction cs generalizing m with
  | nil => rfl
  | cons c cs ih => rw [unroll, after_append, after_unrolled, ih, after]

theorem tried_subset (m : Machine) (is : List Instruction) : m.tried is ⊆ is := by
  induction is generalizing m with
  | nil => exact List.Subset.refl _
  | cons i is ih =>
    unfold tried
    split
    · exact List.cons_subset_cons i (ih _)
    · exact List.cons_subset_cons i (List.nil_subset is)

theorem valid_of_mem_unrolled (hc : c.RegistersValid) :
    ∀ d ∈ m.unrolled c, d.isMany = false ∧ d.RegistersValid := by
  intro d hd
  cases c with
  | executeAll is =>
    obtain ⟨i, hi, rfl⟩ := List.mem_map.mp hd
    refine ⟨rfl, fun j hj => ?_⟩
    obtain rfl := List.mem_singleton.mp hj
    exact hc j (tried_subset m is hi)
  | _ =>
    obtain rfl := List.mem_singleton.mp hd
    exact ⟨rfl, hc⟩

theorem valid_of_mem_unroll (hcs : ∀ c ∈ cs, c.RegistersValid) :
    ∀ d ∈ m.unroll cs, d.isMany = false ∧ d.RegistersValid := by
  induction cs generalizing m with
  | nil => nofun
  | cons c cs ih =>
    intro d hd
    rcases List.mem_append.mp hd with hd | hd
    · exact valid_of_mem_unrolled (hcs c List.mem_cons_self) d hd
    · exact ih (fun e he => hcs e (List.mem_cons_of_mem c he)) d hd

/-! ## Instructions that are run to their end -/

theorem instruction?_of_paused (hm : m.mode = .paused) : m.instruction? .cycle = none := by
  cases hi : m.instruction? .cycle with
  | none => rfl
  | some i => exact absurd hm (not_paused_of_admits (admits_of_instruction? hi))

theorem performed?_eq_some_iff : m.performed? c = some i ↔ m.Performs c i := by
  unfold performed? Performs
  constructor
  · intro h
    cases hr : (m.call c).result with
    | error stop =>
      rw [hr] at h
      cases h
    | ok reply =>
      rw [hr] at h
      exact ⟨h, congrArg Except.ok (run_effect_of_ok h hr).1⟩
  · rintro ⟨hi, hr⟩
    rw [hr]
    exact hi

theorem performed?_of_host (m : Machine) (hr : c.runs = false) : m.performed? c = none := by
  cases hp : m.performed? c with
  | none => rfl
  | some i =>
    have hruns := runs_of_instruction? (performed?_eq_some_iff.mp hp).1
    rw [hr] at hruns
    cases hruns

/-! ## Registers that there are -/

theorem waitsForRegister_initial (dialect : Dialect) (generator : Generator) :
    (initial dialect generator).WaitsForRegister := nofun

theorem registersValid_of_instruction? (h : m.WaitsForRegister) (hc : c.RegistersValid)
    (hi : m.instruction? c = some i) : i.RegistersValid := by
  have hchoice := choice?_of_instruction? hi
  cases c with
  | step | cycle =>
    simp only [choice?] at hchoice
    split at hchoice
    · rename_i x hx
      cases hchoice
      intro r hr
      cases hr with
      | head => exact h x hx
      | tail _ hr => cases hr
    · obtain ⟨w, -, hw⟩ := Option.bind_eq_some_iff.mp hchoice
      exact fun r hr => Instruction.fits_of_ofWord? hw _ hr
  | stepWith w => exact fun r hr => Instruction.fits_of_ofWord? hchoice _ hr
  | execute j =>
    cases hchoice
    exact hc _ (.head _)
  | _ => cases hchoice

theorem waitsForRegister_of_runs (h : m.WaitsForRegister) (hc : c.RegistersValid) (hr : c.runs) :
    (m.call c).machine.WaitsForRegister := by
  have ho := outcome_call m hr
  generalize (m.call c).result = r, (m.call c).machine = m' at ho ⊢
  cases ho with
  | refused | idle | unfetched | undecoded => exact h
  | failed => exact nofun
  | ended hi hr =>
    intro x hx
    obtain ⟨rfl, -, -⟩ := Work.awaiting_of_effect (m := m.ready c) rfl (Work.left_of_ok hr) hx
    exact registersValid_of_instruction? h hc hi x (.head _)
  | crashed hi hr =>
    intro x hx
    have hnone := Work.awaiting_of_stop (m := m.ready c) rfl hr
    exact absurd (hnone.symm.trans hx) nofun

theorem waitsForRegister_call (h : m.WaitsForRegister) (hc : c.RegistersValid) :
    (m.call c).machine.WaitsForRegister := by
  cases hr : c.runs with
  | true => exact waitsForRegister_of_runs h hc hr
  | false =>
    cases c with
    | executeAll is =>
      refine (executeAll_induction h fun m i hi hm => ?_).1
      refine waitsForRegister_of_runs (c := .execute i) hm (fun j hj => ?_) rfl
      obtain rfl := List.mem_singleton.mp hj
      exact hc j hi
    | reset => exact waitsForRegister_initial _ _
    | _ =>
      obtain ⟨memory, keypad, mode, delay, sound, display, hm, -⟩ := machine_of_host m rfl hr
      rw [hm]
      exact h

theorem waitsForRegister_after (h : m.WaitsForRegister) (hcs : ∀ c ∈ cs, c.RegistersValid) :
    (m.after cs).WaitsForRegister :=
  after_induction h fun _ c hc hm => waitsForRegister_call hm (hcs c hc)

end Machine

end Chip8
