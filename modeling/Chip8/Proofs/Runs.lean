import Chip8.Proofs.Outcome

/-!
# Runs

What every call of a host keeps, a run keeps, of whatever calls it is made; and what is true of each
turn of a run needs to be shown for one call only. Several instructions that are run at once come
to what they come to one by one, up to the first that stops.
-/

namespace Chip8.Machine

variable {P : Machine → Prop} {m : Machine} {cs : List Call} {is : List Instruction}

/-- What each call of a run keeps, the run keeps. -/
theorem after_induction (h : P m) (hstep : ∀ m, ∀ c ∈ cs, P m → P (m.call c).machine) :
    P (m.after cs) := by
  induction cs generalizing m with
  | nil => exact h
  | cons c cs ih =>
    refine ih (hstep m c List.mem_cons_self h) fun m d hd => ?_
    exact hstep m d (List.mem_cons_of_mem c hd)

/-- Each turn of a run is that of a call on a machine with what the calls keep. -/
theorem calls_induction {Q : Turn Reply → Prop} (h : P m)
    (hstep : ∀ m, ∀ c ∈ cs, P m → P (m.call c).machine)
    (hturn : ∀ m, ∀ c ∈ cs, P m → Q (m.call c)) : ∀ t ∈ m.calls cs, Q t := by
  induction cs generalizing m with
  | nil =>
    intro t ht
    cases ht
  | cons c cs ih =>
    intro t ht
    rcases List.mem_cons.mp ht with rfl | ht
    · exact hturn m c List.mem_cons_self h
    · refine ih (hstep m c List.mem_cons_self h) ?_ ?_ t ht
      · exact fun m d hd => hstep m d (List.mem_cons_of_mem c hd)
      · exact fun m d hd => hturn m d (List.mem_cons_of_mem c hd)

theorem executeAll_cons_of_ok {i : Instruction} {u : Unit} (h : (m.execute i).result = .ok u) :
    m.executeAll (i :: is) =
      let t := (m.execute i).machine.executeAll is
      { t with log := (m.execute i).log ++ t.log } := by
  rw [executeAll, Turn.andThen, h]

theorem executeAll_cons_of_error {i : Instruction} {stop : Stop}
    (h : (m.execute i).result = .error stop) : m.executeAll (i :: is) = m.execute i := by
  rw [executeAll, Turn.andThen]
  generalize m.execute i = t at h ⊢
  obtain ⟨result, machine, log⟩ := t
  cases h
  rfl

/-- What each instruction keeps, running them all keeps; and where they stop, one of them stops on a
machine with what they keep. -/
theorem executeAll_induction (h : P m) (hstep : ∀ m, ∀ i ∈ is, P m → P (m.execute i).machine) :
    P (m.executeAll is).machine ∧
      ∀ stop, (m.executeAll is).result = .error stop →
        ∃ m' i, i ∈ is ∧ P m' ∧ (m'.execute i).result = .error stop := by
  induction is generalizing m with
  | nil => exact ⟨h, nofun⟩
  | cons i is ih =>
    have hnext := hstep m i List.mem_cons_self h
    cases hr : (m.execute i).result with
    | error stop =>
      rw [executeAll_cons_of_error hr]
      refine ⟨hnext, fun stop' hs => ?_⟩
      exact ⟨m, i, List.mem_cons_self, h, hs⟩
    | ok u =>
      rw [executeAll_cons_of_ok hr]
      obtain ⟨hmachine, hresult⟩ := ih hnext fun m j hj => hstep m j (List.mem_cons_of_mem i hj)
      refine ⟨hmachine, fun stop hs => ?_⟩
      obtain ⟨m', j, hj, hP, hstop⟩ := hresult stop hs
      exact ⟨m', j, List.mem_cons_of_mem i hj, hP, hstop⟩

end Chip8.Machine
