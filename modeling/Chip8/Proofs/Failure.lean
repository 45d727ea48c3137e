import Chip8.Proofs.Outcome

/-!
# Failing calls

A call that fails leaves the machine as it was, apart from what tells of the failure: the machine
is halted for the reason that the call returned, the last word is the one that the call fetched or
was given, and a pending wait for a key is gone if an instruction was run. A halted machine and a
call that runs no instruction do not even leave that.
-/

namespace Chip8

namespace Machine

theorem machine_of_refused_load {m : Machine} {program : List UInt8} {stop : Stop}
    (h : (m.load program).result = .error stop) : (m.load program).machine = m := by
  unfold load at h ⊢
  split
  · rename_i hm
    rw [hm] at h
    cases h
  · rfl

theorem machine_of_refused_setKey {m : Machine} {k : UInt8} {b : Bool} {stop : Stop}
    (h : (m.setKey k b).result = .error stop) : (m.setKey k b).machine = m := by
  unfold setKey at h ⊢
  split
  · rename_i hm
    rw [hm] at h
    cases h
  · rfl

/-- A failing call changes nothing but the mode, the last word and the pending wait. Running
several instructions is left out: those before the one that fails have taken effect. -/
theorem machine_of_failed_call (m : Machine) (c : Call) (f : Fault)
    (hc : ∀ is, c ≠ .executeAll is) (hf : (m.call c).result = .error (.fault f)) :
    (m.call c).machine =
      if c.runs ∧ m.mode.reason? = none then
        { m with
          mode := .halted f
          lastWord := (m.word? c).or m.lastWord
          awaiting := if (m.instruction? c).isSome then none else m.awaiting }
      else m := by
  cases hr : c.runs with
  | true =>
    have ho := outcome_call m hr
    rw [hf] at ho
    generalize (m.call c).machine = m' at ho ⊢
    cases ho with
    | refused hm =>
      have hn : ¬ (true = true ∧ m.mode.reason? = none) := by rw [hm]; nofun
      rw [if_neg hn]
    | unfetched ha hw hi _ => simp [reason?_of_admits ha, hw, hi]
    | undecoded ha hw hi _ => simp [reason?_of_admits ha, hw, hi]
    | failed hi _ => simp [reason?_of_admits (admits_of_instruction? hi), hi, ready, wordAfter]
  | false =>
    -- Only loading and pressing keys are refused without an instruction.
    rw [if_neg (by simp)]
    cases c with
    | load program => exact machine_of_refused_load (Turn.result_of_map_error hf)
    | setKey k b => exact machine_of_refused_setKey (Turn.result_of_map_error hf)
    | executeAll is => exact absurd rfl (hc is)
    | step | cycle | stepWith | execute => cases hr
    | _ => cases hf

/-- A sprite that reaches past the end of memory, while a key is awaited. -/
theorem machine_of_failed_call_draw :
    let m : Machine :=
      { initial {} (Generator.ofSeed 0) with index := 0xFFF, awaiting := some 3 }
    (m.call (.stepWith 0xD125)).result = .error (.fault (.outOfRange 0x1003)) ∧
      (m.call (.stepWith 0xD125)).machine =
        { m with
          mode := .halted (.outOfRange 0x1003)
          lastWord := some 0xD125
          awaiting := none } := by
  intro m
  have hf : (m.call (.stepWith 0xD125)).result = .error (.fault (.outOfRange 0x1003)) := by rfl
  exact ⟨hf, machine_of_failed_call m (.stepWith 0xD125) _ nofun hf⟩

end Machine

end Chip8
