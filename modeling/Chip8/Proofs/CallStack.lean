import Chip8.Proofs.Answer
import Chip8.Proofs.Outcome

/-!
# Calls and returns

Of all instructions `call` alone pushes a return address and `ret` alone pops one, and a single call
of the host runs at most one of them (`StackMove`). So calls and returns bracket: from a call on,
what was stored before it and the address behind it stay where they are on the stack, until a return
takes that address off and goes on there (`calls_bracket`). Nothing is assumed of the program, of
memory, or of what the host does in between, except that it runs one instruction at a time and does
not return the machine to power-on.
-/

namespace Chip8

/-- Whether a call runs its instruction with the program counter past it. -/
def Call.advances : Call → Bool
  | .step | .cycle | .stepWith _ => true
  | _ => false

/-! ## The two instructions that move the stack -/

namespace Machine

variable {m m' : Machine} {c : Call} {cs : List Call} {a : UInt16} {L : List UInt16} {n : Nat}

/-- What a call may do to the stack, and when. -/
inductive StackMove (m : Machine) (c : Call) : Machine → Prop
  | kept {m' : Machine} (hs : m'.stack = m.stack) : StackMove m c m'
  | pushed {a : UInt16} {s : Stack} (hi : m.Performs c (.call a))
      (hs : m.stack.push? (m.ready c).pc = some s) :
      StackMove m c { m.ready c with stack := s, pc := a }
  | popped {a : UInt16} {s : Stack} (hi : m.Performs c .ret) (hs : m.stack.pop? = some (a, s)) :
      StackMove m c { m.ready c with stack := s, pc := a }

theorem stackMove_effect {i : Instruction} (hi : m.Performs c i)
    (hr : i.effect.run (m.ready c) = .ok () m') : StackMove m c m' := by
  cases i with
  | ret =>
    rw [Instruction.effect, Work.run_leaveCall] at hr
    cases hs : m.stack.pop? with
    | none =>
      rw [show (m.ready c).stack.pop? = none from hs] at hr
      cases hr
    | some top =>
      rw [show (m.ready c).stack.pop? = some top from hs] at hr
      cases hr
      exact .popped hi hs
  | call a =>
    rw [Instruction.effect, Work.run_enterCall] at hr
    cases hs : m.stack.push? (m.ready c).pc with
    | none =>
      rw [show (m.ready c).stack.push? _ = none from hs] at hr
      cases hr
    | some s =>
      rw [show (m.ready c).stack.push? _ = some s from hs] at hr
      cases hr
      exact .pushed hi hs
  | _ =>
    have hs : m'.stack = (m.ready c).stack := (Work.keeps_part .stack (by rfl)).of_ok hr
    exact .kept hs

theorem stack_of_crash {i : Instruction} {m₀ : Machine}
    (hr : i.effect.run m₀ = .error .crash m') : m'.stack = m₀.stack := by
  cases i with
  | ret =>
    rw [Instruction.effect, Work.run_leaveCall] at hr
    split at hr <;> cases hr
  | call a =>
    rw [Instruction.effect, Work.run_enterCall] at hr
    split at hr <;> cases hr
  | _ => exact (Work.keeps_part .stack (by rfl)).of_error hr

/-- Each single call keeps the stack, or it runs a call or a return. -/
theorem stackMove_call (hc : c.single) : StackMove m c (m.call c).machine := by
  cases hr : c.runs with
  | false =>
    obtain ⟨memory, keypad, mode, delay, sound, display, hm, -⟩ := machine_of_host m hc hr
    rw [hm]
    exact .kept rfl
  | true =>
    have ho := outcome_call m hr
    generalize hres : (m.call c).result = r, (m.call c).machine = m' at ho ⊢
    cases ho with
    | refused | idle => exact .kept rfl
    | unfetched | undecoded | failed => exact .kept rfl
    | ended hi hr => exact stackMove_effect ⟨hi, hres⟩ hr
    | crashed hi hr =>
      have hs := stack_of_crash hr
      exact .kept hs

theorem depth_of_call (hc : c.single) :
    (m.call c).machine.stack.depth ≤ m.stack.depth + 1 ∧
      m.stack.depth ≤ (m.call c).machine.stack.depth + 1 := by
  have hmove := stackMove_call (m := m) hc
  generalize (m.call c).machine = m' at hmove ⊢
  cases hmove with
  | kept hs => simp [hs]
  | pushed hi hs =>
    have hlength := congrArg List.length (Stack.toList_push hs)
    simp at hlength ⊢
    omega
  | popped hi hs =>
    have hlength := congrArg List.length (Stack.toList_pop hs)
    simp at hlength ⊢
    omega

/-! ## From a call to its return -/

theorem depth_of_prefix {r : UInt16} (h : L ++ [r] <+: m.stack.toList) :
    m.stack.depth ≠ L.length := by
  have hle := h.length_le
  simp at hle
  omega

/-- An address stays where it is on the stack, or a return takes it off and goes on there. -/
theorem held_or_returned {r : UInt16} (hc : c.single) (h : L ++ [r] <+: m.stack.toList) :
    L ++ [r] <+: (m.call c).machine.stack.toList ∨
      m.Performs c .ret ∧ (m.call c).machine.pc = r ∧ (m.call c).machine.stack.toList = L := by
  have hmove := stackMove_call (m := m) hc
  generalize (m.call c).machine = m' at hmove ⊢
  cases hmove with
  | kept hs =>
    rw [hs]
    exact .inl h
  | pushed hi hs =>
    left
    rw [Stack.toList_push hs]
    exact h.trans (List.prefix_append _ _)
  | popped hi hs =>
    rw [Stack.toList_pop hs] at h
    -- The address is the one that is popped, or it lies below that.
    rcases List.prefix_concat_iff.mp h with heq | hpre
    · obtain ⟨hL, hr⟩ := List.append_inj' heq rfl
      cases hr
      exact .inr ⟨hi, rfl, hL.symm⟩
    · exact .inl hpre

/-- In none of the states after the first to the `n`th call is the stack `depth` deep. -/
def Away (m : Machine) (cs : List Call) (depth n : Nat) : Prop :=
  ∀ k, 0 < k → k ≤ n → (m.after (cs.take k)).stack.depth ≠ depth

/-- As long as the stack is not as deep as below an address, that address stays where it is. -/
theorem held_of_away {r : UInt16} (h : L ++ [r] <+: m.stack.toList) (hcs : ∀ d ∈ cs, d.single)
    (haway : m.Away cs L.length n) : L ++ [r] <+: (m.after (cs.take n)).stack.toList := by
  -- The induction is on the number of calls; a return would end it at the first of them.
  induction n generalizing m cs with
  | zero => exact h
  | succ n ih =>
    cases cs with
    | nil => exact h
    | cons d cs =>
      have hd := hcs d List.mem_cons_self
      rcases held_or_returned hd h with hnext | ⟨-, -, hL⟩
      · refine ih hnext (fun e he => hcs e (List.mem_cons_of_mem d he)) fun k hpos hle => ?_
        exact haway (k + 1) (Nat.succ_pos k) (Nat.succ_le_succ hle)
      · have hdepth : (m.call d).machine.stack.depth = L.length := by
          rw [← hL, Stack.length_toList]
        exact absurd hdepth (haway 1 Nat.one_pos (Nat.succ_le_succ (Nat.zero_le n)))

theorem after_take_succ {d : Call} (hd : cs[n]? = some d) :
    m.after (cs.take (n + 1)) = ((m.after (cs.take n)).call d).machine := by
  rw [List.take_add_one, hd, after_append]
  rfl

/-- What brackets the call of a subroutine: `c` calls it on `m`, and `cs` are the calls of the host
from then on. -/
structure Brackets (m : Machine) (c : Call) (cs : List Call) : Prop where
  /-- Until the stack is as deep as before, it holds what it held, and then the address behind. -/
  held : ∀ n, (m.call c).machine.Away cs m.stack.depth n →
    m.stack.toList ++ [m.pc + 2] <+: ((m.call c).machine.after (cs.take n)).stack.toList
  /-- A return makes it as deep as before: it goes on behind the call, with the stack as before. -/
  returned : ∀ n d, cs[n]? = some d → (m.call c).machine.Away cs m.stack.depth n →
    ((m.call c).machine.after (cs.take (n + 1))).stack.depth = m.stack.depth →
    ((m.call c).machine.after (cs.take n)).Performs d .ret ∧
      ((m.call c).machine.after (cs.take (n + 1))).pc = m.pc + 2 ∧
      ((m.call c).machine.after (cs.take (n + 1))).stack.toList = m.stack.toList

theorem toList_of_performs_call (hc : c.advances) (hi : m.Performs c (.call a)) :
    (m.call c).machine.stack.toList = m.stack.toList ++ [m.pc + 2] := by
  have hpc : (m.ready c).pc = m.pc + 2 := by
    cases c with
    | execute => cases hc
    | _ => rfl
  rw [Work.toList_of_call hi.run_effect, hpc]
  rfl

theorem brackets_of_performs_call (hc : c.advances) (hi : m.Performs c (.call a))
    (hcs : ∀ d ∈ cs, d.single) : m.Brackets c cs := by
  have hpushed := toList_of_performs_call hc hi
  have hheld : ∀ n, (m.call c).machine.Away cs m.stack.depth n →
      m.stack.toList ++ [m.pc + 2] <+: ((m.call c).machine.after (cs.take n)).stack.toList := by
    intro n haway
    refine held_of_away (hpushed ▸ List.prefix_rfl) hcs ?_
    rwa [Stack.length_toList]
  refine ⟨hheld, fun n d hd haway hdepth => ?_⟩
  have hsingle := hcs d (List.mem_of_getElem? hd)
  rw [after_take_succ hd] at hdepth ⊢
  rcases held_or_returned hsingle (hheld n haway) with hnext | hreturned
  · -- The address cannot be on the stack still, which is not deep enough for it.
    have hne := depth_of_prefix hnext
    rw [Stack.length_toList] at hne
    exact absurd hdepth hne
  · exact hreturned

/-- **Calls and returns bracket.** From the call of a subroutine on, the stack holds the address
behind it above what it held before, until a return goes on there and leaves the stack as before.
On no run does the stack grow beyond sixteen addresses, and no call of the host that runs at most
one instruction moves it by more than one address. -/
theorem calls_bracket :
    (∀ (m : Machine) (c : Call) (cs : List Call) (a : UInt16), c.advances → m.Performs c (.call a) →
        (∀ d ∈ cs, d.single) → m.Brackets c cs) ∧
      (∀ dialect generator cs, ((initial dialect generator).after cs).stack.depth ≤ 16) ∧
      ∀ (m : Machine) (c : Call), c.single →
        (m.call c).machine.stack.depth ≤ m.stack.depth + 1 ∧
          m.stack.depth ≤ (m.call c).machine.stack.depth + 1 := by
  refine ⟨?_, ?_, ?_⟩
  · intro m c cs a hc hi hcs
    exact brackets_of_performs_call hc hi hcs
  · intro dialect generator cs
    exact ((initial dialect generator).after cs).stack.depth_le
  · intro m c hc
    exact depth_of_call hc

/-- A subroutine that calls another, which returns to it before it returns. -/
theorem calls_bracket_nested :
    let m := initial {} (Generator.ofSeed 0)
    let cs : List Call := [.stepWith 0x2400, .tickDelay, .stepWith 0x00EE, .step, .stepWith 0x00EE]
    let run := fun n => (m.call (.stepWith 0x2300)).machine.after (cs.take n)
    m.Performs (.stepWith 0x2300) (.call 0x300) ∧ (∀ d ∈ cs, d.single) ∧
      [0x202] <+: (run 2).stack.toList ∧ (run 4).Performs (.stepWith 0x00EE) .ret ∧
      (run 5).pc = 0x202 ∧ (run 5).stack.toList = [] := by
  intro m cs run
  have hi : m.Performs (.stepWith 0x2300) (.call 0x300) := ⟨rfl, rfl⟩
  have hcs : ∀ d ∈ cs, d.single := by decide
  have haway : (m.call (.stepWith 0x2300)).machine.Away cs m.stack.depth 4 := by
    intro k _ hk
    have hdepth : ∀ k < 5, (run k).stack.depth ≠ m.stack.depth := by decide +kernel
    exact hdepth k (Nat.lt_succ_of_le hk)
  have hdepth : (run 5).stack.depth = m.stack.depth := by decide +kernel
  have hb := calls_bracket.1 m (.stepWith 0x2300) cs 0x300 rfl hi hcs
  obtain ⟨hret, hpc, hstack⟩ := hb.returned 4 _ rfl haway hdepth
  have hheld := hb.held 2 fun k hpos hle => haway k hpos (by omega)
  exact ⟨hi, hcs, hheld, hret, hpc, hstack⟩

end Machine

end Chip8
