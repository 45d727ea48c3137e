import Chip8.Proofs.CallStack
import Chip8.Proofs.Coding

/-!
# Waiting while no key is pressed

A wait for a key that finds none puts the program counter back by one instruction. A step, and a
word that is supplied, have moved it past the instruction before, so there it ends where it was. An
instruction that is executed without that does not: each time it is executed, the program counter
goes back further. All else stays, but for the last word and the wait itself (`idle_wait_exact`).
-/

namespace Chip8

/-- The calls that run a wait for a key in `VX`: its word, a step that polls it, and the instruction
itself. -/
def Call.Awaits (x : UInt8) (c : Call) : Prop :=
  c = .stepWith (0xF00A + 256 * x.toUInt16) ∨ c = .step ∨ c = .execute (.awaitKey x)

/-- How many of the calls run an instruction without moving the program counter past it. -/
def Call.unadvanced (cs : List Call) : Nat := cs.countP fun c => !c.advances

namespace Machine

variable {m : Machine} {c : Call} {cs : List Call} {x : UInt8}

/-! ## One call -/

theorem instruction?_of_awaits (hm : m.mode.reason? = none) (hx : x < 16) (hc : c.Awaits x)
    (hstep : c = .step → m.awaiting = some x) : m.instruction? c = some (.awaitKey x) := by
  rcases hc with rfl | rfl | rfl
  · have ha : m.admits (.stepWith (0xF00A + 256 * x.toUInt16)) := decide_eq_true hm
    rw [instruction?, if_pos ha]
    exact Instruction.ofWord?_awaitKey hx
  · have ha : m.admits .step := decide_eq_true hm
    rw [instruction?, if_pos ha, choice?, hstep rfl]
  · have ha : m.admits (.execute (.awaitKey x)) := decide_eq_true hm
    rw [instruction?, if_pos ha]
    rfl

/-- What a wait leaves that finds no key. -/
theorem call_of_idle_wait (hk : ∀ k, m.keypad.isPressed k = false)
    (hi : m.instruction? c = some (.awaitKey x)) :
    (m.call c).result = .ok c.reply ∧
      (m.call c).machine =
        { m with
          lastWord := m.wordAfter c
          awaiting := some x
          pc := if c.advances then m.pc else m.pc - 2 } := by
  have hnone : (m.ready c).keypad.takeFirst? = none :=
    Keypad.takeFirst?_eq_none_iff.mpr (Keypad.pressed_eq_nil_iff.mpr hk)
  obtain ⟨hresult, hmachine⟩ := call_of_effect hi (Work.run_pollKey_of_none (x := x) hnone)
  refine ⟨hresult, hmachine.trans ?_⟩
  have hback : m.pc + 2 - 2 = m.pc := UInt16.add_sub_cancel m.pc 2
  have ha := admits_of_instruction? hi
  cases c with
  | execute => rfl
  | step | cycle | stepWith => simp only [ready, hback, Call.advances, if_true]
  | _ => cases ha

/-! ## Runs -/

theorem unadvanced_cons (c : Call) (cs : List Call) :
    Call.unadvanced (c :: cs) = Call.unadvanced cs + if c.advances then 0 else 1 := by
  rw [Call.unadvanced, List.countP_cons, Call.unadvanced]
  cases c.advances <;> rfl

theorem pc_back (pc : UInt16) (c : Call) (cs : List Call) :
    (if c.advances then pc else pc - 2) - UInt16.ofNat (2 * Call.unadvanced cs) =
      pc - UInt16.ofNat (2 * Call.unadvanced (c :: cs)) := by
  rw [unadvanced_cons]
  cases c.advances with
  | true => simp
  | false =>
    have hsum : 2 * (Call.unadvanced cs + 1) = 2 + 2 * Call.unadvanced cs := by omega
    simp only [Bool.false_eq_true, if_false, hsum, UInt16.ofNat_add]
    grind

/-- Going back by two a number of times leads nowhere exactly if it goes around in a circle. -/
theorem sub_ofNat_eq_iff {pc : UInt16} {n : Nat} :
    pc - UInt16.ofNat (2 * n) = pc ↔ n % 32768 = 0 := by
  have hlt := pc.toNat_lt
  rw [← UInt16.toNat_inj, UInt16.toNat_sub, UInt16.toNat_ofNat']
  omega

/-- What calls leave that run a wait and find no key, if a step comes first only to poll it. -/
theorem after_of_idle_wait (hm : m.mode.reason? = none) (hk : ∀ k, m.keypad.isPressed k = false)
    (hx : x < 16) (hcs : ∀ c ∈ cs, c.Awaits x) (hstep : cs.head? = some .step → m.awaiting = some x) :
    (∀ t ∈ m.calls cs, t.result = .ok .done) ∧
      m.after cs =
        { m with
          lastWord := (m.after cs).lastWord
          awaiting := if cs.isEmpty then m.awaiting else some x
          pc := m.pc - UInt16.ofNat (2 * Call.unadvanced cs) } := by
  induction cs generalizing m with
  | nil => exact ⟨by simp [calls], by simp [after, Call.unadvanced]⟩
  | cons c cs ih =>
    have hc : c.Awaits x := hcs c List.mem_cons_self
    have hi := instruction?_of_awaits hm hx hc fun h => hstep (congrArg some h)
    obtain ⟨hresult, hmachine⟩ := call_of_idle_wait hk hi
    have hreply : c.reply = .done := by
      rcases hc with rfl | rfl | rfl <;> rfl
    -- From now on the wait is pending, so every step polls it.
    obtain ⟨hresults, hafter⟩ := ih (m := (m.call c).machine) (by rw [hmachine]; exact hm)
      (by rw [hmachine]; exact hk) (fun d hd => hcs d (List.mem_cons_of_mem c hd))
      (fun _ => by rw [hmachine])
    refine ⟨?_, ?_⟩
    · intro t ht
      rcases List.mem_cons.mp ht with rfl | ht
      · rw [hresult, hreply]
      · exact hresults t ht
    · rw [after]
      generalize (m.call c).machine.after cs = m' at hafter ⊢
      rw [hmachine, pc_back, ite_self] at hafter
      exact hafter

/-- **Waiting while no key is pressed.** Calls that run a wait for a key into `VX` and find none all
succeed, whichever of the three they are, in any number and order, as long as a step polls that wait.
They leave the wait, the last word, and a program counter that has gone back by two for each time the
instruction was executed without moving past it first; all else stays. So the program counter is
where it was exactly if that was done a multiple of `32768` times, as with steps and supplied words
alone. -/
theorem idle_wait_exact (m : Machine) (x : UInt8) (cs : List Call) (hm : m.mode.reason? = none)
    (hk : ∀ k, m.keypad.isPressed k = false) (hx : x < 16) (hne : cs ≠ [])
    (hcs : ∀ c ∈ cs, c.Awaits x) (hstep : cs.head? = some .step → m.awaiting = some x) :
    (∀ t ∈ m.calls cs, t.result = .ok .done) ∧
      m.after cs =
        { m with
          lastWord := (m.after cs).lastWord
          awaiting := some x
          pc := m.pc - UInt16.ofNat (2 * Call.unadvanced cs) } ∧
      ((m.after cs).pc = m.pc ↔ Call.unadvanced cs % 32768 = 0) := by
  obtain ⟨hresults, hafter⟩ := after_of_idle_wait hm hk hx hcs hstep
  have hempty : cs.isEmpty = false := by simpa using hne
  rw [hempty] at hafter
  refine ⟨hresults, hafter, ?_⟩
  rw [hafter]
  exact sub_ofNat_eq_iff

/-- A paused machine on which a word begins a wait, a step polls it, the instruction is executed, and
another step polls it again. -/
theorem idle_wait_exact_mixed :
    let m : Machine := { initial {} (Generator.ofSeed 0) with mode := .paused }
    let cs : List Call := [.stepWith 0xF30A, .step, .execute (.awaitKey 3), .step]
    m.mode.reason? = none ∧ (∀ k, m.keypad.isPressed k = false) ∧
      (∀ t ∈ m.calls cs, t.result = .ok .done) ∧
      m.after cs = { m with lastWord := (m.after cs).lastWord, awaiting := some 3, pc := 0x1FE } ∧
      (m.after (cs.take 2)).pc = m.pc := by
  intro m cs
  have hk : ∀ k, m.keypad.isPressed k = false := Keypad.isPressed_released
  have hcs : ∀ c ∈ cs, c.Awaits 3 := by
    simp [cs, Call.Awaits]
  obtain ⟨hresults, hafter, -⟩ :=
    idle_wait_exact m 3 cs rfl hk (by decide) (by decide) hcs (by decide)
  have hback : m.pc - UInt16.ofNat (2 * Call.unadvanced cs) = 0x1FE := by decide
  rw [hback] at hafter
  obtain ⟨-, -, hpc⟩ := idle_wait_exact m 3 (cs.take 2) rfl hk (by decide) (by decide)
    (fun c hc => hcs c (List.mem_of_mem_take hc)) (by decide)
  exact ⟨rfl, hk, hresults, hafter, hpc.mpr rfl⟩

/-- Executed twice as an instruction, a wait that finds no key moves the program counter back by
four. -/
theorem wait_moves_back :
    let m := initial {} (Generator.ofSeed 0)
    m.mode.reason? = none ∧ (∀ k, m.keypad.isPressed k = false) ∧ m.pc = 0x200 ∧
      (m.after [.execute (.awaitKey 3), .execute (.awaitKey 3)]).pc = 0x1FC :=
  ⟨rfl, Keypad.isPressed_released, rfl, rfl⟩

end Machine

end Chip8
