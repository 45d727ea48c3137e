import Chip8.Proofs.Answer
import Chip8.Proofs.Lockstep

/-!
# What only the host looks at

Four things in a machine are there for its host alone: the sound timer, the request for a redraw,
the last word, and what a return leaves behind in the free slots of the stack. Two machines that
differ in nothing else (`SameInside`) answer every call alike, but for the question whether a redraw
is asked for, and they differ in nothing else afterwards (`outputs_unread`).

The free slots carry the proof: a stack shows the addresses that are in use, and of two stacks which
show the same a pop takes the same address off and a push is refused on both or on neither, whatever
lies in the free slots. The other three are written by instructions but read by none.
-/

namespace Chip8

/-! ## Stacks that show the same -/

namespace Stack

variable {s s' t : Stack} {a : UInt16}

theorem depth_eq_of_toList (h : s'.toList = s.toList) : s'.depth = s.depth := by
  rw [← length_toList, ← length_toList, h]

/-- The address that is popped was in use, so it does not come from a free slot. -/
theorem pop?_of_toList (h : s'.toList = s.toList) (hp : s.pop? = some (a, t)) :
    ∃ t', s'.pop? = some (a, t') ∧ t'.toList = t.toList := by
  cases hp' : s'.pop? with
  | none =>
    have hzero : s.depth = 0 := (depth_eq_of_toList h).symm.trans (pop?_eq_none_iff.mp hp')
    rw [pop?_eq_none_iff.mpr hzero] at hp
    cases hp
  | some top =>
    obtain ⟨b, t'⟩ := top
    rw [toList_pop hp, toList_pop hp'] at h
    obtain ⟨hrest, htop⟩ := List.append_inj' h rfl
    cases htop
    exact ⟨t', rfl, hrest⟩

theorem push?_of_toList (h : s'.toList = s.toList) (hp : s.push? a = some t) :
    ∃ t', s'.push? a = some t' ∧ t'.toList = t.toList := by
  cases hp' : s'.push? a with
  | none =>
    have hfull : s.depth = 16 := (depth_eq_of_toList h).symm.trans (push?_eq_none_iff.mp hp')
    rw [push?_eq_none_iff.mpr hfull] at hp
    cases hp
  | some t' =>
    refine ⟨t', rfl, ?_⟩
    rw [toList_push hp, toList_push hp', h]

end Stack

/-- The machines differ in the sound timer, the redraw request, the last word and the free slots of
the stack at most. -/
def Machine.SameInside (m m' : Machine) : Prop :=
  ∃ (stack : Stack) (sound : UInt8) (lastWord : Option Word) (redraw : Bool),
    stack.toList = m.stack.toList ∧
      m' = { m with
        stack := stack, sound := sound, lastWord := lastWord
        display := ⟨m.display.screen, redraw⟩ }

/-- What the calls of a run answer, but for those that ask about a redraw. -/
def Machine.answers (m : Machine) : List Call → List (Except Stop Reply)
  | [] => []
  | c :: cs =>
    (if c = .takeRedraw then [] else [(m.call c).result]) ++ (m.call c).machine.answers cs

/-! ## The parts that are read -/

/-- Whether only the host looks at a part of the machine, or at something in it. -/
def Part.forHost : Part → Bool
  | stack | sound | display => true
  | _ => false

theorem Part.common_sameInside {p : Part} (h : p.forHost = false) :
    p.Common Machine.SameInside where
  same := by
    rintro m _ ⟨stack, sound, w, redraw, hs, rfl⟩
    cases p <;> first | rfl | cases h
  put := by
    rintro m _ v ⟨stack, sound, w, redraw, hs, rfl⟩
    cases p <;> first | exact ⟨stack, sound, w, redraw, hs, rfl⟩ | cases h

namespace Work

open Machine

theorem alike_leaveCall : Alike SameInside leaveCall := by
  rintro m _ ⟨stack, sound, w, redraw, hs, rfl⟩
  rw [run_leaveCall, run_leaveCall]
  cases hp : m.stack.pop? with
  | none =>
    have hzero : stack.depth = 0 :=
      (Stack.depth_eq_of_toList hs).trans (Stack.pop?_eq_none_iff.mp hp)
    simp only [Stack.pop?_eq_none_iff.mpr hzero]
    exact .error _ ⟨stack, sound, w, redraw, hs, rfl⟩
  | some top =>
    obtain ⟨a, t⟩ := top
    obtain ⟨t', hp', ht⟩ := Stack.pop?_of_toList hs hp
    simp only [hp']
    exact .ok () ⟨t', sound, w, redraw, ht, rfl⟩

theorem alike_enterCall (a : UInt16) : Alike SameInside (enterCall a) := by
  rintro m _ ⟨stack, sound, w, redraw, hs, rfl⟩
  rw [run_enterCall, run_enterCall]
  cases hp : m.stack.push? m.pc with
  | none =>
    have hfull : stack.depth = 16 :=
      (Stack.depth_eq_of_toList hs).trans (Stack.push?_eq_none_iff.mp hp)
    simp only [Stack.push?_eq_none_iff.mpr hfull]
    exact .error _ ⟨stack, sound, w, redraw, hs, rfl⟩
  | some t =>
    obtain ⟨t', hp', ht⟩ := Stack.push?_of_toList hs hp
    simp only [hp']
    exact .ok () ⟨t', sound, w, redraw, ht, rfl⟩

theorem sameInside_putDisplay {m m' : Machine} (display : Display) (h : SameInside m m') :
    SameInside { m with display := display } { m' with display := display } := by
  obtain ⟨stack, sound, w, redraw, hs, rfl⟩ := h
  exact ⟨stack, sound, w, display.redraw, hs, rfl⟩

theorem alike_drawSprite (x y n : UInt8) : Alike SameInside (drawSprite x y n) := by
  refine .drawSprite (Part.common_sameInside rfl) ?_ sameInside_putDisplay
    (.readBytes (Part.common_sameInside rfl) (Part.common_sameInside rfl) _) x y
  rintro m _ ⟨stack, sound, w, redraw, -, rfl⟩
  rfl

theorem alike_sameInside (i : Instruction) : Alike SameInside i.effect := by
  have hdialect : ∀ {m m' : Machine}, SameInside m m' → m.dialect = m'.dialect := by
    rintro m _ ⟨stack, sound, w, redraw, -, rfl⟩
    rfl
  cases i with
  | clearScreen => exact .modify fun h => sameInside_putDisplay _ h
  | ret => exact alike_leaveCall
  | call a => exact alike_enterCall a
  | draw x y n => exact alike_drawSprite x y n
  | setSound x =>
    refine .bind (.register (Part.common_sameInside rfl) x) fun v => .modify ?_
    rintro m _ ⟨stack, sound, w, redraw, hs, rfl⟩
    exact ⟨stack, v, w, redraw, hs, rfl⟩
  | _ =>
    -- The other instructions use none of the parts that the host looks at.
    refine alike_effect _ (fun p hp => Part.common_sameInside ?_) fun _ => hdialect
    cases p <;> first | rfl | exact absurd hp Bool.false_ne_true

end Work

namespace Machine

variable {m m' : Machine} {c : Call}

/-! ## A call -/

theorem steady_sameInside : Steady SameInside where
  reason := by
    rintro m _ ⟨stack, sound, w, redraw, -, rfl⟩
    rfl
  paused := by
    rintro m _ ⟨stack, sound, w, redraw, -, rfl⟩
    rfl
  halt := by
    rintro m _ f ⟨stack, sound, w, redraw, hs, rfl⟩
    exact ⟨stack, sound, w, redraw, hs, rfl⟩
  lastWord := by
    rintro m _ v ⟨stack, sound, w, redraw, hs, rfl⟩
    exact ⟨stack, sound, some v, redraw, hs, rfl⟩
  awaiting := Part.common_sameInside rfl
  pc := Part.common_sameInside rfl

theorem sameInside_reset (h : SameInside m m') : SameInside m.reset m'.reset := by
  obtain ⟨stack, sound, w, redraw, -, rfl⟩ := h
  exact ⟨Stack.empty, 0, none, false, rfl, rfl⟩

theorem sameInside_host (h : SameInside m m') (hr : c.runs = false) (hone : c.isMany = false)
    (hc : c ≠ .takeRedraw) : Turn.Alike SameInside (m.call c) (m'.call c) := by
  by_cases hsound : c = .tickSound
  · subst hsound
    obtain ⟨stack, sound, w, redraw, hs, rfl⟩ := h
    exact ⟨rfl, stack, countDown sound, w, redraw, hs, rfl⟩
  · refine alike_host h hr hone (fun p hp => Part.common_sameInside ?_) ?_ (fun mode => ?_)
      (sameInside_reset h)
    · cases c <;> cases hp <;> first | rfl | contradiction
    · obtain ⟨stack, sound, w, redraw, -, rfl⟩ := h
      rfl
    · obtain ⟨stack, sound, w, redraw, hs, rfl⟩ := h
      exact ⟨stack, sound, w, redraw, hs, rfl⟩

/-- A call that runs one instruction at most answers the same, unless it asks about a redraw. -/
theorem sameInside_single (h : SameInside m m') (hone : c.isMany = false) (hc : c ≠ .takeRedraw) :
    Turn.Alike SameInside (m.call c) (m'.call c) := by
  cases hr : c.runs with
  | false => exact sameInside_host h hr hone hc
  | true =>
    refine alike_runs steady_sameInside h hr (fun _ => ?_) fun i _ => Work.alike_sameInside i
    obtain ⟨stack, sound, w, redraw, -, rfl⟩ := h
    rfl

theorem sameInside_call (h : SameInside m m') (hc : c ≠ .takeRedraw) :
    Turn.Alike SameInside (m.call c) (m'.call c) := by
  cases hone : c.isMany with
  | false => exact sameInside_single h hone hc
  | true =>
    cases c with
    | executeAll is =>
      refine (alike_executeAll (Q := fun _ c => c ≠ .takeRedraw)
        (fun h hone hc => sameInside_single h hone hc) h (along_of_forall fun d hd _ => ?_)).map _
      obtain ⟨i, -, rfl⟩ := List.mem_map.mp hd
      exact nofun
    | _ => cases hone

theorem sameInside_takeRedraw (h : SameInside m m') :
    SameInside (m.call .takeRedraw).machine (m'.call .takeRedraw).machine := by
  obtain ⟨stack, sound, w, redraw, hs, rfl⟩ := h
  exact ⟨stack, sound, w, false, hs, rfl⟩

/-! ## Runs -/

/-- **What only the host looks at is not read.** On two machines that differ in the sound timer, the
redraw request, the last word and the free slots of the stack at most, any calls answer the same,
but for those that ask about a redraw, and the machines differ in nothing else afterwards. -/
theorem outputs_unread (m m' : Machine) (h : m.SameInside m') (cs : List Call) :
    m.answers cs = m'.answers cs ∧ (m.after cs).SameInside (m'.after cs) := by
  induction cs generalizing m m' with
  | nil => exact ⟨rfl, h⟩
  | cons c cs ih =>
    by_cases hc : c = .takeRedraw
    · subst hc
      obtain ⟨hanswers, hafter⟩ := ih _ _ (sameInside_takeRedraw h)
      exact ⟨by simpa [answers] using hanswers, hafter⟩
    · obtain ⟨hresult, hmachine⟩ := sameInside_call h hc
      obtain ⟨hanswers, hafter⟩ := ih _ _ hmachine
      refine ⟨?_, hafter⟩
      simp only [answers, if_neg hc]
      rw [hresult, hanswers]

/-- A machine with addresses left in all the free slots of its stack, a sound and a request for a
redraw, beside one without: the request alone is answered differently, and the second return
underflows on both. -/
theorem outputs_unread_returned :
    let m' := initial {} (Generator.ofSeed 0)
    let m := { m' with
      stack := ⟨Vector.replicate 16 0x202, 0, Nat.zero_le 16⟩
      sound := 3, lastWord := some 0x00EE, display := ⟨Screen.dark, true⟩ }
    let cs : List Call := [.takeRedraw, .stepWith 0x2400, .tickSound, .stepWith 0x00EE,
      .stepWith 0x00EE, .step]
    m.SameInside m' ∧ m.stack ≠ m'.stack ∧
      (m.call .takeRedraw).result ≠ (m'.call .takeRedraw).result ∧
      m.answers cs = m'.answers cs ∧ (m.after cs).SameInside (m'.after cs) ∧
      (m.after cs).mode = .halted .stackUnderflow := by
  intro m' m cs
  have h : m.SameInside m' := ⟨Stack.empty, 0, none, false, by decide, rfl⟩
  obtain ⟨hanswers, hafter⟩ := outputs_unread m m' h cs
  exact ⟨h, by decide, by decide, hanswers, hafter, rfl⟩

end Machine

end Chip8
