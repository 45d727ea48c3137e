import Chip8.Proofs.Runs

/-!
# The redraw request

A host may keep a copy of the screen and look at the screen again when it is told to. Every piece of
work that changes the display asks for that (`Marks`), so the copy of such a host is current after
each look as long as it has been current once. A reset alone darkens the screen without asking:
after a reset, a copy that is not dark stays behind until something asks for a redraw
(`current_after_iff`).
-/

namespace Chip8

namespace Machine

/-- `m'` shows what `m` shows, or asks for a redraw. -/
def Marked (m m' : Machine) : Prop := m'.display = m.display ∨ m'.display.redraw = true

theorem Marked.trans {m₁ m₂ m₃ : Machine} (h : m₁.Marked m₂) (h' : m₂.Marked m₃) :
    m₁.Marked m₃ := by
  rcases h' with heq | hredraw
  · unfold Marked at h ⊢
    rwa [heq]
  · exact .inr hredraw

end Machine

/-! ## Work that changes the display -/

namespace Work

variable {α β : Type}

/-- `w` leaves the display as it was or asks for a redraw. -/
def Marks (w : Work α) : Prop := ∀ m : Machine, m.Marked (left (w.run m))

namespace Marks

theorem of_keeps {w : Work α} (h : Keeps Machine.display w) : Marks w := fun m => .inl (h m)

theorem modify {g : Machine → Machine} (h : ∀ m, (g m).display.redraw = true) :
    Marks (modify g : Work PUnit) := fun m => .inr (h m)

theorem bind {x : Work α} {g : α → Work β} (hx : Marks x) (hg : ∀ a, Marks (g a)) :
    Marks (x >>= g) := by
  intro m
  have hm := hx m
  rw [EStateM.run_bind]
  cases hr : x.run m with
  | ok a m' =>
    rw [hr] at hm
    exact hm.trans (hg a m')
  | error stop m' =>
    rw [hr] at hm
    exact hm

theorem drawSprite (x y n : UInt8) : Marks (drawSprite x y n) :=
  bind (of_keeps (.register x)) fun _ => bind (of_keeps (.register y)) fun _ =>
    bind (of_keeps (.readBytes _)) fun _ => bind (of_keeps (.putFlag (fun _ _ => rfl) _)) fun _ =>
      bind (of_keeps .get) fun _ => bind (modify fun _ => rfl) fun _ =>
        of_keeps (.putFlag (fun _ _ => rfl) _)

end Marks

theorem marks_effect (i : Instruction) : Marks i.effect := by
  cases i with
  | clearScreen => exact .modify fun _ => rfl
  | draw x y n => exact .drawSprite x y n
  | _ => exact .of_keeps (keeps_part .display rfl)

end Work

namespace Machine

variable {m : Machine} {c : Call} {cs : List Call} {copy : Screen}

/-! ## Calls that change the display -/

theorem marked_of_runs (hc : c.runs) : m.Marked (m.call c).machine := by
  have ho := outcome_call m hc
  generalize (m.call c).result = r, (m.call c).machine = m' at ho ⊢
  cases ho with
  | refused | idle | unfetched | undecoded | failed => exact .inl rfl
  | ended hi hr => exact Work.left_of_ok hr ▸ Work.marks_effect _ (m.ready c)
  | @crashed i m₁ a hi hr =>
    have h := Work.marks_effect i (m.ready c)
    rw [hr] at h
    exact h

/-- Of all calls, a reset alone may change the screen without asking for a redraw, and no call but a
look at the request takes it back. -/
theorem marked_call (hreset : c ≠ .reset) (hlook : c ≠ .takeRedraw) :
    m.Marked (m.call c).machine := by
  cases c with
  | step | cycle | stepWith | execute => exact marked_of_runs rfl
  | executeAll is =>
    refine (executeAll_induction (P := m.Marked) (.inl rfl) fun m₁ i _ h => ?_).1
    exact h.trans (marked_of_runs (c := .execute i) rfl)
  | load program =>
    rw [call, load]
    cases m.memory.load program <;> exact .inl rfl
  | setKey k b =>
    rw [call, setKey]
    cases m.keypad.set k b <;> exact .inl rfl
  | pause | resume | togglePause =>
    cases hm : m.mode <;> simp [call, togglePause, pause, resume, hm, Turn.done, Marked]
  | tickDelay | tickSound => exact .inl rfl
  | takeRedraw => exact absurd rfl hlook
  | reset => exact absurd rfl hreset

/-! ## The copy of a host -/

/-- The copy of the screen after a call, of a host that looks at the screen when a redraw is asked
for and at no other time. -/
def refreshed (copy : Screen) (c : Call) (t : Turn Reply) : Screen :=
  match c, t.result with
  | .takeRedraw, .ok (.flag true) => t.machine.display.screen
  | _, _ => copy

/-- The copy of such a host after calls. -/
def copyAfter (m : Machine) (copy : Screen) : List Call → Screen
  | [] => copy
  | c :: cs => (m.call c).machine.copyAfter (refreshed copy c (m.call c)) cs

/-- The copy is what the machine shows, or a redraw is asked for. -/
def Current (m : Machine) (copy : Screen) : Prop :=
  m.display.redraw = true ∨ copy = m.display.screen

theorem copyAfter_append (m : Machine) (copy : Screen) (cs ds : List Call) :
    m.copyAfter copy (cs ++ ds) = (m.after cs).copyAfter (m.copyAfter copy cs) ds := by
  induction cs generalizing m copy with
  | nil => rfl
  | cons c cs ih => exact ih _ _

theorem refreshed_of_ne (hc : c ≠ .takeRedraw) (copy : Screen) (t : Turn Reply) :
    refreshed copy c t = copy := by
  unfold refreshed
  split
  · exact absurd rfl hc
  · rfl

theorem refreshed_takeRedraw (m : Machine) (copy : Screen) :
    refreshed copy .takeRedraw (m.call .takeRedraw) =
      if m.display.redraw then m.display.screen else copy := by
  cases h : m.display.redraw <;>
    simp [refreshed, call, takeRedraw, Display.takeRedraw, Turn.done, h]

/-- After a look, the copy is the screen exactly if it was current before. -/
theorem look_iff : refreshed copy .takeRedraw (m.call .takeRedraw) = m.display.screen ↔
    m.Current copy := by
  rw [refreshed_takeRedraw, Current]
  cases m.display.redraw with
  | true => simp
  | false => simp

theorem current_call_iff (hc : c ≠ .reset) :
    (m.call c).machine.Current (refreshed copy c (m.call c)) ↔
      m.Current copy ∨ (m.call c).machine.display.redraw = true := by
  by_cases hlook : c = .takeRedraw
  · subst hlook
    -- The look takes the request back, so only the copy can make the difference.
    have hredraw : (m.call .takeRedraw).machine.display.redraw ≠ true := Bool.false_ne_true
    rw [or_iff_left hredraw]
    exact (or_iff_right hredraw).trans look_iff
  · rw [refreshed_of_ne hlook]
    rcases marked_call (m := m) hc hlook with heq | hredraw
    · have hcurrent : (m.call c).machine.Current copy ↔ m.Current copy := by
        rw [Current, heq, Current]
      rw [hcurrent, heq]
      exact (or_iff_left_of_imp Or.inl).symm
    · exact iff_of_true (.inl hredraw) (.inr hredraw)

/-- Without a reset, the copy is current after a run if it was before, or if a redraw was asked for
on the way, and not otherwise. -/
theorem current_after_iff (hcs : .reset ∉ cs) :
    (m.after cs).Current (m.copyAfter copy cs) ↔
      m.Current copy ∨ ∃ ds, ds <+: cs ∧ (m.after ds).display.redraw = true := by
  induction cs generalizing m copy with
  | nil =>
    refine ⟨.inl, fun h => h.elim id ?_⟩
    rintro ⟨ds, hds, hredraw⟩
    rw [List.prefix_nil.mp hds] at hredraw
    exact .inl hredraw
  | cons c cs ih =>
    have hc : c ≠ .reset := fun h => hcs (h ▸ List.mem_cons_self)
    have hrest : .reset ∉ cs := fun h => hcs (List.mem_cons_of_mem c h)
    refine (ih hrest).trans ?_
    rw [current_call_iff hc]
    constructor
    · rintro ((h | h) | ⟨ds, hds, h⟩)
      · exact .inl h
      · exact .inr ⟨[c], List.prefix_cons_iff.mpr (.inr ⟨[], rfl, List.nil_prefix⟩), h⟩
      · exact .inr ⟨c :: ds, (List.cons_prefix_cons).mpr ⟨rfl, hds⟩, h⟩
    · rintro (h | ⟨ds, hds, h⟩)
      · exact .inl (.inl h)
      · rcases List.prefix_cons_iff.mp hds with rfl | ⟨ds', rfl, hds'⟩
        · exact .inl (.inl (.inl h))
        · exact .inr ⟨ds', hds', h⟩

/-- **What a host sees that looks when it is asked to.** After a look, its copy of the screen is the
screen if there was no reset. If there was one, the copy is the screen if it was dark when the last
reset came or if a redraw has been asked for since, and in no other case. -/
theorem copy_exact (dialect : Dialect) (generator : Generator) :
    let m := initial dialect generator
    (∀ cs, .reset ∉ cs →
      m.copyAfter Screen.dark (cs ++ [.takeRedraw]) =
        (m.after (cs ++ [.takeRedraw])).display.screen) ∧
    ∀ cs ds, .reset ∉ ds →
      (m.copyAfter Screen.dark (cs ++ .reset :: ds ++ [.takeRedraw]) =
          (m.after (cs ++ .reset :: ds ++ [.takeRedraw])).display.screen ↔
        m.copyAfter Screen.dark cs = Screen.dark ∨
          ∃ ds', ds' <+: ds ∧ (m.after (cs ++ .reset :: ds')).display.redraw = true) := by
  intro m
  have hlook : ∀ cs, m.copyAfter Screen.dark (cs ++ [.takeRedraw]) =
      (m.after (cs ++ [.takeRedraw])).display.screen ↔
        (m.after cs).Current (m.copyAfter Screen.dark cs) := by
    intro cs
    rw [copyAfter_append, after_append]
    exact look_iff
  refine ⟨fun cs hcs => ?_, fun cs ds hds => ?_⟩
  · rw [hlook, current_after_iff hcs]
    exact .inl (.inr rfl)
  · rw [hlook, copyAfter_append, after_append]
    refine (current_after_iff (m := ((m.after cs).call .reset).machine) hds).trans ?_
    simp only [after_append]
    -- The reset leaves a dark screen and asks for nothing.
    exact or_congr (or_iff_right Bool.false_ne_true) Iff.rfl

/-- Each of two looks shows what has been drawn, also when a reset comes between them. -/
theorem copy_exact_drawn :
    let m := initial {} (Generator.ofSeed 0)
    let cs : List Call := [.stepWith 0xD001]
    .reset ∉ cs ∧
      m.copyAfter Screen.dark (cs ++ [.takeRedraw]) =
        (m.after (cs ++ [.takeRedraw])).display.screen ∧
      m.copyAfter Screen.dark (cs ++ [.takeRedraw] ++ .reset :: cs ++ [.takeRedraw]) =
        (m.after (cs ++ [.takeRedraw] ++ .reset :: cs ++ [.takeRedraw])).display.screen := by
  dsimp only
  obtain ⟨hfirst, hreset⟩ := copy_exact {} (Generator.ofSeed 0)
  have hcs : .reset ∉ [Call.stepWith 0xD001] := by decide
  refine ⟨hcs, hfirst _ hcs, (hreset _ _ hcs).mpr (.inr ?_)⟩
  exact ⟨_, List.prefix_rfl, by decide +kernel⟩

/-- After a reset, the copy of the host still shows what was drawn before it. -/
theorem copy_stale :
    let m := initial {} (Generator.ofSeed 0)
    let cs : List Call := [.stepWith 0xD001, .takeRedraw, .reset, .takeRedraw]
    m.copyAfter Screen.dark cs ≠ (m.after cs).display.screen := by
  intro m cs h
  have hcopy : (m.copyAfter Screen.dark cs).get 0 0 = true := by decide +kernel
  have hscreen : (m.after cs).display.screen.get 0 0 = false := by decide +kernel
  rw [h, hscreen] at hcopy
  cases hcopy

end Machine

end Chip8
