import Mathlib.Data.Nat.Digits.Defs
import Chip8.Proofs.Halting
import Chip8.Proofs.Painting
import Chip8.Proofs.Redraw
import Chip8.Proofs.Sessions

/-!
# The terminal mirrors the machine

After each round of a session the terminal shows the border, the screen of the machine and its
status (`terminal_mirrors_machine`). Between two looks at the redraw request the terminal may lag
behind. What inputs and cycles keep is `Follows`: the border stands, and the terminal shows the
screen or a redraw is asked for. A restart, which takes the request back, shows the screen at once.
-/

namespace Chip8

open Keyboard Terminal

/-! ## The status lines fit on the terminal -/

theorem Numeral.length_upper_le {width n e : Nat} (hn : n < 16 ^ e) (hw : width ≤ e)
    (he : 0 < e) : (upper width n).length ≤ e := by
  rw [upper, String.length_ofList, List.length_map, length_digits]
  exact Nat.max_le.mpr ⟨hw, Nat.toDigits_length 16 n e he hn⟩

theorem Numeral.length_upper_byte_le (b : UInt8) : (upper 2 b.toNat).length ≤ 2 :=
  length_upper_le (e := 2) b.toNat_lt (Nat.le_refl 2) (by decide)

theorem Numeral.length_upper_word_le (width : Nat) (w : UInt16) (hw : width ≤ 4) :
    (upper width w.toNat).length ≤ 4 :=
  length_upper_le (e := 4) w.toNat_lt hw (by decide)

namespace Terminal.Picture

theorem length_intercalate_le {sep : String} {ts : List String} {k : Nat}
    (h : ∀ t ∈ ts, t.length ≤ k) :
    (sep.intercalate ts).length ≤ ts.length * (k + sep.length) := by
  rw [← String.length_toList, String.toList_intercalate]
  induction ts with
  | nil => simp
  | cons t ts ih =>
    have ht := h t List.mem_cons_self
    have hts := ih fun t' ht' => h t' (List.mem_cons_of_mem t ht')
    rw [List.length_cons, Nat.succ_mul]
    cases ts with
    | nil =>
      rw [List.map_singleton, List.intercalate_singleton, String.length_toList]
      omega
    | cons t' ts =>
      rw [List.map_cons] at hts ⊢
      rw [List.map_cons, List.intercalate_cons_cons]
      simp only [List.length_append, String.length_toList]
      omega

theorem length_statusText_le {m : Machine} (hm : m.mode.reason? = none) :
    (statusText m).length ≤ 65 := by
  have hpc := Numeral.length_upper_word_le 3 m.pc (by decide)
  have hindex := Numeral.length_upper_word_le 3 m.index (by decide)
  have hdepth : (Numeral.upper 1 m.stack.depth).length ≤ 2 :=
    Numeral.length_upper_le (e := 2) (Nat.lt_of_le_of_lt m.stack.depth_le (by decide)) (by decide)
      (by decide)
  have hdelay := Numeral.length_upper_byte_le m.delay
  have hsound := Numeral.length_upper_byte_le m.sound
  have hword : (wordText m.lastWord).length ≤ 4 := by
    cases m.lastWord with
    | none => exact Nat.le_refl 4
    | some w => exact Numeral.length_upper_word_le 4 w (by decide)
  have hmode : (modeText m.mode).length ≤ 18 := by
    cases h : m.mode with
    | running => decide
    | paused => decide
    | halted f =>
      rw [h] at hm
      cases hm
  have hlabels : "PC ".length + "  I ".length + "  SP ".length + "  DT ".length + "  ST ".length +
      "  OP ".length + "  ".length = 29 := by decide
  unfold statusText
  simp only [String.length_append]
  omega

theorem length_registersText_le (m : Machine) : (registersText m).length ≤ 50 := by
  let numerals : List String := m.registers.toList.map fun v => Numeral.upper 2 v.toNat
  have hnumerals : ∀ t ∈ numerals, t.length ≤ 2 := by
    intro t ht
    obtain ⟨v, -, rfl⟩ := List.mem_map.mp ht
    exact Numeral.length_upper_byte_le v
  have hcount : numerals.length = 16 := by rw [List.length_map, Vector.length_toList]
  have hlist : (" ".intercalate numerals).length ≤ 48 := by
    calc (" ".intercalate numerals).length
        ≤ numerals.length * (2 + " ".length) := length_intercalate_le hnumerals
      _ = 48 := by rw [hcount]; rfl
  unfold registersText
  rw [String.length_append]
  exact Nat.add_le_add_left hlist 2

end Terminal.Picture

/-! ## What the terminal shows -/

namespace Terminal.Grid

variable {w h : Nat} {g : Grid w h} {m : Machine} {c : Call}

/-- The terminal shows the border, the screen of a machine inside of it, two characters a pixel, and
the status and the registers of the machine in the rows below, and nothing else in these rows. -/
structure Mirrors (g : Grid w h) (m : Machine) : Prop where
  border : ∀ x y c, Picture.frame x y = some c → g.charAt x y = c
  screen : ∀ x < Screen.width, ∀ y < Screen.height, ∀ d < Picture.cellWidth,
    g.charAt (Picture.cellWidth * x + 1 + d) (y + 1) = Picture.pixel (m.display.screen.get x y)
  status : g.rowChars Picture.statusRow =
    (Picture.statusText m).toList ++ List.replicate (w - (Picture.statusText m).length) ' '
  registers : g.rowChars Picture.registersRow =
    (Picture.registersText m).toList ++ List.replicate (w - (Picture.registersText m).length) ' '

/-- The border stands, and the terminal shows the screen of a machine that is not halted or a redraw
is asked for. -/
structure Follows (g : Grid w h) (m : Machine) : Prop where
  border : g.Has Picture.frame
  screen : m.display.redraw = true ∨ g.Has (Picture.pixels m.display.screen)
  reason?_eq_none : m.mode.reason? = none

theorem rowChars_eq {t : String} {y : Nat} (ht : t.length ≤ w)
    (h : ∀ x < w, g.charAt x y = t.toList[x]?.getD ' ') :
    g.rowChars y = t.toList ++ List.replicate (w - t.length) ' ' := by
  rw [← String.length_toList] at ht ⊢
  apply List.ext_getElem
  · simp [rowChars]
    omega
  · intro x hx hx'
    have hlt : x < w := by simpa [rowChars] using hx
    rw [List.getElem_append]
    simp only [rowChars, List.getElem_map, List.getElem_range, List.getElem_replicate, h x hlt]
    split
    · rename_i hin
      rw [List.getElem?_eq_getElem hin]
      rfl
    · rename_i hout
      rw [List.getElem?_eq_none (Nat.le_of_not_lt hout)]
      rfl

theorem mirrors_of_has (hw : 130 ≤ w) (hh : 36 ≤ h) (hm : m.mode.reason? = none)
    (hframe : g.Has Picture.frame) (hpixels : g.Has (Picture.pixels m.display.screen))
    (hfooter : g.Has (Picture.footer m)) : g.Mirrors m where
  border := by
    intro x y c hc
    obtain ⟨hx, hy⟩ := Picture.frame_bounds hc
    change x ≤ 129 at hx
    change y ≤ 33 at hy
    exact hframe x (by omega) y (by omega) c hc
  screen := by
    intro x hx y hy d hd
    have hcell := Picture.pixels_cell m.display.screen hx hy hd
    change x < 64 at hx
    change y < 32 at hy
    change d < 2 at hd
    refine hpixels _ ?_ _ ?_ _ hcell
    · change 2 * x + 1 + d < w
      omega
    · omega
  status := by
    have hfits := Picture.length_statusText_le hm
    refine rowChars_eq (by omega) fun x hx => ?_
    exact hfooter x hx _ (Nat.lt_of_lt_of_le (by decide) hh) _ (Picture.footer_statusRow m x)
  registers := by
    have hfits := Picture.length_registersText_le m
    refine rowChars_eq (by omega) fun x hx => ?_
    exact hfooter x hx _ (Nat.lt_of_lt_of_le (by decide) hh) _ (Picture.footer_registersRow m x)

/-- The terminal goes on following a machine through a call that succeeds, unless it is a reset or
takes the redraw request back. -/
theorem Follows.call {reply : Reply} (hg : g.Follows m) (hreset : c ≠ .reset)
    (hlook : c ≠ .takeRedraw) (hr : (m.call c).result = .ok reply) :
    g.Follows (m.call c).machine where
  border := hg.border
  screen := by
    rcases Machine.marked_call (m := m) hreset hlook with heq | hredraw
    · rw [heq]
      exact hg.screen
    · exact .inl hredraw
  reason?_eq_none := by
    cases hmode : (m.call c).machine.mode with
    | running => rfl
    | paused => rfl
    | halted f =>
      have hfault := (Machine.halts_call hg.reason?_eq_none hmode).1
      rw [hr] at hfault
      cases hfault

theorem follows_screen (hg : g.Has Picture.frame) (hm : m.mode.reason? = none) :
    (g.applyAll (Picture.screen m.display.screen)).Follows m where
  border := (Picture.paints_screen _).keeps hg (Picture.apart_frame_pixels _).symm
  screen := .inr ((Picture.paints_screen m.display.screen).has g)
  reason?_eq_none := hm

theorem Has.status {p : Layer} (hg : g.Has p) (hp : (Picture.footer m).Apart p) :
    (g.applyAll (Picture.status m)).Has p :=
  (Picture.paints_status m).keeps hg hp

end Terminal.Grid

namespace Session

variable {w h : Nat} {g : Grid w h} {s s' : Session} {cs : List Command}

theorem follows_handled {i : Input} (hg : g.Follows s.machine) (hi : s.Handled i s' cs) :
    (g.applyAll cs).Follows s'.machine := by
  cases hi with
  | called hc hr =>
    rcases Input.call?_eq_some hc with ⟨k, b, rfl⟩ | rfl | rfl
    all_goals exact hg.call nofun nofun hr
  | ignored => exact hg
  | @restarted memory hm =>
    have hshown := Grid.follows_screen (m := { s.machine.reset with memory := memory })
      hg.border rfl
    exact hshown

theorem follows_heed {r : Round} (hg : g.Follows s.machine) (hr : s.heed r = .ok (s', cs)) :
    (g.applyAll cs).Follows s'.machine := by
  refine handleAll_induction (P := fun s cs => (g.applyAll cs).Follows s.machine) hr hg ?_
  intro s drawn i s' cs hg _ hi
  rw [Grid.applyAll_append]
  exact follows_handled hg hi

/-- When a round is over, the terminal mirrors the machine. -/
theorem mirrors_present (hw : 130 ≤ w) (hh : 36 ≤ h) (hg : g.Follows s.machine) :
    (g.applyAll s.present.2).Mirrors s.present.1.machine ∧
      (g.applyAll s.present.2).Follows s.present.1.machine := by
  let m := s.present.1.machine
  let drawn := if s.machine.display.redraw then Picture.screen m.display.screen else []
  have hcommands : s.present.2 = drawn ++ Picture.status m := rfl
  have hdrawn : (g.applyAll drawn).Follows m := by
    cases hasked : s.machine.display.redraw with
    | true =>
      have hscreen : drawn = Picture.screen m.display.screen := if_pos hasked
      rw [hscreen]
      exact Grid.follows_screen hg.border hg.reason?_eq_none
    | false =>
      have hnothing : drawn = [] := if_neg (by rw [hasked]; exact Bool.false_ne_true)
      rw [hnothing]
      have hshown := hg.screen.resolve_left (by rw [hasked]; exact Bool.false_ne_true)
      exact ⟨hg.border, .inr hshown, hg.reason?_eq_none⟩
  have hpixels := hdrawn.screen.resolve_left Bool.false_ne_true
  have hframe' := hdrawn.border.status (Picture.apart_footer_frame m)
  have hpixels' := hpixels.status (Picture.apart_footer_pixels m _)
  have hfooter := (Picture.paints_status m).has (g.applyAll drawn)
  rw [hcommands, Grid.applyAll_append]
  exact ⟨Grid.mirrors_of_has hw hh hg.reason?_eq_none hframe' hpixels' hfooter,
    hframe', .inr hpixels', hg.reason?_eq_none⟩

theorem mirrors_round {r : Round} (hw : 130 ≤ w) (hh : 36 ≤ h) (hg : g.Follows s.machine)
    (hr : s.round r = .ok (s', cs)) :
    (g.applyAll cs).Mirrors s'.machine ∧ (g.applyAll cs).Follows s'.machine := by
  obtain ⟨s₁, drawn, s₂, hheed, hwork, rfl, rfl⟩ := round_eq_ok hr
  have hinputs := follows_heed hg hheed
  have hcall : ∀ (m : Machine) (c : Call) (reply : Reply),
      c = .cycle ∨ c = .tickDelay ∨ c = .tickSound → (g.applyAll drawn).Follows m →
      (m.call c).result = .ok reply → (g.applyAll drawn).Follows (m.call c).machine := by
    intro m c reply hc hm
    rcases hc with rfl | rfl | rfl
    all_goals exact hm.call nofun nofun
  obtain ⟨hfollows, -⟩ := work_induction hwork hinputs hcall
  rw [Grid.applyAll_append]
  exact mirrors_present hw hh hfollows

theorem follows_start {dialect : Dialect} {generator : Generator} {program : List UInt8}
    (hs : start dialect generator program = .ok (s, cs)) :
    (Grid.blank.applyAll cs : Grid w h).Follows s.machine := by
  obtain ⟨memory, rfl, rfl⟩ := start_eq_ok hs
  have hborder := Picture.paints_border.has (Grid.blank : Grid w h)
  have hshown := Grid.follows_screen (m := { Machine.initial dialect generator with memory := memory })
    hborder rfl
  rw [Grid.applyAll_append]
  exact hshown

/-- **The terminal mirrors the machine.** Whatever program a session runs and whatever inputs,
cycles and ticks each of its rounds brings, after each round that it completes a terminal of at least
130 columns and 36 rows shows the border, the screen and the status of the machine, and nothing that
it showed before in their place. -/
theorem terminal_mirrors_machine (hw : 130 ≤ w) (hh : 36 ≤ h) (dialect : Dialect)
    (generator : Generator) (program : List UInt8) {rs : List Round} (hrs : rs ≠ [])
    (hrun : run dialect generator program rs = .ok (s, cs)) :
    (Grid.blank.applyAll cs : Grid w h).Mirrors s.machine := by
  obtain ⟨s₀, drawn, shown, hstart, hrounds, rfl⟩ := run_eq_ok hrun
  cases rs with
  | nil => exact absurd rfl hrs
  | cons r rs =>
    obtain ⟨s₁, cs₁, cs₂, hr, hrs, rfl⟩ :=
      ok_of_andThen (p := s₀.round r) (f := fun s => s.rounds rs) hrounds
    let Kept (s : Session) (cs : List Command) : Prop :=
      (Grid.blank.applyAll cs : Grid w h).Mirrors s.machine ∧
        (Grid.blank.applyAll cs : Grid w h).Follows s.machine
    have hround : ∀ (s : Session) (drawn : List Command) (r : Round) (s' : Session)
        (cs : List Command), (Grid.blank.applyAll drawn : Grid w h).Follows s.machine →
        s.round r = .ok (s', cs) → Kept s' (drawn ++ cs) := by
      intro s drawn r s' cs hs hr
      have hmirrors := mirrors_round hw hh hs hr
      rwa [← Grid.applyAll_append] at hmirrors
    have hfirst := hround s₀ drawn r s₁ cs₁ (follows_start hstart) hr
    have hlast := rounds_induction (P := Kept) hrs hfirst fun s drawn r s' cs hs hr =>
      hround s drawn r s' cs hs.2 hr
    rw [List.append_assoc] at hlast
    exact hlast.1

/-- After a restart, a drawing and a pause, a terminal of the least size mirrors the machine. -/
theorem terminal_mirrors_machine_restart :
    let rs : List Round := [⟨fun held => (([.press 5, .control .restart] : List Input), held), 2, 1⟩,
      ⟨fun held => held.poll [(.char 'p', 0)] 0, 2, 1⟩]
    ∃ s cs, rs ≠ [] ∧ run {} (Generator.ofSeed 0) [0xD0, 0x01, 0x12, 0x02] rs = .ok (s, cs) ∧
      s.machine.mode = .paused ∧ s.machine.display.screen.get 0 0 = true ∧
      (Grid.blank.applyAll cs : Grid 130 36).Mirrors s.machine := by
  intro rs
  have hrs : rs ≠ [] := List.cons_ne_nil _ _
  have hfacts : ((run {} (Generator.ofSeed 0) [0xD0, 0x01, 0x12, 0x02] rs).toOption.any fun p =>
      p.1.machine.mode = .paused ∧ p.1.machine.display.screen.get 0 0) = true := by decide +kernel
  cases hrun : run {} (Generator.ofSeed 0) [0xD0, 0x01, 0x12, 0x02] rs with
  | error e =>
    rw [hrun] at hfacts
    cases hfacts
  | ok p =>
    rw [hrun] at hfacts
    obtain ⟨hmode, hlit⟩ := of_decide_eq_true hfacts
    have hmirrors := terminal_mirrors_machine (w := 130) (h := 36) (by decide) (by decide) {}
      (Generator.ofSeed 0) _ hrs hrun
    exact ⟨p.1, p.2, hrs, rfl, hmode, hlit, hmirrors⟩

end Session

end Chip8
