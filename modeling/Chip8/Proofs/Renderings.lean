import Chip8.Proofs.Painting

/-!
# The two renderings of the screen

A screen is written in two ways: as a text of 32 lines, and as commands for a terminal, two
characters a pixel. The text is read back line by line (`ofText_text`), and the commands show a block
exactly where the text has a hash and touch nothing else. Nothing is lost in either way
(`renderings_agree`). For the terminal this is read off the bytes that are written, since a row takes
equally many of them on every screen (`screen_render_inj`).
-/

namespace Chip8

open Terminal

/-! ## Texts -/

namespace Text

/-- The lines of a text, each without the newline that ends it. What follows the last newline is no
line. -/
def lines (t : String) : List (List Char) := (t.toList.splitOn '\n').dropLast

/-- The character in the column `x` of the line `y` of a text, if there is one. -/
def charAt? (t : String) (x y : Nat) : Option Char := (lines t)[y]?.bind fun l => l[x]?

/-- A text of 32 lines, each of 64 characters and a newline, and each character a hash or a space. -/
structure Framed (t : String) : Prop where
  ended : t.toList = (lines t).flatMap fun l => l ++ ['\n']
  count : (lines t).length = 32
  length : ∀ l ∈ lines t, l.length = 64
  marks : ∀ l ∈ lines t, ∀ c ∈ l, c = '#' ∨ c = ' '

theorem flatMap_concat_eq_intercalate {α : Type} (c : α) (ls : List (List α)) :
    (ls.flatMap fun l => l ++ [c]) = [c].intercalate (ls ++ [[]]) := by
  induction ls with
  | nil => rfl
  | cons l ls ih =>
    rw [List.flatMap_cons, ih, List.append_assoc, List.cons_append]
    cases ls with
    | nil => rfl
    | cons l' ls =>
      rw [List.cons_append, List.cons_append, List.cons_append, List.intercalate_cons_cons,
        List.append_assoc]
      rfl

theorem lines_eq {t : String} {ls : List (List Char)} (hls : ∀ l ∈ ls, '\n' ∉ l)
    (ht : t.toList = ls.flatMap fun l => l ++ ['\n']) : lines t = ls := by
  have hend : ∀ l ∈ ls ++ [[]], '\n' ∉ l := by
    intro l hl
    rcases List.mem_append.mp hl with hl | hl
    · exact hls l hl
    · rw [List.mem_singleton.mp hl]
      exact List.not_mem_nil
  have hne : ls ++ [[]] ≠ [] := List.append_ne_nil_of_right_ne_nil _ (List.cons_ne_nil _ _)
  rw [lines, ht, flatMap_concat_eq_intercalate, List.splitOn_intercalate '\n' hend hne,
    List.dropLast_concat]

end Text

namespace Screen

/-- The screen that a text shows: a pixel is lit exactly if a hash stands in its place. -/
def ofText (t : String) : Screen :=
  ⟨Vector.ofFn fun y => Vector.ofFn fun x => Text.charAt? t x y == some '#'⟩

/-- The character of a pixel in the text. -/
def mark (lit : Bool) : Char := if lit then '#' else ' '

variable {s t : Screen} {x y : Nat}

theorem toList_text (s : Screen) :
    s.text.toList =
      ((List.range 32).map fun y => (s.row y).map mark).flatMap fun l => l ++ ['\n'] := by
  rw [text, String.toList_join, List.flatMap_map, List.flatMap_map]
  simp only [String.toList_append, line, String.toList_ofList]
  rfl

theorem mem_map_mark {c : Char} {pixels : List Bool} (h : c ∈ pixels.map mark) :
    c = '#' ∨ c = ' ' := by
  obtain ⟨lit, -, rfl⟩ := List.mem_map.mp h
  cases lit
  · exact .inr rfl
  · exact .inl rfl

theorem lines_text (s : Screen) :
    Text.lines s.text = (List.range 32).map fun y => (s.row y).map mark := by
  refine Text.lines_eq (fun l hl hnewline => ?_) s.toList_text
  obtain ⟨y, -, rfl⟩ := List.mem_map.mp hl
  rcases mem_map_mark hnewline with h | h <;> cases h

theorem framed_text (s : Screen) : Text.Framed s.text where
  ended := by rw [lines_text, toList_text]
  count := by rw [lines_text, List.length_map, List.length_range]
  length l hl := by
    rw [lines_text] at hl
    obtain ⟨y, -, rfl⟩ := List.mem_map.mp hl
    rw [List.length_map, row, List.length_map, List.length_range]
  marks l hl c hc := by
    rw [lines_text] at hl
    obtain ⟨y, -, rfl⟩ := List.mem_map.mp hl
    exact mem_map_mark hc

theorem charAt?_text (s : Screen) (hx : x < 64) (hy : y < 32) :
    Text.charAt? s.text x y = some (mark (s.get x y)) := by
  rw [Text.charAt?, lines_text, List.getElem?_map, List.getElem?_range hy, Option.map_some,
    Option.bind_some, List.getElem?_map, Picture.getElem?_row, if_pos (show x < width from hx)]
  rfl

theorem get_ofText (t : String) (hx : x < 64) (hy : y < 32) :
    (ofText t).get x y = (Text.charAt? t x y == some '#') := by
  unfold ofText get
  simp [Nat.mod_eq_of_lt hx, Nat.mod_eq_of_lt hy]

theorem mark_beq (lit : Bool) : (some (mark lit) == some '#') = lit := by
  cases lit <;> rfl

theorem ofText_text (s : Screen) : ofText s.text = s := by
  ext x hx y hy
  rw [get_ofText _ hx hy, charAt?_text s hx hy, mark_beq]

end Screen

/-! ## Terminals -/

namespace Terminal

/-- Commands show a text on a terminal of any size and with anything on it: each character takes two
cells, blocks for a hash and spaces otherwise, in the columns 1 to 128 and the rows 1 to 32, and the
other cells stay as they are. -/
structure Shows (cs : List Command) (t : String) : Prop where
  inside : ∀ (w h : Nat) (g : Grid w h), ∀ x < 64, ∀ y < 32,
    ∀ column, column = 2 * x + 1 ∨ column = 2 * x + 2 → column < w → y + 1 < h →
      (g.applyAll cs).charAt column (y + 1) =
        if Text.charAt? t x y = some '#' then '█' else ' '
  outside : ∀ (w h : Nat) (g : Grid w h), ∀ column < w, ∀ row < h,
    ¬(1 ≤ column ∧ column ≤ 128 ∧ 1 ≤ row ∧ row ≤ 32) →
      (g.applyAll cs).charAt column row = g.charAt column row

/-- Texts that are equally long for each element are told apart by what is written for all. -/
theorem eq_of_flatMap_eq {α β : Type} {f g : α → List β} {as : List α}
    (hlen : ∀ a ∈ as, (f a).length = (g a).length) (h : as.flatMap f = as.flatMap g) :
    ∀ a ∈ as, f a = g a := by
  induction as with
  | nil => exact fun a ha => absurd ha List.not_mem_nil
  | cons a as ih =>
    rw [List.flatMap_cons, List.flatMap_cons] at h
    obtain ⟨hhead, htail⟩ := List.append_inj h (hlen a List.mem_cons_self)
    intro b hb
    rcases List.mem_cons.mp hb with rfl | hb
    · exact hhead
    · exact ih (fun c hc => hlen c (List.mem_cons_of_mem _ hc)) htail b hb

namespace Picture

variable {s t : Screen}

theorem toList_rowText (s : Screen) (y : Nat) :
    (rowText (s.row y)).toList = (List.range Screen.width).flatMap fun x =>
      List.replicate cellWidth (pixel (s.get x y)) := by
  rw [rowText, String.toList_ofList, Screen.row, List.flatMap_map]
  rfl

theorem length_rowText (s t : Screen) (y : Nat) :
    (rowText (s.row y)).toList.length = (rowText (t.row y)).toList.length := by
  rw [toList_rowText, toList_rowText, List.length_flatMap, List.length_flatMap]
  simp only [List.length_replicate]

theorem pixel_inj {lit lit' : Bool} (h : pixel lit = pixel lit') : lit = lit' := by
  cases lit <;> cases lit' <;> first | rfl | exact absurd h (by decide)

theorem toList_render_screen (s : Screen) :
    (render (screen s)).toList = (List.range Screen.height).flatMap fun y =>
      (Command.moveTo 1 (y + 1)).escape.toList ++ (rowText (s.row y)).toList := by
  rw [render, String.toList_join, screen, List.map_flatMap, List.flatMap_assoc]
  simp [Command.escape]

theorem screen_render_inj (h : render (screen s) = render (screen t)) : s = t := by
  have hbytes := congrArg String.toList h
  rw [toList_render_screen, toList_render_screen] at hbytes
  have hrows := eq_of_flatMap_eq (fun y _ => by
    rw [List.length_append, List.length_append, length_rowText s t]) hbytes
  ext x hx y hy
  have hrow := List.append_cancel_left (hrows y (List.mem_range.mpr hy))
  rw [toList_rowText, toList_rowText] at hrow
  have hcells := eq_of_flatMap_eq (fun x _ => by
    rw [List.length_replicate, List.length_replicate]) hrow x (List.mem_range.mpr hx)
  exact pixel_inj ((List.replicate_inj.mp hcells).2.resolve_left (show cellWidth ≠ 0 by decide))

theorem shows_text (s : Screen) : Shows (screen s) s.text where
  inside w h g x hx y hy column hcolumn hw hh := by
    have hcell : pixels s column (y + 1) = some (pixel (s.get x y)) := by
      rcases hcolumn with rfl | rfl
      · exact pixels_cell s hx hy (show 0 < cellWidth by decide)
      · exact pixels_cell s hx hy (show 1 < cellWidth by decide)
    rw [paints_screen s w h g column hw (y + 1) hh, hcell, Screen.charAt?_text s hx hy]
    cases s.get x y <;> rfl
  outside w h g column hw row hh hout := by
    have hcell : pixels s column row = none := by
      refine if_neg fun hin => hout ?_
      change 0 < column ∧ column < 129 ∧ 0 < row ∧ row < 33 at hin
      omega
    rw [paints_screen s w h g column hw row hh, hcell]
    rfl

end Picture

end Terminal

namespace Screen

/-- **The two renderings agree and lose nothing.** The text and the terminal commands of a screen
show the same, and each tells which screen it is. This holds of every assignment of pixels, so of
every screen that clearing and drawing lead to. -/
theorem renderings_agree (s : Screen) :
    Text.Framed s.text ∧ ofText s.text = s ∧ Terminal.Shows (Terminal.Picture.screen s) s.text ∧
      ∀ t : Screen, (s = t ↔ s.text = t.text) ∧
        (s.text = t.text ↔
          render (Terminal.Picture.screen s) = render (Terminal.Picture.screen t)) := by
  refine ⟨s.framed_text, s.ofText_text, Terminal.Picture.shows_text s, fun t => ?_⟩
  have htext : s.text = t.text → s = t := fun h => by rw [← ofText_text s, h, ofText_text]
  exact ⟨⟨congrArg text, htext⟩, fun h => by rw [htext h],
    fun h => congrArg text (Terminal.Picture.screen_render_inj h)⟩

end Screen

end Chip8
