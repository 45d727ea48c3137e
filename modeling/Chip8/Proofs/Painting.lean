import Chip8.Terminal.Grid
import Chip8.Terminal.Picture

/-!
# Painting

What terminal commands leave on the ideal terminal does not depend on the cursor: each piece of the
picture moves it first. So a piece is a layer, which has a character for some of the cells, and to
carry out its commands is to lay that layer over what the terminal shows (`Paints`). The border, the
screen and the status lines are the layers `frame`, `pixels` and `footer`, of which no two have a
cell in common.
-/

namespace Chip8.Terminal

/-- A picture with holes: the character of some of the cells, by column and row. -/
def Layer : Type := Nat → Nat → Option Char

namespace Layer

/-- Characters in the row `row`, from the column `column` on. -/
def text (column row : Nat) (cs : List Char) : Layer := fun x y =>
  if y = row ∧ column ≤ x then cs[x - column]? else none

/-- The row `row`, with characters from its left and nothing else. -/
def line (row : Nat) (cs : List Char) : Layer := fun x y =>
  if y = row then some (cs[x]?.getD ' ') else none

/-- The `n` rows below the row 0, with the characters that `f` gives to each. -/
def band (n : Nat) (f : Nat → Nat → Option Char) : Layer := fun x y =>
  if 0 < y ∧ y ≤ n then f (y - 1) x else none

/-- The layer `p` over the layer `q`. -/
def above (p q : Layer) : Layer := fun x y => (p x y).or (q x y)

/-- No cell has a character in both layers. -/
def Apart (p q : Layer) : Prop := ∀ x y, p x y = none ∨ q x y = none

theorem Apart.symm {p q : Layer} (h : p.Apart q) : q.Apart p := fun x y => (h x y).symm

theorem text_nil (column row x y : Nat) : text column row [] x y = none := by
  simp [text]

theorem text_cons (column row : Nat) (c : Char) (cs : List Char) (x y : Nat) :
    text column row (c :: cs) x y =
      if y = row ∧ x = column then some c else text (column + 1) row cs x y := by
  unfold text
  by_cases hx : x = column
  · have hout : ¬column + 1 ≤ column := Nat.not_succ_le_self column
    simp only [hx, Nat.le_refl, Nat.sub_self, List.getElem?_cons_zero, and_true, and_false, hout,
      if_false]
  · have hle : column ≤ x ↔ column + 1 ≤ x := by omega
    simp only [hx, and_false, if_false, hle]
    split
    · rename_i h
      have hsub : x - column = x - (column + 1) + 1 := by omega
      rw [hsub, List.getElem?_cons_succ]
    · rfl

end Layer

/-! ## The terminal under commands -/

namespace Grid

variable {w h x y : Nat}

/-- The terminal shows the characters of a layer. -/
def Has (g : Grid w h) (p : Layer) : Prop :=
  ∀ x < w, ∀ y < h, ∀ c, p x y = some c → g.charAt x y = c

/-- The characters of the row `y`. -/
def rowChars (g : Grid w h) (y : Nat) : List Char := (List.range w).map fun x => g.charAt x y

theorem charAt_printChar (g : Grid w h) (c : Char) (hx : x < w) (hy : y < h) :
    (g.printChar c).charAt x y = if y = g.row ∧ x = g.column then c else g.charAt x y := by
  unfold printChar
  by_cases hrow : g.row < h
  · simp only [hrow, charAt, hx, hy, dite_true]
    by_cases hy' : y = g.row
    · subst hy'
      by_cases hx' : x = g.column
      · simp [hx']
      · simp [hx', Ne.symm hx']
    · simp [hy', Ne.symm hy']
  · have hy' : y ≠ g.row := fun h => hrow (h ▸ hy)
    simp [hrow, hy', charAt]

theorem row_printChar (g : Grid w h) (c : Char) : (g.printChar c).row = g.row := by
  unfold printChar
  split <;> rfl

theorem column_printChar (g : Grid w h) (c : Char) : (g.printChar c).column = g.column + 1 := by
  unfold printChar
  split <;> rfl

/-- A text that is printed lies over what was there, from the cursor on. -/
theorem charAt_printAll (g : Grid w h) (cs : List Char) (hx : x < w) (hy : y < h) :
    (cs.foldl printChar g).charAt x y =
      (Layer.text g.column g.row cs x y).getD (g.charAt x y) := by
  induction cs generalizing g with
  | nil =>
    rw [Layer.text_nil]
    rfl
  | cons c cs ih =>
    rw [List.foldl_cons, ih, row_printChar, column_printChar, charAt_printChar g c hx hy,
      Layer.text_cons]
    by_cases h : y = g.row ∧ x = g.column
    · rw [if_pos h, if_pos h, Layer.text, if_neg (by omega)]
      rfl
    · rw [if_neg h, if_neg h]

theorem charAt_clearLine (g : Grid w h) (hx : x < w) (hy : y < h) :
    (g.apply .clearLine).charAt x y = if y = g.row then ' ' else g.charAt x y := by
  by_cases hy' : y = g.row
  · subst hy'
    simp [apply, charAt, hx, hy]
  · simp [apply, charAt, hx, hy, hy', Ne.symm hy']

theorem applyAll_append (g : Grid w h) (cs ds : List Command) :
    g.applyAll (cs ++ ds) = (g.applyAll cs).applyAll ds := List.foldl_append

end Grid

/-! ## Commands as layers -/

/-- Commands lay the layer `p` over what a terminal shows, wherever its cursor is. -/
def Paints (cs : List Command) (p : Layer) : Prop :=
  ∀ (w h : Nat) (g : Grid w h), ∀ x < w, ∀ y < h,
    (g.applyAll cs).charAt x y = (p x y).getD (g.charAt x y)

namespace Paints

variable {cs ds : List Command} {p q : Layer}

theorem congr (hp : Paints cs p) (h : ∀ x y, p x y = q x y) : Paints cs q := by
  intro w n g x hx y hy
  rw [hp w n g x hx y hy, h]

theorem append (hp : Paints cs p) (hq : Paints ds q) : Paints (cs ++ ds) (q.above p) := by
  intro w h g x hx y hy
  rw [Grid.applyAll_append, hq w h _ x hx y hy, hp w h g x hx y hy]
  unfold Layer.above
  cases q x y <;> rfl

theorem text (column row : Nat) (t : String) :
    Paints [.moveTo column row, .print t] (.text column row t.toList) := by
  intro w h g x hx y hy
  exact Grid.charAt_printAll { g with column := column, row := row } t.toList hx hy

theorem line (row : Nat) (t : String) :
    Paints [.moveTo 0 row, .clearLine, .print t] (.line row t.toList) := by
  intro w h g x hx y hy
  let moved : Grid w h := { g with column := 0, row := row }
  have hprint := Grid.charAt_printAll (moved.apply .clearLine) t.toList hx hy
  rw [Grid.charAt_clearLine moved hx hy] at hprint
  refine hprint.trans ?_
  change (Layer.text 0 row t.toList x y).getD (if y = row then ' ' else g.charAt x y) = _
  unfold Layer.text Layer.line
  by_cases hy' : y = row
  · simp [hy']
  · simp [hy']

/-- Where the commands for each number paint one row, those for the numbers below `n` paint the `n`
rows below the row 0. -/
theorem band (n : Nat) {f : Nat → List Command} {l : Nat → Nat → Option Char}
    (h : ∀ k, Paints (f k) fun x y => if y = k + 1 then l k x else none) :
    Paints ((List.range n).flatMap f) (.band n l) := by
  induction n with
  | zero =>
    intro w n g x hx y hy
    have hnone : ¬(0 < y ∧ y ≤ 0) := by omega
    rw [Layer.band, if_neg hnone]
    rfl
  | succ n ih =>
    rw [List.range_succ, List.flatMap_append, List.flatMap_singleton]
    refine (ih.append (h n)).congr fun x y => ?_
    unfold Layer.above Layer.band
    dsimp only
    by_cases hy : y = n + 1
    · have hout : ¬(0 < y ∧ y ≤ n) := by omega
      have hin : 0 < y ∧ y ≤ n + 1 := by omega
      rw [if_pos hy, if_neg hout, if_pos hin, Option.or_none, hy, Nat.add_sub_cancel]
    · have hlt : (0 < y ∧ y ≤ n + 1) ↔ (0 < y ∧ y ≤ n) := by omega
      rw [if_neg hy, Option.none_or]
      simp only [hlt]

theorem has {w h : Nat} (hp : Paints cs p) (g : Grid w h) : (g.applyAll cs).Has p := by
  intro x hx y hy c hc
  rw [hp w h g x hx y hy, hc]
  rfl

/-- What a terminal shows stays where it is not painted over. -/
theorem keeps {w h : Nat} {g : Grid w h} (hp : Paints cs p) (hg : g.Has q) (hpq : p.Apart q) :
    (g.applyAll cs).Has q := by
  intro x hx y hy c hc
  have hnone : p x y = none := (hpq x y).resolve_right fun h => by rw [hc] at h; cases h
  rw [hp w h g x hx y hy, hnone]
  exact hg x hx y hy c hc

end Paints

/-! ## The picture -/

namespace Picture

/-- A horizontal side of the border with its corners. -/
def edge (left right : Char) (x : Nat) : Option Char :=
  if x = 0 then some left
  else if x < rightColumn then some '━'
  else if x = rightColumn then some right
  else none

/-- The border. -/
def frame : Layer := fun x y =>
  if y = 0 then edge '┏' '┓' x
  else if y < bottomRow then (if x = 0 ∨ x = rightColumn then some '┃' else none)
  else if y = bottomRow then edge '┗' '┛' x
  else none

/-- The character of a pixel, in each of its cells. -/
def pixel (lit : Bool) : Char := if lit then block else ' '

/-- The screen. -/
def pixels (s : Screen) : Layer := fun x y =>
  if 0 < x ∧ x < rightColumn ∧ 0 < y ∧ y < bottomRow then
    some (pixel (s.get ((x - 1) / cellWidth) (y - 1)))
  else none

/-- The status and the registers of a machine, each in its row and nothing else there. -/
def footer (m : Machine) : Layer :=
  (Layer.line registersRow (registersText m).toList).above
    (Layer.line statusRow (statusText m).toList)

theorem getElem?_replicate_between (left c right : Char) (n x : Nat) :
    (left :: (List.replicate n c ++ [right]))[x]? =
      if x = 0 then some left
      else if x < n + 1 then some c
      else if x = n + 1 then some right
      else none := by
  cases x with
  | zero => rfl
  | succ x =>
    rw [List.getElem?_cons_succ, List.getElem?_append, List.length_replicate]
    by_cases hx : x < n
    · simp [hx]
    · obtain ⟨k, rfl⟩ := Nat.exists_eq_add_of_le (Nat.le_of_not_lt hx)
      cases k <;> simp

theorem text_side (left right : Char) (row x y : Nat) :
    Layer.text 0 row (left :: (side.toList ++ [right])) x y =
      if y = row then edge left right x else none := by
  have hside : side.toList = List.replicate (cellWidth * Screen.width) '━' := String.toList_ofList
  rw [hside, Layer.text, Nat.sub_zero, getElem?_replicate_between]
  simp only [Nat.zero_le, and_true]
  rfl

theorem text_singleton (column row : Nat) (c : Char) (x y : Nat) :
    Layer.text column row [c] x y = if y = row ∧ x = column then some c else none := by
  rw [Layer.text_cons, Layer.text_nil]

theorem paints_side (row : Nat) {left right : String} (l r : Char) (hl : left.toList = [l])
    (hr : right.toList = [r]) :
    Paints [.moveTo 0 row, .print (left ++ side ++ right)]
      fun x y => if y = row then edge l r x else none := by
  refine (Paints.text 0 row _).congr fun x y => ?_
  rw [String.toList_append, String.toList_append, hl, hr, List.append_assoc, List.singleton_append,
    text_side]

theorem paints_sides (y₀ : Nat) :
    Paints [.moveTo 0 y₀, .print "┃", .moveTo rightColumn y₀, .print "┃"]
      fun x y => if y = y₀ then (if x = 0 ∨ x = rightColumn then some '┃' else none) else none := by
  have hbar : "┃".toList = ['┃'] := rfl
  refine ((Paints.text 0 y₀ "┃").append (.text rightColumn y₀ "┃")).congr fun x y => ?_
  rw [Layer.above, hbar, text_singleton, text_singleton]
  by_cases hy : y = y₀
  · by_cases hx : x = rightColumn
    · simp [hy, hx]
    · simp [hy, hx]
  · simp [hy]

theorem paints_border : Paints border frame := by
  have htop : Paints [.moveTo 0 0, .print ("┏" ++ side ++ "┓")] _ := paints_side 0 '┏' '┓' rfl rfl
  have hbottom : Paints [.moveTo 0 bottomRow, .print ("┗" ++ side ++ "┛")] _ :=
    paints_side bottomRow '┗' '┛' rfl rfl
  have hsides := Paints.band Screen.height fun k => paints_sides (k + 1)
  refine ((htop.append hsides).append hbottom).congr fun x y => ?_
  unfold frame Layer.above Layer.band
  have hband : (0 < y ∧ y ≤ Screen.height) ↔ (y ≠ 0 ∧ y < bottomRow) := by
    unfold bottomRow
    omega
  have hne : bottomRow ≠ 0 := by decide
  by_cases hy : y = 0
  · subst hy
    simp [Ne.symm hne]
  · by_cases hy' : y = bottomRow
    · subst hy'
      simp [hband, hne]
    · simp [hband, hy, hy']

theorem getElem?_flatMap_replicate {α β : Type} (f : α → β) {n : Nat} (hn : 0 < n) (l : List α)
    (i : Nat) : (l.flatMap fun a => List.replicate n (f a))[i]? = l[i / n]?.map f := by
  induction l generalizing i with
  | nil => rfl
  | cons a l ih =>
    rw [List.flatMap_cons, List.getElem?_append, List.length_replicate]
    by_cases hi : i < n
    · simp [hi, Nat.div_eq_of_lt hi]
    · obtain ⟨k, rfl⟩ := Nat.exists_eq_add_of_le (Nat.le_of_not_lt hi)
      rw [if_neg hi, Nat.add_sub_cancel_left, ih, Nat.add_div_left k hn, List.getElem?_cons_succ]

theorem getElem?_row (s : Screen) (x y : Nat) :
    (s.row y)[x]? = if x < Screen.width then some (s.get x y) else none := by
  unfold Screen.row
  rw [List.getElem?_map]
  change Option.map _ (List.range Screen.width)[x]? = _
  by_cases hx : x < Screen.width
  · rw [List.getElem?_range hx, if_pos hx]
    rfl
  · rw [if_neg hx, List.getElem?_eq_none (by rw [List.length_range]; exact Nat.le_of_not_lt hx)]
    rfl

theorem text_row (s : Screen) (x y k : Nat) :
    Layer.text 1 (k + 1) (rowText (s.row k)).toList x y =
      if y = k + 1 then
        (if 0 < x ∧ x < rightColumn then some (pixel (s.get ((x - 1) / cellWidth) k)) else none)
      else none := by
  rw [rowText, String.toList_ofList, Layer.text]
  change (if y = k + 1 ∧ 1 ≤ x then
    ((s.row k).flatMap fun lit => List.replicate cellWidth (pixel lit))[x - 1]? else none) = _
  rw [getElem?_flatMap_replicate pixel (by decide), getElem?_row]
  by_cases hx : 1 ≤ x
  · have hcell : (x - 1) / cellWidth < Screen.width ↔ x < rightColumn := by
      rw [Nat.div_lt_iff_lt_mul (by decide), Nat.mul_comm, Nat.sub_lt_iff_lt_add hx]
      rfl
    by_cases hright : x < rightColumn
    · simp [hx, hcell, hright, Nat.pos_of_ne_zero (Nat.one_le_iff_ne_zero.mp hx)]
    · simp [hcell, hright]
  · have hx' : ¬0 < x := hx
    simp [hx, hx']

theorem paints_screen (s : Screen) : Paints (screen s) (pixels s) := by
  have hrows := Paints.band Screen.height fun k =>
    (Paints.text 1 (k + 1) (rowText (s.row k))).congr fun x y => text_row s x y k
  refine hrows.congr fun x y => ?_
  unfold Layer.band pixels
  have hband : (0 < y ∧ y ≤ Screen.height) ↔ (0 < y ∧ y < bottomRow) :=
    and_congr_right fun _ => Nat.lt_succ_iff.symm
  by_cases hy : 0 < y ∧ y < bottomRow
  · rw [if_pos (hband.mpr hy)]
    simp only [hy, and_true]
  · rw [if_neg fun h => hy (hband.mp h), if_neg fun h => hy h.2.2]

theorem pixels_cell (s : Screen) {x y d : Nat} (hx : x < Screen.width) (hy : y < Screen.height)
    (hd : d < cellWidth) :
    pixels s (cellWidth * x + 1 + d) (y + 1) = some (pixel (s.get x y)) := by
  have hcell : cellWidth * x + 1 + d - 1 = d + cellWidth * x := by
    rw [Nat.add_right_comm, Nat.add_sub_cancel, Nat.add_comm]
  have hcolumn : (d + cellWidth * x) / cellWidth = x := by
    rw [Nat.add_mul_div_left _ _ (by decide), Nat.div_eq_of_lt hd, Nat.zero_add]
  have hright : cellWidth * x + 1 + d < rightColumn := by
    change 2 * x + 1 + d < 129
    change x < 64 at hx
    change d < 2 at hd
    omega
  have hbounds : 0 < cellWidth * x + 1 + d ∧ cellWidth * x + 1 + d < rightColumn ∧ 0 < y + 1 ∧
      y + 1 < bottomRow :=
    ⟨Nat.lt_of_lt_of_le (Nat.succ_pos _) (Nat.le_add_right _ d), hright, Nat.succ_pos y,
      Nat.succ_lt_succ hy⟩
  rw [pixels, if_pos hbounds, hcell, hcolumn, Nat.add_sub_cancel]

theorem edge_bounds {left right c : Char} {x : Nat} (h : edge left right x = some c) :
    x ≤ rightColumn := by
  unfold edge at h
  split at h
  · subst x
    exact Nat.zero_le _
  · split at h
    · exact Nat.le_of_lt ‹_›
    · split at h
      · exact Nat.le_of_eq ‹_›
      · cases h

theorem frame_bounds {x y : Nat} {c : Char} (h : frame x y = some c) :
    x ≤ rightColumn ∧ y ≤ bottomRow := by
  unfold frame at h
  split at h
  · subst y
    exact ⟨edge_bounds h, Nat.zero_le _⟩
  · split at h
    · rename_i hy
      refine ⟨?_, Nat.le_of_lt hy⟩
      split at h
      · rename_i hx
        rcases hx with rfl | rfl
        · exact Nat.zero_le _
        · exact Nat.le_refl _
      · cases h
    · split at h
      · exact ⟨edge_bounds h, Nat.le_of_eq ‹_›⟩
      · cases h

theorem footer_statusRow (m : Machine) (x : Nat) :
    footer m x statusRow = some ((statusText m).toList[x]?.getD ' ') := by
  have hne : statusRow ≠ registersRow := by decide
  rw [footer, Layer.above, Layer.line, if_neg hne, Layer.line, if_pos rfl]
  rfl

theorem footer_registersRow (m : Machine) (x : Nat) :
    footer m x registersRow = some ((registersText m).toList[x]?.getD ' ') := by
  rw [footer, Layer.above, Layer.line, if_pos rfl]
  rfl

theorem paints_status (m : Machine) : Paints (status m) (footer m) :=
  (Paints.line statusRow (statusText m)).append (.line registersRow (registersText m))

/-! ### No two layers have a cell in common -/

theorem apart_frame_pixels (s : Screen) : frame.Apart (pixels s) := by
  intro x y
  by_cases hx : 0 < x ∧ x < rightColumn ∧ 0 < y ∧ y < bottomRow
  · obtain ⟨hleft, hright, htop, hbottom⟩ := hx
    left
    have hy : y ≠ 0 := Nat.ne_of_gt htop
    have hx : x ≠ 0 := Nat.ne_of_gt hleft
    simp [frame, hy, hbottom, hx, Nat.ne_of_lt hright]
  · right
    rw [pixels, if_neg hx]

theorem footer_eq_none {y : Nat} (hy : y ≤ bottomRow) (m : Machine) (x : Nat) :
    footer m x y = none := by
  have hstatus : y ≠ statusRow := Nat.ne_of_lt (Nat.lt_succ_of_le hy)
  have hregisters : y ≠ registersRow := Nat.ne_of_lt (Nat.lt_succ_of_lt (Nat.lt_succ_of_le hy))
  rw [footer, Layer.above, Layer.line, Layer.line, if_neg hstatus, if_neg hregisters]
  rfl

theorem apart_footer_frame (m : Machine) : (footer m).Apart frame := by
  intro x y
  by_cases hy : y ≤ bottomRow
  · exact .inl (footer_eq_none hy m x)
  · right
    have htop : y ≠ 0 := fun h => hy (h ▸ Nat.zero_le _)
    have hbottom : y ≠ bottomRow := fun h => hy (Nat.le_of_eq h)
    have hlt : ¬y < bottomRow := fun h => hy (Nat.le_of_lt h)
    rw [frame, if_neg htop, if_neg hlt, if_neg hbottom]

theorem apart_footer_pixels (m : Machine) (s : Screen) : (footer m).Apart (pixels s) := by
  intro x y
  by_cases hy : y ≤ bottomRow
  · exact .inl (footer_eq_none hy m x)
  · right
    rw [pixels, if_neg fun h => hy (Nat.le_of_lt h.2.2.2)]

end Picture

end Chip8.Terminal
