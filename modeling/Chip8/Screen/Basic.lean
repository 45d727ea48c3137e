/-!
# The screen

The screen is 32 rows of 64 pixels, each lit or dark. Coordinates wrap around: column 64 is
column 0 and row 32 is row 0. As a text, the screen is 32 lines of 64 characters, a hash for a lit
pixel and a space for a dark one.
-/

namespace Chip8

/-- The pixels, row by row from the top and from the left, `true` for lit. -/
structure Screen where
  rows : Vector (Vector Bool 64) 32
  deriving DecidableEq

namespace Screen

/-- The number of columns. -/
def width : Nat := 64

/-- The number of rows. -/
def height : Nat := 32

/-- The screen with every pixel dark. -/
def dark : Screen := ⟨Vector.replicate 32 (Vector.replicate 64 false)⟩

/-- Whether the pixel in the column `x` and the row `y` is lit; coordinates wrap around. -/
def get (s : Screen) (x y : Nat) : Bool :=
  have hy := Nat.mod_lt y (show 0 < 32 by decide)
  have hx := Nat.mod_lt x (show 0 < 64 by decide)
  s.rows[y % 32][x % 64]

/-- The screen with the pixel in the column `x` and the row `y` inverted; coordinates wrap
around. -/
def invert (s : Screen) (x y : Nat) : Screen :=
  have hy := Nat.mod_lt y (show 0 < 32 by decide)
  have hx := Nat.mod_lt x (show 0 < 64 by decide)
  ⟨s.rows.set (y % 32) (s.rows[y % 32].set (x % 64) (!s.rows[y % 32][x % 64]))⟩

/-- The pixels of the row `y`, from the left. -/
def row (s : Screen) (y : Nat) : List Bool := (List.range 64).map fun x => s.get x y

/-- The line of the row `y`, without its end. -/
def line (s : Screen) (y : Nat) : String :=
  String.ofList ((s.row y).map fun lit => if lit then '#' else ' ')

/-- The screen as a text. -/
def text (s : Screen) : String :=
  String.join ((List.range 32).map fun y => s.line y ++ "\n")

/-! ## Pixels -/

@[ext] theorem ext {s t : Screen} (h : ∀ x < 64, ∀ y < 32, s.get x y = t.get x y) : s = t := by
  obtain ⟨r⟩ := s
  obtain ⟨r'⟩ := t
  refine congrArg Screen.mk (Vector.ext fun y hy => Vector.ext fun x hx => ?_)
  have := h x hx y hy
  simpa [get, Nat.mod_eq_of_lt hx, Nat.mod_eq_of_lt hy] using this

theorem get_mod (s : Screen) (x y : Nat) : s.get (x % 64) (y % 32) = s.get x y := by simp [get]

/-- Inverting a pixel changes that pixel and no other. -/
theorem get_invert (s : Screen) (x y i j : Nat) :
    (s.invert x y).get i j = (s.get i j ^^ (i % 64 == x % 64 && j % 32 == y % 32)) := by
  unfold invert get
  simp only [Vector.getElem_set]
  by_cases hy : y % 32 = j % 32
  · by_cases hx : x % 64 = i % 64
    · simp [hx, hy]
    · have hx' : (i % 64 == x % 64) = false := beq_false_of_ne fun h => hx h.symm
      simp [hx, hy, hx']
  · have hy' : (j % 32 == y % 32) = false := beq_false_of_ne fun h => hy h.symm
    simp [hy, hy']

end Screen

end Chip8
