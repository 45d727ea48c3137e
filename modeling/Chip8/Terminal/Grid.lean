import Chip8.Terminal.Command

/-!
# An ideal terminal

A grid of characters with a cursor, and what terminal commands do to it. Printing goes from left to
right; what is printed past the right edge or below the last row is lost.
-/

namespace Chip8.Terminal

/-- A terminal of `w` columns and `h` rows. -/
structure Grid (w h : Nat) where
  cells : Vector (Vector Char w) h
  column : Nat
  row : Nat
  deriving DecidableEq

namespace Grid

variable {w h : Nat}

/-- The cleared terminal. -/
def blank : Grid w h := ⟨Vector.replicate h (Vector.replicate w ' '), 0, 0⟩

/-- The character in the column `x` and the row `y`, a space outside of the terminal. -/
def charAt (g : Grid w h) (x y : Nat) : Char :=
  if hy : y < h then if hx : x < w then g.cells[y][x] else ' ' else ' '

/-- Prints a character and moves the cursor past it. -/
def printChar (g : Grid w h) (c : Char) : Grid w h :=
  if hy : g.row < h then
    { g with
      cells := g.cells.set g.row (g.cells[g.row].setIfInBounds g.column c)
      column := g.column + 1 }
  else { g with column := g.column + 1 }

/-- Carries out a command. -/
def apply (g : Grid w h) : Command → Grid w h
  | .moveTo column row => { g with column := column, row := row }
  | .clearLine => { g with cells := g.cells.setIfInBounds g.row (Vector.replicate w ' ') }
  | .print text => text.toList.foldl printChar g

/-- Carries out commands one after the other. -/
def applyAll (g : Grid w h) (cs : List Command) : Grid w h := cs.foldl apply g

/-- The text in the row `y`, without the spaces at its end. -/
def line (g : Grid w h) (y : Nat) : String :=
  let cs := (List.range w).map fun x => g.charAt x y
  String.ofList (cs.reverse.dropWhile (· == ' ')).reverse

end Grid

end Chip8.Terminal
