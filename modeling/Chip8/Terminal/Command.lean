/-!
# Terminal commands

What a program asks of a terminal: to move the cursor, to clear the line of the cursor, and to print
text from the cursor on. `escape` is the byte text of a command, with rows and columns counted from
one.
-/

namespace Chip8.Terminal

/-- A request to a terminal. Columns and rows are counted from zero at the upper left. -/
inductive Command where
  | moveTo (column row : Nat)
  | clearLine
  | print (text : String)
  deriving DecidableEq, Repr

/-- What is written to the terminal for a command. -/
def Command.escape : Command → String
  | moveTo column row => "\x1b[" ++ toString (row + 1) ++ ";" ++ toString (column + 1) ++ "H"
  | clearLine => "\x1b[2K"
  | print text => text

/-- What is written to the terminal for commands, one after the other. -/
def render (cs : List Command) : String := String.join (cs.map Command.escape)

/-- What opens the terminal: the alternate screen, without a cursor, cleared. -/
def enter : String := "\x1b[?1049h\x1b[?25l\x1b[2J"

/-- What closes the terminal: back to the first screen, with a cursor. -/
def leave : String := "\x1b[?1049l\x1b[?25h"

end Chip8.Terminal
