import Chip8.Machine.Basic
import Chip8.Terminal.Command

/-!
# The picture on the terminal

A border around the screen, the screen with two characters a pixel, and two lines below: the status
of the machine, and its registers. The border takes the rows 0 and 33 and the columns 0 and 129,
the screen lies inside, and the two lines take the rows 34 and 35.
-/

namespace Chip8.Terminal.Picture

/-- How many characters make a pixel. -/
def cellWidth : Nat := 2

/-- The column of the right side of the border. -/
def rightColumn : Nat := cellWidth * Screen.width + 1

/-- The row of the lower side of the border. -/
def bottomRow : Nat := Screen.height + 1

/-- The row of the status. -/
def statusRow : Nat := Screen.height + 2

/-- The row of the registers. -/
def registersRow : Nat := Screen.height + 3

/-- The character of a lit cell. -/
def block : Char := '█'

/-- A horizontal side of the border, between its corners. -/
def side : String := String.ofList (List.replicate (cellWidth * Screen.width) '━')

/-- Draws the border. -/
def border : List Command :=
  [.moveTo 0 0, .print ("┏" ++ side ++ "┓")]
    ++ (List.range Screen.height).flatMap (fun y =>
      [.moveTo 0 (y + 1), .print "┃", .moveTo rightColumn (y + 1), .print "┃"])
    ++ [.moveTo 0 bottomRow, .print ("┗" ++ side ++ "┛")]

/-- The characters of a row of pixels. -/
def rowText (pixels : List Bool) : String :=
  String.ofList (pixels.flatMap fun lit => List.replicate cellWidth (if lit then block else ' '))

/-- Draws every row of the screen. -/
def screen (s : Screen) : List Command :=
  (List.range Screen.height).flatMap fun y => [.moveTo 1 (y + 1), .print (rowText (s.row y))]

/-- How the status names the mode of the machine. -/
def modeText : Mode → String
  | .running => "running"
  | .paused => "paused (n to step)"
  | .halted reason => "halted: " ++ reason.message

/-- The last word in the status, or dashes if there is none. -/
def wordText : Option Word → String
  | some w => Numeral.upper 4 w.toNat
  | none => "----"

/-- The status of a machine. -/
def statusText (m : Machine) : String :=
  "PC " ++ Numeral.upper 3 m.pc.toNat
    ++ "  I " ++ Numeral.upper 3 m.index.toNat
    ++ "  SP " ++ Numeral.upper 1 m.stack.depth
    ++ "  DT " ++ Numeral.upper 2 m.delay.toNat
    ++ "  ST " ++ Numeral.upper 2 m.sound.toNat
    ++ "  OP " ++ wordText m.lastWord
    ++ "  " ++ modeText m.mode

/-- The registers of a machine. -/
def registersText (m : Machine) : String :=
  "V " ++ String.intercalate " " (m.registers.toList.map fun v => Numeral.upper 2 v.toNat)

/-- Writes the status and the registers over what stood in their rows. -/
def status (m : Machine) : List Command :=
  [.moveTo 0 statusRow, .clearLine, .print (statusText m),
   .moveTo 0 registersRow, .clearLine, .print (registersText m)]

end Chip8.Terminal.Picture
