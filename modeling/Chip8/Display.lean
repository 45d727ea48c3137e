import Chip8.Screen.Sprite

/-!
# The display

The screen together with the request to show it. Clearing the screen and drawing on it ask for a
redraw, also when no pixel changes, and the host takes the request when it looks.
-/

namespace Chip8

/-- The screen, and whether the host should show it again. -/
structure Display where
  screen : Screen
  redraw : Bool
  deriving DecidableEq

namespace Display

/-- A dark screen which nobody has to look at. -/
def initial : Display := ⟨Screen.dark, false⟩

/-- Puts out every pixel. -/
def clear (_ : Display) : Display := ⟨Screen.dark, true⟩

/-- Draws a sprite, and tells whether it collided. -/
def draw (d : Display) (x y : Nat) (sprite : List UInt8) : Bool × Display :=
  let (hit, screen) := d.screen.draw x y sprite
  (hit, ⟨screen, true⟩)

/-- Whether a redraw is asked for, and the display without the request. -/
def takeRedraw (d : Display) : Bool × Display := (d.redraw, { d with redraw := false })

end Display

end Chip8
