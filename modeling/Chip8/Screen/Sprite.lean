import Chip8.Screen.Basic

/-!
# Sprites

A sprite is a list of bytes, one for each of its rows of eight pixels, the leftmost pixel in the
highest bit. Drawing it at a place inverts the pixels under its set bits, and reports a collision
if one of them was lit when it was inverted. A sprite of more than 32 rows wraps onto itself.
-/

namespace Chip8.Screen

/-- The columns under the set bits of the sprite row `b`, if its left end is in the column `x`. -/
def columns (x : Nat) (b : UInt8) : List Nat :=
  ((List.range 8).filter fun d => b.toNat.testBit (7 - d)).map fun d => (x + d) % 64

/-- The pixels under the set bits of a sprite whose upper left corner is in the column `x` and the
row `y`. -/
def cells (x y : Nat) : List UInt8 → List (Nat × Nat)
  | [] => []
  | b :: bs => (columns x b).map (fun i => (i, y % 32)) ++ cells x (y + 1) bs

/-- Inverts pixels one after the other, and tells whether one of them was lit at its turn. -/
def invertAll : List (Nat × Nat) → Screen → Bool × Screen
  | [], s => (false, s)
  | (x, y) :: rest, s =>
    let lit := s.get x y
    let (later, s') := invertAll rest (s.invert x y)
    (lit || later, s')

/-- Draws a sprite, and tells whether it collided. -/
def draw (s : Screen) (x y : Nat) (sprite : List UInt8) : Bool × Screen :=
  invertAll (cells x y sprite) s

end Chip8.Screen
