/-!
# Keys of the keyboard

The left of the keyboard is laid out as the keypad is:

```text
1 2 3 C      1 2 3 4
4 5 6 D      q w e r
7 8 9 E      a s d f
A 0 B F      z x c v
```

Capitals count as small letters there. Some other keys control the session; these are exact.
-/

namespace Chip8.Keyboard

/-- A key of the keyboard. -/
inductive Key where
  /-- A key that types a character. -/
  | char (c : Char)
  | escape
  /-- A key without a meaning here, such as Enter, Tab, an arrow or a function key. -/
  | other
  deriving DecidableEq, Repr

/-- A request to the session. -/
inductive Control where
  | quit
  | togglePause
  | step
  | restart
  deriving DecidableEq, Repr

/-- The key of the keypad under a character. -/
def padOfChar? : Char → Option UInt8
  | '1' => some 0x1
  | '2' => some 0x2
  | '3' => some 0x3
  | '4' => some 0xC
  | 'q' => some 0x4
  | 'w' => some 0x5
  | 'e' => some 0x6
  | 'r' => some 0xD
  | 'a' => some 0x7
  | 's' => some 0x8
  | 'd' => some 0x9
  | 'f' => some 0xE
  | 'z' => some 0xA
  | 'x' => some 0x0
  | 'c' => some 0xB
  | 'v' => some 0xF
  | _ => none

namespace Key

/-- The key of the keypad that a key stands for. -/
def pad? : Key → Option UInt8
  | char c => padOfChar? c.toLower
  | escape | other => none

/-- The control that a key stands for. -/
def control? : Key → Option Control
  | escape => some .quit
  | char 'p' => some .togglePause
  | char 'n' => some .step
  | char '0' => some .restart
  | char _ | other => none

end Key

end Chip8.Keyboard
