import Chip8.Keyboard.Key

/-!
# Holding keys

A terminal tells when a key is pressed, but not when it is released. So a key of the keypad counts
as held until some time has passed since it was pressed last. Times are in microseconds, and a time
before that of the press counts as the time of the press.
-/

namespace Chip8.Keyboard

/-- What the keyboard asks of the session. -/
inductive Input where
  | press (key : UInt8)
  | release (key : UInt8)
  | control (c : Control)
  deriving DecidableEq, Repr

/-- The name of a control in listings. -/
def Control.text : Control → String
  | quit => "Quit"
  | togglePause => "TogglePause"
  | step => "Step"
  | restart => "Restart"

/-- An input is listed as its kind and what it is about. -/
def Input.text : Input → String
  | press k => "Press(" ++ toString k.toNat ++ ")"
  | release k => "Release(" ++ toString k.toNat ++ ")"
  | control c => "Command(" ++ c.text ++ ")"

/-- How long a key counts as held: a quarter of a second. -/
def standardHold : Nat := 250000

/-- The time of the last press of each key that counts as held. -/
structure Held where
  /-- How long a key counts as held. -/
  hold : Nat
  lastPressed : Vector (Option Nat) 16
  deriving DecidableEq

namespace Held

/-- No key is held. -/
def empty (hold : Nat) : Held := ⟨hold, Vector.replicate 16 none⟩

/-- When the key `k` was pressed last, if it is held. -/
def pressedAt? (h : Held) (k : UInt8) : Option Nat := (h.lastPressed[k.toNat]?).join

/-- What the key `key` asks for at the time `now`. -/
def translate (h : Held) (key : Key) (now : Nat) : Option Input × Held :=
  match key.control? with
  | some c => (some (.control c), h)
  | none =>
    match key.pad? with
    | some k =>
      (some (.press k), { h with lastPressed := h.lastPressed.setIfInBounds k.toNat (some now) })
    | none => (none, h)

/-- Whether a key that was pressed last at `pressed` is held no longer at the time `now`. -/
def overdue (h : Held) (now : Nat) : Option Nat → Bool
  | some pressed => h.hold ≤ now - pressed
  | none => false

/-- Releases the keys that are held no longer at the time `now`, the lowest first. -/
def expire (h : Held) (now : Nat) : List Input × Held :=
  (((List.range 16).map UInt8.ofNat).filter (fun k => h.overdue now (h.pressedAt? k))
      |>.map Input.release,
    { h with lastPressed := h.lastPressed.map fun t => if h.overdue now t then none else t })

/-- What keys ask for, each at its time. -/
def translateAll (h : Held) : List (Key × Nat) → List Input × Held
  | [] => ([], h)
  | (key, now) :: rest =>
    let (input?, h) := h.translate key now
    let (inputs, h) := h.translateAll rest
    (input?.toList ++ inputs, h)

/-- What the keys since the last poll ask for, and what is released at the time `now`. -/
def poll (h : Held) (events : List (Key × Nat)) (now : Nat) : List Input × Held :=
  let (inputs, h) := h.translateAll events
  let (released, h) := h.expire now
  (inputs ++ released, h)

end Held

end Chip8.Keyboard
