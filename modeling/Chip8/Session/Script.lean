import Chip8.Batch
import Chip8.Keyboard.Reading
import Chip8.Session.Basic
import Chip8.Terminal.Grid

/-!
# Scripted sessions

A script types texts into a session, each when the session has settled, and notes what the terminal
shows whenever it has. A session has settled when a turn changes nothing: the machine jumps to the
same place with both timers at zero, waits for a key, or is paused.

The clock of the keyboard moves only where the script waits, and then long enough for every key to
be released.
-/

namespace Chip8.Session

open Keyboard Terminal

/-- The choices of a session. -/
structure Options where
  /-- Cycles in a second. -/
  speed : UInt32 := 700
  /-- Ticks of the timers in a second. -/
  timerRate : UInt32 := 60
  dialect : Dialect := {}
  deriving DecidableEq, Repr

/-- The cycles that are due in a turn, which takes about a millisecond. -/
def Options.cyclesPerTurn (o : Options) : Nat := (o.speed.toNat + 999) / 1000

/-- The ticks of the timers that are due in a turn. -/
def Options.ticksPerTurn (o : Options) : Nat := o.timerRate.toNat / 1000

/-- A text to type. -/
structure Entry where
  keys : String
  /-- Whether to wait until the keys are released. -/
  wait : Bool
  deriving DecidableEq, Repr

/-- A session on a terminal. -/
structure Console where
  options : Options
  session : Session
  grid : Grid 130 36
  /-- How far the bytes of the keyboard have been read. -/
  reading : Reading
  /-- The time in microseconds. -/
  now : Nat
  deriving DecidableEq

/-- What the terminal shows. -/
structure Screenshot where
  /-- Which pixels of each row are lit. -/
  rows : List (List Bool)
  status : String
  registers : String
  deriving DecidableEq, Repr

namespace Console

/-- The console of a new session. -/
def start (options : Options) (program : List UInt8) : Except Ending Console := do
  let (s, cs) ← Session.start options.dialect (Generator.ofSeed 0) program
  return ⟨options, s, Grid.blank.applyAll cs, .start, 0⟩

/-- A turn after some keys, in which `cycles` cycles and `ticks` ticks are due. -/
def turn (c : Console) (keys : List Key) (cycles ticks : Nat) : Except Ending Console := do
  let (s, cs) ← c.session.turn (keys.map fun k => (k, c.now)) c.now cycles ticks
  return { c with session := s, grid := c.grid.applyAll cs }

/-- Takes up to `limit` turns without keys, until one changes nothing. In each a tick is due, and the
cycles of a tick. -/
def settle (c : Console) : Nat → Except Ending Console
  | 0 => .ok c
  | limit + 1 => do
    let c' ← c.turn [] Batch.cyclesPerTick 1
    if c'.session = c.session then return c' else c'.settle limit

/-- How many turns a session may take to settle. -/
def patience : Nat := 100000

/-- Lets so much time pass that no key is held any longer. -/
def waitForRelease (c : Console) : Console := { c with now := c.now + standardHold }

/-- Types keys that one poll takes. -/
def typeKeys (c : Console) (keys : List Key) : Except Ending Console :=
  c.turn keys c.options.cyclesPerTurn c.options.ticksPerTurn

/-- Types a text and lets the session settle. -/
def typeText (c : Console) (e : Entry) : Except Ending Console := do
  let (signals, reading) := c.reading.read e.keys.toUTF8.data.toList
  let c ← (Signal.polls signals).foldlM typeKeys { c with reading }
  let c ← c.settle patience
  if e.wait then c.waitForRelease.settle patience else return c

/-- What the terminal shows: a pixel is lit if the left of its two characters is a block. -/
def screenshot (c : Console) : Screenshot where
  rows := (List.range Screen.height).map fun y => (List.range Screen.width).map fun x =>
    c.grid.charAt (1 + Picture.cellWidth * x) (y + 1) == Picture.block
  status := c.grid.line Picture.statusRow
  registers := c.grid.line Picture.registersRow

/-- Types texts one after the other, and notes a screenshot after each. -/
def typeAll (c : Console) : List Entry → List Screenshot × Except Ending Console
  | [] => ([], .ok c)
  | e :: es =>
    match c.typeText e with
    | .ok c' =>
      let (shots, last) := c'.typeAll es
      (c'.screenshot :: shots, last)
    | .error ending => ([], .error ending)

end Console

/-- What a scripted session leaves. -/
structure Transcript where
  /-- Whether the terminal was opened: a program that does not fit is refused before. -/
  opened : Bool
  screenshots : List Screenshot
  /-- Whether the session lasted until the script was over. -/
  completed : Bool
  ending : Ending
  deriving DecidableEq, Repr

/-- Plays a program and types a script into the session. When the script is over, Escape quits. -/
def play (options : Options) (program : List UInt8) (script : List Entry) : Transcript :=
  match Console.start options program with
  | .error ending => ⟨false, [], false, ending⟩
  | .ok c =>
    match c.settle Console.patience with
    | .error ending => ⟨true, [], false, ending⟩
    | .ok c =>
      match c.typeAll script with
      | (shots, .error ending) => ⟨true, c.screenshot :: shots, false, ending⟩
      | (shots, .ok _) => ⟨true, c.screenshot :: shots, true, .quit⟩

/-- The exit code of a session. -/
def Ending.code : Ending → Nat
  | quit => 0
  | stopped (.fault _) => 1
  | stopped .crash => 101

/-- What a session prints when it has ended. -/
def Ending.message : Ending → String
  | stopped (.fault f) => Batch.failureLine f
  | quit | stopped .crash => ""

end Chip8.Session
