import Chip8.Keyboard.Hold
import Chip8.Machine.Turn
import Chip8.Terminal.Picture

/-!
# Sessions

A session runs a program on a terminal. It works in turns: a turn handles the inputs that came since
the last one, runs the cycles and the ticks that are due unless the machine is paused, and shows the
screen if a redraw is asked for, and the status.

A session ends when its user quits, or when a step or cycle fails.
-/

namespace Chip8

open Keyboard Terminal

/-- A program that is being played. -/
structure Session where
  /-- The program, for a restart. -/
  program : List UInt8
  machine : Machine
  held : Held
  deriving DecidableEq

namespace Session

/-- Why a session ended. -/
inductive Ending where
  | quit
  | stopped (reason : Stop)
  deriving DecidableEq, Repr

/-- A session goes on with what it wrote to the terminal, or ends. -/
abbrev Progress := Except Ending (Session × List Command)

/-- The session after a turn of its machine. -/
def after (s : Session) (t : Turn Unit) : Except Ending Session :=
  match t.result with
  | .ok _ => .ok { s with machine := t.machine }
  | .error stop => .error (.stopped stop)

/-- Shows the screen. -/
def drawScreen (s : Session) : List Command := Picture.screen s.machine.display.screen

/-- A new session, with its program loaded and the border and the screen drawn. -/
def start (dialect : Dialect) (generator : Generator) (program : List UInt8) : Progress := do
  let s : Session := ⟨program, Machine.initial dialect generator, Held.empty standardHold⟩
  let s ← s.after (s.machine.load program)
  return (s, Picture.border ++ s.drawScreen)

/-- Restarts the program on a machine at power-on, and shows the screen. -/
def restart (s : Session) : Progress := do
  let s ← s.after (s.machine.reset.load s.program)
  return (s, s.drawScreen)

/-- Handles an input. A single step runs only while the machine is paused. -/
def handle (s : Session) : Input → Progress
  | .press k => (s.after (s.machine.press k)).map fun s => (s, [])
  | .release k => (s.after (s.machine.release k)).map fun s => (s, [])
  | .control .quit => .error .quit
  | .control .togglePause => .ok ({ s with machine := s.machine.togglePause }, [])
  | .control .step =>
    if s.machine.mode = .paused then (s.after s.machine.step).map fun s => (s, [])
    else .ok (s, [])
  | .control .restart => s.restart

/-- Handles inputs one after the other. -/
def handleAll (s : Session) : List Input → Progress
  | [] => .ok (s, [])
  | i :: is => do
    let (s, drawn) ← s.handle i
    let (s, more) ← s.handleAll is
    return (s, drawn ++ more)

/-- Runs `n` cycles, or fails with the first that fails. -/
def runCycles (m : Machine) : Nat → Except Stop Machine
  | 0 => .ok m
  | n + 1 =>
    match m.cycle with
    | ⟨.ok _, m', _⟩ => runCycles m' n
    | ⟨.error stop, _, _⟩ => .error stop

/-- Runs `cycles` cycles and then `ticks` ticks of the timers, or nothing while the machine is
paused. -/
def work (s : Session) (cycles ticks : Nat) : Except Ending Session :=
  if s.machine.mode = .paused then .ok s
  else
    match runCycles s.machine cycles with
    | .ok m => .ok { s with machine := Nat.repeat Machine.tick ticks m }
    | .error stop => .error (.stopped stop)

/-- Shows the screen if a redraw is asked for, and the status. -/
def present (s : Session) : Session × List Command :=
  let (asked, m) := s.machine.takeRedraw
  let s := { s with machine := m }
  (s, (if asked then s.drawScreen else []) ++ Picture.status s.machine)

/-- The first half of a turn: polls the keyboard at the time `now`, after the given keys, and
handles what it asks for. -/
def poll (s : Session) (events : List (Key × Nat)) (now : Nat) : Progress :=
  let (inputs, held) := s.held.poll events now
  { s with held := held }.handleAll inputs

/-- The second half of a turn: works, and shows what came of it. -/
def proceed (s : Session) (cycles ticks : Nat) : Progress :=
  (s.work cycles ticks).map present

/-- A turn of the session, in which `cycles` cycles and `ticks` ticks are due. -/
def turn (s : Session) (events : List (Key × Nat)) (now cycles ticks : Nat) : Progress := do
  let (s, drawn) ← s.poll events now
  let (s, shown) ← s.proceed cycles ticks
  return (s, drawn ++ shown)

end Session

end Chip8
