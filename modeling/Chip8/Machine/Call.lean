import Chip8.Machine.Turn

/-!
# Calls

Everything that a host can ask of a machine, as data, so that one can speak of the sequences of
calls which a host makes.
-/

namespace Chip8

/-- A call on a machine. -/
inductive Call where
  /-- Load a program. -/
  | load (program : List UInt8)
  /-- Run one instruction unless the machine is paused. -/
  | cycle
  /-- Run one instruction. -/
  | step
  /-- Run a word as if it had been fetched. -/
  | stepWith (w : Word)
  /-- Run an instruction where the program counter is. -/
  | execute (i : Instruction)
  /-- Run instructions in the same way, up to the first that fails. -/
  | executeAll (is : List Instruction)
  | pause
  | resume
  | togglePause
  /-- Count the delay timer down. -/
  | tickDelay
  /-- Count the sound timer down. -/
  | tickSound
  /-- Press or release a key. -/
  | setKey (k : UInt8) (pressed : Bool)
  /-- Ask for the redraw request and take it. -/
  | takeRedraw
  /-- Return to power-on. -/
  | reset
  deriving DecidableEq, Repr

/-- What a call answers. -/
inductive Reply where
  /-- Nothing but that it succeeded. -/
  | done
  /-- Yes or no. -/
  | flag (b : Bool)
  deriving DecidableEq, Repr

namespace Machine

/-- Makes a call. -/
def call (m : Machine) : Call → Turn Reply
  | .load program => (m.load program).map fun _ => .done
  | .cycle => m.cycle.map .flag
  | .step => m.step.map fun _ => .done
  | .stepWith w => (m.stepWith w).map fun _ => .done
  | .execute i => (m.execute i).map fun _ => .done
  | .executeAll is => (m.executeAll is).map fun _ => .done
  | .pause => .done .done m.pause
  | .resume => .done .done m.resume
  | .togglePause => .done .done m.togglePause
  | .tickDelay => .done .done m.tickDelay
  | .tickSound => .done .done m.tickSound
  | .setKey k pressed => (m.setKey k pressed).map fun _ => .done
  | .takeRedraw =>
    let (asked, m') := m.takeRedraw
    .done (.flag asked) m'
  | .reset => .done .done m.reset

/-- The turns of calls that are made one after the other, whether they succeed or not. -/
def calls (m : Machine) : List Call → List (Turn Reply)
  | [] => []
  | c :: cs => m.call c :: (m.call c).machine.calls cs

/-- The machine after calls. -/
def after (m : Machine) : List Call → Machine
  | [] => m
  | c :: cs => (m.call c).machine.after cs

theorem after_append (m : Machine) (cs ds : List Call) :
    m.after (cs ++ ds) = (m.after cs).after ds := by
  induction cs generalizing m with
  | nil => rfl
  | cons c cs ih => simp [after, ih]

end Machine

end Chip8
