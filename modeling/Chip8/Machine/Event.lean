import Chip8.Fault
import Chip8.Instruction.Basic
import Chip8.Word

/-!
# Events

What a machine reports about its work, for a log. Each event has a level and a line of text.
-/

namespace Chip8

/-- How much an event matters. -/
inductive Level where
  | error
  | info
  | debug
  | trace
  deriving DecidableEq, Repr

/-- The name of a level in a log. -/
def Level.text : Level → String
  | error => "ERROR"
  | info => "INFO"
  | debug => "DEBUG"
  | trace => "TRACE"

/-- Something that a machine reports. -/
inductive Event where
  /-- A program of `size` bytes was loaded. -/
  | loaded (size : Nat)
  /-- The word at `pc`, or one supplied in its place, was decoded and is about to run. -/
  | decoded (pc : UInt16) (word : Word) (instruction : Instruction)
  /-- A native routine was not called. -/
  | sysIgnored (address : UInt16)
  /-- A pressed key was stored in a register. -/
  | keyTaken (key register : UInt8)
  /-- A wait for a key began. -/
  | keyAwaited (register : UInt8)
  /-- A fault halts the machine at `pc`. -/
  | halting (pc : UInt16) (fault : Fault)
  deriving DecidableEq, Repr

namespace Event

/-- The level of an event. -/
def level : Event → Level
  | loaded _ => .info
  | decoded _ _ _ => .trace
  | sysIgnored _ | keyTaken _ _ | keyAwaited _ => .debug
  | halting _ _ => .error

/-- The text of an event. -/
def text : Event → String
  | loaded size => "Loaded " ++ toString size ++ " bytes"
  | decoded pc word i =>
    Numeral.hex 3 pc.toNat ++ ": " ++ Numeral.hex 4 word.toNat ++ " " ++ i.text
  | sysIgnored address => "Ignoring SYS " ++ Numeral.hex 3 address.toNat
  | keyTaken key register =>
    "Got key " ++ Numeral.hex 1 key.toNat ++ " into V" ++ Numeral.upper 1 register.toNat
  | keyAwaited register => "Waiting for a key press into V" ++ Numeral.upper 1 register.toNat
  | halting pc fault => "Halting at " ++ Numeral.hex 3 pc.toNat ++ ": " ++ fault.message

/-- The line of an event in a log: its level and its text. -/
def line (e : Event) : String := e.level.text ++ " " ++ e.text

end Event

end Chip8
