import Chip8.Numeral

/-!
# Faults

Everything that the machine refuses to do, as causes. A fault that arises while an instruction runs
halts the machine; a refused program or key leaves it as it was; and a halted machine answers each
further request with the fault that halted it, wrapped once in `halted`.
-/

namespace Chip8

/-- Why a request to the machine was refused. -/
inductive Fault where
  /-- The word encodes no instruction. -/
  | unsupported (word : UInt16)
  /-- A call while sixteen return addresses are stored. -/
  | stackOverflow
  /-- A return while no return address is stored. -/
  | stackUnderflow
  /-- An access reaches `address`, which lies past the end of memory. -/
  | outOfRange (address : UInt32)
  /-- A program of `size` bytes where there is room for `room`. -/
  | tooLarge (size room : Nat)
  /-- The keypad has no key of this number. -/
  | noSuchKey (key : UInt8)
  /-- The machine is halted, for this reason. -/
  | halted (reason : Fault)
  deriving DecidableEq, Inhabited, Repr

namespace Fault

/-- The name of the kind of fault. -/
def kind : Fault → String
  | unsupported _ => "UnsupportedInstruction"
  | stackOverflow => "StackOverflow"
  | stackUnderflow => "StackUnderflow"
  | outOfRange _ => "AddressOutOfRange"
  | tooLarge _ _ => "ProgramTooLarge"
  | noSuchKey _ => "InvalidKey"
  | halted _ => "Halted"

/-- The message for a user. -/
def message : Fault → String
  | unsupported word => "unsupported instruction " ++ Numeral.hex 4 word.toNat
  | stackOverflow => "stack overflow"
  | stackUnderflow => "stack underflow"
  | outOfRange address => "address " ++ Numeral.hex 1 address.toNat ++ " is outside of memory"
  | tooLarge size room =>
    "program of " ++ toString size ++ " bytes does not fit in " ++ toString room ++ " bytes"
  | noSuchKey key => "key " ++ Numeral.hex 1 key.toNat ++ " is not on the keypad"
  | halted reason => "emulator is halted: " ++ reason.message

/-- The report with which a program ends on a fault: its kind and its data, in decimal. -/
def report (f : Fault) : String :=
  match f with
  | stackOverflow | stackUnderflow => f.kind
  | unsupported word => f.kind ++ "(" ++ toString word.toNat ++ ")"
  | outOfRange address => f.kind ++ "(" ++ toString address.toNat ++ ")"
  | noSuchKey key => f.kind ++ "(" ++ toString key.toNat ++ ")"
  | halted reason => f.kind ++ "(" ++ reason.report ++ ")"
  | tooLarge size room =>
    f.kind ++ " \x7b len: " ++ toString size ++ ", max: " ++ toString room ++ " \x7d"

end Fault

end Chip8
