import Chip8.Instruction.Basic
import Chip8.Word

/-!
# Encoding

Every instruction has a word, `encode`, but not every instruction fits into it: a word has room for
register numbers below sixteen, addresses of twelve bits and a sprite height below sixteen, and two
words of the family `0` are taken by other instructions. `Encodable` states what fits.
-/

namespace Chip8

/-- Whether an operand has room in a word. -/
def Operand.Fits : Operand → Prop
  | .register r => r < 16
  | .constant _ => True
  | .address a => a < 4096

instance (o : Operand) : Decidable o.Fits := by
  cases o <;> unfold Operand.Fits <;> infer_instance

namespace Instruction

/-- The word of the family `f` with the register numbers `x` and `y` and the last digit `n`. -/
def digitsWord (f : UInt16) (x y n : UInt8) : Word :=
  4096 * f + 256 * x.toUInt16 + 16 * y.toUInt16 + n.toUInt16

/-- The word of the family `f` with the register number `x` and the low byte `n`. -/
def byteWord (f : UInt16) (x n : UInt8) : Word := 4096 * f + 256 * x.toUInt16 + n.toUInt16

/-- The word of the family `f` with the address `a`. -/
def addressWord (f a : UInt16) : Word := 4096 * f + a

/-- The word of an instruction. -/
def encode : Instruction → Word
  | sys a => addressWord 0x0 a
  | clearScreen => 0x00E0
  | ret => 0x00EE
  | jump a => addressWord 0x1 a
  | call a => addressWord 0x2 a
  | skipEqByte x n => byteWord 0x3 x n
  | skipNeByte x n => byteWord 0x4 x n
  | skipEq x y => digitsWord 0x5 x y 0x0
  | setByte x n => byteWord 0x6 x n
  | addByte x n => byteWord 0x7 x n
  | copy x y => digitsWord 0x8 x y 0x0
  | bitOr x y => digitsWord 0x8 x y 0x1
  | bitAnd x y => digitsWord 0x8 x y 0x2
  | bitXor x y => digitsWord 0x8 x y 0x3
  | add x y => digitsWord 0x8 x y 0x4
  | sub x y => digitsWord 0x8 x y 0x5
  | shiftRight x y => digitsWord 0x8 x y 0x6
  | subFrom x y => digitsWord 0x8 x y 0x7
  | shiftLeft x y => digitsWord 0x8 x y 0xE
  | skipNe x y => digitsWord 0x9 x y 0x0
  | setIndex a => addressWord 0xA a
  | jumpOffset a => addressWord 0xB a
  | random x n => byteWord 0xC x n
  | draw x y n => digitsWord 0xD x y n
  | skipPressed x => byteWord 0xE x 0x9E
  | skipReleased x => byteWord 0xE x 0xA1
  | getDelay x => byteWord 0xF x 0x07
  | awaitKey x => byteWord 0xF x 0x0A
  | setDelay x => byteWord 0xF x 0x15
  | setSound x => byteWord 0xF x 0x18
  | addIndex x => byteWord 0xF x 0x1E
  | glyph x => byteWord 0xF x 0x29
  | decimal x => byteWord 0xF x 0x33
  | store x => byteWord 0xF x 0x55
  | load x => byteWord 0xF x 0x65

/-- Whether a word holds the instruction: its registers and addresses fit, a sprite has fewer than
sixteen rows, and a native routine lies at none of the two addresses that mean something else. -/
def Encodable (i : Instruction) : Prop :=
  (∀ o ∈ i.operands, o.Fits) ∧ (∀ x y n, i = draw x y n → n < 16) ∧
    i ≠ sys 0x0E0 ∧ i ≠ sys 0x0EE

/-- Whether every register that the instruction names is one of `V0` to `VF`. -/
def RegistersValid (i : Instruction) : Prop := ∀ r, Operand.register r ∈ i.operands → r < 16

end Instruction

end Chip8
