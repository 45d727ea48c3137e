import Chip8.Fault
import Chip8.Instruction.Basic
import Chip8.Word

/-!
# Decoding

The family of a word selects the instruction. The families `0`, `8`, `E` and `F` hold several
instructions, told apart by the whole word, the last digit or the low byte. A word that encodes no
instruction is refused with `Fault.unsupported`.
-/

namespace Chip8.Instruction

/-- The instruction of the family `8` whose last digit is `n`. -/
def arithmetic? (n x y : UInt8) : Option Instruction :=
  match n.toNat with
  | 0x0 => some (copy x y)
  | 0x1 => some (bitOr x y)
  | 0x2 => some (bitAnd x y)
  | 0x3 => some (bitXor x y)
  | 0x4 => some (add x y)
  | 0x5 => some (sub x y)
  | 0x6 => some (shiftRight x y)
  | 0x7 => some (subFrom x y)
  | 0xE => some (shiftLeft x y)
  | _ => none

/-- The instruction of the family `E` whose low byte is `byte`. -/
def keys? (byte x : UInt8) : Option Instruction :=
  match byte.toNat with
  | 0x9E => some (skipPressed x)
  | 0xA1 => some (skipReleased x)
  | _ => none

/-- The instruction of the family `F` whose low byte is `byte`. -/
def system? (byte x : UInt8) : Option Instruction :=
  match byte.toNat with
  | 0x07 => some (getDelay x)
  | 0x0A => some (awaitKey x)
  | 0x15 => some (setDelay x)
  | 0x18 => some (setSound x)
  | 0x1E => some (addIndex x)
  | 0x29 => some (glyph x)
  | 0x33 => some (decimal x)
  | 0x55 => some (store x)
  | 0x65 => some (load x)
  | _ => none

/-- The instruction that `w` encodes, if it encodes one. -/
def ofWord? (w : Word) : Option Instruction :=
  match w.family.toNat with
  | 0x0 =>
    if w = 0x00E0 then some clearScreen
    else if w = 0x00EE then some ret
    else some (sys w.address)
  | 0x1 => some (jump w.address)
  | 0x2 => some (call w.address)
  | 0x3 => some (skipEqByte w.x w.byte)
  | 0x4 => some (skipNeByte w.x w.byte)
  | 0x5 => if w.nibble = 0 then some (skipEq w.x w.y) else none
  | 0x6 => some (setByte w.x w.byte)
  | 0x7 => some (addByte w.x w.byte)
  | 0x8 => arithmetic? w.nibble w.x w.y
  | 0x9 => if w.nibble = 0 then some (skipNe w.x w.y) else none
  | 0xA => some (setIndex w.address)
  | 0xB => some (jumpOffset w.address)
  | 0xC => some (random w.x w.byte)
  | 0xD => some (draw w.x w.y w.nibble)
  | 0xE => keys? w.byte w.x
  | 0xF => system? w.byte w.x
  | _ => none

/-- The instruction that `w` encodes; a word that encodes none is refused. -/
def decode (w : Word) : Except Fault Instruction :=
  match ofWord? w with
  | some i => .ok i
  | none => .error (.unsupported w)

/-- The instruction that two bytes encode, the high byte first. -/
def decodeBytes (high low : UInt8) : Except Fault Instruction := decode (Word.ofBytes high low)

theorem decode_eq_ok_iff {w : Word} {i : Instruction} : decode w = .ok i ↔ ofWord? w = some i := by
  unfold decode
  cases ofWord? w <;> simp

theorem decode_eq_error_iff {w : Word} {f : Fault} :
    decode w = .error f ↔ ofWord? w = none ∧ f = .unsupported w := by
  unfold decode
  cases ofWord? w <;> simp [eq_comm]

end Chip8.Instruction
