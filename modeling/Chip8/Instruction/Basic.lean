/-!
# Instructions

The thirty-five instructions of the machine, each with its operands. Register numbers and
constants are bytes and addresses are words of sixteen bits: a decoded instruction names one of
the registers `V0` to `VF` and an address of twelve bits, but a host may build any instruction.

An instruction is written as its name and its operands, `Draw(Reg(1), Reg(2), Const(5))`.
-/

namespace Chip8

/-- An instruction. `VF` is the flag register, `I` the index register. -/
inductive Instruction where
  /-- `0NNN`: call a native routine. Ignored. -/
  | sys (address : UInt16)
  /-- `00E0`: put out every pixel. -/
  | clearScreen
  /-- `00EE`: return to the newest stored address. -/
  | ret
  /-- `1NNN`: jump. -/
  | jump (address : UInt16)
  /-- `2NNN`: store the address of the following instruction, and jump. -/
  | call (address : UInt16)
  /-- `3XNN`: skip an instruction if `VX = NN`. -/
  | skipEqByte (x n : UInt8)
  /-- `4XNN`: skip an instruction if `VX ≠ NN`. -/
  | skipNeByte (x n : UInt8)
  /-- `5XY0`: skip an instruction if `VX = VY`. -/
  | skipEq (x y : UInt8)
  /-- `6XNN`: `VX := NN`. -/
  | setByte (x n : UInt8)
  /-- `7XNN`: `VX := VX + NN`, without a flag. -/
  | addByte (x n : UInt8)
  /-- `8XY0`: `VX := VY`. -/
  | copy (x y : UInt8)
  /-- `8XY1`: `VX := VX or VY`, bit by bit. -/
  | bitOr (x y : UInt8)
  /-- `8XY2`: `VX := VX and VY`, bit by bit. -/
  | bitAnd (x y : UInt8)
  /-- `8XY3`: `VX := VX xor VY`, bit by bit. -/
  | bitXor (x y : UInt8)
  /-- `8XY4`: `VX := VX + VY`; the flag is the carry. -/
  | add (x y : UInt8)
  /-- `8XY5`: `VX := VX - VY`; the flag is set if nothing was borrowed. -/
  | sub (x y : UInt8)
  /-- `8XY6`: shift right into `VX`; the flag is the bit shifted out. -/
  | shiftRight (x y : UInt8)
  /-- `8XY7`: `VX := VY - VX`; the flag is set if nothing was borrowed. -/
  | subFrom (x y : UInt8)
  /-- `8XYE`: shift left into `VX`; the flag is the bit shifted out. -/
  | shiftLeft (x y : UInt8)
  /-- `9XY0`: skip an instruction if `VX ≠ VY`. -/
  | skipNe (x y : UInt8)
  /-- `ANNN`: `I := NNN`. -/
  | setIndex (address : UInt16)
  /-- `BNNN`: jump to `V0 + NNN`. -/
  | jumpOffset (address : UInt16)
  /-- `CXNN`: `VX :=` a random byte and `NN`, bit by bit. -/
  | random (x n : UInt8)
  /-- `DXYN`: draw the sprite of `N` rows at `I` to the column `VX` and the row `VY`; the flag is
  the collision. -/
  | draw (x y n : UInt8)
  /-- `EX9E`: skip an instruction if the key `VX` is pressed. -/
  | skipPressed (x : UInt8)
  /-- `EXA1`: skip an instruction if the key `VX` is not pressed. -/
  | skipReleased (x : UInt8)
  /-- `FX07`: `VX :=` the delay timer. -/
  | getDelay (x : UInt8)
  /-- `FX0A`: wait for a key and store its number in `VX`. -/
  | awaitKey (x : UInt8)
  /-- `FX15`: the delay timer `:= VX`. -/
  | setDelay (x : UInt8)
  /-- `FX18`: the sound timer `:= VX`. -/
  | setSound (x : UInt8)
  /-- `FX1E`: `I := I + VX`, on twelve bits. -/
  | addIndex (x : UInt8)
  /-- `FX29`: `I :=` the address of the glyph of the digit `VX`. -/
  | glyph (x : UInt8)
  /-- `FX33`: store the three decimal digits of `VX` at `I`. -/
  | decimal (x : UInt8)
  /-- `FX55`: store `V0` to `VX` at `I`. -/
  | store (x : UInt8)
  /-- `FX65`: load `V0` to `VX` from `I`. -/
  | load (x : UInt8)
  deriving DecidableEq, Repr

/-- An operand of an instruction. -/
inductive Operand where
  /-- The number of a register. -/
  | register (number : UInt8)
  /-- A constant. -/
  | constant (value : UInt8)
  /-- An address. -/
  | address (value : UInt16)
  deriving DecidableEq, Repr

/-- An operand is written as its kind and its value in decimal. -/
def Operand.text : Operand → String
  | register r => "Reg(" ++ toString r.toNat ++ ")"
  | constant n => "Const(" ++ toString n.toNat ++ ")"
  | address a => "Addr(" ++ toString a.toNat ++ ")"

namespace Instruction

/-- The name of an instruction in listings. -/
def name : Instruction → String
  | sys _ => "Sys"
  | clearScreen => "ClearScreen"
  | ret => "Return"
  | jump _ => "Goto"
  | call _ => "Call"
  | skipEqByte _ _ => "IfRegEqConst"
  | skipNeByte _ _ => "IfRegNeqConst"
  | skipEq _ _ => "IfRegEqReg"
  | setByte _ _ => "SetRegToConst"
  | addByte _ _ => "IncRegByConst"
  | copy _ _ => "SetRegToReg"
  | bitOr _ _ => "BitwiseOr"
  | bitAnd _ _ => "BitwiseAnd"
  | bitXor _ _ => "BitwiseXor"
  | add _ _ => "IncRegByReg"
  | sub _ _ => "DecRegByReg"
  | shiftRight _ _ => "BitshiftRight"
  | subFrom _ _ => "SetVxVyMinusVx"
  | shiftLeft _ _ => "BitshiftLeft"
  | skipNe _ _ => "IfRegNeqReg"
  | setIndex _ => "SetI"
  | jumpOffset _ => "SetPcToV0PlusAddr"
  | random _ _ => "SetVxRand"
  | draw _ _ _ => "Draw"
  | skipPressed _ => "IfKeyEqVx"
  | skipReleased _ => "IfKeyNeqVx"
  | getDelay _ => "SetRegToDelayTimer"
  | awaitKey _ => "SetRegToGetKey"
  | setDelay _ => "SetDelayTimerToReg"
  | setSound _ => "SetSoundTimerToReg"
  | addIndex _ => "AddRegToI"
  | glyph _ => "SetIToSpriteAddrVx"
  | decimal _ => "SetIToBcdOfReg"
  | store _ => "RegDump"
  | load _ => "RegLoad"

/-- The operands, in the order in which they are written. -/
def operands : Instruction → List Operand
  | clearScreen | ret => []
  | sys a | jump a | call a | setIndex a | jumpOffset a => [.address a]
  | skipEqByte x n | skipNeByte x n | setByte x n | addByte x n | random x n =>
    [.register x, .constant n]
  | skipEq x y | copy x y | bitOr x y | bitAnd x y | bitXor x y | add x y | sub x y
  | shiftRight x y | subFrom x y | shiftLeft x y | skipNe x y => [.register x, .register y]
  | draw x y n => [.register x, .register y, .constant n]
  | skipPressed x | skipReleased x | getDelay x | awaitKey x | setDelay x | setSound x
  | addIndex x | glyph x | decimal x | store x | load x => [.register x]

/-- An instruction is written as its name, and its operands in brackets if it has any. -/
def text (i : Instruction) : String :=
  match i.operands with
  | [] => i.name
  | os => i.name ++ "(" ++ String.intercalate ", " (os.map Operand.text) ++ ")"

end Instruction

end Chip8
