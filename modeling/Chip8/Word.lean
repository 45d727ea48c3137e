/-!
# Instruction words

An instruction is a word of sixteen bits, read as four hexadecimal digits `FXYN`. This module names
the parts of a word that instructions use: the family `F`, the register numbers `X` and `Y`, the
last digit `N`, the low byte `NN` and the low twelve bits `NNN`.
-/

namespace Chip8

/-- A word of sixteen bits, as it is fetched from memory. -/
abbrev Word := UInt16

namespace Word

/-- The word whose high byte is `high` and whose low byte is `low`. -/
def ofBytes (high low : UInt8) : Word := 256 * high.toUInt16 + low.toUInt16

/-- The first digit, which selects the family of instructions. -/
def family (w : Word) : UInt8 := (w / 4096).toUInt8

/-- The second digit, the number of the register `VX`. -/
def x (w : Word) : UInt8 := (w / 256 % 16).toUInt8

/-- The third digit, the number of the register `VY`. -/
def y (w : Word) : UInt8 := (w / 16 % 16).toUInt8

/-- The last digit. -/
def nibble (w : Word) : UInt8 := (w % 16).toUInt8

/-- The low byte. -/
def byte (w : Word) : UInt8 := (w % 256).toUInt8

/-- The low twelve bits, an address. -/
def address (w : Word) : UInt16 := w % 4096

/-! ## The parts as numbers -/

theorem toNat_ofBytes (high low : UInt8) :
    (ofBytes high low).toNat = 256 * high.toNat + low.toNat := by
  have := high.toNat_lt
  have := low.toNat_lt
  simp [ofBytes]
  omega

theorem toNat_family (w : Word) : w.family.toNat = w.toNat / 4096 := by
  have := w.toNat_lt
  simp [family]
  omega

theorem toNat_x (w : Word) : w.x.toNat = w.toNat / 256 % 16 := by
  simp [x]
  omega

theorem toNat_y (w : Word) : w.y.toNat = w.toNat / 16 % 16 := by
  simp [y]
  omega

theorem toNat_nibble (w : Word) : w.nibble.toNat = w.toNat % 16 := by
  simp [nibble]
  omega

theorem toNat_byte (w : Word) : w.byte.toNat = w.toNat % 256 := by
  simp [byte]

theorem toNat_address (w : Word) : w.address.toNat = w.toNat % 4096 := by
  simp [address]

end Word

end Chip8
