import Chip8.Machine.Basic

/-!
# The register report

A listing of the registers for debugging, one value a line in upper-case hexadecimal.
-/

namespace Chip8.Machine

/-- A number as the report spells it: `0x` and upper-case digits. -/
def reportNumber (n : Nat) : String := "0x" ++ Numeral.upper 1 n

/-- A line of the report that names a value. -/
def reportLine (name : String) (n : Nat) : String :=
  "    " ++ name ++ ": " ++ reportNumber n ++ ",\n"

/-- The last word in the report, which takes three lines if there is one. -/
def reportWord : Option Word → String
  | none => "    current_opcode: None,\n"
  | some w => "    current_opcode: Some(\n        " ++ reportNumber w.toNat ++ ",\n    ),\n"

/-- The register report. -/
def report (m : Machine) : String :=
  "RegisterDump \x7b\n    v: [\n"
    ++ String.join (m.registers.toList.map fun v => "        " ++ reportNumber v.toNat ++ ",\n")
    ++ "    ],\n"
    ++ reportLine "index" m.index.toNat
    ++ reportLine "program_counter" m.pc.toNat
    ++ reportLine "stack_pointer" m.stack.depth
    ++ reportLine "delay_timer" m.delay.toNat
    ++ reportLine "sound_timer" m.sound.toNat
    ++ reportWord m.lastWord
    ++ "\x7d"

end Chip8.Machine
