import Chip8.Display
import Chip8.Instruction.Basic
import Chip8.Keypad
import Chip8.Memory
import Chip8.Random.Generator
import Chip8.Stack

/-!
# The machine

The state of a machine, and what a host may do to it apart from running instructions: pausing, the
timers, the redraw request and the return to the power-on state. The host also presses keys and
loads programs; these can be refused and stand in `Chip8.Machine.Turn`.

Registers are named by a byte. An instruction that a word encodes names one of `V0` to `VF`; for
any other name there is no register, and reading or writing it has no result.
-/

namespace Chip8

/-- The register that the two shifts read. -/
inductive ShiftSource where
  /-- `VX`, as modern interpreters do. -/
  | vx
  /-- `VY`, as the first interpreter did. -/
  | vy
  deriving DecidableEq, Repr

/-- What interpreters disagree on. -/
structure Dialect where
  shiftSource : ShiftSource := .vx
  deriving DecidableEq, Repr

/-- The dialect of the COSMAC VIP. -/
def Dialect.cosmacVip : Dialect := { shiftSource := .vy }

/-- The name of a shift source in listings. -/
def ShiftSource.text : ShiftSource → String
  | vx => "Vx"
  | vy => "Vy"

/-- A dialect is listed with its name and its choices. -/
def Dialect.text (d : Dialect) : String :=
  "Config \x7b shift_source: " ++ d.shiftSource.text ++ " \x7d"

/-- Whether the machine runs. -/
inductive Mode where
  | running
  | paused
  /-- A fault ended the run. -/
  | halted (reason : Fault)
  deriving DecidableEq, Repr

/-- The fault that halted the machine, if one did. -/
def Mode.reason? : Mode → Option Fault
  | halted reason => some reason
  | running | paused => none

/-- The sixteen registers `V0` to `VF`. -/
abbrev Registers := Vector UInt8 16

/-- A machine. -/
structure Machine where
  /-- `V0` to `VF`. -/
  registers : Registers
  /-- `I`. -/
  index : UInt16
  /-- The program counter. -/
  pc : UInt16
  stack : Stack
  delay : UInt8
  sound : UInt8
  keypad : Keypad
  /-- The word that was fetched or supplied last. -/
  lastWord : Option Word
  /-- The register that a pending wait for a key will store the key in. -/
  awaiting : Option UInt8
  mode : Mode
  dialect : Dialect
  generator : Generator
  display : Display
  memory : Memory
  deriving DecidableEq

namespace Machine

/-- A machine at power-on. -/
def initial (dialect : Dialect) (generator : Generator) : Machine where
  registers := Vector.replicate 16 0
  index := 0
  pc := UInt16.ofNat Memory.programStart
  stack := Stack.empty
  delay := 0
  sound := 0
  keypad := Keypad.released
  lastWord := none
  awaiting := none
  mode := .running
  dialect := dialect
  generator := generator
  display := Display.initial
  memory := Memory.initial

/-- The return to power-on keeps the dialect and the generator. -/
def reset (m : Machine) : Machine := initial m.dialect m.generator

/-- The machine with the generator of `seed`. -/
def withSeed (m : Machine) (seed : UInt64) : Machine :=
  { m with generator := Generator.ofSeed seed }

/-! ## Pausing -/

/-- Pauses a running machine. -/
def pause (m : Machine) : Machine :=
  match m.mode with
  | .running => { m with mode := .paused }
  | .paused | .halted _ => m

/-- Resumes a paused machine. -/
def resume (m : Machine) : Machine :=
  match m.mode with
  | .paused => { m with mode := .running }
  | .running | .halted _ => m

/-- Pauses a running machine and resumes a paused one. -/
def togglePause (m : Machine) : Machine :=
  match m.mode with
  | .running => m.pause
  | .paused => m.resume
  | .halted _ => m

/-! ## Timers and the redraw request -/

/-- Counts a timer down to zero. -/
def countDown (timer : UInt8) : UInt8 := if timer = 0 then 0 else timer - 1

/-- Counts the delay timer down. -/
def tickDelay (m : Machine) : Machine := { m with delay := countDown m.delay }

/-- Counts the sound timer down. -/
def tickSound (m : Machine) : Machine := { m with sound := countDown m.sound }

/-- Counts both timers down. -/
def tick (m : Machine) : Machine := m.tickDelay.tickSound

/-- Whether the host should make a sound. -/
def soundActive (m : Machine) : Bool := 0 < m.sound

/-- Whether a redraw is asked for, and the machine without the request. -/
def takeRedraw (m : Machine) : Bool × Machine :=
  let (asked, display) := m.display.takeRedraw
  (asked, { m with display := display })

/-! ## Registers -/

/-- The value of the register `r`, if there is one. -/
def register? (m : Machine) (r : UInt8) : Option UInt8 := m.registers[r.toNat]?

/-- The machine with `v` in the register `r`, if there is one. -/
def setRegister? (m : Machine) (r v : UInt8) : Option Machine :=
  if h : r.toNat < 16 then some { m with registers := m.registers.set r.toNat v } else none

/-- The machine with the flag register `VF` set to one or zero. -/
def setFlag (m : Machine) (f : Bool) : Machine :=
  { m with registers := m.registers.set 15 (if f then 1 else 0) }

/-- The values of the first `n` registers, if there are so many. -/
def firstRegisters? (m : Machine) (n : Nat) : Option (List UInt8) :=
  if n ≤ 16 then some (m.registers.toList.take n) else none

/-- The machine with `vs` in its first registers, if there are so many. -/
def setFirstRegisters? (m : Machine) (vs : List UInt8) : Option Machine :=
  if vs.length ≤ 16 then
    some { m with registers := Vector.ofFn fun k => vs[k.val]?.getD (m.registers.get k) }
  else none

theorem toNat_countDown (timer : UInt8) : (countDown timer).toNat = timer.toNat - 1 := by
  unfold countDown
  split
  · rename_i h
    rw [h]
    rfl
  · rename_i h
    have hpos : 0 < timer.toNat := Nat.pos_of_ne_zero fun h0 => h (UInt8.toNat_inj.mp h0)
    exact UInt8.toNat_sub_of_le _ _ (UInt8.le_iff_toNat_le.mpr hpos)

theorem register?_of_lt (m : Machine) {r : UInt8} (h : r.toNat < 16) :
    m.register? r = some m.registers[r.toNat] := by
  simp [register?, h]

theorem register?_of_setFirstRegisters? {m m' : Machine} {vs : List UInt8}
    (h : m.setFirstRegisters? vs = some m') (r : UInt8) :
    m'.register? r = vs[r.toNat]?.or (m.register? r) := by
  unfold setFirstRegisters? at h
  split at h
  · cases h
    unfold register?
    by_cases hr : r.toNat < 16
    · rw [Vector.getElem?_eq_getElem hr, Vector.getElem?_eq_getElem hr, Vector.getElem_ofFn]
      cases vs[r.toNat]? <;> rfl
    · have hpast : 16 ≤ r.toNat := Nat.le_of_not_lt hr
      have hnone : vs[r.toNat]? = none := List.getElem?_eq_none (by omega)
      rw [Vector.getElem?_eq_none hpast, Vector.getElem?_eq_none hpast, hnone]
      rfl
  · cases h

@[simp] theorem setFlag_setFlag (m : Machine) (f g : Bool) :
    (m.setFlag f).setFlag g = m.setFlag g := by simp [setFlag]

end Machine

end Chip8
