import Chip8.Instruction.Decode
import Chip8.Machine.Effect

/-!
# Turns

A turn is what a call on a machine comes to: a result, the machine after it and the events it
reports. This module holds the calls that can be refused: loading a program, pressing keys, and the
four ways to run instructions.

* `step` fetches the word at the program counter, or polls a pending wait for a key, and `cycle`
  does so unless the machine is paused;
* `stepWith` runs a supplied word as if it had been fetched;
* `execute` runs an instruction without moving the program counter past it first.

`conclude` ends the run of an instruction in all of them: a fault halts the machine. A halted
machine refuses to run anything.
-/

namespace Chip8

/-! ## Running an instruction -/

/-- The machine without its pending wait for a key. -/
def Machine.forgetWait (m : Machine) : Machine := { m with awaiting := none }

/-- The machine with its program counter past an instruction. -/
def Machine.pastInstruction (m : Machine) : Machine := { m with pc := m.pc + 2 }

namespace Work

/-- Runs `i`, which abandons a pending wait for a key. -/
def perform (i : Instruction) : Work Unit := do
  modify Machine.forgetWait
  i.effect

/-- Runs `i` with the program counter past it. Where `i` stops, the program counter goes back. -/
def advance (i : Instruction) : Work Unit := fun m =>
  match (perform i).run m.pastInstruction with
  | .ok _ m' => .ok () m'
  | .error stop m' => .error stop { m' with pc := m.pc }

end Work

/-! ## Turns -/

/-- What a call on a machine comes to. After a crash the machine has no meaning. -/
structure Turn (α : Type) where
  result : Except Stop α
  machine : Machine
  log : List Event

namespace Turn

/-- A turn that succeeds without an event. -/
def done {α : Type} (a : α) (m : Machine) : Turn α := ⟨.ok a, m, []⟩

/-- A turn that is refused with the fault `f` without an event. -/
def refused {α : Type} (f : Fault) (m : Machine) : Turn α := ⟨.error (.fault f), m, []⟩

/-- The turn with its result changed by `f`. -/
def map {α β : Type} (f : α → β) (t : Turn α) : Turn β := ⟨t.result.map f, t.machine, t.log⟩

/-- The turn `t`, and if it succeeds the turn `next` on the machine after it. -/
def andThen {α β : Type} (t : Turn α) (next : α → Machine → Turn β) : Turn β :=
  match t.result with
  | .ok a =>
    let u := next a t.machine
    { u with log := t.log ++ u.log }
  | .error stop => ⟨.error stop, t.machine, t.log⟩

/-- The turn of work that reported `log`. A fault halts the machine. -/
def conclude (log : List Event) : EStateM.Result Stop Machine Unit → Turn Unit
  | .ok _ m => ⟨.ok (), m, log⟩
  | .error (.fault f) m =>
    ⟨.error (.fault f), { m with mode := .halted f }, log ++ [.halting m.pc f]⟩
  | .error .crash m => ⟨.error .crash, m, log⟩

@[simp] theorem conclude_fault (log : List Event) (f : Fault) (m : Machine) :
    conclude log (.error (.fault f) m) =
      ⟨.error (.fault f), { m with mode := .halted f }, log ++ [.halting m.pc f]⟩ := rfl

end Turn

namespace Machine

/-! ## Loading and keys -/

/-- Loads a program; one that does not fit changes nothing. -/
def load (m : Machine) (program : List UInt8) : Turn Unit :=
  match m.memory.load program with
  | .ok memory => ⟨.ok (), { m with memory := memory }, [.loaded program.length]⟩
  | .error f => .refused f m

/-- Presses or releases the key `k`; a number that names no key changes nothing. -/
def setKey (m : Machine) (k : UInt8) (pressed : Bool) : Turn Unit :=
  match m.keypad.set k pressed with
  | .ok keypad => .done () { m with keypad := keypad }
  | .error f => .refused f m

/-- Presses the key `k`. -/
def press (m : Machine) (k : UInt8) : Turn Unit := m.setKey k true

/-- Releases the key `k`. -/
def release (m : Machine) (k : UInt8) : Turn Unit := m.setKey k false

/-! ## Running instructions -/

/-- The turn `t`, unless the machine is halted. -/
def unlessHalted (m : Machine) (t : Turn Unit) : Turn Unit :=
  match m.mode.reason? with
  | some reason => .refused (.halted reason) m
  | none => t

theorem unlessHalted_of_halted {m : Machine} {reason : Fault} (h : m.mode = .halted reason)
    (t : Turn Unit) : m.unlessHalted t = .refused (.halted reason) m := by
  simp [unlessHalted, Mode.reason?, h]

theorem unlessHalted_of_reason?_eq_none {m : Machine} (h : m.mode.reason? = none)
    (t : Turn Unit) : m.unlessHalted t = t := by
  simp [unlessHalted, h]

/-- Decodes and runs `w`. -/
def run (m : Machine) (w : Word) : Turn Unit :=
  let m := { m with lastWord := some w }
  match Instruction.decode w with
  | .ok i => .conclude (.decoded m.pc w i :: i.events m) ((Work.advance i).run m)
  | .error f => .conclude [] (.error (.fault f) m)

/-- Runs the word `w` as if it had been fetched. -/
def stepWith (m : Machine) (w : Word) : Turn Unit := m.unlessHalted (m.run w)

/-- Fetches and runs the word at the program counter. -/
def fetch (m : Machine) : Turn Unit :=
  match m.memory.word m.pc.toNat with
  | .ok w => m.run w
  | .error f => .conclude [] (.error (.fault f) m)

/-- Polls the keypad for the register `x`, which awaits a key. -/
def poll (m : Machine) (x : UInt8) : Turn Unit :=
  .conclude ((Instruction.awaitKey x).events m) ((Work.advance (.awaitKey x)).run m)

/-- Runs one instruction. While a key is awaited, the keypad is polled again and nothing is
fetched. -/
def step (m : Machine) : Turn Unit :=
  m.unlessHalted <|
    match m.awaiting with
    | some x => m.poll x
    | none => m.fetch

/-- Runs one instruction unless the machine is paused, and tells whether it did. -/
def cycle (m : Machine) : Turn Bool :=
  if m.mode = .paused then .done false m else m.step.map fun _ => true

/-- Runs `i` without moving the program counter past it first. -/
def execute (m : Machine) (i : Instruction) : Turn Unit :=
  m.unlessHalted (.conclude (i.events m) ((Work.perform i).run m))

/-- Runs instructions one after the other as `execute` does, up to the first that fails. -/
def executeAll (m : Machine) : List Instruction → Turn Unit
  | [] => .done () m
  | i :: is => (m.execute i).andThen fun _ m' => m'.executeAll is

/-- Runs up to `n` cycles, ending at the first that fails, and counts those that succeeded. -/
def cycles (m : Machine) : Nat → Nat × Turn Unit
  | 0 => (0, .done () m)
  | n + 1 =>
    let t := m.cycle
    match t.result with
    | .ok _ =>
      let (k, u) := t.machine.cycles n
      (k + 1, { u with log := t.log ++ u.log })
    | .error stop => (0, ⟨.error stop, t.machine, t.log⟩)

end Machine

end Chip8
