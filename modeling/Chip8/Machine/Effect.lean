import Chip8.Machine.Basic
import Chip8.Machine.Event

/-!
# The effect of an instruction

`Instruction.effect` is what an instruction does to a machine whose program counter already points
past it. It is work: changes to the machine, one after the other, until it ends or stops. It stops
with a fault where the machine refuses the instruction, and it crashes where the instruction has no
meaning: it names a register beyond `VF`, or an address sum leaves sixteen bits. Nothing takes back
what was changed before a stop, so every check has to come first.

An instruction abandons a pending wait for a key; `awaitKey` alone begins one.
-/

namespace Chip8

/-- Why an instruction did not run to its end. -/
inductive Stop where
  /-- The machine refuses the instruction. -/
  | fault (reason : Fault)
  /-- The instruction has no meaning; there is no machine after it. -/
  | crash
  deriving DecidableEq, Repr

/-- Work on a machine. Where it stops, the machine stays as it was left. -/
abbrev Work := EStateM Stop Machine

/-- The sum of `V0` and `a`, to which an indexed jump goes. -/
def Machine.jumpTarget (m : Machine) (a : UInt16) : Nat := m.registers[0].toNat + a.toNat

namespace Work

/-- Stops with a fault. -/
def refuse {α : Type} (f : Fault) : Work α := throw (.fault f)

/-- Stops without a meaning. -/
def crash {α : Type} : Work α := throw .crash

/-- What there is none of crashes. -/
def orCrash {α : Type} : Option α → Work α
  | some a => pure a
  | none => crash

/-- A refusal stops with its fault. -/
def orRefuse {α : Type} : Except Fault α → Work α
  | .ok a => pure a
  | .error f => refuse f

@[simp] theorem run_refuse {α : Type} (f : Fault) (m : Machine) :
    (refuse f : Work α).run m = .error (.fault f) m := rfl

@[simp] theorem run_crash {α : Type} (m : Machine) : (crash : Work α).run m = .error .crash m := rfl

@[simp] theorem orCrash_some {α : Type} (a : α) : orCrash (some a) = pure a := rfl

@[simp] theorem orCrash_none {α : Type} : orCrash (none : Option α) = crash := rfl

@[simp] theorem orRefuse_ok {α : Type} (a : α) : orRefuse (.ok a) = pure a := rfl

@[simp] theorem orRefuse_error {α : Type} (f : Fault) :
    orRefuse (.error f : Except Fault α) = refuse f := rfl

/-! ## Registers -/

/-- The value of the register `r`. -/
def register (r : UInt8) : Work UInt8 := do orCrash ((← get).register? r)

/-- Puts `v` into the register `r`. -/
def put (r v : UInt8) : Work Unit := do set (← orCrash ((← get).setRegister? r v))

/-- Sets the flag register `VF` to one or zero. -/
def putFlag (f : Bool) : Work Unit := modify fun m => m.setFlag f

/-- Puts `v` into the register `r` and then sets the flag, which wins where `r` is `VF`. -/
def putWithFlag (r v : UInt8) (f : Bool) : Work Unit := do
  put r v
  putFlag f

/-- The value that the shifts of `VX` with `VY` read. -/
def shiftOperand (x y : UInt8) : Work UInt8 := do
  match (← get).dialect.shiftSource with
  | .vx => register x
  | .vy => register y

/-- Puts a value made of those of two registers into the first. -/
def combine (f : UInt8 → UInt8 → UInt8) (x y : UInt8) : Work Unit := do
  let a ← register x
  let b ← register y
  put x (f a b)

/-- Puts a value made of those of two registers into the first, and sets the flag. -/
def combineWithFlag (f : UInt8 → UInt8 → UInt8) (c : UInt8 → UInt8 → Bool)
    (x y : UInt8) : Work Unit := do
  let a ← register x
  let b ← register y
  putWithFlag x (f a b) (c a b)

/-- Puts a random byte, masked with `n`, into `VX`. -/
def putRandom (x n : UInt8) : Work Unit := do
  let (b, g) := (← get).generator.nextByte
  modify fun m => { m with generator := g }
  put x (b &&& n)

/-- Stores the lowest pressed key in `VX` and releases it. Without a pressed key the program counter
goes back, and the wait is remembered. -/
def pollKey (x : UInt8) : Work Unit := do
  match (← get).keypad.takeFirst? with
  | some (k, keypad) =>
    modify fun m => { m with keypad := keypad }
    put x k
  | none => modify fun m => { m with pc := m.pc - 2, awaiting := some x }

/-! ## The program counter -/

/-- Goes on at the address `a`. -/
def goTo (a : UInt16) : Work Unit := modify fun m => { m with pc := a }

/-- Skips the next instruction if `c` holds. -/
def skipIf (c : Bool) : Work Unit := modify fun m => if c then { m with pc := m.pc + 2 } else m

/-- Skips the next instruction if the values of two registers satisfy `c`. -/
def skipBy (c : UInt8 → UInt8 → Bool) (x y : UInt8) : Work Unit := do
  let a ← register x
  let b ← register y
  skipIf (c a b)

/-- Returns to the newest stored address. -/
def leaveCall : Work Unit := do
  match (← get).stack.pop? with
  | none => refuse .stackUnderflow
  | some (a, s) =>
    modify fun m => { m with stack := s }
    goTo a

/-- Stores the program counter and jumps to `a`. -/
def enterCall (a : UInt16) : Work Unit := do
  let m ← get
  match m.stack.push? m.pc with
  | none => refuse .stackOverflow
  | some s =>
    modify fun m => { m with stack := s }
    goTo a

/-- Jumps to `V0 + a`, which has to be an address of twelve bits. -/
def jumpOffset (a : UInt16) : Work Unit := do
  let target := (← get).jumpTarget a
  if 0xFFFF < target then crash
  else if 0xFFF < target then refuse (.outOfRange (UInt32.ofNat target))
  else goTo (UInt16.ofNat target)

/-! ## Memory and the screen -/

/-- Adds `VX` to `I`, on twelve bits. -/
def advanceIndex (x : UInt8) : Work Unit := do
  let v ← register x
  let sum := (← get).index.toNat + v.toNat
  if 0xFFFF < sum then crash
  else modify fun m => { m with index := UInt16.ofNat (sum % 4096) }

/-- The `n` bytes from `I` on. -/
def readBytes (n : Nat) : Work (List UInt8) := do
  let m ← get
  orRefuse (m.memory.read m.index.toNat n)

/-- Draws the sprite of `n` rows at `I` to the column `VX` and the row `VY`. -/
def drawSprite (x y n : UInt8) : Work Unit := do
  let column ← register x
  let row ← register y
  let sprite ← readBytes n.toNat
  putFlag false
  let (hit, display) := (← get).display.draw column.toNat row.toNat sprite
  modify fun m => { m with display := display }
  putFlag hit

/-- The decimal digits of a byte, the hundreds first. -/
def decimalDigits (v : UInt8) : List UInt8 := [v / 100, v / 10 % 10, v % 10]

/-- Stores the decimal digits of `VX` at `I`. -/
def storeDecimal (x : UInt8) : Work Unit := do
  let v ← register x
  let m ← get
  let memory ← orRefuse (m.memory.write m.index.toNat (decimalDigits v))
  modify fun m => { m with memory := memory }

/-- Stores `V0` to `VX` at `I`. -/
def storeRegisters (x : UInt8) : Work Unit := do
  let m ← get
  orRefuse (Memory.check m.index.toNat (x.toNat + 1))
  let vs ← orCrash (m.firstRegisters? (x.toNat + 1))
  modify fun m => { m with memory := m.memory.overlay m.index.toNat vs }

/-- Loads `V0` to `VX` from `I`. -/
def loadRegisters (x : UInt8) : Work Unit := do
  let vs ← readBytes (x.toNat + 1)
  set (← orCrash ((← get).setFirstRegisters? vs))

end Work

namespace Instruction

open Work in
/-- What an instruction does to a machine whose program counter points past it. -/
def effect : Instruction → Work Unit
  | sys _ => pure ()
  | clearScreen => modify fun m => { m with display := m.display.clear }
  | ret => leaveCall
  | jump a => goTo a
  | call a => enterCall a
  | skipEqByte x n => do skipIf ((← register x) == n)
  | skipNeByte x n => do skipIf ((← register x) != n)
  | skipEq x y => skipBy (· == ·) x y
  | setByte x n => put x n
  | addByte x n => do put x ((← register x) + n)
  | copy x y => do put x (← register y)
  | bitOr x y => combine (· ||| ·) x y
  | bitAnd x y => combine (· &&& ·) x y
  | bitXor x y => combine (· ^^^ ·) x y
  | add x y => combineWithFlag (· + ·) (fun a b => 256 ≤ a.toNat + b.toNat) x y
  | sub x y => combineWithFlag (· - ·) (fun a b => b ≤ a) x y
  | shiftRight x y => do
    let v ← shiftOperand x y
    putWithFlag x (v / 2) (v % 2 == 1)
  | subFrom x y => combineWithFlag (fun a b => b - a) (fun a b => a ≤ b) x y
  | shiftLeft x y => do
    let v ← shiftOperand x y
    putWithFlag x (2 * v) (v / 128 == 1)
  | skipNe x y => skipBy (· != ·) x y
  | setIndex a => modify fun m => { m with index := a }
  | jumpOffset a => Work.jumpOffset a
  | random x n => putRandom x n
  | draw x y n => drawSprite x y n
  | skipPressed x => do
    let v ← register x
    skipIf ((← get).keypad.isPressed v)
  | skipReleased x => do
    let v ← register x
    skipIf (!(← get).keypad.isPressed v)
  | getDelay x => do put x (← get).delay
  | awaitKey x => pollKey x
  | setDelay x => do
    let v ← register x
    modify fun m => { m with delay := v }
  | setSound x => do
    let v ← register x
    modify fun m => { m with sound := v }
  | addIndex x => advanceIndex x
  | glyph x => do
    let v ← register x
    modify fun m => { m with index := UInt16.ofNat (Memory.glyphSize * v.toNat) }
  | decimal x => storeDecimal x
  | store x => storeRegisters x
  | load x => loadRegisters x

/-- What an instruction reports while it runs on a machine. -/
def events (i : Instruction) (m : Machine) : List Event :=
  match i with
  | sys a => [.sysIgnored a]
  | awaitKey x =>
    match m.keypad.takeFirst? with
    | some (k, _) => [.keyTaken k x]
    | none => if m.awaiting.isSome then [] else [.keyAwaited x]
  | _ => []

end Instruction

end Chip8
