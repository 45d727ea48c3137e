import Chip8.Machine.Report
import Chip8.Machine.Turn

/-!
# Batch runs

A batch run executes a program without input for a number of cycles, and prints the final screen
and registers. It ends early when a cycle fails or a key is awaited, since no key will come.
The timers count down before every twelfth cycle, the first included.
-/

namespace Chip8.Batch

/-- The choices of a batch run. -/
structure Options where
  /-- How many cycles to run. -/
  cycles : Nat := 10000
  dialect : Dialect := {}
  /-- The seed of the random instruction. -/
  seed : UInt64 := 0
  deriving DecidableEq, Repr

/-- Cycles between two ticks of the timers: about 700 cycles a second against 60 ticks. -/
def cyclesPerTick : Nat := 12

/-- Why a run ended before its last cycle. -/
inductive Ending where
  /-- The machine waits for a key. -/
  | keyAwaited
  /-- A cycle failed. -/
  | stopped (reason : Stop)
  deriving DecidableEq, Repr

/-- How far a run has come. -/
structure Progress where
  machine : Machine
  /-- The number of cycles attempted so far. -/
  attempted : Nat
  ending : Option Ending
  log : List Event
  deriving DecidableEq

/-- A run before its first cycle. -/
def Progress.start (m : Machine) : Progress := ⟨m, 0, none, []⟩

/-- Attempts one more cycle. -/
def Progress.next (p : Progress) : Progress :=
  let m := if p.attempted % cyclesPerTick = 0 then p.machine.tick else p.machine
  let t := m.cycle
  { machine := t.machine
    attempted := p.attempted + 1
    ending :=
      match t.result with
      | .error stop => some (.stopped stop)
      | .ok _ => if t.machine.awaiting.isSome then some .keyAwaited else none
    log := p.log ++ t.log.filter fun e => e.level = .error }

/-- Attempts up to `n` more cycles, until the run has ended. -/
def Progress.advance (p : Progress) : Nat → Progress
  | 0 => p
  | n + 1 => if p.ending.isSome then p else p.next.advance n

/-- What a program leaves when it ends. -/
structure Outcome where
  code : Nat
  stdout : String
  stderr : String
  deriving DecidableEq, Repr

/-- The part of the machine that log lines name. -/
def logTarget : String := "chip_8_vm::emulator::emulator"

/-- The line of an error in the log of a batch run. -/
def logLine (e : Event) : String := " " ++ e.level.text ++ " " ++ logTarget ++ " > " ++ e.text ++ "\n"

/-- The last line of a run that failed. -/
def failureLine (f : Fault) : String := "Error: " ++ f.report ++ "\n"

/-- The final screen and registers. -/
def summary (m : Machine) : String := m.display.screen.text ++ m.report ++ "\n"

/-- What a run that came to `p` prints. A run of fetched words does not crash. -/
def Progress.outcome (p : Progress) : Outcome :=
  let errors := String.join (p.log.map logLine)
  match p.ending with
  | none | some .keyAwaited => ⟨0, summary p.machine, errors⟩
  | some (.stopped (.fault f)) => ⟨1, summary p.machine, errors ++ failureLine f⟩
  | some (.stopped .crash) => ⟨101, "", errors⟩

/-- Runs a program. One that does not fit is reported, and nothing is printed. -/
def run (options : Options) (program : List UInt8) : Outcome :=
  let t := (Machine.initial options.dialect (Generator.ofSeed options.seed)).load program
  match t.result with
  | .ok _ => ((Progress.start t.machine).advance options.cycles).outcome
  | .error (.fault f) => ⟨1, "", failureLine f⟩
  | .error .crash => ⟨101, "", ""⟩

end Chip8.Batch
