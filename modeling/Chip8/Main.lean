import Chip8.CommandLine
import Chip8.Keyboard.Reading
import Chip8.Pacing

/-!
# The program

`batch FILE` runs a program without input and prints its final screen and registers. `play FILE`
runs it on the terminal, which should deliver keys at once and not show them. The keys of the keypad
lie under `1234`, `qwer`, `asdf` and `zxcv`; `p` pauses, `n` runs a single step while paused, `0`
restarts and Escape quits.
-/

namespace Chip8.Program

open Keyboard

/-- What is printed if the arguments do not name a run. -/
def usage : String :=
  "usage: batch [--cycles N] [--seed N] [--shift-vy] FILE\n" ++
  "       play [--speed N] [--timer-hz N] [--shift-vy] FILE\n"

/-- Prints text at once. -/
def write (text : String) : IO Unit := do
  let stdout ← IO.getStdout
  stdout.putStr text
  stdout.flush

/-- Runs a program without input. -/
def batch (arguments : List String) : IO UInt32 := do
  let seed ← IO.rand 0 0xFFFFFFFFFFFFFFFF
  match CommandLine.batch? (UInt64.ofNat seed) arguments with
  | some ⟨some file, options⟩ =>
    let program ← IO.FS.readBinFile file
    let outcome := Batch.run options program.toList
    IO.print outcome.stdout
    IO.eprint outcome.stderr
    return UInt32.ofNat outcome.code
  | _ =>
    IO.eprint usage
    return 1

/-- Collects the keys that are typed, poll by poll and each with its time in microseconds, until
Escape. -/
def collectKeys (typed : IO.Ref (List (List (Key × Nat)))) : IO Unit := do
  let stdin ← IO.getStdin
  let mut reading := Reading.start
  repeat
    let bytes ← stdin.read 8192
    let (signals, next) := reading.read bytes.data.toList
    reading := next
    let now ← IO.monoNanosNow
    let polls := (Signal.polls signals).map fun keys => keys.map fun key => (key, now / 1000)
    typed.modify (· ++ polls)
    if bytes.isEmpty || signals.contains (.key .escape) then break

/-- How many rounds of a kind may be due at once. -/
def mostRounds : Nat := 10000000

/-- Takes turns of a session until it ends. -/
def takeTurns (session : Session) (clock : Pacing.Clock)
    (typed : IO.Ref (List (List (Key × Nat)))) : IO Session.Ending := do
  let mut session := session
  let mut clock := clock
  repeat
    let events ← typed.modifyGet fun polls => (polls.headD [], polls.tail)
    let polled ← IO.monoNanosNow
    match session.poll events (polled / 1000) with
    | .error ending => return ending
    | .ok (afterInput, drawn) =>
      write (Terminal.render drawn)
      let now ← IO.monoNanosNow
      let some (cycles, ticks, next) :=
          clock.due (afterInput.machine.mode == .paused) mostRounds now
        | throw (IO.userError "more rounds are due than can be run")
      match afterInput.proceed cycles ticks with
      | .error ending => return ending
      | .ok (afterWork, shown) =>
        write (Terminal.render shown)
        session := afterWork
        clock := next
    IO.sleep 1
  return .quit

/-- Plays a program on the terminal. -/
def play (arguments : List String) : IO UInt32 := do
  match CommandLine.session? arguments with
  | some ⟨some file, options⟩ =>
    let program ← IO.FS.readBinFile file
    let seed ← IO.rand 0 0xFFFFFFFFFFFFFFFF
    let generator := Generator.ofSeed (UInt64.ofNat seed)
    match Session.start options.dialect generator program.toList with
    | .error ending =>
      IO.eprint ending.message
      return UInt32.ofNat ending.code
    | .ok (session, drawn) =>
      write (Terminal.enter ++ Terminal.render drawn)
      let typed ← IO.mkRef []
      let _ ← IO.asTask (collectKeys typed) Task.Priority.dedicated
      let clock := Pacing.Clock.start options.speed options.timerRate (← IO.monoNanosNow)
      let ending ← takeTurns session clock typed
      write Terminal.leave
      IO.eprint ending.message
      return UInt32.ofNat ending.code
  | _ =>
    IO.eprint usage
    return 1

end Chip8.Program

def main : List String → IO UInt32
  | "batch" :: arguments => Chip8.Program.batch arguments
  | "play" :: arguments => Chip8.Program.play arguments
  | _ => do
    IO.eprint Chip8.Program.usage
    return 1
