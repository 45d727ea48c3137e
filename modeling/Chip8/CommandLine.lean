import Chip8.Batch
import Chip8.Session.Script

/-!
# Command lines

Arguments of a batch run and of a session: the name of the program file, and options. The value of
an option follows it as an argument of its own, after an equals sign, or, for an option of one
letter, at once. A later option overrides an earlier one.
-/

namespace Chip8.CommandLine

/-- An argument cut into an option and its value, if it holds both. -/
def cut (argument : String) : List String :=
  match argument.toList with
  | '-' :: '-' :: cs =>
    match cs.span (· != '=') with
    | (name, _ :: value) => ["--" ++ String.ofList name, String.ofList value]
    | (_, []) => [argument]
  | '-' :: c :: '=' :: value => [String.ofList ['-', c], String.ofList value]
  | '-' :: c :: d :: value => [String.ofList ['-', c], String.ofList (d :: value)]
  | _ => [argument]

/-- A command: a program file, if one was named, and options. -/
structure Command (α : Type) where
  file : Option String
  options : α
  deriving Repr

/-- Adds the name of the program file, which may be named once. -/
def Command.withFile? {α : Type} (c : Command α) (name : String) : Option (Command α) :=
  if c.file.isNone && !name.startsWith "-" then some { c with file := some name } else none

/-- Reads the arguments of a session, cut. -/
def readSession (c : Command Session.Options) : List String → Option (Command Session.Options)
  | [] => some c
  | "--shift-vy" :: rest => readSession { c with options.dialect := Dialect.cosmacVip } rest
  | [argument] => c.withFile? argument
  | argument :: value :: rest =>
    if argument = "--speed" ∨ argument = "-s" then do
      let n ← Numeral.decimal? UInt32.size value.toList
      readSession { c with options.speed := UInt32.ofNat n } rest
    else if argument = "--timer-hz" then do
      let n ← Numeral.decimal? UInt32.size value.toList
      readSession { c with options.timerRate := UInt32.ofNat n } rest
    else do
      let c ← c.withFile? argument
      readSession c (value :: rest)

/-- Reads the arguments of a batch run, cut. The seed stands if none is given. -/
def readBatch (c : Command Batch.Options) : List String → Option (Command Batch.Options)
  | [] => some c
  | "--shift-vy" :: rest => readBatch { c with options.dialect := Dialect.cosmacVip } rest
  | [argument] => c.withFile? argument
  | argument :: value :: rest =>
    if argument = "--cycles" ∨ argument = "-c" then do
      let n ← Numeral.decimal? UInt64.size value.toList
      readBatch { c with options.cycles := n } rest
    else if argument = "--seed" then do
      let n ← Numeral.decimal? UInt64.size value.toList
      readBatch { c with options.seed := UInt64.ofNat n } rest
    else do
      let c ← c.withFile? argument
      readBatch c (value :: rest)

/-- The session that arguments ask for. -/
def session? (arguments : List String) : Option (Command Session.Options) :=
  readSession ⟨none, {}⟩ (arguments.flatMap cut)

/-- The batch run that arguments ask for. -/
def batch? (seed : UInt64) (arguments : List String) : Option (Command Batch.Options) :=
  readBatch ⟨none, { seed := seed }⟩ (arguments.flatMap cut)

end Chip8.CommandLine
