import Chip8.Keyboard.Key
import Chip8.Numeral

/-!
# Reading keys from a terminal

A terminal sends bytes. A key that types a character sends the character, with control a byte below
the space, with alt an escape before it. Escape sends an escape, and all other keys and the mouse
send a sequence, which starts with an escape too.

No sequence gives a key that has a meaning here, but what follows a sequence is read afresh, so
`Reading` follows each to its end. A sequence that cannot be one is dropped with the byte that shows
it. Neither does a character beyond ASCII give a key.

One sequence is noticed: a report of where the cursor is. A poll of the keyboard ends at it, and the
keys after it are left to the next poll.

Bytes come in portions. A sequence may go on in the next portion, but an escape that ends a portion
is Escape.
-/

namespace Chip8.Keyboard

/-- The key that sends the character `c` alone. Below the space lie the keys that are held with
control, and a few that have a sign of their own. -/
def keyOfChar (c : Char) : Key :=
  if c = '\x1b' then .escape
  else if c = '\x00' ∨ c = '\t' ∨ c = '\n' ∨ c = '\r' ∨ c = '\x7f' then .other
  else if c.toNat ≤ 0x1a then .char (Char.ofNat ('a'.toNat + (c.toNat - 1)))
  else if c.toNat < 0x20 then .char (Char.ofNat ('4'.toNat + (c.toNat - 0x1c)))
  else .char c

/-- What a terminal sends. -/
inductive Signal where
  | key (k : Key)
  /-- A report of where the cursor is. -/
  | position
  deriving DecidableEq, Repr

/-- The keys of one poll after the other. -/
def Signal.polls : List Signal → List (List Key)
  | [] => [[]]
  | .position :: rest => [] :: polls rest
  | .key k :: rest => (polls rest).modifyHead (k :: ·)

/-- How far the bytes of a terminal have been read. -/
inductive Reading where
  /-- Between two keys. -/
  | start
  /-- After an escape. -/
  | escaped
  /-- After an escape and `[`. -/
  | bracket
  /-- In a sequence of a fixed length, before its last byte and `more` others. -/
  | counted (more : Nat)
  /-- In a sequence with numbers, after `parameters` and before its last byte, which lies from `@` to
  `~`. -/
  | numbered (parameters : List Char)
  /-- In a report of the mouse, before its last byte, which is `m` or `M`. -/
  | mouse
  /-- In a character beyond ASCII, before its last byte and `more` others. -/
  | character (more : Nat)
  deriving DecidableEq, Repr

namespace Reading

/-- Reading goes on with the character that the byte `b` beyond ASCII begins, and passes over a byte
that begins none. -/
def ofLead (b : UInt8) : Reading :=
  if b.toNat < 0xc0 then start
  else if b.toNat < 0xe0 then character 0
  else if b.toNat < 0xf0 then character 1
  else if b.toNat < 0xf8 then character 2
  else start

/-- Reading goes on with the sequence that an escape, `[` and `c` begin. Most are complete, such as
those of the arrows. -/
def ofBracket (c : Char) : Reading :=
  if c = '[' then counted 0
  else if c = 'M' then counted 2
  else if c = '<' then mouse
  else if c.isDigit then numbered [c]
  else start

/-- Whether the byte `b` can stand inside of a character beyond ASCII. -/
def continues (b : UInt8) : Bool := 0x80 ≤ b.toNat && b.toNat < 0xc0

/-- Whether the character `c` ends a sequence with numbers. -/
def endsNumbered (c : Char) : Bool := 0x40 ≤ c.toNat && c.toNat ≤ 0x7e

/-- Whether the parameters of a sequence start with a row and a column. Each ends at a semicolon. -/
def namesPosition (parameters : List Char) : Bool :=
  let (row, rest) := parameters.span (· != ';')
  let column := (rest.drop 1).takeWhile (· != ';')
  (Numeral.decimal? UInt16.size row).isSome && (Numeral.decimal? UInt16.size column).isSome

/-- What a sequence with numbers says that the character `last` ends. -/
def signal? (parameters : List Char) (last : Char) : Option Signal :=
  if last = 'R' ∧ namesPosition parameters then some .position else none

/-- Reads the byte `b`, which may complete a signal. After an escape a byte stands for its character,
also below the space. -/
def next : Reading → UInt8 → Option Signal × Reading
  | start, b =>
    if 0x80 ≤ b.toNat then (none, ofLead b)
    else if b = 0x1b then (none, escaped)
    else (some (.key (keyOfChar (Char.ofUInt8 b))), start)
  | escaped, b =>
    if 0x80 ≤ b.toNat then (none, ofLead b)
    else
      match Char.ofUInt8 b with
      | '\x1b' => (some (.key .escape), start)
      | 'O' => (none, counted 0)
      | '[' => (none, bracket)
      | c => (some (.key (.char c)), start)
  | bracket, b => (none, ofBracket (Char.ofUInt8 b))
  | counted 0, _ => (none, start)
  | counted (more + 1), _ => (none, counted more)
  | numbered ps, b =>
    let c := Char.ofUInt8 b
    if endsNumbered c then (signal? ps c, start) else (none, numbered (ps ++ [c]))
  | mouse, b => (none, if Char.ofUInt8 b = 'm' ∨ Char.ofUInt8 b = 'M' then start else mouse)
  | character 0, _ => (none, start)
  | character (more + 1), b => (none, if continues b then character more else start)

/-- Reads bytes one after the other. -/
def feed : Reading → List UInt8 → List Signal × Reading
  | r, [] => ([], r)
  | r, b :: bs =>
    let (signal?, r) := r.next b
    let (signals, r) := r.feed bs
    (signal?.toList ++ signals, r)

/-- Reads the end of a portion. -/
def flush : Reading → List Signal × Reading
  | escaped => ([.key .escape], start)
  | r => ([], r)

/-- Reads a portion of bytes. -/
def read (r : Reading) (bytes : List UInt8) : List Signal × Reading :=
  let (signals, r) := r.feed bytes
  let (last, r) := r.flush
  (signals ++ last, r)

end Reading

end Chip8.Keyboard
