import Chip8.Random.Stream

/-!
# The random generator

A generator is a key and the number of words drawn so far, so two generators of one seed differ by
that number alone. Each draw takes one word of the stream.
-/

namespace Chip8

/-- The generator of random words. -/
structure Generator where
  key : ChaCha.Key
  drawn : Nat
  deriving DecidableEq

namespace Generator

/-- The state that follows `s` while a seed is spread over a key. -/
def nextSeed (s : UInt64) : UInt64 := s * 6364136223846793005 + 11634580027462260723

/-- The word of a key that the state `s` yields: its folded middle bits, rotated right by its
highest five bits. -/
def keyWord (s : UInt64) : UInt32 :=
  let v := (((s >>> 18) ^^^ s) >>> 27).toUInt32
  let k := (s >>> 59).toUInt32
  v >>> k ||| v <<< ((32 - k) % 32)

/-- The key of a seed: the words that the eight states after it yield. -/
def keyOfSeed (seed : UInt64) : ChaCha.Key :=
  Vector.ofFn fun k => keyWord (Nat.repeat nextSeed (k.val + 1) seed)

/-- The generator of a seed. -/
def ofSeed (seed : UInt64) : Generator := ⟨keyOfSeed seed, 0⟩

/-- The low byte of the next word, and the generator after it. -/
def nextByte (g : Generator) : UInt8 × Generator :=
  ((ChaCha.word g.key g.drawn).toUInt8, { g with drawn := g.drawn + 1 })

end Generator

end Chip8
