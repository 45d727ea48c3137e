/-!
# The ChaCha20 stream

The stream of words that a key of eight words yields. Block `n` holds the words `16 n` to
`16 n + 15` and depends on nothing but the key and `n`, so every word of the stream is addressed by
its position alone.
-/

namespace Chip8.ChaCha

/-- A key: eight words. -/
abbrev Key := Vector UInt32 8

/-- The sixteen words that the rounds work on. -/
abbrev Block := Vector UInt32 16

/-- The word `v` rotated left by `k` bits, for `0 < k < 32`. -/
def rotateLeft (v k : UInt32) : UInt32 := v <<< k ||| v >>> (32 - k)

/-- Mixes the words at the positions `a`, `b`, `c` and `d`. -/
def quarterRound (a b c d : Fin 16) (s : Block) : Block :=
  let (va, vb, vc, vd) := (s[a], s[b], s[c], s[d])
  let va := va + vb
  let vd := rotateLeft (vd ^^^ va) 16
  let vc := vc + vd
  let vb := rotateLeft (vb ^^^ vc) 12
  let va := va + vb
  let vd := rotateLeft (vd ^^^ va) 8
  let vc := vc + vd
  let vb := rotateLeft (vb ^^^ vc) 7
  (((s.set a va).set b vb).set c vc).set d vd

/-- Mixes the four columns, then the four diagonals. -/
def doubleRound (s : Block) : Block :=
  s |> quarterRound 0 4 8 12 |> quarterRound 1 5 9 13
    |> quarterRound 2 6 10 14 |> quarterRound 3 7 11 15
    |> quarterRound 0 5 10 15 |> quarterRound 1 6 11 12
    |> quarterRound 2 7 8 13 |> quarterRound 3 4 9 14

/-- What the rounds of block `n` start from: four constants, the key, the number of the block on
two words, the low one first, and two zeros. -/
def start (key : Key) (n : Nat) : Block :=
  #v[0x61707865, 0x3320646e, 0x79622d32, 0x6b206574,
     key[0], key[1], key[2], key[3], key[4], key[5], key[6], key[7],
     UInt32.ofNat n, UInt32.ofNat (n / 0x100000000), 0, 0]

/-- Block `n`: ten double rounds, and what they started from is added. -/
def block (key : Key) (n : Nat) : Block :=
  Vector.zipWith (· + ·) (Nat.repeat doubleRound 10 (start key n)) (start key n)

/-- The word at the position `k` of the stream. -/
def word (key : Key) (k : Nat) : UInt32 :=
  have hk := Nat.mod_lt k (show 0 < 16 by decide)
  (block key (k / 16))[k % 16]

end Chip8.ChaCha
