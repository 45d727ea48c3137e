/-!
# Pacing

The session runs a rate of `n` rounds in a second as one round every `period n` nanoseconds. The
period is the reciprocal of the rate, first as a binary fraction of 53 significant bits and then in
whole nanoseconds, each time rounded to the nearest, a half to the even neighbour.

Rounds that are due are caught up with one after the other. For rates above two thousand million the
period is zero, and catching up has no end.
-/

namespace Chip8.Pacing

/-- The whole number nearest to `a / b`, a half going to the even neighbour, for `0 < b`. -/
def roundDiv (a b : Nat) : Nat :=
  let q := a / b
  let r := a % b
  if 2 * r < b then q
  else if b < 2 * r then q + 1
  else q + q % 2

/-- How many binary places a fraction of 53 significant bits has that lies next to `1 / m`, for
`0 < m`. -/
def places (m : Nat) : Nat := 53 + m.log2

/-- The numerator over `1 <<< places m` of the fraction of 53 significant bits nearest to `1 / m`. -/
def reciprocal (m : Nat) : Nat := roundDiv (1 <<< places m) m

/-- The nanoseconds of a second. -/
def nanoseconds : Nat := 1000000000

/-- The period of the rate `n` in nanoseconds. The rate `0` counts as `1`. -/
def period (n : UInt32) : Nat :=
  let m := max n.toNat 1
  roundDiv (reciprocal m * nanoseconds) (1 <<< places m)

/-- Catches up at `now` with rounds that are due every `period`, the next of them at `next`: how many
there are, `rounds` more having been counted before, and when the one after them is due. There is no
answer if there are `limit` or more. -/
def catchUp (period now : Nat) : (limit rounds next : Nat) → Option (Nat × Nat)
  | 0, _, _ => none
  | limit + 1, rounds, next =>
    if next ≤ now then catchUp period now limit (rounds + 1) (next + period)
    else some (rounds, next)

/-- When rounds of two kinds, cycles and ticks of the timers, are due. -/
structure Clock where
  cyclePeriod : Nat
  tickPeriod : Nat
  nextCycle : Nat
  nextTick : Nat
  deriving DecidableEq, Repr

namespace Clock

/-- The clock of two rates, with both rounds due at `now`. -/
def start (speed timerRate : UInt32) (now : Nat) : Clock :=
  ⟨period speed, period timerRate, now, now⟩

/-- Puts both rounds off to a period after `now`. -/
def postpone (c : Clock) (now : Nat) : Clock :=
  { c with nextCycle := now + c.cyclePeriod, nextTick := now + c.tickPeriod }

/-- The cycles and the ticks that are due at `now`, and the clock after them. While the machine is
paused the rounds are put off. There is no answer if there are `limit` rounds or more of a kind. -/
def due (c : Clock) (paused : Bool) (limit now : Nat) : Option (Nat × Nat × Clock) := do
  let c := if paused then c.postpone now else c
  let (cycles, nextCycle) ← catchUp c.cyclePeriod now limit 0 c.nextCycle
  let (ticks, nextTick) ← catchUp c.tickPeriod now limit 0 c.nextTick
  return (cycles, ticks, { c with nextCycle := nextCycle, nextTick := nextTick })

end Clock

end Chip8.Pacing
