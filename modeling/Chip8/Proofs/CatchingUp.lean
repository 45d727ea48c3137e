import Chip8.Pacing
import Mathlib.Tactic.Ring
import Mathlib.Tactic.SplitIfs

/-!
# Catching up with the rounds that are due

A session that has fallen behind runs every round that has come due, one after the other, and this
ends because each of them puts the next one off by a period. For rates of up to two thousand million
the period is positive: catching up comes to `roundsBy` rounds, and a paused session runs none. For
every higher rate the period is rounded to zero. Then a round that is due stays due, and catching up
never ends, in a paused session either (`catching_up_exact`).

The period is rounded twice, and still it is a whole number nearest to the quotient of a second and
the rate (`nearest_period`). The first rounding is finer than the distance by which a quotient with
this denominator can miss a half.
-/

namespace Chip8.Pacing

/-- The rounds that have come due by `now`, one every `period` and the first of them at `next`. -/
def roundsBy (period now next : Nat) : Nat :=
  if next ≤ now then (now - next) / period + 1 else 0

/-- The highest rate with a positive period. -/
def highestRate : UInt32 := 2000000000

/-- `q` is a whole number nearest to `a / b`. -/
structure Nearest (q a b : Nat) : Prop where
  above : 2 * a ≤ 2 * (b * q) + b
  below : 2 * (b * q) ≤ 2 * a + b

/-! ## Rounding -/

section Rounding

variable {a b m p q r : Nat}

theorem nearest_roundDiv (hb : 0 < b) : Nearest (roundDiv a b) a b := by
  have hdivision : b * (a / b) + a % b = a := Nat.div_add_mod a b
  have hrest : a % b < b := Nat.mod_lt a hb
  have hsucc : b * (a / b + 1) = b * (a / b) + b := Nat.mul_succ b (a / b)
  unfold roundDiv
  dsimp only
  split_ifs with hbelow habove
  · constructor <;> omega
  · constructor <;> omega
  · -- A half: the even neighbour is the one below or the one above.
    rcases Nat.mod_two_eq_zero_or_one (a / b) with heven | hodd
    · rw [heven, Nat.add_zero]
      constructor <;> omega
    · rw [hodd]
      constructor <;> omega

/-- Rounding `1 / m` to a multiple of `1 / p` first does no harm: if the multiples are fine enough for
`a` and `m`, then `a` times the nearest of them is rounded to what is nearest to `a / m`. -/
theorem Nearest.of_fraction (hfine : m * a < p) (hr : Nearest r p m) (hq : Nearest q (r * a) p) :
    Nearest q a m where
  above := by
    by_contra hfar
    have hstep : 2 * (m * q) + m + 1 ≤ 2 * a := by omega
    have hover : p * (2 * (m * q) + m) + p ≤ p * (2 * (m * q) + m) + m * a :=
      calc p * (2 * (m * q) + m) + p = p * (2 * (m * q) + m + 1) := by ring
        _ ≤ p * (2 * a) := Nat.mul_le_mul_left p hstep
        _ = 2 * p * a := by ring
        _ ≤ (2 * (m * r) + m) * a := Nat.mul_le_mul_right a hr.above
        _ = m * (2 * (r * a)) + m * a := by ring
        _ ≤ m * (2 * (p * q) + p) + m * a := Nat.add_le_add_right (Nat.mul_le_mul_left m hq.above) _
        _ = p * (2 * (m * q) + m) + m * a := by ring
    omega
  below := by
    by_contra hfar
    have hstep : 2 * a + m + 1 ≤ 2 * (m * q) := by omega
    have hover : p * (2 * a + m) + p ≤ p * (2 * a + m) + m * a :=
      calc p * (2 * a + m) + p = p * (2 * a + m + 1) := by ring
        _ ≤ p * (2 * (m * q)) := Nat.mul_le_mul_left p hstep
        _ = m * (2 * (p * q)) := by ring
        _ ≤ m * (2 * (r * a) + p) := Nat.mul_le_mul_left m hq.below
        _ = 2 * (m * r) * a + m * p := by ring
        _ ≤ (2 * p + m) * a + m * p := Nat.add_le_add_right (Nat.mul_le_mul_right a hr.below) _
        _ = p * (2 * a + m) + m * a := by ring
    omega

end Rounding

/-! ## The period -/

theorem lt_shiftLeft_places (m : Nat) : 2 ^ 52 * m < 1 <<< places m := by
  have hlog : m < 2 ^ (m.log2 + 1) := Nat.lt_log2_self
  calc 2 ^ 52 * m < 2 ^ 52 * 2 ^ (m.log2 + 1) := Nat.mul_lt_mul_of_pos_left hlog (by decide)
    _ = 2 ^ (53 + m.log2) := by rw [← Nat.pow_add]; congr 1; omega
    _ = 1 <<< places m := by rw [Nat.one_shiftLeft, places]

theorem nearest_period (n : UInt32) : Nearest (period n) nanoseconds (max n.toNat 1) := by
  have hm : 0 < max n.toNat 1 := by omega
  have hplaces := lt_shiftLeft_places (max n.toNat 1)
  have hfine : max n.toNat 1 * nanoseconds < 1 <<< places (max n.toNat 1) := by
    have hsecond : nanoseconds ≤ 2 ^ 52 := by decide
    have hle := Nat.mul_le_mul_left (max n.toNat 1) hsecond
    rw [Nat.mul_comm _ (2 ^ 52)] at hle
    omega
  exact .of_fraction hfine (nearest_roundDiv hm) (nearest_roundDiv (by omega))

theorem period_pos (n : UInt32) (hn : n ≤ highestRate) : 0 < period n := by
  have hle : n.toNat ≤ 2000000000 := UInt32.le_iff_toNat_le.mp hn
  by_cases htop : n = highestRate
  · -- Here the quotient is a half, and only the first rounding takes it above.
    subst htop
    decide
  · have hne : n.toNat ≠ 2000000000 := fun h => htop (UInt32.toNat_inj.mp h)
    have hnear := (nearest_period n).above
    apply Nat.pos_of_ne_zero
    intro hzero
    rw [hzero, nanoseconds] at hnear
    omega

theorem period_eq_zero (n : UInt32) (hn : highestRate < n) : period n = 0 := by
  have hlt : 2000000000 < n.toNat := UInt32.lt_iff_toNat_lt.mp hn
  have hnear := (nearest_period n).below
  rw [nanoseconds] at hnear
  by_contra hzero
  have hone : 1 ≤ period n := by omega
  have hmul := Nat.mul_le_mul_left (max n.toNat 1) hone
  omega

/-! ## Catching up -/

section CatchingUp

variable {period now limit rounds next : Nat}

theorem roundsBy_of_lt (h : now < next) : roundsBy period now next = 0 :=
  if_neg (by omega)

theorem roundsBy_of_le (hperiod : 0 < period) (h : next ≤ now) :
    roundsBy period now next = roundsBy period now (next + period) + 1 := by
  unfold roundsBy
  rw [if_pos h]
  by_cases hagain : next + period ≤ now
  · have hdiv := Nat.div_eq_sub_div hperiod (show period ≤ now - next by omega)
    rw [if_pos hagain, hdiv, Nat.sub_sub]
  · rw [if_neg hagain, Nat.div_eq_of_lt (by omega)]

theorem catchUp_of_lt (h : now < next) :
    catchUp period now (limit + 1) rounds next = some (rounds, next) := by
  rw [catchUp, if_neg (by omega)]

theorem catchUp_of_le (h : next ≤ now) :
    catchUp period now (limit + 1) rounds next =
      catchUp period now limit (rounds + 1) (next + period) := by
  rw [catchUp, if_pos h]

/-- With a positive period every round that has come due is run, and then catching up ends. -/
theorem catchUp_eq (hperiod : 0 < period) :
    catchUp period now limit rounds next =
      if roundsBy period now next < limit then
        some (rounds + roundsBy period now next, next + roundsBy period now next * period)
      else none := by
  induction limit generalizing rounds next with
  | zero => rfl
  | succ limit ih =>
    by_cases h : next ≤ now
    · rw [catchUp_of_le h, ih, roundsBy_of_le hperiod h]
      generalize roundsBy period now (next + period) = r
      have hrounds : rounds + 1 + r = rounds + (r + 1) := by omega
      have hnext : next + period + r * period = next + (r + 1) * period := by ring
      rw [hrounds, hnext]
      simp only [Nat.add_lt_add_iff_right]
    · have hlt : now < next := by omega
      simp [catchUp_of_lt hlt, roundsBy_of_lt hlt]

theorem catchUp_zero (h : next ≤ now) : catchUp 0 now limit rounds next = none := by
  induction limit generalizing rounds with
  | zero => rfl
  | succ limit ih =>
    rw [catchUp_of_le h]
    exact ih

end CatchingUp

/-! ## A paused session -/

namespace Clock

variable {c : Clock} {now limit : Nat}

theorem due_of_paused (hcycle : 0 < c.cyclePeriod) (htick : 0 < c.tickPeriod) :
    c.due true (limit + 1) now = some (0, 0, c.postpone now) := by
  have hcycles : catchUp c.cyclePeriod now (limit + 1) 0 (now + c.cyclePeriod) =
      some (0, now + c.cyclePeriod) := catchUp_of_lt (by omega)
  have hticks : catchUp c.tickPeriod now (limit + 1) 0 (now + c.tickPeriod) =
      some (0, now + c.tickPeriod) := catchUp_of_lt (by omega)
  simp [due, postpone, hcycles, hticks]

/-- A turn does not end if the rounds of one kind have the period zero, and one of them is due or the
session is paused. -/
theorem due_eq_none {paused : Bool}
    (h : c.cyclePeriod = 0 ∧ (paused ∨ c.nextCycle ≤ now) ∨
      c.tickPeriod = 0 ∧ (paused ∨ c.nextTick ≤ now)) : c.due paused limit now = none := by
  have hnow : catchUp 0 now limit 0 now = none := catchUp_zero (Nat.le_refl now)
  cases paused with
  | true =>
    rcases h with ⟨hzero, -⟩ | ⟨hzero, -⟩
    · simp [due, postpone, hzero, hnow]
    · simp [due, postpone, hzero, hnow]
  | false =>
    rcases h with ⟨hzero, hdue⟩ | ⟨hzero, hdue⟩
    · have hcycles : catchUp 0 now limit 0 c.nextCycle = none :=
        catchUp_zero (hdue.resolve_left Bool.false_ne_true)
      simp [due, hzero, hcycles]
    · have hticks : catchUp 0 now limit 0 c.nextTick = none :=
        catchUp_zero (hdue.resolve_left Bool.false_ne_true)
      simp [due, hzero, hticks]

theorem due_start {speed timerRate : UInt32} {paused : Bool}
    (h : highestRate < speed ∨ highestRate < timerRate) :
    (start speed timerRate now).due paused limit now = none := by
  refine due_eq_none (h.imp (fun h => ⟨period_eq_zero speed h, .inr ?_⟩) fun h =>
    ⟨period_eq_zero timerRate h, .inr ?_⟩)
  · exact Nat.le_refl now
  · exact Nat.le_refl now

end Clock

/-- **When catching up ends.** At a rate of up to two thousand million the period is positive, and
every round that has come due is run, each putting the next one off by a period. At a higher rate the
period is zero, and catching up with a round that is due has no end. A paused session runs neither
cycles nor ticks, if both its rates have a positive period, and otherwise does not get to its next
turn. -/
theorem catching_up_exact (n : UInt32) (now : Nat) :
    (n ≤ highestRate → 0 < period n ∧ ∀ limit next,
      catchUp (period n) now limit 0 next =
        if roundsBy (period n) now next < limit then
          some (roundsBy (period n) now next, next + roundsBy (period n) now next * period n)
        else none) ∧
    (highestRate < n → period n = 0 ∧ ∀ limit next, next ≤ now →
      catchUp (period n) now limit 0 next = none) ∧
    ∀ (timerRate : UInt32) (nextCycle nextTick : Nat),
      let c : Clock := ⟨period n, period timerRate, nextCycle, nextTick⟩
      (n ≤ highestRate ∧ timerRate ≤ highestRate → ∀ limit, 0 < limit →
        c.due true limit now = some (0, 0, c.postpone now)) ∧
      (highestRate < n ∨ highestRate < timerRate → ∀ limit, c.due true limit now = none) := by
  refine ⟨fun hn => ⟨period_pos n hn, fun limit next => ?_⟩,
    fun hn => ⟨period_eq_zero n hn, fun limit next h => ?_⟩,
    fun timerRate nextCycle nextTick => ⟨fun hrates limit hlimit => ?_, fun h limit => ?_⟩⟩
  · have heq : catchUp (period n) now limit 0 next = _ := catchUp_eq (period_pos n hn)
    rwa [Nat.zero_add] at heq
  · rw [period_eq_zero n hn]
    exact catchUp_zero h
  · obtain ⟨k, rfl⟩ := Nat.exists_eq_succ_of_ne_zero (Nat.ne_of_gt hlimit)
    exact Clock.due_of_paused (period_pos n hrates.1) (period_pos timerRate hrates.2)
  · exact Clock.due_eq_none (h.imp (fun h => ⟨period_eq_zero n h, .inl rfl⟩)
      fun h => ⟨period_eq_zero timerRate h, .inl rfl⟩)

/-- Five milliseconds at 700 rounds in a second, a paused session at that rate, and one at the highest
rate that there is. -/
theorem catching_up_exact_default :
    catchUp (period 700) 5000000 5 0 0 = some (4, 5714284) ∧
      (Clock.start 700 60 0).due true 1 5000000 =
        some (0, 0, (Clock.start 700 60 0).postpone 5000000) ∧
      catchUp (period 0xFFFFFFFF) 5000000 5 0 0 = none := by
  obtain ⟨hends, -, hpaused⟩ := catching_up_exact 700 5000000
  obtain ⟨-, hendless, -⟩ := catching_up_exact 0xFFFFFFFF 5000000
  refine ⟨?_, (hpaused 60 0 0).1 ⟨by decide, by decide⟩ 1 (by decide), ?_⟩
  · have hperiod : period 700 = 1428571 := by decide
    rw [(hends (by decide)).2, hperiod]
    decide
  · exact (hendless (by decide)).2 5 0 (by decide)

/-- At the highest rate that can be asked for, the period is zero and the first turn does not end,
whether or not the session is paused. -/
theorem catching_up_endless :
    period 0xFFFFFFFF = 0 ∧
      ∀ paused limit, (Clock.start 0xFFFFFFFF 60 0).due paused limit 0 = none :=
  ⟨period_eq_zero _ (by decide), fun _ _ => Clock.due_start (.inl (by decide))⟩

end Chip8.Pacing
