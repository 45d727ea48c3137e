import Chip8.Proofs.CatchingUp
import Mathlib.Algebra.Order.Field.Rat
import Mathlib.Algebra.Order.Ring.Abs
import Mathlib.Data.Nat.Cast.Order.Ring
import Mathlib.Data.Nat.Prime.Basic
import Mathlib.Data.Rat.Cast.Defs
import Mathlib.Tactic.FieldSimp
import Mathlib.Tactic.Linarith
import Mathlib.Tactic.NormNum

/-!
# The period is correctly rounded

The reciprocal of a rate is rounded to a double first, and then a second divided into that many parts
to whole nanoseconds. The first rounding is the one of the double format: no other double is as near to
the reciprocal (`nearestDouble_reciprocal`), since on the doubles around it the reciprocal falls on a
grid of whole numbers, and doubles below that stretch lie further away than its lower end. There is no
tie to break there. In the second rounding there are ties, and they go to the even neighbour.

The two roundings together still give a whole number nearest to the exact quotient, and this alone makes
the period fall as the rate grows: of two rates, the higher one has no higher period
(`period_correctly_rounded`).
-/

namespace Chip8.Pacing

/-- The finite numbers of the double format: a whole number of 53 binary digits, scaled. -/
def IsDouble (x : ℚ) : Prop :=
  ∃ a e : ℤ, |a| < 2 ^ 53 ∧ -1074 ≤ e ∧ e ≤ 971 ∧ x = a * 2 ^ e

/-- `x` is the double nearest to `y`: every other one lies further away. -/
structure NearestDouble (x y : ℚ) : Prop where
  double : IsDouble x
  nearest : ∀ z, IsDouble z → z ≠ x → |x - y| < |z - y|

/-- How many rounds in a second the rate `n` stands for: the rate `0` counts as `1`. -/
def rate (n : UInt32) : ℕ := max n.toNat 1

/-- `q` is `x` rounded to a whole number, a half to the even neighbour. -/
structure RoundedToEven (q : ℕ) (x : ℚ) : Prop where
  near : |q - x| ≤ 1 / 2
  even : |q - x| = 1 / 2 → Even q

/-! ## Rounding to whole numbers -/

section Rounding

variable {a b m p q q' : ℕ}

theorem even_roundDiv (hb : 0 < b)
    (hhalf : 2 * a = 2 * (b * roundDiv a b) + b ∨ 2 * (b * roundDiv a b) = 2 * a + b) :
    Even (roundDiv a b) := by
  have hdivision : b * (a / b) + a % b = a := Nat.div_add_mod a b
  have hrest : a % b < b := Nat.mod_lt a hb
  have hsucc : b * (a / b + 1) = b * (a / b) + b := Nat.mul_succ b (a / b)
  rw [Nat.even_iff]
  unfold roundDiv at hhalf ⊢
  dsimp only at hhalf ⊢
  split_ifs at hhalf ⊢ with hbelow habove
  · omega
  · omega
  · omega

theorem abs_sub_div (hb : 0 < b) (x y : ℚ) : |x - y / b| = |b * x - y| / b := by
  have hb' : (0 : ℚ) < b := Nat.cast_pos.mpr hb
  have hscaled : b * x - y = b * (x - y / b) := by field_simp
  rw [hscaled, abs_mul, abs_of_pos hb', mul_div_cancel_left₀ _ hb'.ne']

theorem Nearest.abs_sub_le (hb : 0 < b) (h : Nearest q a b) : |(q - a / b : ℚ)| ≤ 1 / 2 := by
  have hb' : (0 : ℚ) < b := Nat.cast_pos.mpr hb
  have habove : (2 * a : ℚ) ≤ 2 * (b * q) + b := by exact_mod_cast h.above
  have hbelow : (2 * (b * q) : ℚ) ≤ 2 * a + b := by exact_mod_cast h.below
  rw [abs_sub_div hb, div_le_iff₀ hb', abs_le]
  constructor <;> linarith

theorem half_of_abs_sub_eq (hb : 0 < b) (h : |(q - a / b : ℚ)| = 1 / 2) :
    2 * a = 2 * (b * q) + b ∨ 2 * (b * q) = 2 * a + b := by
  have hb' : (0 : ℚ) < b := Nat.cast_pos.mpr hb
  rw [abs_sub_div hb, div_eq_iff hb'.ne', abs_eq (by positivity)] at h
  refine h.symm.imp (fun hbelow => ?_) fun habove => ?_
  · have hscaled : (2 * a : ℚ) = 2 * (b * q) + b := by linarith
    exact_mod_cast hscaled
  · have hscaled : (2 * (b * q) : ℚ) = 2 * a + b := by linarith
    exact_mod_cast hscaled

theorem roundedToEven_roundDiv (a : ℕ) (hb : 0 < b) : RoundedToEven (roundDiv a b) (a / b) where
  near := (nearest_roundDiv hb).abs_sub_le hb
  even := fun hhalf => even_roundDiv hb (half_of_abs_sub_eq hb hhalf)

theorem Nearest.antitone {m' : ℕ} (hm : m < m') (h : Nearest q a m) (h' : Nearest q' a m') :
    q' ≤ q := by
  by_contra hlt
  obtain ⟨k, rfl⟩ : ∃ k, q' = q + 1 + k := Nat.exists_eq_add_of_le (by omega)
  -- Both quotients would lie on the far side of the half below `q + 1 + k`, the smaller one above it.
  have hhalf : m' * (2 * (q + k) + 1) ≤ m * (2 * (q + k) + 1) :=
    calc m' * (2 * (q + k) + 1) = 2 * (m' * (q + 1 + k)) - m' := by
          rw [show 2 * (m' * (q + 1 + k)) = m' * (2 * (q + k) + 1) + m' by ring,
            Nat.add_sub_cancel]
      _ ≤ 2 * a := Nat.sub_le_of_le_add h'.below
      _ ≤ 2 * (m * q) + m := h.above
      _ = m * (2 * q + 1) := by ring
      _ ≤ m * (2 * (q + k) + 1) := Nat.mul_le_mul_left m (by omega)
  exact absurd (Nat.le_of_mul_le_mul_right hhalf (Nat.succ_pos _)) (by omega)

end Rounding

/-! ## The reciprocal -/

section Reciprocal

variable {m : ℕ}

theorem shiftLeft_places_le (hm : 0 < m) : 1 <<< places m ≤ 2 ^ 53 * m := by
  have hlog : 2 ^ m.log2 ≤ m := Nat.log2_self_le hm.ne'
  calc 1 <<< places m = 2 ^ (53 + m.log2) := by rw [Nat.one_shiftLeft, places]
    _ = 2 ^ 53 * 2 ^ m.log2 := Nat.pow_add 2 53 m.log2
    _ ≤ 2 ^ 53 * m := Nat.mul_le_mul_left _ hlog

theorem mul_ne_shiftLeft_places {k : ℕ} (hk : Odd k) : m * k ≠ 2 * 1 <<< places m := by
  intro h
  have hlt := lt_shiftLeft_places m
  rw [Nat.one_shiftLeft] at h hlt
  rw [← Nat.pow_succ'] at h
  have hone : k = 1 :=
    ((Nat.coprime_two_right.mpr hk).pow_right _).eq_one_of_dvd (Dvd.intro_left m h)
  rw [hone, Nat.mul_one, Nat.pow_succ'] at h
  omega

/-- The reciprocal of a rate is rounded without a tie. -/
theorem abs_reciprocal_sub_lt (hm : 0 < m) :
    |(reciprocal m - (1 <<< places m : ℕ) / m : ℚ)| < 1 / 2 := by
  refine ((nearest_roundDiv hm).abs_sub_le hm).lt_of_ne fun htie => ?_
  have hlt := lt_shiftLeft_places m
  rcases half_of_abs_sub_eq hm htie with habove | hbelow
  · refine mul_ne_shiftLeft_places (m := m) (odd_two_mul_add_one (reciprocal m)) ?_
    rw [habove, reciprocal]
    ring
  · obtain ⟨r, hr⟩ : ∃ r, reciprocal m = r + 1 := by
      refine Nat.exists_eq_succ_of_ne_zero fun hzero => ?_
      rw [reciprocal] at hzero
      rw [hzero] at hbelow
      omega
    refine mul_ne_shiftLeft_places (m := m) (odd_two_mul_add_one r) ?_
    rw [← reciprocal, hr] at hbelow
    linarith

/-- In the scale in which it is rounded, the reciprocal lies nearer to what it is rounded to than to
any other whole number, and than to anything below the stretch of these numbers. -/
theorem abs_reciprocal_sub_lt_of_ne (hm : 0 < m) {w : ℚ} (hne : w ≠ reciprocal m)
    (hw : (∃ k : ℤ, w = k) ∨ w ≤ 2 ^ 52) :
    |(reciprocal m - (1 <<< places m : ℕ) / m : ℚ)| < |w - (1 <<< places m : ℕ) / m| := by
  have hhalf := abs_reciprocal_sub_lt hm
  have hlow : (2 ^ 52 : ℚ) < (1 <<< places m : ℕ) / m := by
    rw [lt_div_iff₀ (Nat.cast_pos.mpr hm)]
    exact_mod_cast lt_shiftLeft_places m
  generalize ((1 <<< places m : ℕ) / m : ℚ) = y at hhalf hlow ⊢
  have hwhole : ∀ k : ℤ, (k : ℚ) ≠ reciprocal m → |(reciprocal m : ℚ) - y| < |k - y| := by
    intro k hk
    have hnonzero : k - (reciprocal m : ℤ) ≠ 0 := sub_ne_zero.mpr (by exact_mod_cast hk)
    have hstep : 1 ≤ |(k : ℚ) - reciprocal m| := by exact_mod_cast Int.one_le_abs hnonzero
    have htriangle := abs_sub_le (k : ℚ) y (reciprocal m)
    rw [abs_sub_comm y] at htriangle
    linarith
  rcases hw with ⟨k, rfl⟩ | hbelow
  · exact hwhole k hne
  · -- The lower end of the stretch is a whole number, and it is not as far away.
    have hdist : |w - y| = y - w := by rw [abs_sub_comm, abs_of_pos (by linarith)]
    have hend : |((2 ^ 52 : ℤ) : ℚ) - y| = y - 2 ^ 52 := by
      rw [abs_sub_comm, abs_of_pos (by push_cast; linarith)]
      norm_num
    rw [hdist]
    by_cases hr : ((2 ^ 52 : ℤ) : ℚ) = reciprocal m
    · rw [← hr] at hne ⊢
      have hlt : w < 2 ^ 52 := hbelow.lt_of_ne (by exact_mod_cast hne)
      linarith
    · have hnear := hwhole (2 ^ 52) hr
      linarith

/-- In that scale a double is a whole number or lies below that stretch. -/
theorem IsDouble.mul_shiftLeft {z : ℚ} (hz : IsDouble z) (p : ℕ) :
    (∃ k : ℤ, z * (1 <<< p : ℕ) = k) ∨ z * (1 <<< p : ℕ) ≤ 2 ^ 52 := by
  obtain ⟨a, e, ha, -, -, rfl⟩ := hz
  have hscaled : a * (2 : ℚ) ^ e * (1 <<< p : ℕ) = a * 2 ^ (e + p) := by
    rw [Nat.one_shiftLeft, zpow_add₀ two_ne_zero, zpow_natCast]
    push_cast
    ring
  rw [hscaled]
  rcases le_or_gt 0 (e + p) with hgrid | hbelow
  · obtain ⟨k, hk⟩ := Int.eq_ofNat_of_zero_le hgrid
    refine .inl ⟨a * 2 ^ k, ?_⟩
    rw [hk, zpow_natCast]
    push_cast
    rfl
  · right
    have hhalf : (2 : ℚ) ^ (e + p) ≤ 2 ^ (-1 : ℤ) := zpow_le_zpow_right₀ one_le_two (by omega)
    have ha' : (a : ℚ) ≤ 2 ^ 53 := by exact_mod_cast (abs_lt.mp ha).2.le
    calc (a : ℚ) * 2 ^ (e + p) ≤ 2 ^ 53 * 2 ^ (e + p) :=
          mul_le_mul_of_nonneg_right ha' (zpow_pos two_pos _).le
      _ ≤ 2 ^ 53 * 2 ^ (-1 : ℤ) := mul_le_mul_of_nonneg_left hhalf (by positivity)
      _ = 2 ^ 52 := by norm_num

theorem reciprocal_le (hm : 0 < m) : reciprocal m ≤ 2 ^ 53 := by
  have hbelow := (nearest_roundDiv (a := 1 <<< places m) hm).below
  have hle := shiftLeft_places_le hm
  by_contra hgt
  have hmul := Nat.mul_le_mul_left m (show 2 ^ 53 + 1 ≤ reciprocal m by omega)
  rw [reciprocal] at hmul
  omega

theorem isDouble_reciprocal (hm : 0 < m) (hlt : m < 2 ^ 32) :
    IsDouble (reciprocal m / (1 <<< places m : ℕ)) := by
  have hlog : m.log2 < 32 := (Nat.log2_lt hm.ne').mpr hlt
  have hp : places m ≤ 84 := by
    unfold places
    omega
  rcases (reciprocal_le hm).lt_or_eq with hr | hr
  · refine ⟨reciprocal m, -places m, ?_, by omega, by omega, ?_⟩
    · rw [Nat.abs_cast]
      exact_mod_cast hr
    · rw [Nat.one_shiftLeft, zpow_neg, zpow_natCast, div_eq_mul_inv]
      push_cast
      rfl
  · -- The reciprocal of a power of two has one digit.
    refine ⟨2 ^ 52, 1 - places m, by norm_num, by omega, by omega, ?_⟩
    rw [hr, Nat.one_shiftLeft, zpow_sub₀ two_ne_zero, zpow_natCast]
    push_cast
    ring

theorem nearestDouble_reciprocal (hm : 0 < m) (hlt : m < 2 ^ 32) :
    NearestDouble (reciprocal m / (1 <<< places m : ℕ)) (1 / m) where
  double := isDouble_reciprocal hm hlt
  nearest := by
    intro z hz hne
    have hp : (0 : ℚ) < (1 <<< places m : ℕ) :=
      Nat.cast_pos.mpr (Nat.zero_lt_of_lt (lt_shiftLeft_places m))
    have hne' : z * (1 <<< places m : ℕ) ≠ reciprocal m :=
      fun h => hne (eq_div_of_mul_eq hp.ne' h)
    have hnear := abs_reciprocal_sub_lt_of_ne hm hne' (hz.mul_shiftLeft (places m))
    generalize ((1 <<< places m : ℕ) : ℚ) = p at hp hnear ⊢
    have hscaled : ∀ x : ℚ, |x * p - p / m| = |x - 1 / m| * p := by
      intro x
      rw [show x * p - p / m = (x - 1 / m) * p by ring, abs_mul, abs_of_pos hp]
    rw [hscaled, ← div_mul_cancel₀ (reciprocal m : ℚ) hp.ne', hscaled] at hnear
    exact lt_of_mul_lt_mul_right hnear hp.le

end Reciprocal

theorem rate_pos (n : UInt32) : 0 < rate n := Nat.lt_of_lt_of_le Nat.one_pos (Nat.le_max_right _ _)

theorem rate_lt (n : UInt32) : rate n < 2 ^ 32 := Nat.max_lt.mpr ⟨n.toNat_lt, by decide⟩

theorem rate_mono {n k : UInt32} (h : n ≤ k) : rate n ≤ rate k :=
  max_le_max_right 1 (UInt32.le_iff_toNat_le.mp h)

theorem period_eq (n : UInt32) :
    period n = roundDiv (reciprocal (rate n) * nanoseconds) (1 <<< places (rate n)) := rfl

theorem period_eq_of_rate_eq {n k : UInt32} (h : rate n = rate k) : period n = period k := by
  rw [period_eq, h, period_eq]

/-- **The period is correctly rounded.** The reciprocal of a rate is rounded to the nearest double,
and a second times that double to the nearest whole number of nanoseconds, a half to the even one. The
result is a whole number nearest to the exact quotient of a second and the rate, and a higher rate has
no higher period. -/
theorem period_correctly_rounded (n : UInt32) :
    (∃ x : ℚ, NearestDouble x (1 / rate n) ∧ RoundedToEven (period n) (x * nanoseconds)) ∧
      2 * |(rate n * period n - nanoseconds : ℤ)| ≤ rate n ∧ ∀ k, n ≤ k → period k ≤ period n := by
  have hm : 0 < rate n := rate_pos n
  have hp : 0 < 1 <<< places (rate n) := Nat.zero_lt_of_lt (lt_shiftLeft_places (rate n))
  refine ⟨⟨_, nearestDouble_reciprocal hm (rate_lt n), ?_⟩, ?_, fun k hk => ?_⟩
  · have hround := roundedToEven_roundDiv (reciprocal (rate n) * nanoseconds) hp
    rwa [Nat.cast_mul, mul_div_right_comm] at hround
  · obtain ⟨habove, hbelow⟩ := nearest_period n
    change 2 * nanoseconds ≤ 2 * (rate n * period n) + rate n at habove
    change 2 * (rate n * period n) ≤ 2 * nanoseconds + rate n at hbelow
    zify at habove hbelow
    rw [← abs_two, ← abs_mul, abs_le]
    constructor <;> linarith
  · rcases (rate_mono hk).lt_or_eq with hlt | heq
    · exact (nearest_period n).antitone hlt (nearest_period k)
    · exact (period_eq_of_rate_eq heq.symm).le

/-- At 1024 rounds in a second the exact quotient is a half, and it goes down to the even neighbour. -/
theorem period_correctly_rounded_half :
    (∃ x : ℚ, NearestDouble x (1 / 1024) ∧ RoundedToEven 976562 (x * nanoseconds)) ∧
      2 * |(1024 * 976562 - nanoseconds : ℤ)| = 1024 ∧
      (1024 : UInt32) ≤ 0xFFFFFFFF ∧ period 0xFFFFFFFF ≤ 976562 := by
  have hperiod : period 1024 = 976562 := by decide
  have hm : rate 1024 = 1024 := by decide
  have hle : (1024 : UInt32) ≤ 0xFFFFFFFF := by decide
  obtain ⟨hround, -, hmono⟩ := period_correctly_rounded 1024
  rw [hperiod] at hround hmono
  rw [hm] at hround
  exact ⟨hround, by decide, hle, hmono _ hle⟩

end Chip8.Pacing
