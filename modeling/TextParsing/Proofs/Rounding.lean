import Mathlib.Algebra.Order.Field.Basic
import Mathlib.Algebra.Order.Ring.Rat
import Mathlib.Data.Rat.Cast.Order
import Mathlib.Tactic.FieldSimp
import Mathlib.Tactic.Linarith
import Mathlib.Tactic.Ring
import TextParsing.Number.Double

/-! Rounding to the nearest double. Among the values of all patterns the rounded one is nearest to
the exact one, and where another one is as near its significand is even. -/
namespace TextParsing.Double

/-- The significand of a magnitude pattern, with the leading bit that the pattern leaves out. -/
def significand (pattern : Nat) : Nat :=
  if pattern < 2 ^ 52 then pattern else 2 ^ 52 + pattern % 2 ^ 52

/-- The exponent of a magnitude pattern, over that of the least positive double. -/
def exponent (pattern : Nat) : Nat := pattern / 2 ^ 52 - 1

variable {pattern shift m k a b num den : Nat} {x y : ℚ}

lemma units_eq (pattern : Nat) : units pattern = significand pattern * 2 ^ exponent pattern := by
  unfold units significand exponent
  rw [Nat.one_shiftLeft, Nat.shiftRight_eq_div_pow]
  split
  case isTrue h => rw [Nat.div_eq_of_lt h, Nat.zero_sub, Nat.pow_zero, Nat.mul_one]
  case isFalse => rw [Nat.shiftLeft_eq]

lemma significand_lt (pattern : Nat) : significand pattern < 2 ^ 53 := by
  unfold significand
  split <;> omega

lemma even_significand_iff : Even (significand pattern) ↔ Even pattern := by
  rw [Nat.even_iff, Nat.even_iff]
  unfold significand
  split <;> omega

/-- From the first pattern of a binade on the patterns count in steps of its last place. -/
lemma units_add (hm : m ≤ 2 ^ 53) (hshift : shift = 0 ∨ 2 ^ 52 ≤ m) :
    units (shift * 2 ^ 52 + m) = m * 2 ^ shift := by
  rw [units_eq]
  by_cases hlow : m < 2 ^ 52
  · obtain rfl := hshift.resolve_right (by omega)
    have he : exponent (0 * 2 ^ 52 + m) = 0 := by unfold exponent; omega
    have hs : significand (0 * 2 ^ 52 + m) = m := by unfold significand; split <;> omega
    rw [he, hs]
  · by_cases hhigh : m = 2 ^ 53
    · have he : exponent (shift * 2 ^ 52 + m) = shift + 1 := by unfold exponent; omega
      have hs : significand (shift * 2 ^ 52 + m) = 2 ^ 52 := by
        unfold significand
        split <;> omega
      rw [he, hs, hhigh, ← pow_add, ← pow_add]
      congr 1
      omega
    · have he : exponent (shift * 2 ^ 52 + m) = shift := by unfold exponent; omega
      have hs : significand (shift * 2 ^ 52 + m) = m := by
        unfold significand
        split <;> omega
      rw [he, hs]

/-- What is not a multiple of a step is less than the values that are rounded to that step. -/
lemma dvd_units_or_lt (shift pattern : Nat) :
    2 ^ shift ∣ units pattern ∨ units pattern < 2 ^ (52 + shift) := by
  rw [units_eq]
  by_cases hle : shift ≤ exponent pattern
  · exact .inl (Dvd.dvd.mul_left (pow_dvd_pow 2 hle) _)
  · right
    calc significand pattern * 2 ^ exponent pattern
      _ < 2 ^ 53 * 2 ^ exponent pattern :=
        Nat.mul_lt_mul_of_pos_right (significand_lt pattern) (Nat.two_pow_pos _)
      _ = 2 ^ (53 + exponent pattern) := (pow_add ..).symm
      _ ≤ 2 ^ (52 + shift) := Nat.pow_le_pow_right (by omega) (by omega)

/-- The rounded quotient is at most half away, and even where it is that far. -/
lemma roundHalfEven_error (hb : 0 < b) :
    |(roundHalfEven a b : ℚ) - a / b| ≤ 1 / 2 ∧
      (|(roundHalfEven a b : ℚ) - a / b| = 1 / 2 → Even (roundHalfEven a b)) := by
  have hb' : (0 : ℚ) < b := by exact_mod_cast hb
  have hquotient : (a : ℚ) / b = (a / b : Nat) + ((a % b : Nat) : ℚ) / b := by
    rw [add_div' _ _ _ hb'.ne', div_left_inj' hb'.ne']
    exact_mod_cast (Nat.div_add_mod' a b).symm
  have hnonneg : 0 ≤ ((a % b : Nat) : ℚ) / b := by positivity
  have hlt : ((a % b : Nat) : ℚ) / b < 1 := by
    rw [div_lt_one hb']
    exact_mod_cast Nat.mod_lt a hb
  unfold roundHalfEven
  dsimp only
  rw [hquotient]
  split
  case isTrue h =>
    have hle : ((a % b : Nat) : ℚ) / b ≤ 1 / 2 := by
      rw [div_le_div_iff₀ hb' two_pos]
      exact_mod_cast (by omega : a % b * 2 ≤ 1 * b)
    rw [sub_add_cancel_left, abs_neg, abs_of_nonneg hnonneg]
    refine ⟨hle, fun heq => ?_⟩
    rw [div_eq_div_iff hb'.ne' two_ne_zero] at heq
    have heq : a % b * 2 = 1 * b := by exact_mod_cast heq
    exact Nat.even_iff.mpr (h.resolve_left (by omega)).2
  case isFalse h =>
    have hle : 1 / 2 ≤ ((a % b : Nat) : ℚ) / b := by
      rw [div_le_div_iff₀ two_pos hb']
      exact_mod_cast (by omega : 1 * b ≤ a % b * 2)
    rw [Nat.cast_add_one, add_sub_add_left_eq_sub, abs_of_nonneg (by linarith)]
    refine ⟨by linarith, fun heq => ?_⟩
    have heq : ((a % b : Nat) : ℚ) / b = 1 / 2 := by linarith
    rw [div_eq_div_iff hb'.ne' two_ne_zero] at heq
    have heq : a % b * 2 = 1 * b := by exact_mod_cast heq
    exact Nat.even_add_one.mpr fun heven => h (.inr ⟨by omega, Nat.even_iff.mp heven⟩)

/-- An integer that is at most half away is nearest, and only one that is half away is not the only
nearest one. -/
lemma nearest_of_error (h : |(m : ℚ) - x| ≤ 1 / 2) (k : Nat) :
    |(m : ℚ) - x| ≤ |(k : ℚ) - x| ∧
      (k ≠ m → |(k : ℚ) - x| = |(m : ℚ) - x| → |(m : ℚ) - x| = 1 / 2) := by
  by_cases hk : k = m
  · subst hk
    exact ⟨le_refl _, fun hne => absurd rfl hne⟩
  · have hone : (1 : ℚ) ≤ |(k : ℚ) - m| := by
      have : (1 : ℤ) ≤ |(k : ℤ) - m| := Int.one_le_abs (by omega)
      exact_mod_cast this
    have htriangle := abs_sub_le (k : ℚ) x m
    rw [abs_sub_comm x] at htriangle
    exact ⟨by linarith, fun _ heq => by linarith⟩

/-- An even integer is reached from halfway below it on. -/
lemma lt_iff_of_error (h : |(m : ℚ) - x| ≤ 1 / 2) (heven : |(m : ℚ) - x| = 1 / 2 → Even m)
    (hk : Even k) : m < k ↔ x < k - 1 / 2 := by
  obtain ⟨hlower, hupper⟩ := abs_le.mp h
  constructor
  · intro hlt
    by_contra hge
    have hle : (m : ℚ) + 1 ≤ k := by exact_mod_cast hlt
    have heq : (m : ℚ) + 1 = k := by linarith
    have habs : |(m : ℚ) - x| = 1 / 2 := by
      rw [abs_of_nonpos (by linarith)]
      linarith
    have heq : m + 1 = k := by exact_mod_cast heq
    exact Nat.even_add_one.mp (heq ▸ hk) (heven habs)
  · intro hlt
    have : (m : ℚ) < k := by linarith
    exact_mod_cast this

/-- The pattern stands for the value nearest to `y` of those that it could stand for, which count in
steps of `2 ^ shift`. -/
structure Rounds (y : ℚ) (pattern shift m : Nat) : Prop where
  eq : pattern = shift * 2 ^ 52 + m
  error : |(m : ℚ) - y / 2 ^ shift| ≤ 1 / 2
  even : |(m : ℚ) - y / 2 ^ shift| = 1 / 2 → Even m
  lt : y < 2 ^ (53 + shift)
  le : shift = 0 ∨ 2 ^ (52 + shift) ≤ y

namespace Rounds

lemma scaled_lt (h : Rounds y pattern shift m) : y / 2 ^ shift < 2 ^ 53 := by
  rw [div_lt_iff₀ (by positivity), ← pow_add]
  exact h.lt

lemma le_scaled (h : Rounds y pattern shift m) : shift = 0 ∨ 2 ^ 52 ≤ y / 2 ^ shift := by
  rw [le_div_iff₀ (by positivity), ← pow_add]
  exact h.le

lemma le_two_pow (h : Rounds y pattern shift m) : m ≤ 2 ^ 53 := by
  have hscaled := h.scaled_lt
  have herror := (abs_le.mp h.error).2
  have : (m : ℚ) < (2 ^ 53 + 1 : Nat) := by
    push_cast
    linarith
  exact Nat.lt_succ_iff.mp (Nat.cast_lt.mp this)

lemma two_pow_le (h : Rounds y pattern shift m) : shift = 0 ∨ 2 ^ 52 ≤ m := by
  refine h.le_scaled.imp_right fun hscaled => ?_
  have herror := (abs_le.mp h.error).1
  have : ((2 ^ 52 : Nat) : ℚ) < (m + 1 : Nat) := by
    push_cast
    linarith
  exact Nat.lt_succ_iff.mp (Nat.cast_lt.mp this)

lemma units_eq (h : Rounds y pattern shift m) : units pattern = m * 2 ^ shift := by
  rw [h.eq, units_add h.le_two_pow h.two_pow_le]

lemma even_significand (h : Rounds y pattern shift m) (hm : Even m) :
    Even (significand pattern) := by
  rw [even_significand_iff, h.eq, Nat.even_iff]
  have := Nat.even_iff.mp hm
  omega

/-- The distance of a multiple of the step, counted in steps. -/
lemma abs_sub_eq (k : Nat) :
    |((k * 2 ^ shift : Nat) : ℚ) - y| = |(k : ℚ) - y / 2 ^ shift| * 2 ^ shift := by
  have hpos : (0 : ℚ) < 2 ^ shift := by positivity
  rw [← abs_of_pos hpos, ← abs_mul, abs_of_pos hpos, sub_mul, div_mul_cancel₀ _ hpos.ne']
  push_cast
  rfl

/-- Another value is a multiple of the step, or it lies in front of all that are rounded to that
step. -/
lemma units_cases (h : Rounds y pattern shift m) (other : Nat) :
    (∃ k, units other = k * 2 ^ shift) ∨ units other < 2 ^ 52 * 2 ^ shift ∧
      ((2 ^ 52 * 2 ^ shift : Nat) : ℚ) ≤ y := by
  rcases dvd_units_or_lt shift other with hdvd | hlt
  · exact .inl (exists_eq_mul_left_of_dvd hdvd)
  · rcases h.le with rfl | hle
    · exact .inl ⟨units other, by simp⟩
    · rw [← pow_add]
      exact .inr ⟨hlt, by exact_mod_cast hle⟩

/-- No pattern stands for a value nearer to `y`, and where one stands for another value as near, the
significand of this one is even. -/
theorem nearest (h : Rounds y pattern shift m) (other : Nat) :
    |(units pattern : ℚ) - y| ≤ |(units other : ℚ) - y| ∧
      (units other ≠ units pattern → |(units other : ℚ) - y| = |(units pattern : ℚ) - y| →
        Even (significand pattern)) := by
  have hpos : (0 : ℚ) < 2 ^ shift := by positivity
  rw [h.units_eq]
  rcases h.units_cases other with ⟨k, hk⟩ | ⟨hlt, hle⟩
  · obtain ⟨hnearest, htie⟩ := nearest_of_error h.error k
    rw [hk, abs_sub_eq, abs_sub_eq]
    refine ⟨mul_le_mul_of_nonneg_right hnearest hpos.le, fun hne heq => ?_⟩
    have hne : k ≠ m := fun hkm => hne (by rw [hkm])
    exact h.even_significand (h.even (htie hne (mul_right_cancel₀ hpos.ne' heq)))
  · -- The first value that is rounded to this step is nearer to `y` than any in front of it.
    have hnearest : |((m * 2 ^ shift : Nat) : ℚ) - y| ≤ |((2 ^ 52 * 2 ^ shift : Nat) : ℚ) - y| := by
      rw [abs_sub_eq, abs_sub_eq]
      exact mul_le_mul_of_nonneg_right (nearest_of_error h.error _).1 hpos.le
    have hlt : (units other : ℚ) < (2 ^ 52 * 2 ^ shift : Nat) := by exact_mod_cast hlt
    rw [abs_of_nonpos (sub_nonpos.mpr hle)] at hnearest
    rw [abs_of_nonpos (by linarith : (units other : ℚ) - y ≤ 0)]
    exact ⟨by linarith, fun _ heq => by linarith⟩

/-- The finite patterns are those of what is less than halfway from the greatest of them to the next
power of two. -/
theorem lt_infinity_iff (h : Rounds y pattern shift m) :
    pattern < infinity ↔ y < (2 ^ 54 - 1) * 2 ^ 2044 := by
  have hinfinity : infinity = 2047 * 2 ^ 52 := rfl
  have hm := h.le_two_pow
  rw [h.eq, hinfinity]
  rcases Nat.lt_trichotomy shift 2045 with hlt | rfl | hgt
  · -- In the binades below the last one nothing is rounded past the finite patterns.
    have hy : y < 2 ^ (53 + 2044) :=
      h.lt.trans_le (pow_le_pow_right₀ one_le_two (by omega))
    have hpos : (0 : ℚ) < 2 ^ 2044 := by positivity
    rw [pow_add] at hy
    refine iff_of_true (by omega) (hy.trans_le ?_)
    exact mul_le_mul_of_nonneg_right (by norm_num) hpos.le
  · have hlast := lt_iff_of_error h.error h.even (k := 2 ^ 53) (by decide)
    have hpos : (0 : ℚ) < 2 ^ 2045 := by positivity
    have hpow : (2 ^ 54 - 1 : ℚ) * 2 ^ 2044 = ((2 ^ 53 : Nat) - 1 / 2) * 2 ^ 2045 := by
      rw [show (2 : ℚ) ^ 2045 = 2 ^ 2044 * 2 from pow_succ 2 2044]
      generalize (2 : ℚ) ^ 2044 = step
      push_cast
      ring
    rw [hpow, ← div_lt_iff₀ hpos, ← hlast]
    omega
  · have hm := h.two_pow_le.resolve_left (by omega)
    have hy : 2 ^ (54 + 2044) ≤ y :=
      (pow_le_pow_right₀ one_le_two (by omega)).trans (h.le.resolve_left (by omega))
    have hpos : (0 : ℚ) < 2 ^ 2044 := by positivity
    rw [pow_add] at hy
    refine iff_of_false (by omega) (not_lt.mpr (le_trans ?_ hy))
    exact mul_le_mul_of_nonneg_right (by norm_num) hpos.le

end Rounds

/-- A quotient is rounded to a multiple of the last place that its leading 53 bits have. -/
lemma rounds_of_quotient (hb : 0 < b) (hshift : shift = (a / b).log2 - 52) :
    Rounds (a / b) (shift * 2 ^ 52 + roundHalfEven a (b * 2 ^ shift)) shift
      (roundHalfEven a (b * 2 ^ shift)) := by
  have hb' : (0 : ℚ) < b := by exact_mod_cast hb
  obtain ⟨herror, heven⟩ :=
    roundHalfEven_error (a := a) (Nat.mul_pos hb (Nat.two_pow_pos shift))
  rw [Nat.cast_mul, Nat.cast_pow, Nat.cast_two, ← div_div] at herror heven
  refine ⟨rfl, herror, heven, ?_, ?_⟩
  · have hlt : a / b < 2 ^ (53 + shift) :=
      Nat.lt_log2_self.trans_le (Nat.pow_le_pow_right two_pos (by omega))
    rw [Nat.div_lt_iff_lt_mul hb] at hlt
    rw [div_lt_iff₀ hb']
    exact_mod_cast hlt
  · by_cases hzero : shift = 0
    · exact .inl hzero
    · right
      have hle : 2 ^ (52 + shift) ≤ a / b := by
        rw [hshift, Nat.add_sub_cancel' (by omega)]
        exact Nat.log2_self_le fun h => by simp [h, Nat.log2_zero] at hshift; omega
      rw [Nat.le_div_iff_mul_le hb] at hle
      rw [le_div_iff₀ hb']
      exact_mod_cast hle

/-- The rounded pattern is that of a value nearest to the exact one. -/
theorem exists_rounds (hden : 0 < den) :
    ∃ shift m, Rounds (num / den * 2 ^ 1074) (nearestPattern num den) shift m := by
  unfold nearestPattern
  dsimp only
  have hcast (k : Nat) : (num : ℚ) / den * 2 ^ k = (num <<< k : Nat) / den := by
    rw [Nat.shiftLeft_eq, Nat.cast_mul, Nat.cast_pow, Nat.cast_two, mul_div_right_comm]
  rw [hcast, Nat.shiftLeft_eq (Nat.log2 _ - 52), Nat.shiftLeft_eq den]
  exact ⟨_, _, rounds_of_quotient hden rfl⟩

end TextParsing.Double
