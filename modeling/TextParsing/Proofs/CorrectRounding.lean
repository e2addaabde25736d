import TextParsing.Proofs.MaximalMunch
import TextParsing.Proofs.Rounding

/-! Correct rounding. A decimal fraction is read as the double nearest to its exact value, with the
sign that it is written with. -/
namespace TextParsing

namespace Double
variable {num den : Nat} {x : ℚ} {negative : Bool} {d : Double}

/-- The absolute value of a finite double. -/
def abs (d : Double) : ℚ := units d.magnitude / 2 ^ 1074

/-- Of the finite doubles none is nearer in size to `x`, and where another size is as near this one
has the even significand. -/
structure IsNearest (x : ℚ) (d : Double) : Prop where
  finite : d.isFinite = true
  le : ∀ other : Double, other.isFinite = true → |d.abs - x| ≤ |other.abs - x|
  even : ∀ other : Double, other.isFinite = true → other.abs ≠ d.abs →
    |other.abs - x| = |d.abs - x| → Even (significand d.magnitude)

lemma abs_sub_eq_div (d : Double) (x : ℚ) :
    |d.abs - x| = |(units d.magnitude : ℚ) - x * 2 ^ 1074| / 2 ^ 1074 := by
  have hpos : (0 : ℚ) < 2 ^ 1074 := by positivity
  unfold abs
  generalize (2 : ℚ) ^ 1074 = unit at *
  rw [← abs_of_pos hpos, ← abs_div, abs_of_pos hpos, sub_div, mul_div_cancel_right₀ _ hpos.ne']

/-- A pattern that `x` is rounded to is that of a nearest double. -/
lemma Rounds.isNearest {pattern shift m : Nat} (h : Rounds (x * 2 ^ 1074) pattern shift m)
    (hfinite : pattern < infinity) (negative : Bool) :
    IsNearest x (ofPattern negative pattern) := by
  have hpos : (0 : ℚ) < 2 ^ 1074 := by positivity
  refine ⟨isFinite_ofPattern negative hfinite, fun other _ => ?_, fun other _ hne heq => ?_⟩
  · rw [abs_sub_eq_div, abs_sub_eq_div, magnitude_ofPattern negative hfinite]
    exact div_le_div_of_nonneg_right (h.nearest other.magnitude).1 hpos.le
  · rw [abs_sub_eq_div, abs_sub_eq_div, div_left_inj' hpos.ne'] at heq
    rw [magnitude_ofPattern negative hfinite] at heq ⊢
    refine (h.nearest other.magnitude).2 (fun hunits => hne ?_) heq
    rw [abs, abs, hunits, magnitude_ofPattern negative hfinite]

lemma bound_mul_two_pow :
    ((2 : ℚ) ^ 1024 - 2 ^ 970) * 2 ^ 1074 = (2 ^ 54 - 1) * 2 ^ 2044 := by
  rw [show (2 : ℚ) ^ 1024 = 2 ^ 54 * 2 ^ 970 from pow_add 2 54 970,
    show (2 : ℚ) ^ 2044 = 2 ^ 970 * 2 ^ 1074 from pow_add 2 970 1074]
  generalize (2 : ℚ) ^ 970 = u
  generalize (2 : ℚ) ^ 1074 = v
  ring

/-- A ratio in the finite range has a nearest double, under either sign. -/
theorem ofRatio?_spec (hden : 0 < den) (negative : Bool) :
    if (num / den : ℚ) < 2 ^ 1024 - 2 ^ 970 then
      ∃ d, ofRatio? negative num den = some d ∧ d.isNegative = negative ∧ d.IsNearest (num / den)
    else ofRatio? negative num den = none := by
  obtain ⟨shift, m, h⟩ := @exists_rounds num den hden
  have hpos : (0 : ℚ) < 2 ^ 1074 := by positivity
  have hbound := h.lt_infinity_iff
  rw [← bound_mul_two_pow, mul_lt_mul_iff_of_pos_right hpos] at hbound
  unfold ofRatio?
  dsimp only
  split
  case isTrue hx =>
    have hfinite := hbound.mpr hx
    rw [if_pos hfinite]
    exact ⟨_, rfl, isNegative_ofPattern negative hfinite, h.isNearest hfinite negative⟩
  case isFalse hx => rw [if_neg (mt hbound.mp hx)]

end Double

namespace Decimal
variable {w whole fraction : Text} {negative : Bool}

/-- The exact value of digits before and behind a point. -/
def value (negative : Bool) (whole fraction : Text) : ℚ :=
  let magnitude : ℚ :=
    Nat.ofDigitChars 10 whole 0 + Nat.ofDigitChars 10 fraction 0 / 10 ^ fraction.length
  if negative then -magnitude else magnitude

/-- Digits in front weigh by the number of digits behind them. -/
lemma ofDigitChars_append (s t : Text) : Nat.ofDigitChars 10 (s ++ t) 0 =
    10 ^ t.length * Nat.ofDigitChars 10 s 0 + Nat.ofDigitChars 10 t 0 := by
  rw [Nat.ofDigitChars_append, Nat.ofDigitChars_eq_ofDigitChars_zero]

/-- Without its sign a decimal fraction is a ratio of integers. -/
lemma abs_value (negative : Bool) (whole fraction : Text) :
    |value negative whole fraction| =
      Nat.ofDigitChars 10 (whole ++ fraction) 0 / (10 ^ fraction.length : Nat) := by
  have hsum : (Nat.ofDigitChars 10 whole 0 +
      Nat.ofDigitChars 10 fraction 0 / 10 ^ fraction.length : ℚ) =
        Nat.ofDigitChars 10 (whole ++ fraction) 0 / (10 ^ fraction.length : Nat) := by
    have hpos : (0 : ℚ) < 10 ^ fraction.length := by positivity
    rw [ofDigitChars_append, add_div' _ _ _ hpos.ne', mul_comm]
    push_cast
    rfl
  have habs : |value negative whole fraction| = |(Nat.ofDigitChars 10 whole 0 +
      Nat.ofDigitChars 10 fraction 0 / 10 ^ fraction.length : ℚ)| := by
    cases negative
    · rfl
    · exact abs_neg _
  rw [habs, abs_of_nonneg (by positivity), hsum]

/-- A decimal fraction in the finite range has a nearest double, with its sign. -/
theorem ofDecimal?_spec (negative : Bool) (whole fraction : Text) :
    if |value negative whole fraction| < 2 ^ 1024 - 2 ^ 970 then
      ∃ d, Double.ofDecimal? negative whole fraction = some d ∧ d.isNegative = negative ∧
        d.IsNearest |value negative whole fraction|
    else Double.ofDecimal? negative whole fraction = none := by
  rw [abs_value, Double.ofDecimal?, ofDigits_eq]
  exact Double.ofRatio?_spec (Nat.pow_pos (by decide)) negative

/-- Halfway between `2 ^ 53` and the next double the even significand is taken. -/
example : (Double.ofDecimal? false "9007199254740993".toList []).map Double.bits =
    some 0x4340000000000000 := by
  decide +kernel

lemma IsSignedDecimal.negative_iff (h : IsSignedDecimal w negative whole fraction) :
    negative = true ↔ w.head? = some '-' := by
  obtain ⟨s, point, rfl, hsign, hwhole, hpoint⟩ := h
  cases hsign with
  | none =>
    have hout := startsOutside_isSignChar hwhole (hpoint.startsOutside rfl)
    exact iff_of_false Bool.false_ne_true fun hhead => nomatch hout '-' hhead
  | plus => simp
  | minus => simp

end Decimal

namespace Parser
open Decimal

/-- Of the beginnings that are an optional sign and digits with a point among them or not, the
longest one is read if it has a digit and its value is below the rounding bound of the finite
doubles, and else nothing is. What is read is a double nearest to the exact value, ties going to the
even significand, and negative where a minus was written, zeros included. -/
theorem double_correctly_rounded (c : Cursor) :
    ∃ w negative whole fraction,
      Text.IsLongest DecimalScan w c.rest ∧
      IsSignedDecimal w negative whole fraction ∧
      if whole ++ fraction ≠ [] ∧ |value negative whole fraction| < 2 ^ 1024 - 2 ^ 970 then
        ∃ d e, double c = .success d e ∧ c.Passes w e ∧
          (d.isNegative = true ↔ w.head? = some '-') ∧
          d.IsNearest |value negative whole fraction|
      else double c = .failure := by
  obtain ⟨w, hlongest⟩ := Text.exists_isLongest (P := DecimalScan)
    ⟨false, [], [], [], [], rfl, .none, by simp, .none⟩ c.rest
  obtain ⟨negative, whole, fraction, hw⟩ := hlongest.holds
  refine ⟨w, negative, whole, fraction, hlongest, hw, ?_⟩
  have hspec := ofDecimal?_spec negative whole fraction
  split
  case isTrue h =>
    obtain ⟨hne, hlt⟩ := h
    rw [if_pos hlt] at hspec
    obtain ⟨d, hd, hsign, hnearest⟩ := hspec
    obtain ⟨rest, hrest⟩ := hlongest.begins
    obtain ⟨e, hpass, -⟩ := Cursor.exists_passes_of_rest_eq hrest.symm
    refine ⟨d, e, (double_eq_success_iff hlongest hw).mpr ⟨hne, hd, hpass⟩, hpass, ?_, hnearest⟩
    rw [hsign]
    exact hw.negative_iff
  case isFalse h =>
    cases hs : double c with
    | failure => rfl
    | unfinished => exact absurd hs (reads_double.answers c)
    | success d e =>
      obtain ⟨hne, hd, -⟩ := (double_eq_success_iff hlongest hw).mp hs
      rw [if_neg fun hlt => h ⟨hne, hlt⟩] at hspec
      cases hspec.symm.trans hd

end Parser
end TextParsing
