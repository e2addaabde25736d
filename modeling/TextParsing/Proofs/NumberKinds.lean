import TextParsing.Proofs.CorrectRounding

/-! Kinds of numbers. A number is read over the text of a double; only its kind says more, and the
kind depends on the text alone: an integer has no point and is in the 64-bit range. -/
namespace TextParsing

namespace Decimal
variable {w whole fraction digits : Text} {negative : Bool}

lemma ofDigitChars_lt_pow_length (h : ∀ ch ∈ digits, ch.isDigit = true) :
    Nat.ofDigitChars 10 digits 0 < 10 ^ digits.length := by
  induction digits with
  | nil => simp
  | cons ch digits ih =>
    obtain ⟨hch, hdigits⟩ := List.forall_mem_cons.mp h
    have hvalue : Nat.ofDigitChars 10 [ch] 0 ≤ 9 := by
      have hnine : ch.toNat ≤ '9'.toNat := (Char.isDigit_iff_toNat.mp hch).2
      simp only [Nat.ofDigitChars_cons, Nat.ofDigitChars_nil, Nat.mul_zero, Nat.zero_add]
      exact Nat.sub_le_sub_right hnine '0'.toNat
    calc Nat.ofDigitChars 10 (ch :: digits) 0
      _ = 10 ^ digits.length * Nat.ofDigitChars 10 [ch] 0 + Nat.ofDigitChars 10 digits 0 :=
        ofDigitChars_append [ch] digits
      _ < 10 ^ digits.length * Nat.ofDigitChars 10 [ch] 0 + 10 ^ digits.length :=
        Nat.add_lt_add_left (ih hdigits) _
      _ = 10 ^ digits.length * (Nat.ofDigitChars 10 [ch] 0 + 1) := (Nat.mul_succ ..).symm
      _ ≤ 10 ^ digits.length * 10 := Nat.mul_le_mul_left _ (Nat.succ_le_succ hvalue)
      _ = 10 ^ (ch :: digits).length := (pow_succ ..).symm

/-- The digits behind a point add less than one. -/
lemma abs_value_lt (negative : Bool) (whole : Text) (h : ∀ ch ∈ fraction, ch.isDigit = true) :
    |value negative whole fraction| < Nat.ofDigitChars 10 whole 0 + 1 := by
  have hpos : (0 : ℚ) < (10 ^ fraction.length : Nat) := by positivity
  have hlt : (Nat.ofDigitChars 10 fraction 0 : ℚ) < (10 ^ fraction.length : Nat) := by
    exact_mod_cast ofDigitChars_lt_pow_length h
  rw [abs_value, ofDigitChars_append, div_lt_iff₀ hpos]
  push_cast at hlt ⊢
  linarith

/-- Without digits behind a point the value is an integer. -/
lemma value_nil (negative : Bool) (digits : Text) :
    value negative digits [] = signed negative digits := by
  cases negative <;> simp [value, signed]

lemma IsFraction.forall_isDigit {point : Text} (h : IsFraction point fraction) :
    ∀ ch ∈ fraction, ch.isDigit = true := by
  cases h with
  | none => simp
  | some h => exact h

/-- The integers of 64 bits are far below the rounding bound of the finite doubles. -/
lemma two_pow_succ_le_bound : (2 : ℚ) ^ 63 + 1 ≤ 2 ^ 1024 - 2 ^ 970 := by
  have hpow : (2 : ℚ) ^ 64 ≤ 2 ^ 970 := pow_le_pow_right₀ one_le_two (by omega)
  rw [show (2 : ℚ) ^ 1024 = 2 ^ 54 * 2 ^ 970 from pow_add 2 54 970]
  generalize (2 : ℚ) ^ 970 = u at hpow ⊢
  norm_num at hpow ⊢
  linarith

lemma toInt_in_range (n : Int64) : (-2 ^ 63 : ℚ) ≤ n.toInt ∧ (n.toInt : ℚ) ≤ 2 ^ 63 - 1 := by
  constructor
  · exact_mod_cast n.le_toInt
  · exact_mod_cast Int.le_sub_one_of_lt n.toInt_lt

/-- A value that is an integer of 64 bits in front of its point has a nearest double. -/
lemma exists_ofDecimal?_eq_some {n : Int64} (hn : n.toInt = signed negative whole)
    (hfraction : ∀ ch ∈ fraction, ch.isDigit = true) :
    ∃ d, Double.ofDecimal? negative whole fraction = some d := by
  have hwhole : Nat.ofDigitChars 10 whole 0 ≤ 2 ^ 63 := by
    have hmin := n.le_toInt
    have hmax := n.toInt_lt
    unfold signed at hn
    split at hn <;> omega
  have hlt : |value negative whole fraction| < 2 ^ 1024 - 2 ^ 970 :=
    calc |value negative whole fraction|
      _ < Nat.ofDigitChars 10 whole 0 + 1 := abs_value_lt negative whole hfraction
      _ ≤ 2 ^ 63 + 1 := by exact_mod_cast Nat.succ_le_succ hwhole
      _ ≤ 2 ^ 1024 - 2 ^ 970 := two_pow_succ_le_bound
  have hspec := ofDecimal?_spec negative whole fraction
  rw [if_pos hlt] at hspec
  obtain ⟨d, hd, -⟩ := hspec
  exact ⟨d, hd⟩

end Decimal

namespace Parser
open Decimal
variable {c e stop : Cursor} {w whole fraction : Text} {negative : Bool} {n : Int64} {d : Double}

/-- Where an integer is read and no point follows, a double is read over the same text. -/
lemma double_of_int64 (h : int64 c = .success n stop) (hpoint : stop.peek? ≠ some '.') :
    ∃ w negative whole d, double c = .success d stop ∧ c.Passes w stop ∧
      IsDecimal w negative whole [] ∧ '.' ∉ w ∧ value negative whole [] = n.toInt := by
  obtain ⟨w, hpass, hw, hdigit⟩ := (reads_int64.success_iff c n stop).mp h
  obtain ⟨s, negative, whole, rfl, hsign, hne, hwhole, hn⟩ := hw
  have hdecimal : IsDecimal (s ++ whole) negative whole [] :=
    ⟨s, [], by simp, hsign, hwhole, .none, by simpa using hne⟩
  have hdot : stop.rest.StartsOutside (· == '.') := by
    intro ch hch
    rw [beq_eq_false_iff_ne]
    rintro rfl
    exact hpoint hch
  obtain ⟨d, hd⟩ := exists_ofDecimal?_eq_some hn IsFraction.none.forall_isDigit
  refine ⟨s ++ whole, negative, whole, d, ?_, hpass, hdecimal, ?_, ?_⟩
  · exact (reads_double.success_iff c d stop).mpr
      ⟨_, hpass, ⟨negative, whole, [], hdecimal, hd⟩, hdigit, .inr hdot⟩
  · exact hsign.point_not_mem hwhole
  · rw [value_nil, hn]

/-- Where an integer is read in front of a point, a double is read over the point as well. -/
lemma double_of_int64_of_point (h : int64 c = .success n stop) (hpoint : stop.peek? = some '.') :
    ∃ w negative whole fraction d e more, double c = .success d e ∧ c.Passes w e ∧
      IsDecimal w negative whole fraction ∧ '.' ∈ w ∧ stop.Passes ('.' :: more) e := by
  obtain ⟨w, hpass, hw, hdigit⟩ := (reads_int64.success_iff c n stop).mp h
  obtain ⟨s, negative, whole, rfl, hsign, hne, hwhole, hn⟩ := hw
  obtain ⟨rest, hrest⟩ := List.head?_eq_some_iff.mp hpoint
  have hfraction : ∀ ch ∈ rest.takeWhile Char.isDigit, ch.isDigit = true :=
    List.all_eq_true.mp List.all_takeWhile
  have hsplit : stop.rest = '.' :: rest.takeWhile Char.isDigit ++ rest.dropWhile Char.isDigit := by
    rw [hrest, List.cons_append, List.takeWhile_append_dropWhile]
  obtain ⟨e, hmore, he⟩ := Cursor.exists_passes_of_rest_eq hsplit
  have hdecimal : IsDecimal (s ++ whole ++ '.' :: rest.takeWhile Char.isDigit) negative whole
      (rest.takeWhile Char.isDigit) :=
    ⟨s, _, by simp, hsign, hwhole, .some hfraction, by simp [hne]⟩
  obtain ⟨d, hd⟩ := exists_ofDecimal?_eq_some hn hfraction
  have hdot : '.' ∈ s ++ whole ++ '.' :: rest.takeWhile Char.isDigit := by simp
  refine ⟨_, negative, whole, _, d, e, _, ?_, hpass.trans hmore, hdecimal, hdot, hmore⟩
  refine (reads_double.success_iff c d e).mpr
    ⟨_, hpass.trans hmore, ⟨negative, whole, _, hdecimal, hd⟩, ?_, .inl hdot⟩
  rw [he]
  exact Text.startsOutside_dropWhile _ _

/-- A double without a point is read as an integer too if its value is one. -/
lemma int64_of_double (h : double c = .success d e) (hpass : c.Passes w e)
    (hw : IsDecimal w negative whole fraction) (hpoint : '.' ∉ w)
    (hmin : -2 ^ 63 ≤ value negative whole fraction)
    (hmax : value negative whole fraction ≤ 2 ^ 63 - 1) :
    ∃ n, int64 c = .success n e ∧ (n.toInt : ℚ) = value negative whole fraction := by
  obtain ⟨t, ht, -, hdigit, -⟩ := (reads_double.success_iff c d e).mp h
  obtain ⟨s, point, rfl, hsign, hwhole, hfraction, hne⟩ := hw
  cases hfraction with
  | some => simp at hpoint
  | none =>
    rw [value_nil] at hmin hmax ⊢
    have hn : (Int64.ofInt (signed negative whole)).toInt = signed negative whole := by
      apply Int64.toInt_ofInt_of_le
      · exact_mod_cast hmin
      · have : signed negative whole ≤ 2 ^ 63 - 1 := by exact_mod_cast hmax
        omega
    refine ⟨_, ?_, congrArg Int.cast hn⟩
    rw [List.append_nil] at hpass hne
    exact (reads_int64.success_iff c _ e).mpr
      ⟨_, hpass, ⟨s, negative, whole, rfl, hsign, hne, hwhole, hn⟩, hdigit⟩

lemma number_of_point (h : int64 c = .success n stop) (hpoint : stop.peek? = some '.')
    (hd : double c = .success d e) : number c = .success (.double d) e := by
  simp only [number, h, hpoint, if_true, Parser.map, hd, Outcome.andThen_success]

lemma number_of_no_point (h : int64 c = .success n stop) (hpoint : stop.peek? ≠ some '.') :
    number c = .success (.int n) stop := by
  simp [number, h, hpoint]

lemma number_of_no_int64 (h : ¬ ∃ n stop, int64 c = .success n stop) :
    number c = double.map .double c := by
  unfold number
  split
  case h_1 n stop hn => exact absurd ⟨n, stop, hn⟩ h
  case h_2 => rfl

/-- A number is read where a double is read, over the same text, and fails where a double fails. It is
an integer if the text has no point and its value is a 64-bit integer, which is the one that is read
there as an integer, and else it is the double. So where an integer is read in front of a point the
number does not fail and does not stop before the point. -/
theorem number_refines_double (c : Cursor) :
    ((number c = .failure ∧ double c = .failure) ∨
      ∃ w negative whole fraction v d e, number c = .success v e ∧ double c = .success d e ∧
        c.Passes w e ∧ IsDecimal w negative whole fraction ∧
        if '.' ∉ w ∧ -2 ^ 63 ≤ value negative whole fraction ∧
            value negative whole fraction ≤ 2 ^ 63 - 1 then
          ∃ n, v = .int n ∧ (n.toInt : ℚ) = value negative whole fraction ∧
            int64 c = .success n e
        else v = .double d) ∧
    ∀ n stop, int64 c = .success n stop → stop.peek? = some '.' →
      ∃ d e more, number c = .success (.double d) e ∧ stop.Passes ('.' :: more) e := by
  constructor
  · by_cases hint : ∃ n stop, int64 c = .success n stop
    · right
      obtain ⟨n, stop, hn⟩ := hint
      by_cases hpoint : stop.peek? = some '.'
      · obtain ⟨w, negative, whole, fraction, d, e, -, hd, hpass, hw, hmem, -⟩ :=
          double_of_int64_of_point hn hpoint
        refine ⟨w, negative, whole, fraction, .double d, d, e, ?_, hd, hpass, hw, ?_⟩
        · exact number_of_point hn hpoint hd
        · rw [if_neg fun h => h.1 hmem]
      · obtain ⟨w, negative, whole, d, hd, hpass, hw, hmem, hvalue⟩ := double_of_int64 hn hpoint
        refine ⟨w, negative, whole, [], .int n, d, stop, ?_, hd, hpass, hw, ?_⟩
        · exact number_of_no_point hn hpoint
        · rw [hvalue, if_pos ⟨hmem, toInt_in_range n⟩]
          exact ⟨n, rfl, rfl, hn⟩
    · have hnumber := number_of_no_int64 hint
      cases hd : double c with
      | failure => exact .inl ⟨by rw [hnumber, Parser.map, hd, Outcome.andThen_failure], rfl⟩
      | unfinished => exact absurd hd (reads_double.answers c)
      | success d e =>
        right
        obtain ⟨w, hpass, ⟨negative, whole, fraction, hw, -⟩, -⟩ :=
          (reads_double.success_iff c d e).mp hd
        refine ⟨w, negative, whole, fraction, .double d, d, e, ?_, rfl, hpass, hw, ?_⟩
        · rw [hnumber, Parser.map, hd, Outcome.andThen_success]
        · rw [if_neg]
          rintro ⟨hmem, hmin, hmax⟩
          obtain ⟨n, hn, -⟩ := int64_of_double hd hpass hw hmem hmin hmax
          exact hint ⟨n, e, hn⟩
  · intro n stop h hpoint
    obtain ⟨w, negative, whole, fraction, d, e, more, hd, -, -, -, hmore⟩ :=
      double_of_int64_of_point h hpoint
    exact ⟨d, e, more, number_of_point h hpoint hd, hmore⟩

/-- A zero with a minus sign in front of two points: the first point makes it a double, which keeps the
sign, and the second one is left. -/
theorem number_refines_double_negative_zero :
    ∃ stop d e more, int64 (.ofText ['-', '0', '.', '.']) = .success 0 stop ∧
      stop.peek? = some '.' ∧ number (.ofText ['-', '0', '.', '.']) = .success (.double d) e ∧
      stop.Passes ('.' :: more) e ∧ d.isNegative = true ∧ e.rest = ['.'] := by
  have hstop : int64 (.ofText ['-', '0', '.', '.']) =
      .success 0 ⟨['-', '0', '.', '.'], 2, ['.', '.']⟩ := by rfl
  have hrun : number (.ofText ['-', '0', '.', '.']) =
      .success (.double ⟨0x8000000000000000⟩) ⟨['-', '0', '.', '.'], 3, ['.']⟩ := by rfl
  obtain ⟨d, e, more, hnumber, hmore⟩ := (number_refines_double _).2 _ _ hstop rfl
  cases hnumber.symm.trans hrun
  exact ⟨_, _, _, more, hstop, rfl, hrun, hmore, rfl, rfl⟩

end Parser
end TextParsing
