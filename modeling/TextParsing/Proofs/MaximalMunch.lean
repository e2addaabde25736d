import Mathlib.Data.Nat.Find
import TextParsing.Proofs.Numeral
import TextParsing.Proofs.RunAgreement

/-! Maximal munch. Of the beginnings of a text that are scanned as a number the longest one is read,
or else nothing: a number that is out of range is not read as a shorter one. -/
namespace TextParsing

namespace Text
variable {P : Text → Prop} {t u w rest : Text}

/-- `w` is the longest beginning of `t` for which `P` holds. -/
structure IsLongest (P : Text → Prop) (w t : Text) : Prop where
  begins : w <+: t
  holds : P w
  length_le : ∀ u, u <+: t → P u → u.length ≤ w.length

lemma IsLongest.unique (h : IsLongest P w t) (k : IsLongest P u t) : u = w := by
  have hle := h.length_le u k.begins k.holds
  have hge := k.length_le w h.begins h.holds
  exact (List.prefix_of_prefix_length_le k.begins h.begins hle).eq_of_length (by omega)

/-- Where the empty text will do there is a longest beginning. -/
lemma exists_isLongest (h : P []) (t : Text) : ∃ w, IsLongest P w t := by
  classical
  let n := Nat.findGreatest (fun n => P (t.take n)) t.length
  have hn : P (t.take n) :=
    Nat.findGreatest_spec (P := fun n => P (t.take n)) (Nat.zero_le _) (by simpa using h)
  refine ⟨t.take n, List.take_prefix n t, hn, fun u hu hP => ?_⟩
  rw [List.prefix_iff_eq_take.mp hu] at hP
  have hle : u.length ≤ n := Nat.le_findGreatest hu.length_le hP
  have := hu.length_le
  rw [List.length_take]
  omega

/-- A beginning is the longest one if it cannot be made longer. -/
lemma isLongest_append_iff (ht : P t) :
    IsLongest P t (t ++ rest) ↔ ∀ ch more, ch :: more <+: rest → ¬ P (t ++ ch :: more) := by
  constructor
  · intro h ch more hmore hP
    have hle := h.length_le _ ((List.prefix_append_right_inj t).mpr hmore) hP
    rw [List.length_append, List.length_cons] at hle
    omega
  · intro h
    refine ⟨List.prefix_append t rest, ht, fun u hu hP => ?_⟩
    by_contra hlt
    obtain ⟨more, rfl⟩ := List.prefix_of_prefix_length_le (List.prefix_append t rest) hu (by omega)
    cases more with
    | nil => simp at hlt
    | cons ch more => exact h ch more ((List.prefix_append_right_inj t).mp hu) hP

end Text

namespace Decimal
open TextParsing.Parser
variable {s s' t r r' rest digits digits' whole point fraction : Text} {negative negative' : Bool}

/-- A sign or none, and digits or none. -/
def IsSignedDigits (t : Text) (negative : Bool) (digits : Text) : Prop :=
  ∃ s : Text, t = s ++ digits ∧ IsSign s negative ∧ ∀ ch ∈ digits, ch.isDigit = true

def IntegerScan (t : Text) : Prop := ∃ negative digits, IsSignedDigits t negative digits

/-- Where no second sign follows, a sign ends in one place. -/
lemma IsSign.unique (h : IsSign s negative) (k : IsSign s' negative')
    (hr : r.StartsOutside isSignChar) (hr' : r'.StartsOutside isSignChar)
    (heq : s ++ r = s' ++ r') : s' = s ∧ negative' = negative ∧ r' = r := by
  cases h <;> cases k <;> grind [isSignChar, Text.startsOutside_cons]

lemma startsOutside_isSignChar (h : ∀ ch ∈ digits, ch.isDigit = true)
    (hrest : rest.StartsOutside isSignChar) : (digits ++ rest).StartsOutside isSignChar := by
  cases digits with
  | nil => exact hrest
  | cons ch digits =>
    exact Text.startsOutside_cons.mpr (isSignChar_eq_false (h ch (List.mem_cons_self ..)))

/-- The parts of a scan can be told from it. -/
lemma IsSignedDigits.unique (h : IsSignedDigits t negative digits)
    (k : IsSignedDigits t negative' digits') : negative' = negative ∧ digits' = digits := by
  obtain ⟨s, rfl, hsign, hdigits⟩ := h
  obtain ⟨s', heq, ksign, kdigits⟩ := k
  have hout := startsOutside_isSignChar hdigits Text.startsOutside_nil
  have kout := startsOutside_isSignChar kdigits Text.startsOutside_nil
  rw [List.append_nil] at hout kout
  exact (hsign.unique ksign hout kout heq).2

lemma IsSignedDigits.isInteger_iff {n : Int} (h : IsSignedDigits t negative digits) :
    IsInteger t n ↔ digits ≠ [] ∧ n = signed negative digits := by
  constructor
  · rintro ⟨s, negative', digits', ht, hsign, hne, hdigits, hn⟩
    obtain ⟨rfl, rfl⟩ := h.unique ⟨s, ht, hsign, hdigits⟩
    exact ⟨hne, hn⟩
  · rintro ⟨hne, hn⟩
    obtain ⟨s, ht, hsign, hdigits⟩ := h
    exact ⟨s, negative, digits, ht, hsign, hne, hdigits, hn⟩

/-- Behind a digit a scan goes on with digits. -/
lemma isLongest_integer_iff (h : IsSignedDigits t negative digits) (hne : digits ≠ []) :
    Text.IsLongest IntegerScan t (t ++ rest) ↔ rest.StartsOutside Char.isDigit := by
  rw [Text.isLongest_append_iff ⟨negative, digits, h⟩]
  obtain ⟨s, rfl, hsign, hdigits⟩ := h
  constructor
  · intro h ch hch
    obtain ⟨rest, rfl⟩ := List.head?_eq_some_iff.mp hch
    by_contra hdigit
    rw [Bool.not_eq_false] at hdigit
    refine h ch [] (List.prefix_append [ch] rest) ⟨negative, digits ++ [ch], s, ?_, hsign, ?_⟩
    · rw [List.append_assoc]
    · simpa [or_imp, forall_and] using ⟨hdigits, hdigit⟩
  · rintro hrest ch more ⟨rest, rfl⟩ ⟨negative', digits', s', heq, hsign', hdigits'⟩
    rw [List.append_assoc] at heq
    have hout : (digits ++ ch :: more).StartsOutside isSignChar :=
      startsOutside_sign hdigits .none (by simpa using hne)
    have hout' := startsOutside_isSignChar hdigits' Text.startsOutside_nil
    rw [List.append_nil] at hout'
    obtain ⟨-, -, rfl⟩ := hsign.unique hsign' hout hout' heq
    have hdigit := hdigits' ch (by simp)
    rw [Text.startsOutside_cons.mp hrest] at hdigit
    cases hdigit

/-- A writing of an integer: its sign, where a plus may be left out, any number of zeros, and its
digits. -/
def IsWriting (n : Int) (t : Text) : Prop :=
  ∃ (s : Text) (zeros : Nat), IsSign s (decide (n < 0)) ∧
    t = s ++ (List.replicate zeros '0' ++ Nat.toDigits 10 n.natAbs)

lemma isWriting_renderInt (n : Int) : IsWriting n (renderInt n) := by
  unfold renderInt
  split
  case isTrue h => exact ⟨['-'], 0, by simpa [h] using IsSign.minus, rfl⟩
  case isFalse h => exact ⟨[], 0, by simpa [h] using IsSign.none, rfl⟩

lemma IsWriting.isInteger {n : Int} (h : IsWriting n t) : IsInteger t n := by
  obtain ⟨s, zeros, hsign, rfl⟩ := h
  refine ⟨s, _, List.replicate zeros '0' ++ Nat.toDigits 10 n.natAbs, rfl, hsign, ?_,
    fun ch hch => ?_, ?_⟩
  · exact List.append_ne_nil_of_right_ne_nil _ Nat.toDigits_ne_nil
  · rcases List.mem_append.mp hch with hch | hch
    · rw [List.eq_of_mem_replicate hch]
      rfl
    · exact Nat.isDigit_of_mem_toDigits (by decide) (by decide) hch
  · have hvalue : Nat.ofDigitChars 10 (List.replicate zeros '0' ++ Nat.toDigits 10 n.natAbs) 0 =
        n.natAbs := by
      rw [Nat.ofDigitChars_append, Nat.ofDigitChars_replicate_zero, Nat.mul_zero,
        Nat.ofDigitChars_ten_toDigits]
    rw [signed, hvalue]
    split
    case isTrue h =>
      have := of_decide_eq_true h
      omega
    case isFalse h =>
      have := of_decide_eq_false (Bool.not_eq_true _ ▸ h)
      omega

/-- A sign or none, and digits with a point among them or not. -/
def IsSignedDecimal (t : Text) (negative : Bool) (whole fraction : Text) : Prop :=
  ∃ s point : Text, t = s ++ (whole ++ point) ∧ IsSign s negative ∧
    (∀ ch ∈ whole, ch.isDigit = true) ∧ IsFraction point fraction

def DecimalScan (t : Text) : Prop :=
  ∃ negative whole fraction, IsSignedDecimal t negative whole fraction

lemma IsFraction.startsOutside {p : Char → Bool} (h : IsFraction point fraction)
    (hp : p '.' = false) : point.StartsOutside p := by
  cases h with
  | none => exact Text.startsOutside_nil
  | some => exact Text.startsOutside_cons.mpr hp

lemma IsSignedDecimal.unique {whole' fraction' : Text}
    (h : IsSignedDecimal t negative whole fraction)
    (k : IsSignedDecimal t negative' whole' fraction') :
    negative' = negative ∧ whole' = whole ∧ fraction' = fraction := by
  obtain ⟨s, point, rfl, hsign, hwhole, hpoint⟩ := h
  obtain ⟨s', point', heq, ksign, kwhole, kpoint⟩ := k
  obtain ⟨-, rfl, hrest⟩ := hsign.unique ksign
    (startsOutside_isSignChar hwhole (hpoint.startsOutside rfl))
    (startsOutside_isSignChar kwhole (kpoint.startsOutside rfl)) heq
  have hw := Text.takeWhile_append hwhole (hpoint.startsOutside (p := Char.isDigit) rfl)
  have kw := Text.takeWhile_append kwhole (kpoint.startsOutside (p := Char.isDigit) rfl)
  rw [hrest, hw] at kw
  subst kw
  obtain rfl := List.append_cancel_left hrest
  refine ⟨rfl, rfl, ?_⟩
  cases hpoint with
  | none =>
    cases kpoint
    rfl
  | some =>
    cases kpoint
    rfl

lemma IsSignedDecimal.isDecimal_iff {whole' fraction' : Text}
    (h : IsSignedDecimal t negative whole fraction) :
    IsDecimal t negative' whole' fraction' ↔
      whole ++ fraction ≠ [] ∧ negative' = negative ∧ whole' = whole ∧ fraction' = fraction := by
  constructor
  · rintro ⟨s, point, ht, hsign, hwhole, hpoint, hne⟩
    obtain ⟨rfl, rfl, rfl⟩ := h.unique ⟨s, point, ht, hsign, hwhole, hpoint⟩
    exact ⟨hne, rfl, rfl, rfl⟩
  · rintro ⟨hne, rfl, rfl, rfl⟩
    obtain ⟨s, point, ht, hsign, hwhole, hpoint⟩ := h
    exact ⟨s, point, ht, hsign, hwhole, hpoint, hne⟩

/-- Behind the sign of a scan there are digits and one point at most. -/
lemma IsFraction.forall_mem (h : IsFraction point fraction)
    (hwhole : ∀ ch ∈ whole, ch.isDigit = true) :
    (∀ ch ∈ whole ++ point, ch.isDigit = true ∨ ch = '.') ∧ (whole ++ point).count '.' ≤ 1 := by
  have hcount {digits : Text} (h : ∀ ch ∈ digits, ch.isDigit = true) : digits.count '.' = 0 :=
    List.count_eq_zero.mpr fun hmem => nomatch h '.' hmem
  cases h with
  | none =>
    rw [List.append_nil, hcount hwhole]
    exact ⟨fun ch hch => .inl (hwhole ch hch), by omega⟩
  | some h =>
    rw [List.count_append, hcount hwhole, List.count_cons_self, hcount h]
    refine ⟨fun ch hch => ?_, by omega⟩
    rcases List.mem_append.mp hch with hch | hch
    · exact .inl (hwhole ch hch)
    · rcases List.mem_cons.mp hch with rfl | hch
      · exact .inr rfl
      · exact .inl (h ch hch)

lemma IsSignedDecimal.snoc_digit {ch : Char} (h : IsSignedDecimal t negative whole fraction)
    (hch : ch.isDigit = true) :
    ∃ whole' fraction', IsSignedDecimal (t ++ [ch]) negative whole' fraction' := by
  obtain ⟨s, point, rfl, hsign, hwhole, hpoint⟩ := h
  have hsnoc {digits : Text} (h : ∀ ch ∈ digits, ch.isDigit = true) :
      ∀ other ∈ digits ++ [ch], other.isDigit = true := by
    simpa [or_imp, forall_and] using ⟨h, hch⟩
  cases hpoint with
  | none => exact ⟨whole ++ [ch], [], s, [], by simp, hsign, hsnoc hwhole, .none⟩
  | some h =>
    exact ⟨whole, fraction ++ [ch], s, '.' :: (fraction ++ [ch]), by simp, hsign, hwhole,
      .some (hsnoc h)⟩

lemma IsSignedDecimal.snoc_point (h : IsSignedDecimal t negative whole fraction)
    (hpoint : '.' ∉ t) : IsSignedDecimal (t ++ ['.']) negative whole [] := by
  obtain ⟨s, point, rfl, hsign, hwhole, hfraction⟩ := h
  cases hfraction with
  | none => exact ⟨s, ['.'], by simp, hsign, hwhole, .some (by simp)⟩
  | some => simp at hpoint

/-- With a digit or a point in it a scan goes on with nothing but digits, and with a point where there
was none. -/
lemma IsSignedDecimal.not_decimalScan_append {ch : Char} {more : Text}
    (h : IsSignedDecimal t negative whole fraction) (hne : whole ++ fraction ≠ [])
    (hdigit : ch.isDigit = false) (hdot : '.' ∈ t ∨ ch ≠ '.') : ¬ DecimalScan (t ++ ch :: more) := by
  rintro ⟨negative', whole', fraction', s', point', heq, hsign', hwhole', hpoint'⟩
  obtain ⟨s, point, rfl, hsign, hwhole, hpoint⟩ := h
  rw [List.append_assoc, List.append_assoc] at heq
  obtain ⟨-, -, hrest⟩ := hsign.unique hsign' (startsOutside_sign hwhole hpoint hne)
    (startsOutside_isSignChar hwhole' (hpoint'.startsOutside rfl)) heq
  obtain ⟨hmem, hcount⟩ := hpoint'.forall_mem hwhole'
  rw [hrest, ← List.append_assoc] at hmem hcount
  -- What follows is no digit, so it would be a second point.
  obtain rfl : ch = '.' := (hmem ch (by simp)).resolve_left (by simp [hdigit])
  have hpoint : '.' ∈ whole ++ point := by
    refine (List.mem_append.mp (hdot.resolve_right fun h => h rfl)).resolve_left fun hs => ?_
    cases hsign <;> simp at hs
  have := List.count_pos_iff.mpr hpoint
  rw [List.count_append, List.count_cons_self] at hcount
  omega

/-- Behind a digit or a point a scan goes on with digits, or with a point where there was none. -/
lemma isLongest_decimal_iff (h : IsSignedDecimal t negative whole fraction)
    (hne : whole ++ fraction ≠ []) :
    Text.IsLongest DecimalScan t (t ++ rest) ↔
      rest.StartsOutside Char.isDigit ∧ ('.' ∈ t ∨ rest.StartsOutside (· == '.')) := by
  rw [Text.isLongest_append_iff ⟨negative, whole, fraction, h⟩]
  constructor
  · intro hlongest
    constructor
    · intro ch hch
      obtain ⟨rest, rfl⟩ := List.head?_eq_some_iff.mp hch
      by_contra hdigit
      exact hlongest ch [] (List.prefix_append [ch] rest)
        ⟨negative, h.snoc_digit (Bool.not_eq_false _ ▸ hdigit)⟩
    · by_cases hpoint : '.' ∈ t
      · exact .inl hpoint
      · right
        intro ch hch
        obtain ⟨rest, rfl⟩ := List.head?_eq_some_iff.mp hch
        rw [beq_eq_false_iff_ne]
        rintro rfl
        exact hlongest '.' [] (List.prefix_append ['.'] rest)
          ⟨negative, whole, [], h.snoc_point hpoint⟩
  · rintro ⟨hdigit, hdot⟩ ch more ⟨rest, rfl⟩
    rw [List.cons_append, Text.startsOutside_cons] at hdigit hdot
    rw [beq_eq_false_iff_ne] at hdot
    exact h.not_decimalScan_append hne hdigit hdot

end Decimal

namespace Parser
open Decimal
variable {α : Type} {p : Parser α} {P : Text → Prop} {Q : Text → α → Prop} {B : Text → Text → Prop}
  {c e : Cursor} {w : Text} {v : α} {negative : Bool} {digits whole fraction : Text}

/-- Where a text is read if nothing follows that makes it longer, the longest one is read. -/
lemma Reads.success_iff_of_isLongest (hp : p.Reads fun t v rest => Q t v ∧ B t rest)
    (hB : ∀ t v rest, Q t v → (Text.IsLongest P t (t ++ rest) ↔ B t rest))
    (hlongest : Text.IsLongest P w c.rest) : p c = .success v e ↔ Q w v ∧ c.Passes w e := by
  rw [hp.success_iff]
  constructor
  · rintro ⟨t, hpass, hQ, hrest⟩
    have := (hB t v e.rest hQ).mpr hrest
    rw [← hpass.2.1] at this
    obtain rfl := this.unique hlongest
    exact ⟨hQ, hpass⟩
  · rintro ⟨hQ, hpass⟩
    rw [hpass.2.1] at hlongest
    exact ⟨w, hpass, hQ, (hB w v e.rest hQ).mp hlongest⟩

/-- An integer is the longest scan, if that has a digit and its value is one. -/
lemma int64_eq_success_iff {n : Int64}
    (hlongest : Text.IsLongest IntegerScan w c.rest) (hw : IsSignedDigits w negative digits) :
    int64 c = .success n e ↔ digits ≠ [] ∧ n.toInt = signed negative digits ∧ c.Passes w e := by
  rw [reads_int64.success_iff_of_isLongest (fun t n rest ht => ?_) hlongest, hw.isInteger_iff,
    and_assoc]
  obtain ⟨s, negative, digits, rfl, hsign, hne, hdigits, -⟩ := ht
  exact isLongest_integer_iff ⟨s, rfl, hsign, hdigits⟩ hne

/-- A double is the longest scan, if that has a digit and its value rounds to a finite one. -/
lemma double_eq_success_iff {d : Double} (hlongest : Text.IsLongest DecimalScan w c.rest)
    (hw : IsSignedDecimal w negative whole fraction) :
    double c = .success d e ↔ whole ++ fraction ≠ [] ∧
      Double.ofDecimal? negative whole fraction = some d ∧ c.Passes w e := by
  rw [reads_double.success_iff_of_isLongest (fun t d rest ht => ?_) hlongest]
  · simp only [hw.isDecimal_iff]
    constructor
    · rintro ⟨⟨_, _, _, ⟨hne, rfl, rfl, rfl⟩, hd⟩, hpass⟩
      exact ⟨hne, hd, hpass⟩
    · rintro ⟨hne, hd, hpass⟩
      exact ⟨⟨negative, whole, fraction, ⟨hne, rfl, rfl, rfl⟩, hd⟩, hpass⟩
  · obtain ⟨negative, whole, fraction, ⟨s, point, rfl, hsign, hwhole, hpoint, hne⟩, -⟩ := ht
    exact isLongest_decimal_iff ⟨s, point, rfl, hsign, hwhole, hpoint⟩ hne

/-- Of the beginnings that are an optional sign and digits, the longest one is read if it has a
digit and its value is a 64-bit integer, and else nothing is. So every writing of an integer is read
back in front of anything but a digit. -/
theorem int64_maximal_munch :
    (∀ c : Cursor, ∃ w negative digits,
      Text.IsLongest IntegerScan w c.rest ∧
      IsSignedDigits w negative digits ∧
      if digits ≠ [] ∧ -2 ^ 63 ≤ signed negative digits ∧ signed negative digits ≤ 2 ^ 63 - 1 then
        ∃ n e, int64 c = .success n e ∧ n.toInt = signed negative digits ∧ c.Passes w e
      else int64 c = .failure) ∧
    ∀ (n : Int64) (t rest : Text), IsWriting n.toInt t → rest.StartsOutside Char.isDigit →
      (∀ c : Cursor, c.rest = t ++ rest →
        ∃ e, int64 c = .success n e ∧ c.Passes t e ∧ e.rest = rest) ∧
      ∃ report, int64.run (t ++ rest) = some report ∧ report.value = some n ∧
        report.residue = rest := by
  constructor
  · intro c
    obtain ⟨w, hlongest⟩ := Text.exists_isLongest (P := IntegerScan)
      ⟨false, [], [], rfl, .none, by simp⟩ c.rest
    obtain ⟨negative, digits, hw⟩ := hlongest.holds
    refine ⟨w, negative, digits, hlongest, hw, ?_⟩
    split
    case isTrue h =>
      obtain ⟨hne, hmin, hmax⟩ := h
      obtain ⟨rest, hrest⟩ := hlongest.begins
      obtain ⟨e, hpass, -⟩ := Cursor.exists_passes_of_rest_eq hrest.symm
      have hn := Int64.toInt_ofInt_of_le hmin (by omega)
      exact ⟨_, e, (int64_eq_success_iff hlongest hw).mpr ⟨hne, hn, hpass⟩, hn, hpass⟩
    case isFalse h =>
      cases hs : int64 c with
      | failure => rfl
      | unfinished => exact absurd hs (reads_int64.answers c)
      | success n e =>
        obtain ⟨hne, hn, -⟩ := (int64_eq_success_iff hlongest hw).mp hs
        have hmin := n.le_toInt
        have hmax := n.toInt_lt
        exact absurd ⟨hne, by omega, by omega⟩ h
  · intro n t rest ht hrest
    have hread : ∀ c : Cursor, c.rest = t ++ rest →
        ∃ e, int64 c = .success n e ∧ c.Passes t e ∧ e.rest = rest := by
      intro c hc
      obtain ⟨e, hpass, rfl⟩ := Cursor.exists_passes_of_rest_eq hc
      exact ⟨e, (reads_int64.success_iff c n e).mpr ⟨t, hpass, ht.isInteger, hrest⟩, hpass, rfl⟩
    refine ⟨hread, ?_⟩
    obtain ⟨e, hs, -, he⟩ := hread (.ofText (t ++ rest)) rfl
    exact ⟨_, run_eq_some_iff.mpr (.inr ⟨n, e, hs, rfl⟩), rfl, he⟩

/-- The least integer has no positive counterpart, and a digit of another script does not make it
longer. -/
theorem int64_maximal_munch_minValue :
    ∃ report, int64.run (renderInt Int64.minValue.toInt ++ ['٣']) = some report ∧
      report.value = some Int64.minValue ∧ report.residue = ['٣'] :=
  (int64_maximal_munch.2 Int64.minValue _ ['٣'] (isWriting_renderInt _)
    (Text.startsOutside_cons.mpr rfl)).2

end Parser
end TextParsing
