import TextParsing.Parser.Number
import TextParsing.Proofs.Reading

/-! How integers and decimal fractions are written. The parsers of numbers read these texts where
nothing follows that would make them longer. -/
namespace TextParsing

namespace Decimal

/-- The writings of a sign, and whether it is a minus. -/
inductive IsSign : Text → Bool → Prop where
  | none : IsSign [] false
  | plus : IsSign ['+'] false
  | minus : IsSign ['-'] true

/-- A point and digits behind it, or neither. -/
inductive IsFraction : Text → Text → Prop where
  | none : IsFraction [] []
  | some {digits : Text} (h : ∀ ch ∈ digits, ch.isDigit = true) : IsFraction ('.' :: digits) digits

/-- The exact value of digits behind a sign. -/
def signed (negative : Bool) (digits : Text) : Int :=
  if negative then -(Nat.ofDigitChars 10 digits 0 : Int) else Nat.ofDigitChars 10 digits 0

/-- An optional sign, at least one digit, and the exact value. -/
def IsInteger (t : Text) (n : Int) : Prop :=
  ∃ (s : Text) (negative : Bool) (digits : Text), t = s ++ digits ∧ IsSign s negative ∧
    digits ≠ [] ∧ (∀ ch ∈ digits, ch.isDigit = true) ∧ n = signed negative digits

/-- An optional sign, and digits with a point among them or not; at least one digit. -/
def IsDecimal (t : Text) (negative : Bool) (whole fraction : Text) : Prop :=
  ∃ s point : Text, t = s ++ (whole ++ point) ∧ IsSign s negative ∧
    (∀ ch ∈ whole, ch.isDigit = true) ∧ IsFraction point fraction ∧ whole ++ fraction ≠ []

lemma isSome_pointOnce (hasPoint : Bool) (ch : Char) :
    (pointOnce hasPoint ch).isSome = (ch.isDigit || (ch == '.' && !hasPoint)) := by
  unfold pointOnce
  by_cases hch : ch = '.'
  · subst hch
    cases hasPoint <;> rfl
  · cases h : ch.isDigit <;> simp [hch]

/-- Digits do not change the state. -/
lemma foldlM_pointOnce_digits {t : Text} (h : ∀ ch ∈ t, ch.isDigit = true) (hasPoint : Bool) :
    t.foldlM pointOnce hasPoint = some hasPoint := by
  induction t with
  | nil => rfl
  | cons ch t ih =>
    obtain ⟨hch, ht⟩ := List.forall_mem_cons.mp h
    rw [List.foldlM_cons, pointOnce, if_pos hch]
    exact ih ht

/-- Behind a point there are digits only. -/
lemma isDigit_of_foldlM_pointOnce {t : Text} {last : Bool}
    (h : t.foldlM pointOnce true = some last) : ∀ ch ∈ t, ch.isDigit = true := by
  induction t with
  | nil => simp
  | cons ch t ih =>
    rw [List.foldlM_cons, pointOnce] at h
    by_cases hch : ch.isDigit = true
    · rw [if_pos hch] at h
      exact List.forall_mem_cons.mpr ⟨hch, ih h⟩
    · simp [hch] at h

/-- What is scanned are digits and a fraction. -/
lemma exists_of_foldlM_pointOnce {t : Text} {last : Bool}
    (h : t.foldlM pointOnce false = some last) :
    ∃ whole point fraction, t = whole ++ point ∧ (∀ ch ∈ whole, ch.isDigit = true) ∧
      IsFraction point fraction := by
  induction t with
  | nil => exact ⟨[], [], [], rfl, by simp, .none⟩
  | cons ch t ih =>
    rw [List.foldlM_cons, pointOnce] at h
    by_cases hch : ch.isDigit = true
    · rw [if_pos hch] at h
      obtain ⟨whole, point, fraction, rfl, hwhole, hfraction⟩ := ih h
      exact ⟨ch :: whole, point, fraction, rfl, List.forall_mem_cons.mpr ⟨hch, hwhole⟩, hfraction⟩
    · by_cases hpoint : ch = '.'
      · rw [if_neg hch, if_pos ⟨hpoint, rfl⟩] at h
        exact ⟨[], ch :: t, t, rfl, by simp, hpoint ▸ .some (isDigit_of_foldlM_pointOnce h)⟩
      · simp [hch, hpoint] at h

/-- Behind digits and a fraction the state says whether there is a point. -/
lemma foldlM_pointOnce_append {whole point fraction : Text}
    (hwhole : ∀ ch ∈ whole, ch.isDigit = true) (hpoint : IsFraction point fraction) :
    (whole ++ point).foldlM pointOnce false = some (decide ('.' ∈ point)) := by
  rw [List.foldlM_append, foldlM_pointOnce_digits hwhole]
  cases hpoint with
  | none => rfl
  | some hdigits =>
    rw [decide_eq_true (List.mem_cons_self ..)]
    exact foldlM_pointOnce_digits hdigits true

lemma splitPoint_append {whole point fraction : Text} (hwhole : ∀ ch ∈ whole, ch.isDigit = true)
    (hpoint : IsFraction point fraction) : splitPoint (whole ++ point) = (whole, fraction) := by
  have hin : ∀ ch ∈ whole, (ch != '.') = true := by
    intro ch hch
    rw [bne_iff_ne]
    rintro rfl
    cases hwhole '.' hch
  rw [splitPoint, List.dropWhile_append_of_pos hin]
  cases hpoint with
  | none => rw [Text.takeWhile_append hin Text.startsOutside_nil, List.dropWhile_nil, List.drop_nil]
  | some => rw [Text.takeWhile_append hin (Text.startsOutside_cons.mpr rfl)]; rfl

/-- A scan stops in front of what is neither a digit nor a first point. -/
lemma startsOutside_pointOnce {rest : Text} {hasPoint : Bool} :
    (rest.StartsOutside fun ch => (pointOnce hasPoint ch).isSome) ↔
      rest.StartsOutside Char.isDigit ∧ (hasPoint = true ∨ rest.StartsOutside (· == '.')) := by
  cases rest with
  | nil => simp
  | cons ch rest => cases hasPoint <;> simp [isSome_pointOnce]

/-- An integer begins with a sign or a digit. -/
lemma IsInteger.exists_cons {t : Text} {n : Int} (h : IsInteger t n) :
    ∃ ch rest, t = ch :: rest ∧ (ch = '+' ∨ ch = '-' ∨ ch.isDigit = true) := by
  obtain ⟨s, negative, digits, rfl, hsign, hne, hdigits, -⟩ := h
  cases hsign with
  | none =>
    obtain ⟨ch, digits, rfl⟩ := List.exists_cons_of_ne_nil hne
    exact ⟨ch, digits, rfl, .inr (.inr (hdigits ch (List.mem_cons_self ..)))⟩
  | plus => exact ⟨'+', digits, rfl, .inl rfl⟩
  | minus => exact ⟨'-', digits, rfl, .inr (.inl rfl)⟩

/-- There is no point in a sign and digits. -/
lemma IsSign.point_not_mem {s digits : Text} {negative : Bool} (hsign : IsSign s negative)
    (hdigits : ∀ ch ∈ digits, ch.isDigit = true) : '.' ∉ s ++ digits := by
  intro hmem
  rcases List.mem_append.mp hmem with hmem | hmem
  · cases hsign <;> simp at hmem
  · cases hdigits '.' hmem

lemma int64?_eq_some_iff {negative : Bool} {digits : Text} {n : Int64} :
    int64? negative digits = some n ↔ n.toInt = signed negative digits := by
  have h : int64? negative digits =
      if Int64.minValue.toInt ≤ signed negative digits ∧
          signed negative digits ≤ Int64.maxValue.toInt then
        some (Int64.ofInt (signed negative digits))
      else none := by
    rw [int64?, ofDigits_eq]
    rfl
  rw [h]
  split
  case isTrue h =>
    have hlt : signed negative digits < Int64.maxValue.toInt + 1 := by omega
    rw [Option.some_inj]
    constructor
    · intro hn
      rw [← hn]
      exact Int64.toInt_ofInt_of_le h.1 hlt
    · intro hn
      rw [← hn, Int64.ofInt_toInt]
  case isFalse h =>
    simp only [reduceCtorEq, false_iff]
    intro hn
    exact h ⟨hn ▸ n.minValue_le_toInt, hn ▸ n.toInt_le⟩

end Decimal

namespace Double

variable {pattern : Nat}

lemma lt_of_lt_infinity (h : pattern < infinity) : pattern < 1 <<< 63 := by
  simp only [infinity, Nat.reduceShiftLeft] at h
  omega

lemma magnitude_ofPattern (negative : Bool) (h : pattern < infinity) :
    (ofPattern negative pattern).magnitude = pattern := by
  have := lt_of_lt_infinity h
  unfold magnitude ofPattern
  cases negative <;> simp <;> omega

lemma isNegative_ofPattern (negative : Bool) (h : pattern < infinity) :
    (ofPattern negative pattern).isNegative = negative := by
  have := lt_of_lt_infinity h
  unfold isNegative ofPattern
  cases negative <;> simp <;> omega

lemma isFinite_ofPattern (negative : Bool) (h : pattern < infinity) :
    (ofPattern negative pattern).isFinite = true := by
  simp [isFinite, magnitude_ofPattern negative h, h]

/-- A number that is read is in the finite range. -/
lemma isFinite_of_ofDecimal? {negative : Bool} {whole fraction : Text} {d : Double}
    (h : ofDecimal? negative whole fraction = some d) : d.isFinite = true := by
  unfold ofDecimal? ofRatio? at h
  dsimp only at h
  split at h
  case isTrue hlt =>
    cases h
    exact isFinite_ofPattern negative hlt
  case isFalse => cases h

end Double

namespace Parser
open Decimal

/-- The characters that begin a signed number. -/
def isSignChar (ch : Char) : Bool := ch == '+' || ch == '-'

lemma isSignChar_eq_false {ch : Char} (h : ch.isDigit = true) : isSignChar ch = false := by
  by_contra hsign
  rw [isSignChar, Bool.not_eq_false, Bool.or_eq_true, beq_iff_eq, beq_iff_eq] at hsign
  rcases hsign with rfl | rfl
  · cases h
  · cases h

/-- A sign is left out only where none follows. -/
theorem reads_sign : sign.Reads fun t negative rest =>
    IsSign t negative ∧ (t = [] → rest.StartsOutside isSignChar) := by
  refine ⟨fun c negative d => ?_, fun c => by unfold sign; split <;> simp⟩
  unfold sign Cursor.peek?
  constructor
  · intro h
    split at h
    case h_1 hr =>
      obtain ⟨rest, hr⟩ := List.head?_eq_some_iff.mp hr
      cases h
      exact ⟨['+'], Cursor.passes_next_of_cons hr, .plus, by simp⟩
    case h_2 hr =>
      obtain ⟨rest, hr⟩ := List.head?_eq_some_iff.mp hr
      cases h
      exact ⟨['-'], Cursor.passes_next_of_cons hr, .minus, by simp⟩
    case h_3 hplus hminus =>
      cases h
      refine ⟨[], .refl c, .none, fun _ ch hch => ?_⟩
      have hp : ch ≠ '+' := fun h => hplus (h ▸ hch)
      have hm : ch ≠ '-' := fun h => hminus (h ▸ hch)
      simp [isSignChar, hp, hm]
  · intro h
    obtain ⟨t, hd, hsign, hrest⟩ := h
    cases hsign with
    | none =>
      obtain rfl := Cursor.passes_nil_iff.mp hd
      have hout := hrest rfl
      split
      case h_1 hr => cases hout _ hr
      case h_2 hr => cases hout _ hr
      case h_3 => rfl
    | plus =>
      have hr : c.rest = '+' :: d.rest := hd.2.1
      rw [hr, hd.unique (Cursor.passes_next_of_cons hr)]
      rfl
    | minus =>
      have hr : c.rest = '-' :: d.rest := hd.2.1
      rw [hr, hd.unique (Cursor.passes_next_of_cons hr)]
      rfl

/-- An integer is read where no further digit follows. -/
theorem reads_int64 : int64.Reads fun t n rest =>
    IsInteger t n.toInt ∧ rest.StartsOutside Char.isDigit := by
  have hvalue : ∀ (negative : Bool) (digits : Text),
      (if digits.isEmpty then Parser.fail else ofOption (int64? negative digits)).Reads
        fun t n _ => t = [] ∧ digits ≠ [] ∧ n.toInt = signed negative digits := by
    intro negative digits
    split
    case isTrue h => exact Reads.fail.congr (by simp_all)
    case isFalse h =>
      refine (Reads.ofOption _).congr fun t n rest => ?_
      rw [int64?_eq_some_iff]
      simp_all
  have h := reads_sign.bind fun negative =>
    (reads_takeWhile Char.isDigit).bind (hvalue negative)
  refine h.congr fun t n rest => ?_
  constructor
  · intro h
    obtain ⟨s, _, negative, rfl, ⟨hsign, -⟩, _, _, digits, rfl, ⟨rfl, hin, hout⟩, rfl, hne, hn⟩ := h
    rw [List.append_nil]
    exact ⟨⟨s, negative, digits, rfl, hsign, hne, hin, hn⟩, hout⟩
  · intro h
    obtain ⟨⟨s, negative, digits, rfl, hsign, hne, hin, hn⟩, hout⟩ := h
    refine ⟨s, digits, negative, rfl, ⟨hsign, fun _ => ?_⟩, digits, [], digits,
      by simp, ⟨rfl, hin, hout⟩, rfl, hne, hn⟩
    obtain ⟨ch, digits, rfl⟩ := List.exists_cons_of_ne_nil hne
    exact Text.startsOutside_cons.mpr (isSignChar_eq_false (hin ch (List.mem_cons_self ..)))

/-- Behind a sign that is left out comes a digit or a point. -/
lemma startsOutside_sign {whole point fraction rest : Text}
    (hwhole : ∀ ch ∈ whole, ch.isDigit = true) (hpoint : IsFraction point fraction)
    (hne : whole ++ fraction ≠ []) : (whole ++ (point ++ rest)).StartsOutside isSignChar := by
  cases whole with
  | cons ch whole =>
    exact Text.startsOutside_cons.mpr (isSignChar_eq_false (hwhole ch (List.mem_cons_self ..)))
  | nil =>
    cases hpoint with
    | none => exact absurd rfl hne
    | some => exact Text.startsOutside_cons.mpr rfl

/-- A decimal fraction is read where neither a further digit nor its point follows. -/
theorem reads_double : double.Reads fun t d rest =>
    (∃ negative whole fraction, IsDecimal t negative whole fraction ∧
      Double.ofDecimal? negative whole fraction = some d) ∧
    rest.StartsOutside Char.isDigit ∧ ('.' ∈ t ∨ rest.StartsOutside (· == '.')) := by
  have hvalue : ∀ (negative : Bool) (whole fraction : Text),
      (if whole.isEmpty && fraction.isEmpty then Parser.fail
        else ofOption (Double.ofDecimal? negative whole fraction)).Reads fun t d _ =>
          t = [] ∧ whole ++ fraction ≠ [] ∧
            Double.ofDecimal? negative whole fraction = some d := by
    intro negative whole fraction
    split
    case isTrue h => exact Reads.fail.congr (by simp_all)
    case isFalse h => exact (Reads.ofOption _).congr (by simp_all)
  have h := reads_sign.bind fun negative => (reads_scan pointOnce false).bind fun digits =>
    hvalue negative (splitPoint digits).1 (splitPoint digits).2
  refine h.congr fun t d rest => ?_
  constructor
  · intro h
    obtain ⟨s, _, negative, rfl, ⟨hsign, -⟩, digits, _, _, rfl, ⟨rfl, hasPoint, hscan, hout⟩, rfl,
      hne, hd⟩ := h
    obtain ⟨whole, point, fraction, rfl, hwhole, hfraction⟩ := exists_of_foldlM_pointOnce hscan
    rw [splitPoint_append hwhole hfraction] at hne hd
    cases hscan.symm.trans (foldlM_pointOnce_append hwhole hfraction)
    obtain ⟨hdigit, hdot⟩ := startsOutside_pointOnce.mp hout
    rw [List.append_nil]
    refine ⟨⟨negative, whole, fraction, ⟨s, point, rfl, hsign, hwhole, hfraction, hne⟩, hd⟩, hdigit,
      hdot.imp_left fun h => ?_⟩
    simp [of_decide_eq_true h]
  · intro h
    obtain ⟨⟨negative, whole, fraction, hdecimal, hd⟩, hdigit, hdot⟩ := h
    obtain ⟨s, point, rfl, hsign, hwhole, hfraction, hne⟩ := hdecimal
    have hstate : '.' ∈ s ++ (whole ++ point) → decide ('.' ∈ point) = true := by
      rw [← List.append_assoc, List.mem_append, or_iff_right (hsign.point_not_mem hwhole)]
      exact decide_eq_true
    refine ⟨s, whole ++ point, negative, rfl, ⟨hsign, fun _ => ?_⟩, whole ++ point, [],
      whole ++ point, by simp, ⟨rfl, _, foldlM_pointOnce_append hwhole hfraction, ?_⟩, rfl, ?_⟩
    · rw [List.append_assoc]
      exact startsOutside_sign hwhole hfraction hne
    · exact startsOutside_pointOnce.mpr ⟨hdigit, hdot.imp_left hstate⟩
    · rw [splitPoint_append hwhole hfraction]
      exact ⟨hne, hd⟩

end Parser
end TextParsing
