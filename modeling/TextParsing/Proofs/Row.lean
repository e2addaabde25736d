import TextParsing.Proofs.MaximalMunch
import TextParsing.Proofs.PlainRepetition

/-! Repetitions without separators. Where each element reads something, what is found is a row of
elements, each beginning where the one before it ends, up to a place where no further one begins. A
run of characters is such a row, and so is what a repetition of repetitions finds, but for the empty
round that ends it. -/
namespace TextParsing

namespace Outcome
variable {α β : Type}

lemma recover_eq_success_iff {o : Outcome α} {f : α → Cursor → Outcome β} {g : Outcome β} {w : β}
    {e : Cursor} : o.recover f g = .success w e ↔
      (∃ v d, o = .success v d ∧ f v d = .success w e) ∨ (o = .failure ∧ g = .success w e) := by
  cases o with
  | success v d =>
    rw [recover_success]
    constructor
    · exact fun h => .inl ⟨v, d, rfl, h⟩
    · rintro (⟨_, _, h, hf⟩ | ⟨h, -⟩)
      · cases h
        exact hf
      · cases h
  | failure => simp
  | unfinished => simp

end Outcome

namespace Parser
open Cursor
variable {α : Type} {p : Parser α} {vs xs : List α} {v : α} {c d e : Cursor}

/-- Elements that follow each other directly. -/
inductive Row (p : Parser α) : Cursor → List α → Cursor → Prop where
  | nil {c : Cursor} : Row p c [] c
  | cons {c d e : Cursor} {v : α} {vs : List α} (element : p c = .success v d)
      (tail : Row p d vs e) : Row p c (v :: vs) e

/-- Each element of a row reads a byte at least. -/
lemma Row.position_add_length_le (hp : p.MovesBy 1) (h : Row p c vs e) (hc : c.Valid) :
    e.Valid ∧ e.source = c.source ∧ c.position + vs.length ≤ e.position := by
  induction h with
  | nil => exact ⟨hc, rfl, Nat.le_refl _⟩
  | cons element _ ih =>
    obtain ⟨hd, hsource, hle⟩ := hp hc element
    obtain ⟨he, hsource', hle'⟩ := ih hd
    rw [List.length_cons]
    exact ⟨he, hsource'.trans hsource, by omega⟩

/-- Behind its first element a repetition goes on as from the place where that one ends. -/
lemma many_eq_recover (hp : p.MovesBy 1) (hc : c.Valid) :
    p.many c = (p c).recover (fun v d => (p.many d).andThen fun vs e => .success (v :: vs) e)
      (.success [] c) :=
  sepBy_eq_recover hp (.pure ()) Nat.one_pos hc

lemma many_eq_success_nil_iff (hp : p.MovesBy 1) (hc : c.Valid) :
    p.many c = .success [] e ↔ p c = .failure ∧ e = c := by
  rw [many_eq_recover hp hc, Outcome.recover_eq_success_iff]
  simp [Outcome.andThen_eq_success_iff, @eq_comm _ c e]

lemma many_eq_success_cons_iff (hp : p.MovesBy 1) (hc : c.Valid) :
    p.many c = .success (v :: vs) e ↔ ∃ d, p c = .success v d ∧ p.many d = .success vs e := by
  rw [many_eq_recover hp hc, Outcome.recover_eq_success_iff]
  simp [Outcome.andThen_eq_success_iff]

/-- What a repetition finds is a row behind which there is no further element. -/
theorem many_eq_success_iff (hp : p.MovesBy 1) (hc : c.Valid) :
    p.many c = .success vs e ↔ Row p c vs e ∧ p e = .failure := by
  induction vs generalizing c with
  | nil =>
    rw [many_eq_success_nil_iff hp hc]
    constructor
    · rintro ⟨hfail, rfl⟩
      exact ⟨.nil, hfail⟩
    · rintro ⟨_ | _, hfail⟩
      exact ⟨hfail, rfl⟩
  | cons v vs ih =>
    rw [many_eq_success_cons_iff hp hc]
    constructor
    · rintro ⟨d, element, hmany⟩
      obtain ⟨tail, hfail⟩ := (ih (hp hc element).1).mp hmany
      exact ⟨.cons element tail, hfail⟩
    · rintro ⟨_ | ⟨element, tail⟩, hfail⟩
      exact ⟨_, element, (ih (hp hc element).1).mpr ⟨tail, hfail⟩⟩

/-- A repetition of a parser that reads something does not lead back. -/
lemma MovesBy.many (hp : p.MovesBy 1) : p.many.MovesForward := by
  intro c vs e hc h
  obtain ⟨hrow, -⟩ := (many_eq_success_iff hp hc).mp h
  obtain ⟨he, hsource, hle⟩ := hrow.position_add_length_le hp hc
  exact ⟨he, hsource, by omega⟩

/-- Repeated once more, a repetition finds what it found before and then nothing, which ends it; where
it found nothing, that is the only round. -/
lemma many_many_eq_success (hp : p.MovesBy 1) (hc : c.Valid) (h : p.many c = .success xs e) :
    (xs ≠ [] → p.many.many c = .success [xs, []] e) ∧
    (xs = [] → p.many.many c = .success [[]] e) := by
  have hstays := movesForward_iff_staysIn.mp hp.many c.source c.position
  have hpure := (MovesBy.pure ()).staysIn c.source c.position
  have hiff : ∀ {xss d}, p.many.many c = .success xss d ↔ _ :=
    sepBy_eq_success_iff hstays hpure hc.placeFrom
  obtain ⟨hrow, hfail⟩ := (many_eq_success_iff hp hc).mp h
  obtain ⟨he, -, hle⟩ := hrow.position_add_length_le hp hc
  -- At the end nothing is found without reading anything, and there the outer loop stops.
  have hempty : p.many e = .success [] e := (many_eq_success_iff hp he).mpr ⟨.nil, hfail⟩
  have hstops : Stops p.many (Parser.pure ()) e e := .inr ⟨(), e, rfl, .inl (Nat.le_refl _)⟩
  constructor
  · intro hne
    have hlt : c.position < e.position := by
      have := List.length_pos_iff.mpr hne
      omega
    exact hiff.mpr (.inr ⟨e, .cons h rfl hlt (.one hempty), hstops⟩)
  · rintro rfl
    cases hrow
    exact hiff.mpr (.inr ⟨c, .one hempty, hstops⟩)

/-- A repetition of parsers that read something, repeated once more, adds nothing but an empty round,
and stops at the same place. The repetition is maximal: no further element is found at its end, so
that none can be demanded behind it. -/
theorem many_many_adds_empty_round (hp : p.MovesBy 1) :
    (∀ c xs e, c.Valid → p.many c = .success xs e →
      (xs ≠ [] → p.many.many c = .success [xs, []] e) ∧
      (xs = [] → p.many.many c = .success [[]] e) ∧
      (∃ xss, p.many.many c = .success xss e ∧ xss.flatten = xs) ∧
      p e = .failure ∧ p.many.seqRight p c = .failure) ∧
    (∀ c, c.Valid → ∀ v e, p.many.seqRight p c ≠ .success v e) ∧
    ((∀ c, c.Valid → p c ≠ .unfinished) → ∀ c, c.Valid → p.many.seqRight p c = .failure) := by
  have hbehind : ∀ {c xs e}, c.Valid → p.many c = .success xs e → p.many.seqRight p c = .failure := by
    intro c xs e hc h
    rw [seqRight, h]
    exact ((many_eq_success_iff hp hc).mp h).2
  refine ⟨fun c xs e hc h => ?_, fun c hc v e h => ?_, fun hends c hc => ?_⟩
  · obtain ⟨hsome, hnone⟩ := many_many_eq_success hp hc h
    refine ⟨hsome, hnone, ?_, ((many_eq_success_iff hp hc).mp h).2, hbehind hc h⟩
    by_cases hxs : xs = []
    · exact ⟨[[]], hnone hxs, by simp [hxs]⟩
    · exact ⟨[xs, []], hsome hxs, by simp⟩
  · obtain ⟨xs, d, hmany, -⟩ := Outcome.andThen_eq_success_iff.mp h
    cases h.symm.trans (hbehind hc hmany)
  · have hleads : p.Leads (PlaceFrom c.source 0) (PlaceFrom c.source 0) :=
      (hp.staysIn _ _).leads fun d hd => hends d hd.valid
    obtain ⟨xs, e, h, -⟩ := exists_sepBy_eq_success hleads (.pure ()) hc.placeFrom_zero
    exact hbehind hc h

/-- Signs need no separator between integers. -/
theorem many_many_adds_empty_round_signs :
    ∃ c e : Cursor, c.Valid ∧ c.position = 2 ∧ c.rest = ['1', '+', '2', '-', '3', '-'] ∧
      int64.many c = .success [1, 2, -3] e ∧ int64.many.many c = .success [[1, 2, -3], []] e ∧
      int64.many.many e = .success [[]] e ∧ int64 e = .failure ∧
      int64.many.seqRight int64 c = .failure ∧ e.rest = ['-'] := by
  have hc := valid_next (valid_ofText ['é', '1', '+', '2', '-', '3', '-'])
  obtain ⟨hadds, -, -⟩ := many_many_adds_empty_round movesBy_int64
  have hmany : int64.many (ofText ['é', '1', '+', '2', '-', '3', '-']).next =
      .success [1, 2, -3] ⟨['é', '1', '+', '2', '-', '3', '-'], 7, ['-']⟩ := by rfl
  obtain ⟨hsome, -, -, hfail, hbehind⟩ := hadds _ _ _ hc hmany
  have he := (movesBy_int64.many hc hmany).1
  have hempty := (many_eq_success_iff movesBy_int64 he).mpr ⟨.nil, hfail⟩
  exact ⟨_, _, hc, rfl, rfl, hmany, hsome (by simp), (hadds _ _ _ he hempty).2.1 rfl, hfail, hbehind,
    rfl⟩

section
variable {isIn : Char → Bool} {t : Text}

lemma reads_charIn (isIn : Char → Bool) :
    (anyChar.filter isIn).Reads fun t ch _ => t = [ch] ∧ isIn ch = true :=
  reads_anyChar.filter isIn

lemma movesBy_charIn (isIn : Char → Bool) : (anyChar.filter isIn).MovesBy 1 :=
  movesBy_anyChar.filter isIn

/-- A row of characters is the text that they make up. -/
lemma row_charIn_iff :
    Row (anyChar.filter isIn) c t e ↔ c.Passes t e ∧ ∀ ch ∈ t, isIn ch = true := by
  constructor
  · intro h
    induction h with
    | nil => exact ⟨.refl _, by simp⟩
    | cons element _ ih =>
      obtain ⟨_, hpass, rfl, hin⟩ := ((reads_charIn isIn).success_iff _ _ _).mp element
      exact ⟨hpass.trans ih.1, List.forall_mem_cons.mpr ⟨hin, ih.2⟩⟩
  · rintro ⟨hpass, hin⟩
    induction t generalizing c with
    | nil =>
      rw [Cursor.passes_nil_iff.mp hpass]
      exact .nil
    | cons ch t ih =>
      obtain ⟨d, hch, hpass⟩ := Cursor.passes_append_iff (s := [ch]).mp hpass
      rw [List.forall_mem_cons] at hin
      exact .cons (((reads_charIn isIn).success_iff _ _ _).mpr ⟨[ch], hch, rfl, hin.1⟩)
        (ih hpass hin.2)

/-- No character of the class is found where the text ahead begins outside it. -/
lemma charIn_eq_failure_iff :
    anyChar.filter isIn c = .failure ↔ c.rest.StartsOutside isIn := by
  rw [(reads_charIn isIn).eq_failure_iff]
  constructor
  · intro h ch hch
    obtain ⟨rest, hr⟩ := List.head?_eq_some_iff.mp hch
    simpa using h [ch] ch rest hr
  · rintro h _ ch rest hr ⟨rfl, hin⟩
    rw [hr, List.singleton_append, Text.startsOutside_cons, hin] at h
    cases h

/-- A scan for the longest run of a class of characters is the repetition of single characters of the
class: it stops at the same place, and its text is made up of the characters that are found one by
one. It is the longest beginning of what is left with characters of the class only, so that nothing
is found by scanning on. -/
theorem takeWhile_agrees_with_many (isIn : Char → Bool) (hc : c.Valid) :
    ∃ t chars e, takeWhile isIn c = .success t e ∧
      (anyChar.filter isIn).many c = .success chars e ∧
      t = chars.flatMap ([·]) ∧ c.Passes t e ∧
      Text.IsLongest (fun s => ∀ ch ∈ s, isIn ch = true) t c.rest ∧
      takeWhile isIn e = .success [] e := by
  obtain ⟨t, e, hscan⟩ : ∃ t e, takeWhile isIn c = .success t e := ⟨_, _, rfl⟩
  obtain ⟨_, hpass, rfl, hin, hout⟩ := ((reads_takeWhile isIn).success_iff c t e).mp hscan
  have hmany := (many_eq_success_iff (movesBy_charIn isIn) hc).mpr
    ⟨row_charIn_iff.mpr ⟨hpass, hin⟩, charIn_eq_failure_iff.mpr hout⟩
  refine ⟨t, t, e, hscan, hmany, by simp, hpass, ?_, ?_⟩
  · rw [hpass.2.1, Text.isLongest_append_iff hin]
    intro ch more hmore hmem
    obtain ⟨rest, hr⟩ := hmore
    rw [← hr, List.cons_append, Text.startsOutside_cons] at hout
    simp [hmem ch (by simp)] at hout
  · exact ((reads_takeWhile isIn).success_iff e [] e).mpr ⟨[], .refl e, rfl, by simp, hout⟩

/-- Characters of two and of three bytes. -/
theorem takeWhile_agrees_with_many_letters :
    ∃ c e : Cursor, c.Valid ∧ c.position = 1 ∧ c.rest = ['é', '€', '2', 'é'] ∧
      takeWhile (!·.isDigit) c = .success ['é', '€'] e ∧
      (anyChar.filter (!·.isDigit)).many c = .success ['é', '€'] e ∧ e.position = 6 ∧
      takeWhile (!·.isDigit) e = .success [] e := by
  have hc := valid_next (valid_ofText ['1', 'é', '€', '2', 'é'])
  obtain ⟨t, chars, e, hscan, hmany, ht, -, -, hagain⟩ := takeWhile_agrees_with_many (!·.isDigit) hc
  have hletters : takeWhile (!·.isDigit) (ofText ['1', 'é', '€', '2', 'é']).next =
      .success ['é', '€'] ⟨['1', 'é', '€', '2', 'é'], 6, ['2', 'é']⟩ := rfl
  cases hletters.symm.trans hscan
  obtain rfl : chars = ['é', '€'] := by simpa using ht.symm
  exact ⟨_, _, hc, rfl, rfl, hscan, hmany, rfl, hagain⟩

end

end Parser
end TextParsing
