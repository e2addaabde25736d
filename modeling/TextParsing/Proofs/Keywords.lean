import Mathlib.Data.List.FinRange
import Mathlib.Order.Bounds.Defs
import TextParsing.Proofs.Reading

/-! Choices among words. The first word that lies ahead is taken, also where a later one is longer. A
word behind one that it begins with is therefore taken nowhere, and to leave out all words of that kind
makes no difference anywhere. -/
namespace TextParsing

/-- In increasing order what is found first is the least. -/
lemma find?_eq_some_iff_isLeast {n : Nat} {p : Fin n → Bool} {choice : List (Fin n)} {i : Fin n}
    (h : choice.Pairwise (· < ·)) :
    choice.find? p = some i ↔ IsLeast {j | j ∈ choice ∧ p j = true} i := by
  rw [List.find?_eq_some_iff_append]
  constructor
  · rintro ⟨hi, front, back, rfl, hfront⟩
    refine ⟨⟨by simp, hi⟩, fun j ⟨hj, hp⟩ => ?_⟩
    rcases List.mem_append.mp hj with hj | hj
    · have := hfront j hj
      simp [hp] at this
    · rcases List.mem_cons.mp hj with rfl | hj
      · exact le_refl j
      · have := (List.pairwise_append.mp h).2.1
        exact le_of_lt ((List.pairwise_cons.mp this).1 j hj)
  · rintro ⟨⟨hi, hp⟩, hleast⟩
    obtain ⟨front, back, rfl⟩ := List.append_of_mem hi
    refine ⟨hp, front, back, rfl, fun j hj => ?_⟩
    have hlt := (List.pairwise_append.mp h).2.2 j hj i (List.mem_cons_self ..)
    by_contra hpj
    have := hleast ⟨List.mem_append_left _ hj, by simpa using hpj⟩
    omega

namespace Parser
open Cursor (startsWith_iff)
variable {words : List Text} {choice : List (Fin words.length)} {c d : Cursor}

/-- The first word of a choice that lies ahead, read as its number. -/
def keyword (words : List Text) (choice : List (Fin words.length)) : Parser (Fin words.length) :=
  firstOf (choice.map fun i => (literal (words.get i)).map fun _ => i)

/-- The numbers of the words that begin with no earlier word. -/
def unshadowed (words : List Text) : List (Fin words.length) :=
  (List.finRange words.length).filter fun i => ∀ j < i, ¬ words.get j <+: words.get i

lemma keyword_eq_find? (words : List Text) (choice : List (Fin words.length)) (c : Cursor) :
    keyword words choice c =
      (choice.find? fun i => c.startsWith (words.get i)).elim .failure fun i =>
        .ofCursor? i (c.advance? (words.get i).byteLength) := by
  induction choice with
  | nil => rfl
  | cons i choice ih =>
    have hcons : keyword words (i :: choice) c =
        ((literal (words.get i)).map fun _ => i).orElse (keyword words choice) c := by
      rw [keyword, List.map_cons, firstOf_cons, keyword]
    rw [hcons, orElse, Parser.map]
    cases h : c.startsWith (words.get i) with
    | false =>
      have hfail : literal (words.get i) c = .failure := by
        rw [literal_eq_failure_iff, ← startsWith_iff, h]
        exact Bool.false_ne_true
      simp only [List.find?_cons, h, hfail, ih, Outcome.andThen_failure]
    | true =>
      obtain ⟨rest, hr⟩ := startsWith_iff.mp h
      obtain ⟨d, hadvance, hd, -⟩ := Cursor.exists_advance?_of_rest_eq hr.symm
      have hread : literal (words.get i) c = .success () d := literal_eq_success_iff.mpr hd
      simp only [List.find?_cons, h, hread, Outcome.andThen_success, Option.elim_some, hadvance]
      rfl

/-- Of a choice in increasing order the word with the least number is taken among those that lie
ahead. -/
lemma keyword_eq_success_iff (h : choice.Pairwise (· < ·)) {i : Fin words.length} :
    keyword words choice c = .success i d ↔
      IsLeast {j | j ∈ choice ∧ words.get j <+: c.rest} i ∧ c.Passes (words.get i) d := by
  have hleast := find?_eq_some_iff_isLeast (p := fun i => c.startsWith (words.get i)) (i := i) h
  simp only [startsWith_iff] at hleast
  rw [keyword_eq_find?, ← hleast]
  cases hf : choice.find? fun i => c.startsWith (words.get i) with
  | none => simp
  | some k =>
    have hk := List.find?_some hf
    obtain ⟨rest, hr⟩ := startsWith_iff.mp hk
    rw [Option.elim_some, Outcome.ofCursor?_eq_success_iff,
      Cursor.advance?_byteLength_eq_some_iff hr.symm, Option.some_inj]
    constructor
    · rintro ⟨rfl, hd⟩
      exact ⟨rfl, hd⟩
    · rintro ⟨rfl, hd⟩
      exact ⟨rfl, hd⟩

lemma keyword_eq_failure_iff :
    keyword words choice c = .failure ↔ ∀ i ∈ choice, ¬ words.get i <+: c.rest := by
  rw [keyword_eq_find?]
  cases hf : choice.find? fun i => c.startsWith (words.get i) with
  | none =>
    rw [List.find?_eq_none] at hf
    simpa [startsWith_iff] using hf
  | some i =>
    have hi := List.find?_some hf
    obtain ⟨rest, hr⟩ := startsWith_iff.mp hi
    obtain ⟨d, hadvance, -⟩ := Cursor.exists_advance?_of_rest_eq hr.symm
    rw [Option.elim_some, hadvance]
    simp only [Outcome.ofCursor?, reduceCtorEq, false_iff]
    exact fun h => h i (List.mem_of_find?_eq_some hf) ⟨rest, hr⟩

lemma pairwise_unshadowed (words : List Text) : (unshadowed words).Pairwise (· < ·) :=
  (List.pairwise_lt_finRange _).filter _

lemma mem_unshadowed_iff {i : Fin words.length} :
    i ∈ unshadowed words ↔ ∀ j < i, ¬ words.get j <+: words.get i := by
  simp [unshadowed]

/-- The word that is taken begins with no earlier word, since that one would lie ahead as well. -/
lemma mem_unshadowed_of_isLeast {t : Text} {i : Fin words.length}
    (h : IsLeast {j | words.get j <+: t} i) : i ∈ unshadowed words := by
  rw [mem_unshadowed_iff]
  intro j hlt hj
  have hle := h.2 (hj.trans h.1)
  omega

/-- The first word that lies ahead is found also where only those are left that begin with no earlier
one. -/
lemma find?_unshadowed (words : List Text) (c : Cursor) :
    ((unshadowed words).find? fun i => c.startsWith (words.get i)) =
      (List.finRange words.length).find? fun i => c.startsWith (words.get i) := by
  cases h : (List.finRange words.length).find? fun i => c.startsWith (words.get i) with
  | none =>
    rw [List.find?_eq_none] at h ⊢
    exact fun i _ => h i (List.mem_finRange i)
  | some i =>
    rw [find?_eq_some_iff_isLeast (List.pairwise_lt_finRange _)] at h
    simp only [List.mem_finRange, true_and, startsWith_iff] at h
    rw [find?_eq_some_iff_isLeast (pairwise_unshadowed words)]
    simp only [startsWith_iff]
    exact ⟨⟨mem_unshadowed_of_isLeast h, h.1⟩, fun j hj => h.2 hj.2⟩

/-- A word of a choice is taken somewhere exactly if no earlier word is its beginning. Everywhere that
word is taken which is the first one in the list to lie ahead, and its text is read; where none lies
ahead the choice fails. To leave out all words at once that begin with an earlier one changes nothing
anywhere, whether the earlier one is left out as well or not. -/
theorem keyword_taken_iff_unshadowed (words : List Text) :
    (∀ i, (∃ input d, keyword words (List.finRange words.length) (.ofText input) = .success i d) ↔
      ∀ j < i, ¬ words.get j <+: words.get i) ∧
    (∀ c i d, keyword words (List.finRange words.length) c = .success i d ↔
      IsLeast {j | words.get j <+: c.rest} i ∧ c.Passes (words.get i) d) ∧
    (∀ c, keyword words (List.finRange words.length) c = .failure ↔
      ∀ j, ¬ words.get j <+: c.rest) ∧
    keyword words (unshadowed words) = keyword words (List.finRange words.length) := by
  have htaken (c d : Cursor) (i : Fin words.length) :
      keyword words (List.finRange words.length) c = .success i d ↔
        IsLeast {j | words.get j <+: c.rest} i ∧ c.Passes (words.get i) d := by
    rw [keyword_eq_success_iff (List.pairwise_lt_finRange _)]
    simp only [List.mem_finRange, true_and]
  refine ⟨fun i => ⟨?_, fun h => ?_⟩, fun c i d => htaken c d i, fun c => ?_, ?_⟩
  · rintro ⟨input, d, h⟩
    exact mem_unshadowed_iff.mp (mem_unshadowed_of_isLeast ((htaken _ d i).mp h).1)
  · obtain ⟨d, hd, -⟩ := Cursor.exists_passes_of_rest_eq
      (c := .ofText (words.get i)) (List.append_nil (words.get i)).symm
    refine ⟨words.get i, d, (htaken _ d i).mpr ⟨⟨List.prefix_refl _, fun j hj => ?_⟩, hd⟩⟩
    by_contra hlt
    exact h j (Fin.not_le.mp hlt) hj
  · rw [keyword_eq_failure_iff]
    simp only [List.mem_finRange, true_imp_iff]
  · funext c
    rw [keyword_eq_find?, keyword_eq_find?, find?_unshadowed]

/-- The longest word of three is taken nowhere behind the shortest one; the word between them is left
out itself, and the empty word at the end is read where no other word lies ahead. -/
example : unshadowed [['i', 'f'], ['i', 'f', 'é'], ['i', 'f', 'é', 'e'], []] = [0, 3] := by decide

end Parser
end TextParsing
