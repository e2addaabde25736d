import Mathlib.Data.List.Infix
import Mathlib.Order.Bounds.Defs
import TextParsing.Proofs.Reading

/-! Delimiters are found at their first occurrence. The search goes by characters, and the places that
a search by bytes can find are the same, since no character begins inside the bytes of another. -/
namespace TextParsing

namespace Text
variable {s t u word rest : Text}

/-- The UTF-8 encoding. -/
def bytes (t : Text) : List UInt8 := t.flatMap String.utf8EncodeChar

@[simp] lemma bytes_nil : bytes [] = [] := rfl

@[simp] lemma bytes_cons (ch : Char) (t : Text) :
    bytes (ch :: t) = String.utf8EncodeChar ch ++ bytes t := rfl

@[simp] lemma bytes_append (s t : Text) : bytes (s ++ t) = bytes s ++ bytes t :=
  List.flatMap_append

@[simp] lemma length_bytes (t : Text) : (bytes t).length = t.byteLength := by
  induction t with
  | nil => rfl
  | cons ch t ih => simp [ih]

@[simp] lemma bytes_eq_nil : bytes t = [] ↔ t = [] := by
  rw [← List.length_eq_zero_iff, length_bytes, byteLength_eq_zero]

/-- The bytes of `word` stand in those of `t` behind the first `n`. -/
def OccursAt (word : Text) (n : Nat) (t : Text) : Prop :=
  ∃ before behind, bytes t = before ++ (bytes word ++ behind) ∧ before.length = n

/-- A text whose encoding begins with that of another text begins with it. -/
lemma prefix_of_bytes_eq {behind : List UInt8} (h : bytes t = bytes word ++ behind) : word <+: t := by
  apply List.isPrefix_of_utf8Encode_append_eq_utf8Encode behind.toByteArray
  change (bytes word).toByteArray ++ _ = (bytes t).toByteArray
  rw [h, List.toByteArray_append]

/-- The first byte of a character stands at the beginning of the bytes of another one only. -/
lemma eq_nil_of_utf8EncodeChar {ch first : Char} {before inside behind rest : List UInt8}
    (hch : String.utf8EncodeChar ch = before ++ inside) (hne : inside ≠ [])
    (h : String.utf8EncodeChar first ++ behind = inside ++ rest) : before = [] := by
  obtain ⟨byte, inside, rfl⟩ := List.exists_cons_of_ne_nil hne
  have hpos := List.length_pos_iff.mpr (String.utf8EncodeChar_ne_nil (c := first))
  have hbyte : (String.utf8EncodeChar first)[0] = byte := by
    have h0 := List.getElem_of_eq h (i := 0) (by rw [List.length_append]; omega)
    rwa [List.getElem_append_left hpos] at h0
  have hfirst : byte.IsUTF8FirstByte := by
    rw [← hbyte, UInt8.isUTF8FirstByte_getElem_utf8EncodeChar]
  have hlt : before.length < (String.utf8EncodeChar ch).length := by simp [hch]
  have hget : (String.utf8EncodeChar ch)[before.length] = byte := by simp [hch]
  rw [← hget, UInt8.isUTF8FirstByte_getElem_utf8EncodeChar] at hfirst
  exact List.length_eq_zero_iff.mp hfirst

/-- Two characters that begin at different bytes lie behind each other. -/
lemma exists_append_of_utf8EncodeChar {ch first : Char} {before behind rest : List UInt8}
    (hne : before ≠ [])
    (h : String.utf8EncodeChar ch ++ rest = before ++ (String.utf8EncodeChar first ++ behind)) :
    ∃ more, before = String.utf8EncodeChar ch ++ more ∧
      rest = more ++ (String.utf8EncodeChar first ++ behind) := by
  rcases List.append_eq_append_iff.mp h with ⟨more, hbefore, hrest⟩ | ⟨inside, hch, hrest⟩
  · exact ⟨more, hbefore, hrest⟩
  · obtain rfl : inside = [] := by
      by_contra hinside
      exact hne (eq_nil_of_utf8EncodeChar hch hinside hrest)
    exact ⟨[], by simpa using hch.symm, by simpa using hrest.symm⟩

/-- Where the bytes of a word occur its characters do. -/
theorem exists_prefix_of_occursAt {n : Nat} (hw : word ≠ []) (h : OccursAt word n t) :
    ∃ s : Text, s ++ word <+: t ∧ s.byteLength = n := by
  obtain ⟨before, behind, h, rfl⟩ := h
  induction t generalizing before with
  | nil => simp [hw] at h
  | cons ch t ih =>
    by_cases hb : before = []
    · subst hb
      exact ⟨[], prefix_of_bytes_eq h, rfl⟩
    · obtain ⟨first, word, rfl⟩ := List.exists_cons_of_ne_nil hw
      rw [bytes_cons, bytes_cons, List.append_assoc] at h
      obtain ⟨more, rfl, ht⟩ := exists_append_of_utf8EncodeChar hb h
      obtain ⟨s, hs, hlength⟩ := ih more (by rw [ht, bytes_cons, List.append_assoc])
      exact ⟨ch :: s, (List.prefix_cons_inj ch).mpr hs, by simp [hlength]⟩

lemma occursAt_of_prefix (h : s ++ word <+: t) : OccursAt word s.byteLength t := by
  obtain ⟨rest, rfl⟩ := h
  exact ⟨bytes s, bytes rest, by simp, length_bytes s⟩

/-- What stands in front of the first occurrence begins every text in front of an occurrence. -/
lemma IsBeforeFirst.prefix_of_prefix (h : IsBeforeFirst word s rest t) (hu : u ++ word <+: t) :
    s <+: u := by
  obtain ⟨behind, ht⟩ := hu
  rw [List.append_assoc] at ht
  have hle := h.2.2 u _ ht.symm (List.prefix_append word behind)
  exact List.prefix_of_prefix_length_le ⟨rest, h.1.symm⟩ ⟨_, ht⟩ hle

/-- The first occurrence by characters is the first one by bytes. -/
theorem IsBeforeFirst.isLeast (hw : word ≠ []) (h : IsBeforeFirst word s rest t) :
    IsLeast {n | OccursAt word n t} s.byteLength := by
  constructor
  · apply occursAt_of_prefix
    rw [h.1]
    exact (List.prefix_append_right_inj s).mpr h.2.1
  · intro n hn
    obtain ⟨u, hu, rfl⟩ := exists_prefix_of_occursAt hw hn
    obtain ⟨more, rfl⟩ := h.prefix_of_prefix hu
    rw [byteLength_append]
    omega

lemma isBoundary_of_occursAt {n : Nat} (hw : word ≠ []) (h : OccursAt word n t) :
    t.IsBoundary n := by
  obtain ⟨s, ⟨rest, hs⟩, hn⟩ := exists_prefix_of_occursAt hw h
  exact ⟨s, word ++ rest, by rw [← hs, List.append_assoc], hn⟩

/-- A word that occurs is found. -/
lemma exists_splitFirst?_eq_some (h : word <:+: t) :
    ∃ s behind, splitFirst? word t = some (s, word ++ behind) ∧
      IsBeforeFirst word s (word ++ behind) t := by
  cases hs : splitFirst? word t with
  | none =>
    obtain ⟨before, behind, h⟩ := h
    rw [List.append_assoc] at h
    exact absurd (List.prefix_append word behind) (not_prefix_of_cutFirst?_eq_none hs h.symm)
  | some parts =>
    obtain ⟨s, rest⟩ := parts
    have hfirst := splitFirst?_eq_some hs
    obtain ⟨behind, rfl⟩ := hfirst.2.1
    exact ⟨s, behind, rfl, hfirst⟩

lemma splitFirst?_eq_none (h : ¬ word <:+: t) : splitFirst? word t = none := by
  cases hs : splitFirst? word t with
  | none => rfl
  | some parts =>
    obtain ⟨ht, ⟨behind, hrest⟩, -⟩ := splitFirst?_eq_some hs
    exact absurd ⟨parts.1, behind, by rw [List.append_assoc, hrest, ht]⟩ h

end Text

namespace Parser
open Text
variable {c d e : Cursor} {t word behind : Text}

lemma takeThrough_of_splitFirst? (hw : word ≠ [])
    (h : splitFirst? word c.rest = some (t, word ++ behind)) (he : c.Passes (t ++ word) e) :
    takeThrough word c = .success (t ++ word) e := by
  have hempty : ¬ word.isEmpty = true := by simpa using hw
  have hadvance := (Cursor.advance?_byteLength_eq_some_iff he.2.1).mpr he
  rw [byteLength_append] at hadvance
  rw [takeThrough, if_neg hempty, h]
  exact Outcome.ofCursor?_eq_success_iff.mpr ⟨rfl, hadvance⟩

/-- Where no delimiter is found, either parser fails; an empty one is not looked for. -/
lemma take_eq_failure (h : word = [] ∨ ¬ word <:+: c.rest) :
    takeUntil word c = .failure ∧ takeThrough word c = .failure := by
  rcases h with rfl | h
  · exact ⟨rfl, rfl⟩
  · constructor
    · rw [takeUntil, splitFirst?_eq_none h, ite_self]
    · rw [takeThrough, splitFirst?_eq_none h, ite_self]

/-- Both parsers of delimiters cut at the first occurrence, one in front of it and one behind it, and
fail where there is none. What stands in front of it is the shortest text that an occurrence stands
behind, also where occurrences overlap. By bytes the same occurrence is the first one, and as every
occurrence by bytes it begins at a boundary, so that the cursor can advance there. An empty delimiter
is not found. -/
theorem delimiters_cut_at_first_occurrence (word : Text) (c : Cursor) :
    if word ≠ [] ∧ word <:+: c.rest then
      ∃ t d e,
        takeUntil word c = .success t d ∧ c.Passes t d ∧ d.startsWith word = true ∧
        takeThrough word c = .success (t ++ word) e ∧ c.Passes (t ++ word) e ∧
        (takeUntil word).seqRight (literal word) c = .success () e ∧
        (∀ u, u ++ word <+: c.rest → t <+: u) ∧
        splitFirst? word c.rest = some (t, d.rest) ∧
        IsLeast {n | OccursAt word n c.rest} t.byteLength ∧
        (∀ n, OccursAt word n c.rest → c.rest.IsBoundary n) ∧
        c.advance? t.byteLength = some d ∧ c.advance? (t ++ word).byteLength = some e
    else takeUntil word c = .failure ∧ takeThrough word c = .failure ∧
      (takeUntil word).seqRight (literal word) c = .failure := by
  split
  case isTrue h =>
    obtain ⟨hw, hin⟩ := h
    obtain ⟨t, behind, hfound, hfirst⟩ := exists_splitFirst?_eq_some hin
    obtain ⟨d, hd, hrest⟩ := Cursor.exists_passes_of_rest_eq hfirst.1
    obtain ⟨e, hword, -⟩ := Cursor.exists_passes_of_rest_eq hrest
    have hstarts : d.startsWith word = true := by
      rw [Cursor.startsWith, hrest]
      exact List.isPrefixOf_iff_prefix.mpr (List.prefix_append word behind)
    have huntil : takeUntil word c = .success t d := by
      refine ((reads_takeUntil hw).success_iff c t d).mpr ⟨t, hd, rfl, ?_⟩
      rw [← hd.2.1, hrest]
      exact hfirst
    have hliteral : literal word d = .success () e :=
      ((reads_literal word).success_iff d () e).mpr ⟨word, hword, rfl⟩
    have he := hd.trans hword
    refine ⟨t, d, e, huntil, hd, hstarts, takeThrough_of_splitFirst? hw hfound he, he, ?_,
      fun u => hfirst.prefix_of_prefix, hrest ▸ hfound, hfirst.isLeast hw,
      fun n => isBoundary_of_occursAt hw, ?_, ?_⟩
    · rw [seqRight, huntil, Outcome.andThen_success, hliteral]
    · exact (Cursor.advance?_byteLength_eq_some_iff hd.2.1).mpr hd
    · exact (Cursor.advance?_byteLength_eq_some_iff he.2.1).mpr he
  case isFalse h =>
    obtain ⟨huntil, hthrough⟩ := take_eq_failure (or_iff_not_imp_left.mpr fun hw hin => h ⟨hw, hin⟩)
    refine ⟨huntil, hthrough, ?_⟩
    rw [seqRight, huntil, Outcome.andThen_failure]

/-- Of two occurrences that overlap the first one is found, behind a character of two bytes. -/
theorem delimiters_cut_at_first_occurrence_overlapping :
    ∃ d e, takeUntil ['a', 'a'] (.ofText ['é', 'a', 'a', 'a', 'b']) = .success ['é'] d ∧
      takeThrough ['a', 'a'] (.ofText ['é', 'a', 'a', 'a', 'b']) = .success ['é', 'a', 'a'] e ∧
      e.rest = ['a', 'b'] ∧
      IsLeast {n | OccursAt ['a', 'a'] n ['é', 'a', 'a', 'a', 'b']} 2 ∧
      OccursAt ['a', 'a'] 3 ['é', 'a', 'a', 'a', 'b'] := by
  have hruns : takeUntil ['a', 'a'] (.ofText ['é', 'a', 'a', 'a', 'b']) =
      .success ['é'] ⟨['é', 'a', 'a', 'a', 'b'], 2, ['a', 'a', 'a', 'b']⟩ := by rfl
  have h := delimiters_cut_at_first_occurrence ['a', 'a'] (.ofText ['é', 'a', 'a', 'a', 'b'])
  rw [if_pos ⟨by simp, ['é'], ['a', 'b'], rfl⟩] at h
  obtain ⟨t, d, e, huntil, -, -, hthrough, hpass, -, -, -, hleast, -⟩ := h
  cases huntil.symm.trans hruns
  have hrest : ['é', 'a', 'a'] ++ ['a', 'b'] = ['é', 'a', 'a'] ++ e.rest := hpass.2.1
  exact ⟨_, e, hruns, hthrough, (List.append_cancel_left hrest).symm, hleast,
    occursAt_of_prefix (s := ['é', 'a']) ⟨['b'], rfl⟩⟩

end Parser
end TextParsing
