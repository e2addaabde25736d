import Mathlib.Tactic.Lemma
import TextParsing.Cursor.Valid

/-! Boundaries between the characters of a text. A valid cursor stands on one of them, holds the
slice from there on, and is determined by its source and either its position or its rest. -/
namespace TextParsing

namespace Text

/-- Byte `n` of a text is where a character begins, or the end of the text. -/
def IsBoundary (t : Text) (n : Nat) : Prop :=
  ∃ passed rest : Text, t = passed ++ rest ∧ passed.byteLength = n

lemma IsBoundary.le_byteLength {t : Text} {n : Nat} (h : t.IsBoundary n) : n ≤ t.byteLength := by
  obtain ⟨passed, rest, rfl, rfl⟩ := h
  simp

lemma length_le_byteLength (t : Text) : t.length ≤ t.byteLength := by
  induction t with
  | nil => simp
  | cons c t ih =>
    have := c.utf8Size_pos
    simp only [List.length_cons, byteLength_cons]
    omega

/-- A text is cut in one way only at a given byte. -/
lemma append_inj_of_byteLength {s t rest rest' : Text} (h : s ++ rest = t ++ rest')
    (hn : s.byteLength = t.byteLength) : s = t ∧ rest = rest' := by
  have hs := splitBytes?_byteLength_append s rest
  rw [h, hn, splitBytes?_byteLength_append] at hs
  have := Prod.mk.inj (Option.some.inj hs)
  exact ⟨this.1.symm, this.2.symm⟩

/-- Of two cuts of a text the one further on has the other part in front of it. -/
lemma exists_append_of_byteLength_le {s t rest rest' : Text} (h : s ++ rest = t ++ rest')
    (hn : s.byteLength ≤ t.byteLength) : ∃ u, t = s ++ u ∧ rest = u ++ rest' := by
  rcases List.append_eq_append_iff.mp h with ⟨u, ht, hr⟩ | ⟨u, hs, hr⟩
  · exact ⟨u, ht, hr⟩
  · have hu : u = [] := by
      rw [← byteLength_eq_zero]
      rw [hs, byteLength_append] at hn
      omega
    subst hu
    exact ⟨[], by simpa using hs.symm, by simpa using hr.symm⟩

end Text

namespace Cursor

theorem valid_iff_splitBytes? {c : Cursor} :
    c.Valid ↔ ∃ passed, c.source.splitBytes? c.position = some (passed, c.rest) := by
  constructor
  · intro h
    obtain ⟨passed, hs, hp⟩ := h
    exact ⟨passed, Text.splitBytes?_eq_some_iff.mpr ⟨hs, hp⟩⟩
  · intro h
    obtain ⟨passed, h⟩ := h
    exact ⟨passed, Text.splitBytes?_eq_some_iff.mp h⟩

lemma Valid.isBoundary {c : Cursor} (h : c.Valid) : c.source.IsBoundary c.position := by
  obtain ⟨passed, hs, hp⟩ := h
  exact ⟨passed, c.rest, hs, hp.symm⟩

lemma Valid.eq_of_position_eq {c d : Cursor} (hc : c.Valid) (hd : d.Valid)
    (hs : c.source = d.source) (hp : c.position = d.position) : c = d := by
  obtain ⟨s, hcs, hcp⟩ := hc
  obtain ⟨t, hds, hdp⟩ := hd
  have hr := (Text.append_inj_of_byteLength (hcs.symm.trans (hs.trans hds))
    (hcp.symm.trans (hp.trans hdp))).2
  cases c
  cases d
  simp_all

lemma Valid.eq_of_rest_eq {c d : Cursor} (hc : c.Valid) (hd : d.Valid)
    (hs : c.source = d.source) (hr : c.rest = d.rest) : c = d := by
  have hpc := hc.position_add_byteLength_rest
  have hpd := hd.position_add_byteLength_rest
  rw [hs, hr] at hpc
  exact hc.eq_of_position_eq hd hs (by omega)

/-- Between two places of one source lies a text. -/
lemma Valid.exists_passes {c d : Cursor} (hc : c.Valid) (hd : d.Valid)
    (hs : c.source = d.source) (hp : c.position ≤ d.position) : ∃ t, c.Passes t d := by
  obtain ⟨s, hcs, hcp⟩ := hc
  obtain ⟨t, hds, hdp⟩ := hd
  have hle : s.byteLength ≤ t.byteLength := by omega
  obtain ⟨u, rfl, hr⟩ := Text.exists_append_of_byteLength_le (hcs.symm.trans (hs.trans hds)) hle
  rw [Text.byteLength_append] at hdp
  exact ⟨u, hs.symm, hr, by omega⟩

lemma textUntil?_of_passes {c d : Cursor} {t : Text} (h : c.Passes t d) :
    c.textUntil? d = some t := by
  have hn : d.position - c.position = t.byteLength := by
    have := h.2.2
    omega
  rw [textUntil?, h.2.1, hn, Text.splitBytes?_byteLength_append]
  rfl

lemma textUntil?_of_position_le {c d : Cursor} (h : d.position ≤ c.position) :
    c.textUntil? d = some [] := by
  have hn : d.position - c.position = Text.byteLength [] := by simp; omega
  rw [textUntil?, hn]
  exact congrArg (Option.map Prod.fst) (Text.splitBytes?_byteLength_append [] c.rest)

/-- The text between two places of one source is the slice from the first one to the second, or an
empty one where the second does not lie further on. -/
theorem Valid.textUntil?_eq_some {c d : Cursor} (hc : c.Valid) (hd : d.Valid)
    (hs : c.source = d.source) :
    ∃ passed t rest : Text, c.textUntil? d = some t ∧ c.source = passed ++ t ++ rest ∧
      passed.byteLength = c.position ∧
      (passed ++ t).byteLength = max d.position c.position := by
  obtain ⟨passed, hcs, hcp⟩ := id hc
  rcases Nat.le_total c.position d.position with hle | hle
  · obtain ⟨t, ht⟩ := hc.exists_passes hd hs hle
    have hp := ht.2.2
    refine ⟨passed, t, d.rest, textUntil?_of_passes ht, ?_, hcp.symm, ?_⟩
    · rw [hcs, ht.2.1, List.append_assoc]
    · rw [Text.byteLength_append]
      omega
  · refine ⟨passed, [], c.rest, textUntil?_of_position_le hle, ?_, hcp.symm, ?_⟩
    · rw [hcs, List.append_nil]
    · rw [List.append_nil]
      omega

lemma peek?_eq_none_iff {c : Cursor} : c.peek? = none ↔ c.rest = [] := List.head?_eq_none_iff

lemma next_eq_self_iff {c : Cursor} : c.next = c ↔ c.rest = [] := by
  cases hr : c.rest with
  | nil => simp [next, hr]
  | cons ch rest =>
    have hp := (passes_next_of_cons hr).2.2
    have hpos := ch.utf8Size_pos
    simp only [Text.byteLength_cons, Text.byteLength_nil] at hp
    constructor
    · intro h
      rw [h] at hp
      omega
    · intro h
      cases h

end Cursor
end TextParsing
