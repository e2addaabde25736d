import TextParsing.Proofs.Reading
import TextParsing.Proofs.SameRest

/-! The places of a text from a given byte on. Reading does not lead out of them, so that a run among
them is in step with itself; a parser that does not lead out of them either may still come to no
end. -/
namespace TextParsing

namespace Cursor

/-- A place of the text `s` at byte `n` or further on. -/
structure PlaceFrom (s : Text) (n : Nat) (c : Cursor) : Prop where
  valid : c.Valid
  source_eq : c.source = s
  le_position : n ≤ c.position

variable {s t : Text} {n : Nat} {c d : Cursor}

lemma Valid.placeFrom (h : c.Valid) : PlaceFrom c.source c.position c := ⟨h, rfl, Nat.le_refl _⟩

lemma Valid.placeFrom_zero (h : c.Valid) : PlaceFrom c.source 0 c := ⟨h, rfl, Nat.zero_le _⟩

lemma PlaceFrom.passes (h : PlaceFrom s n c) (hd : c.Passes t d) : PlaceFrom s n d where
  valid := hd.valid h.valid
  source_eq := hd.1.trans h.source_eq
  le_position := by
    have := h.le_position
    have := hd.2.2
    omega

lemma PlaceFrom.length_rest_le (hc : PlaceFrom s n c) (hd : PlaceFrom s n d)
    (hle : c.position ≤ d.position) : d.rest.length ≤ c.rest.length := by
  obtain ⟨t, ht⟩ := hc.valid.exists_passes hd.valid (hc.source_eq.trans hd.source_eq.symm) hle
  rw [ht.2.1, List.length_append]
  omega

/-- Further on in a text less is left. -/
lemma PlaceFrom.length_rest_lt (hc : PlaceFrom s n c) (hd : PlaceFrom s n d)
    (hlt : c.position < d.position) : d.rest.length < c.rest.length := by
  obtain ⟨t, ht⟩ := hc.valid.exists_passes hd.valid (hc.source_eq.trans hd.source_eq.symm)
    (Nat.le_of_lt hlt)
  have hne : t ≠ [] := by
    rintro rfl
    have := ht.2.2
    simp at this
    omega
  have := List.length_pos_iff.mpr hne
  rw [ht.2.1, List.length_append]
  omega

/-- One and the same place, which lies in `S`. -/
def Inside (S : Cursor → Prop) (c d : Cursor) : Prop := c = d ∧ S c

theorem simulation_inside (s : Text) (n : Nat) : Simulation (Inside (PlaceFrom s n)) where
  rest_eq h := congrArg Cursor.rest h.1
  atEnd_eq h := congrArg Cursor.atEnd h.1
  position_lt_iff h k := by rw [h.1, k.1]
  passes h hc hd := by
    obtain ⟨rfl, h⟩ := h
    exact ⟨hc.unique hd, h.passes hc⟩

end Cursor

namespace Parser
open Cursor
variable {α : Type} {p : Parser α} {S T : Cursor → Prop}

/-- From the places in `S` the parser leads to places in `S` only. -/
def StaysIn (S : Cursor → Prop) (p : Parser α) : Prop :=
  ∀ ⦃c v d⦄, S c → p c = .success v d → S d

/-- From the places in `S` the parser comes to an end, and at a place in `T` if it matches. -/
def Leads (S T : Cursor → Prop) (p : Parser α) : Prop :=
  ∀ ⦃c⦄, S c → p c = .failure ∨ ∃ v d, p c = .success v d ∧ T d

theorem staysIn_iff_refines : p.StaysIn S ↔ p.Refines (· = ·) (Inside S) p := by
  constructor
  · intro h c d hr
    obtain ⟨rfl, hc⟩ := hr
    cases hp : p c with
    | success v e => exact .success rfl ⟨rfl, h hc hp⟩
    | failure => exact .failure
    | unfinished => exact .unfinished _
  · intro h c v d hc hp
    have hr := h c c ⟨rfl, hc⟩
    rw [hp] at hr
    cases hr with
    | success _ hd => exact hd.2

lemma Leads.staysIn (h : p.Leads S S) : p.StaysIn S := by
  intro c v d hc hp
  rcases h hc with hfail | ⟨w, e, hs, he⟩
  · cases hfail.symm.trans hp
  · cases hs.symm.trans hp
    exact he

lemma StaysValid.staysIn_zero (hp : p.StaysValid) (s : Text) : p.StaysIn (PlaceFrom s 0) := by
  intro c v d hc hs
  obtain ⟨hd, hsource⟩ := hp hc.valid hs
  exact ⟨hd, hsource.trans hc.source_eq, Nat.zero_le _⟩

/-- To lead along is to stay and to come to an end. -/
lemma StaysIn.leads (h : p.StaysIn S) (ha : ∀ ⦃c⦄, S c → p c ≠ .unfinished) : p.Leads S S := by
  intro c hc
  cases hp : p c with
  | success v d => exact .inr ⟨v, d, rfl, h hc hp⟩
  | failure => exact .inl rfl
  | unfinished => exact absurd hp (ha hc)

end Parser
end TextParsing
