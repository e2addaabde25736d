import TextParsing.Proofs.Boundary
import TextParsing.Proofs.Simulation

/-! Places with the same rest. They are in step however far their texts agree in front of them, since
a valid position is the length of the source less that of the rest. -/
namespace TextParsing

/-- A place of the text `s` and one of the text `t` at which the same is left. -/
structure Cursor.SameRest (s t : Text) (c d : Cursor) : Prop where
  left_source : c.source = s
  left_valid : c.Valid
  right_source : d.source = t
  right_valid : d.Valid
  rest_eq : c.rest = d.rest

namespace Cursor.SameRest
variable {s t u : Text} {c d e c' d' : Cursor}

lemma refl (h : c.Valid) : SameRest c.source c.source c c := ⟨rfl, h, rfl, h, rfl⟩

lemma symm (h : SameRest s t c d) : SameRest t s d c :=
  ⟨h.right_source, h.right_valid, h.left_source, h.left_valid, h.rest_eq.symm⟩

lemma trans (h : SameRest s t c d) (k : SameRest t u d e) : SameRest s u c e :=
  ⟨h.left_source, h.left_valid, k.right_source, k.right_valid, h.rest_eq.trans k.rest_eq⟩

/-- In one text such places are the same. -/
lemma eq (h : SameRest s s c d) : c = d :=
  h.left_valid.eq_of_rest_eq h.right_valid (h.left_source.trans h.right_source.symm) h.rest_eq

lemma left_position (h : SameRest s t c d) : c.position + d.rest.byteLength = s.byteLength := by
  rw [← h.rest_eq, ← h.left_source]
  exact h.left_valid.position_add_byteLength_rest

lemma right_position (h : SameRest s t c d) : d.position + d.rest.byteLength = t.byteLength := by
  rw [← h.right_source]
  exact h.right_valid.position_add_byteLength_rest

/-- From places with the same rest to places with the same rest the way is equally long. -/
lemma position_add_position (h : SameRest s t c d) (k : SameRest s t c' d') :
    c'.position + d.position = d'.position + c.position := by
  have := h.left_position
  have := h.right_position
  have := k.left_position
  have := k.right_position
  omega

lemma position_lt_iff (h : SameRest s t c d) (k : SameRest s t c' d') :
    c.position < c'.position ↔ d.position < d'.position := by
  have := h.position_add_position k
  omega

lemma passes (h : SameRest s t c d) {w : Text} (hc : c.Passes w c') (hd : d.Passes w d') :
    SameRest s t c' d' where
  left_source := hc.1.trans h.left_source
  left_valid := hc.valid h.left_valid
  right_source := hd.1.trans h.right_source
  right_valid := hd.valid h.right_valid
  rest_eq := by
    have hr := h.rest_eq
    rw [hc.2.1, hd.2.1] at hr
    exact List.append_cancel_left hr

theorem simulation (s t : Text) : Simulation (SameRest s t) where
  rest_eq h := h.rest_eq
  atEnd_eq h := by
    rw [Bool.eq_iff_iff, h.left_valid.atEnd_iff, h.right_valid.atEnd_iff, h.rest_eq]
  position_lt_iff h k := h.position_lt_iff k
  passes h hc hd := h.passes hc hd

end Cursor.SameRest

lemma Outcome.Refines.eq_of_isAnswer {α : Type} {s : Text} {o o' : Outcome α}
    (h : Outcome.Refines (· = ·) (Cursor.SameRest s s) o o') (ho : o.isAnswer) : o' = o := by
  cases h with
  | success hv hr => rw [hv, hr.eq]
  | failure => rfl
  | unfinished o' => cases ho

namespace Parser
variable {α β : Type} {p q r : Parser α}

/-- A parser that answers like another one may be replaced, in the same text, by one that answers
like itself. -/
lemma Refines.trans_sameRest {s t : Text} (h : p.Refines (· = ·) (Cursor.SameRest s t) q)
    (k : q.Refines (· = ·) (Cursor.SameRest t t) r) :
    p.Refines (· = ·) (Cursor.SameRest s t) r := by
  intro c d hr
  have hd : Cursor.SameRest t t d d := hr.symm.trans hr
  exact (h c d hr).trans (k d d hd) (fun _ _ _ => Eq.trans) fun _ _ _ => Cursor.SameRest.trans

/-- A parser that leads from the valid places of a source to valid places of the same source. Custom
parsers owe this to the parsers around them: where they stop comes from where they began. -/
def StaysValid (p : Parser α) : Prop :=
  ∀ ⦃c v d⦄, c.Valid → p c = .success v d → d.Valid ∧ d.source = c.source

/-- A parser that depends on what is left only: it answers alike wherever the same is left, in
whatever text and at whatever position. -/
def ReadsRest (p : Parser α) : Prop := ∀ s t, p.Refines (· = ·) (Cursor.SameRest s t) p

theorem staysValid_iff_refines :
    p.StaysValid ↔ ∀ s, p.Refines (· = ·) (Cursor.SameRest s s) p := by
  constructor
  · intro h s c d hr
    obtain rfl := hr.eq
    cases hp : p c with
    | success v e =>
      obtain ⟨he, hs⟩ := h hr.left_valid hp
      have hs := hs.trans hr.left_source
      exact .success rfl ⟨hs, he, hs, he, rfl⟩
    | failure => exact .failure
    | unfinished => exact .unfinished _
  · intro h c v d hc hp
    have hr := h c.source c c (.refl hc)
    rw [hp] at hr
    cases hr with
    | success _ hr => exact ⟨hr.left_valid, hr.left_source⟩

lemma ReadsRest.staysValid (h : p.ReadsRest) : p.StaysValid :=
  staysValid_iff_refines.mpr fun s => h s s

/-- A parser that answers alike from any places in step depends on what is left only. -/
lemma readsRest_map (h : ∀ {R}, Cursor.Simulation R → p.Refines (· = ·) R p) (f : α → β) :
    (p.map f).ReadsRest :=
  fun s t => (h (Cursor.SameRest.simulation s t)).map fun _ _ hv => congrArg f hv

end Parser
end TextParsing
