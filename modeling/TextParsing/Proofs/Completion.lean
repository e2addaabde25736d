import TextParsing.Proofs.Numeral
import TextParsing.Proofs.Repetition

/-! Parsers that come to an end. The rules say at which places a parser is asked and at which places
it stops, so that what is asked behind a match is asked where that match can stop. -/
namespace TextParsing.Parser
open Cursor
variable {α β γ : Type} {p : Parser α} {q : Parser β} {r : Parser γ} {S T U W : Cursor → Prop}

namespace Leads

theorem pure (v : α) : (Parser.pure v).Leads S S := fun c hc => .inr ⟨v, c, rfl, hc⟩

theorem fail : (Parser.fail : Parser α).Leads S T := fun _ _ => .inl rfl

theorem eof : Parser.eof.Leads S S := by
  intro c hc
  unfold Parser.eof
  split
  · exact .inr ⟨(), c, rfl, hc⟩
  · exact .inl rfl

theorem bind {f : α → Parser β} (h : p.Leads S T) (k : ∀ v, (f v).Leads T U) :
    (p.bind f).Leads S U := by
  intro c hc
  unfold Parser.bind
  rcases h hc with hs | ⟨v, d, hs, hd⟩
  · rw [hs]
    exact .inl rfl
  · rw [hs]
    exact k v hd

theorem map (h : p.Leads S T) (f : α → β) : (p.map f).Leads S T := h.bind fun v => .pure (f v)

theorem filter (h : p.Leads S T) (condition : α → Bool) : (p.filter condition).Leads S T := by
  refine h.bind (f := fun v c => if condition v then .success v c else .failure) fun v c hc => ?_
  split
  · exact .inr ⟨v, c, rfl, hc⟩
  · exact .inl rfl

/-- Where nothing matches the place stays the one that was asked. -/
theorem optional (h : p.Leads S S) : p.optional.Leads S S := by
  intro c hc
  unfold Parser.optional
  rcases h hc with hs | ⟨v, d, hs, hd⟩
  · rw [hs]
    exact .inr ⟨none, c, rfl, hc⟩
  · rw [hs]
    exact .inr ⟨some v, d, rfl, hd⟩

theorem orElse {q : Parser α} (h : p.Leads S T) (k : q.Leads S T) : (p.orElse q).Leads S T := by
  intro c hc
  unfold Parser.orElse
  rcases h hc with hs | ⟨v, d, hs, hd⟩
  · rw [hs]
    exact k hc
  · rw [hs]
    exact .inr ⟨v, d, rfl, hd⟩

theorem firstOf {ps : List (Parser α)} (h : ∀ p ∈ ps, p.Leads S T) :
    (firstOf ps).Leads S T := by
  induction ps with
  | nil => exact .fail
  | cons p ps ih =>
    rw [List.forall_mem_cons] at h
    rw [firstOf_cons]
    exact h.1.orElse (ih h.2)

theorem seqRight (h : p.Leads S T) (k : q.Leads T U) : (p.seqRight q).Leads S U :=
  h.bind fun _ => k

theorem seqLeft (h : p.Leads S T) (k : q.Leads T U) : (p.seqLeft q).Leads S U :=
  h.bind fun v => k.map fun _ => v

theorem pair (h : p.Leads S T) (k : q.Leads T U) : (p.pair q).Leads S U :=
  h.bind fun v => k.map fun w => (v, w)

theorem between (h : p.Leads S T) (k : q.Leads T U) (l : r.Leads U W) :
    (between p q r).Leads S W := by
  rw [between_eq]
  exact h.seqRight (k.seqLeft l)

theorem sequence {ps : List (Parser α)} (h : ∀ p ∈ ps, p.Leads S S) :
    (sequence ps).Leads S S := by
  induction ps with
  | nil => exact .pure []
  | cons p ps ih =>
    rw [List.forall_mem_cons] at h
    exact h.1.bind fun v => (ih h.2).map (v :: ·)

variable {s : Text} {n : Nat}

theorem sepBy (h : p.Leads (PlaceFrom s n) (PlaceFrom s n))
    (k : q.Leads (PlaceFrom s n) (PlaceFrom s n)) :
    (p.sepBy q).Leads (PlaceFrom s n) (PlaceFrom s n) :=
  fun _ hc => .inr (exists_sepBy_eq_success h k hc)

theorem sepBy1 (h : p.Leads (PlaceFrom s n) (PlaceFrom s n))
    (k : q.Leads (PlaceFrom s n) (PlaceFrom s n)) :
    (p.sepBy1 q).Leads (PlaceFrom s n) (PlaceFrom s n) :=
  (h.sepBy k).filter _

end Leads

section
variable {s : Text} {n : Nat}

lemma leads_anyChar : anyChar.Leads (PlaceFrom s n) (PlaceFrom s n) := reads_anyChar.leads

/-- A number is asked for as a double at the place where the integer was asked for. -/
lemma leads_number : number.Leads (PlaceFrom s n) (PlaceFrom s n) := by
  intro c hc
  have hdouble := reads_double.leads.map Number.double hc
  unfold number
  rcases reads_int64.leads hc with hs | ⟨i, d, hs, hd⟩
  · rw [hs]
    exact hdouble
  · rw [hs]
    dsimp only
    split
    · exact hdouble
    · exact .inr ⟨.int i, d, rfl, hd⟩

end

end TextParsing.Parser
