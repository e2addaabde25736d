import TextParsing.Proofs.Places
import TextParsing.Proofs.Residual
import TextParsing.Proofs.RunAgreement

/-! Parsing moves forwards and loses no text: what a parser has read and what it leaves are, one after
the other, what was left before. -/
namespace TextParsing

namespace Parser
open Cursor
variable {α : Type} {p : Parser α} {c d : Cursor} {v : α}

/-- A parser that stops where it began or further on in the same source. Custom parsers promise this
unless they set the position. -/
def MovesForward (p : Parser α) : Prop :=
  ∀ ⦃c v d⦄, c.Valid → p c = .success v d →
    d.Valid ∧ d.source = c.source ∧ c.position ≤ d.position

/-- A parser moves forwards if it does not lead out of the places from any byte on. -/
theorem movesForward_iff_staysIn : p.MovesForward ↔ ∀ s n, p.StaysIn (PlaceFrom s n) := by
  constructor
  · intro h s n c v d hc hp
    obtain ⟨hd, hs, hle⟩ := h hc.valid hp
    exact ⟨hd, hs.trans hc.source_eq, hc.le_position.trans hle⟩
  · intro h c v d hc hp
    have hd := h c.source c.position hc.placeFrom hp
    exact ⟨hd.valid, hd.source_eq, hd.le_position⟩

lemma MovesForward.exists_passes (hp : p.MovesForward) (hc : c.Valid) (hs : p c = .success v d) :
    ∃ t, c.Passes t d := by
  obtain ⟨hd, hsource, hle⟩ := hp hc hs
  exact hc.exists_passes hd hsource.symm hle

lemma ReadsRest.movesForward (hp : p.ReadsRest) : p.MovesForward := by
  intro c v d hc hs
  obtain ⟨hd, hsource⟩ := hp.staysValid hc hs
  exact ⟨hd, hsource, hp.position_le hc hs⟩

/-- What a run leaves is the end of its text. -/
lemma MovesForward.residue_isSuffix (hp : p.MovesForward) {input : Text} {report : Report α}
    (h : p.run input = some report) : report.residue <:+ input := by
  rcases run_eq_some_iff.mp h with ⟨-, rfl⟩ | ⟨v, stop, hs, rfl⟩
  · exact List.suffix_refl input
  · obtain ⟨t, ht⟩ := hp.exists_passes (valid_ofText input) hs
    exact ⟨t, ht.2.1.symm⟩

end Parser

namespace Grammar
open Cursor
variable {defs : Definitions} {g : Grammar}

/-- A grammar does not lead out of places that its custom parsers do not lead out of. -/
theorem parser_staysIn {s : Text} {n : Nat}
    (hdefs : defs.EveryCustom (Parser.StaysIn (PlaceFrom s n)))
    (hg : g.EveryCustom (Parser.StaysIn (PlaceFrom s n))) :
    (g.parser defs).StaysIn (PlaceFrom s n) := by
  have hR := simulation_inside s n
  have hrefines : ∀ p : Parser Value, p.StaysIn (PlaceFrom s n) →
      p.Refines (· = ·) (Inside (PlaceFrom s n)) p := fun _ => Parser.staysIn_iff_refines.mp
  refine Parser.staysIn_iff_refines.mpr fun c d hcd => ?_
  obtain ⟨rfl, hc⟩ := hcd
  have henv := defs.expand_refines hR (hdefs.imp hrefines) (le_refl (defs.maxDepth c.source))
  exact denote_refines hR henv g (hg.imp hrefines g) c c ⟨rfl, hc⟩

theorem parser_movesForward (hdefs : defs.EveryCustom Parser.MovesForward)
    (hg : g.EveryCustom Parser.MovesForward) : (g.parser defs).MovesForward := by
  have hstays : ∀ s n (p : Parser Value), p.MovesForward → p.StaysIn (PlaceFrom s n) :=
    fun s n _ hp => Parser.movesForward_iff_staysIn.mp hp s n
  exact Parser.movesForward_iff_staysIn.mpr fun s n =>
    parser_staysIn (hdefs.imp (hstays s n)) (hg.imp (hstays s n) g)

lemma movesForward_position : position.EveryCustom Parser.MovesForward := by
  intro c v d hc h
  cases h
  exact ⟨hc, rfl, le_rfl⟩

/-- All custom parsers of the library but the one that sets the position move forwards. -/
theorem movesForward_closures (n : Nat) :
    ∀ g ∈ [position, upperChar, peek, remainder, takeBytes n, record, records],
      g.EveryCustom Parser.MovesForward := by
  rw [List.forall_mem_cons]
  exact ⟨movesForward_position, fun g hg =>
    (readsRest_closures n g hg).imp (fun _ hp => hp.movesForward) g⟩

/-- A parse stops where it began or further on, and the text that it has read, in front of what it
leaves, is what was left before. So a run leaves the end of its text, and of two parses, one behind
the other, the texts are joined. -/
theorem forward_without_loss (hdefs : defs.EveryCustom Parser.MovesForward)
    (hg : g.EveryCustom Parser.MovesForward) :
    (∀ c v e, c.Valid → g.parser defs c = .success v e →
      c.position ≤ e.position ∧ ∃ t, c.textUntil? e = some t ∧ t ++ e.rest = c.rest) ∧
    (∀ input report, (g.parser defs).run input = some report → report.residue <:+ input) ∧
    ∀ (defs' : Definitions) (h : Grammar), defs'.EveryCustom Parser.MovesForward →
      h.EveryCustom Parser.MovesForward → ∀ c v d w e, c.Valid → g.parser defs c = .success v d →
        h.parser defs' d = .success w e →
          ∃ s t, c.textUntil? d = some s ∧ d.textUntil? e = some t ∧
            c.textUntil? e = some (s ++ t) := by
  have hp := parser_movesForward hdefs hg
  refine ⟨fun c v e hc hs => ?_, fun _ _ => hp.residue_isSuffix,
    fun defs' h hdefs' hh c v d w e hc hd he => ?_⟩
  · obtain ⟨t, ht⟩ := hp.exists_passes hc hs
    exact ⟨(hp hc hs).2.2, t, textUntil?_of_passes ht, ht.2.1.symm⟩
  · obtain ⟨s, hs⟩ := hp.exists_passes hc hd
    obtain ⟨t, ht⟩ := (parser_movesForward hdefs' hh).exists_passes (hs.valid hc) he
    exact ⟨s, t, textUntil?_of_passes hs, textUntil?_of_passes ht,
      textUntil?_of_passes (hs.trans ht)⟩

/-- Bytes in parentheses, and letters with commas between them. -/
def bytesAndLetters : Grammar := pair (ref "nested") (sepBy (literal ['x']) (literal [',']))

/-- A comma, perhaps a mark, and the position behind them. -/
def commaAndMark : Grammar := sequence [literal [','], optional (literal ['!']), position]

/-- A comma that no letter follows is left for the parse behind, which finds no mark. -/
theorem forward_without_loss_nestedBytes :
    ∃ (c d e : Cursor) (v w : Value), c.Valid ∧ c.position = 2 ∧
      c.rest = ['(', '2', 'a', 'b', ')', 'x', ',', '?'] ∧
      bytesAndLetters.parser nestedBytes c = .success v d ∧
      commaAndMark.parser nestedBytes d = .success w e ∧ c.position ≤ d.position ∧
      ∃ s t, c.textUntil? d = some s ∧ d.textUntil? e = some t ∧ c.textUntil? e = some (s ++ t) ∧
        s = ['(', '2', 'a', 'b', ')', 'x'] ∧ t = [','] := by
  have hc := Cursor.valid_next (Cursor.valid_ofText ['é', '(', '2', 'a', 'b', ')', 'x', ',', '?'])
  have hdefs : nestedBytes.EveryCustom Parser.MovesForward :=
    readsRest_nestedBytes.imp fun _ hp => hp.movesForward
  have hg : bytesAndLetters.EveryCustom Parser.MovesForward := ⟨trivial, trivial, trivial⟩
  have hh : commaAndMark.EveryCustom Parser.MovesForward :=
    ⟨trivial, trivial, movesForward_closures 0 position (by simp), trivial⟩
  obtain ⟨v, d, hd, hdt⟩ : ∃ v d, bytesAndLetters.parser nestedBytes
      (Cursor.ofText ['é', '(', '2', 'a', 'b', ')', 'x', ',', '?']).next = .success v d ∧
        d = ⟨['é', '(', '2', 'a', 'b', ')', 'x', ',', '?'], 8, [',', '?']⟩ := ⟨_, _, rfl, rfl⟩
  obtain ⟨w, e, he, het⟩ : ∃ w e, commaAndMark.parser nestedBytes d = .success w e ∧
      e = ⟨['é', '(', '2', 'a', 'b', ')', 'x', ',', '?'], 9, ['?']⟩ := by
    rw [hdt]
    exact ⟨_, _, rfl, rfl⟩
  have h := forward_without_loss hdefs hg
  obtain ⟨s, t, hs, ht, hst⟩ := h.2.2 nestedBytes commaAndMark hdefs hh _ v d w e hc hd he
  refine ⟨_, d, e, v, w, hc, rfl, rfl, hd, he, (h.1 _ v d hc hd).1, s, t, hs, ht, hst, ?_, ?_⟩
  · rw [hdt] at hs
    exact Option.some.inj (hs.symm.trans rfl)
  · rw [hdt, het] at ht
    exact Option.some.inj (ht.symm.trans rfl)

end Grammar
end TextParsing
