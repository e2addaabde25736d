import TextParsing.Grammar.Continuation
import TextParsing.Proofs.GrammarSimulation
import TextParsing.Proofs.SameRest

/-! The custom parsers of the library. All of them stay in their source, and all but those that ask
for the position or set it depend on what is left only. -/
namespace TextParsing.Grammar

/-- What depends on the rest only stays in its source. -/
lemma EveryCustom.staysValid {g : Grammar} (h : g.EveryCustom Parser.ReadsRest) :
    g.EveryCustom Parser.StaysValid :=
  h.imp (fun _ hp => hp.staysValid) g

lemma staysValid_position : position.EveryCustom Parser.StaysValid := by
  intro c v d hc h
  cases h
  exact ⟨hc, rfl⟩

/-- Going back to an earlier place is going on from the beginning of the same source. -/
lemma staysValid_seek (n : Nat) : (seek n).EveryCustom Parser.StaysValid := by
  intro c v d hc h
  simp only [Parser.map, Parser.seek] at h
  cases hn : (Cursor.ofText c.source).advance? n with
  | none => simp [hn, Outcome.ofCursor?] at h
  | some e =>
    simp only [hn, Outcome.ofCursor?, Outcome.andThen_success] at h
    cases h
    obtain ⟨t, ht, -⟩ := Cursor.advance?_eq_some_iff.mp hn
    exact ⟨ht.valid (Cursor.valid_ofText _), ht.1⟩

theorem readsRest_closures (n : Nat) :
    ∀ g ∈ [upperChar, peek, remainder, takeBytes n, record, records],
      g.EveryCustom Parser.ReadsRest := by
  simp only [List.forall_mem_cons, List.not_mem_nil, false_implies, implies_true, and_true]
  refine ⟨?_, ?_, ?_, ?_, ?_, ?_⟩
  · exact Parser.readsRest_map (Parser.reads_anyChar.map Char.toUpper).refines _
  · exact Parser.readsRest_map Parser.reads_peek.refines _
  · exact Parser.readsRest_map Parser.reads_remainder.refines _
  · exact Parser.readsRest_map (Parser.reads_takeBytes n).refines _
  · exact Parser.readsRest_map Table.refines_record _
  · exact Parser.readsRest_map Table.refines_records _

theorem staysValid_closures (n : Nat) :
    ∀ g ∈ [position, seek n, upperChar, peek, remainder, takeBytes n, record, records],
      g.EveryCustom Parser.StaysValid := by
  rw [List.forall_mem_cons, List.forall_mem_cons]
  exact ⟨staysValid_position, staysValid_seek n, fun g hg => (readsRest_closures n g hg).staysValid⟩

lemma readsRest_takeBytesOf (v : Value) : (takeBytesOf v).EveryCustom Parser.ReadsRest := by
  unfold takeBytesOf
  split
  case h_1 n =>
    split
    · exact readsRest_closures n.toInt.toNat _ (by simp)
    · trivial
  case h_2 => trivial

/-- A number in any depth of parentheses, and as many bytes behind it as it says. -/
def nestedBytes : Definitions :=
  [("nested", orElse (between (literal ['(']) (ref "nested") (literal [')']))
    (bind int64 takeBytesOf))]

lemma readsRest_nestedBytes : nestedBytes.EveryCustom Parser.ReadsRest := by
  intro entry hentry
  rw [List.mem_singleton.mp hentry]
  exact ⟨⟨trivial, trivial, trivial⟩, trivial, readsRest_takeBytesOf⟩

end TextParsing.Grammar
