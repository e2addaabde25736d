import TextParsing.Proofs.Numeral
import TextParsing.Proofs.Simulation
import TextParsing.Table

/-! What reads by a rule sees nothing but what is left: from places in step it answers alike. So do
numbers of either kind and the records of a table, which are put together from such parsers. -/
namespace TextParsing

namespace Parser
variable {α : Type} {p : Parser α} {L : Rule α} {R : Cursor → Cursor → Prop}

lemma Reads.refines (hp : p.Reads L) (hR : Cursor.Simulation R) : p.Refines (· = ·) R p := by
  intro c d h
  have hrest := hR.rest_eq h
  cases hs : p c with
  | success v e =>
    obtain ⟨t, ht, hL⟩ := (hp.success_iff c v e).mp hs
    obtain ⟨e', hs', ht', -⟩ := hp.exists_success (hrest.symm.trans ht.2.1) hL
    rw [hs']
    exact .success rfl (hR.passes h ht ht')
  | failure =>
    have hnone := hp.eq_failure_iff.mp hs
    rw [hrest] at hnone
    rw [hp.eq_failure_iff.mpr hnone]
    exact .failure
  | unfinished => exact absurd hs (hp.answers c)

/-- The kind of a number depends on the character behind the integer, which is part of what is left. -/
lemma Refines.number (hR : Cursor.Simulation R) : Refines (· = ·) R number number := by
  intro c d h
  have hdouble := (reads_double.map Number.double).refines hR c d h
  have hint := reads_int64.refines hR c d h
  unfold Parser.number
  cases ho : Parser.int64 c with
  | unfinished => exact absurd ho (reads_int64.answers c)
  | failure =>
    rw [ho] at hint
    rw [hint.eq_failure]
    exact hdouble
  | success n rest =>
    rw [ho] at hint
    obtain ⟨_, rest', hd, rfl, hr⟩ := hint.exists_eq_success
    have hpeek : rest.peek? = rest'.peek? := congrArg List.head? (hR.rest_eq hr)
    rw [hd]
    dsimp only
    rw [hpeek]
    split
    · exact hdouble
    · exact .success rfl hr

end Parser

namespace Table
open TextParsing.Parser
variable {R : Cursor → Cursor → Prop}

lemma refines_record (hR : Cursor.Simulation R) : record.Refines (· = ·) R record := by
  have hid := reads_int64.between_literal cellStart cellEnd
  have hflag := (reads_takeUntil_any nameEnd).between_literal nameStart nameEnd
  have hname := (hflag.between_literal cellStart cellEnd).map Text.trim
  have hvalue := reads_double.between_literal cellStart cellEnd
  have hrecord := hid.bind fun id => hname.bind fun name => hvalue.bind fun first =>
    hvalue.bind fun second => hvalue.bind fun third =>
      Reads.pure (Record.mk id name first second third)
  exact hrecord.refines hR

lemma refines_records (hR : Cursor.Simulation R) : records.Refines (· = ·) R records := by
  have h := (refines_record hR).sepBy hR ((reads_literal rowSeparator).refines hR)
  rwa [List.forall₂_eq_eq_eq] at h

end Table
end TextParsing
