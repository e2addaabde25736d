import TextParsing.Proofs.FirstOccurrence
import TextParsing.Proofs.Sequencing

/-! Literal texts. A literal text may be read in pieces, wherever between its characters it is cut and
however the pieces are put together again: they match together exactly where the whole does, which is
where it lies ahead. -/
namespace TextParsing

namespace Text
variable {s t : Text}

/-- To look for a beginning by bytes is to look for it by characters. -/
lemma bytes_prefix_iff : s.bytes <+: t.bytes ↔ s <+: t := by
  constructor
  · rintro ⟨behind, h⟩
    exact prefix_of_bytes_eq h.symm
  · rintro ⟨rest, rfl⟩
    rw [bytes_append]
    apply List.prefix_append

end Text

namespace Parser

lemma literal_nil : literal [] = Parser.pure () := by
  apply (reads_literal []).eq
  apply (Reads.pure ()).congr
  simp

lemma literal_append (s t : Text) : literal (s ++ t) = (literal s).seqRight (literal t) := by
  apply (reads_literal (s ++ t)).eq
  apply ((reads_literal s).seqRight (reads_literal t)).congr
  simp

/-- Each text behind all those in front of it. -/
lemma foldl_seqRight_literal (t : Text) (ts : List Text) :
    ts.foldl (fun p u => p.seqRight (literal u)) (literal t) = literal (t ++ ts.flatten) := by
  induction ts generalizing t with
  | nil => simp
  | cons u ts ih => rw [List.foldl_cons, ← literal_append, ih, List.flatten_cons, List.append_assoc]

/-- Each text in front of all those behind it. -/
lemma foldr_seqRight_literal (t : Text) (ts : List Text) :
    ts.foldr (fun u p => (literal u).seqRight p) (literal t) = literal (ts.flatten ++ t) := by
  induction ts with
  | nil => simp
  | cons u ts ih => rw [List.foldr_cons, ih, ← literal_append, List.flatten_cons, List.append_assoc]

lemma sequence_map_literal (ts : List Text) :
    sequence (ts.map literal) = (literal ts.flatten).map fun _ => List.replicate ts.length () := by
  induction ts with
  | nil =>
    rw [List.flatten_nil, literal_nil]
    rfl
  | cons t ts ih =>
    funext c
    simp only [List.map_cons, sequence_cons_apply, ih, List.flatten_cons, literal_append, map_apply,
      seqRight_apply, Outcome.andThen_assoc, Outcome.andThen_success, List.length_cons,
      List.replicate_succ]

/-- A literal text is the literals of two parts one behind the other, wherever it is divided, and so it
is those of any number of parts, paired from the left, from the right, or put into one sequence. It
matches where its parts joined lie ahead, by bytes as by characters, and passes exactly these: where
the test succeeds the cursor can advance. Everywhere else the whole fails, and so do the parts. -/
theorem literal_reads_in_pieces {c : Cursor} (hc : c.Valid) (s t : Text) (ts : List Text) :
    literal (s ++ t) = (literal s).seqRight (literal t) ∧
    ts.foldl (fun p u => p.seqRight (literal u)) (literal t) = literal (t ++ ts.flatten) ∧
    ts.foldr (fun u p => (literal u).seqRight p) (literal t) = literal (ts.flatten ++ t) ∧
    sequence (ts.map literal) = (literal ts.flatten).map (fun _ => List.replicate ts.length ()) ∧
    (Text.bytes ts.flatten <+: c.rest.bytes ↔ ts.flatten <+: c.rest) ∧
    if ts.flatten <+: c.rest then
      c.startsWith ts.flatten = true ∧ ∃ d, c.advance? (Text.byteLength ts.flatten) = some d ∧
        literal ts.flatten c = .success () d ∧
        sequence (ts.map literal) c = .success (List.replicate ts.length ()) d ∧
        c.Passes ts.flatten d ∧ d.Valid
    else
      c.startsWith ts.flatten = false ∧ literal ts.flatten c = .failure ∧
        sequence (ts.map literal) c = .failure := by
  refine ⟨literal_append s t, foldl_seqRight_literal t ts, foldr_seqRight_literal t ts,
    sequence_map_literal ts, Text.bytes_prefix_iff, ?_⟩
  rw [sequence_map_literal, map_apply]
  split
  case isTrue h =>
    obtain ⟨rest, hr⟩ := id h
    obtain ⟨d, hadvance, hd, -⟩ := Cursor.exists_advance?_of_rest_eq hr.symm
    have hread : literal ts.flatten c = .success () d := literal_eq_success_iff.mpr hd
    refine ⟨Cursor.startsWith_iff.mpr h, d, hadvance, hread, ?_, hd, hd.valid hc⟩
    rw [hread, Outcome.andThen_success]
  case isFalse h =>
    have hfail : literal ts.flatten c = .failure := literal_eq_failure_iff.mpr h
    refine ⟨?_, hfail, ?_⟩
    · rwa [← Bool.not_eq_true, Cursor.startsWith_iff]
    · rw [hfail, Outcome.andThen_failure]

/-- Behind a character of two bytes three texts are read, one of them empty; with another one for the
third the sequence fails behind two matches, and so does the whole. -/
theorem literal_reads_in_pieces_empty :
    ∃ c d : Cursor, c.Valid ∧ c.position = 2 ∧ d.Valid ∧ d.position = 6 ∧ d.rest = ['c'] ∧
      literal ['a', 'é', 'b'] c = .success () d ∧
      sequence ([['a', 'é'], [], ['b']].map literal) c = .success [(), (), ()] d ∧
      (((literal ['a', 'é']).seqRight (literal [])).seqRight (literal ['b'])) c = .success () d ∧
      literal ['a', 'é', 'c'] c = .failure ∧
      sequence ([['a', 'é'], [], ['c']].map literal) c = .failure := by
  have hc := Cursor.valid_next (Cursor.valid_ofText ['é', 'a', 'é', 'b', 'c'])
  obtain ⟨-, hleft, -⟩ := literal_reads_in_pieces hc [] ['a', 'é'] [[], ['b']]
  obtain ⟨-, -, -, -, -, hall⟩ := literal_reads_in_pieces hc [] [] [['a', 'é'], [], ['b']]
  obtain ⟨-, -, -, -, -, hnone⟩ := literal_reads_in_pieces hc [] [] [['a', 'é'], [], ['c']]
  rw [if_pos ⟨['c'], rfl⟩] at hall
  rw [if_neg (by decide)] at hnone
  obtain ⟨-, d, -, hwhole, hsequence, hpass, hd⟩ := hall
  have hrest : ['a', 'é', 'b'] ++ ['c'] = ['a', 'é', 'b'] ++ d.rest := hpass.2.1
  exact ⟨_, d, hc, rfl, hd, hpass.2.2, (List.append_cancel_left hrest).symm, hwhole, hsequence,
    (congrFun hleft _).trans hwhole, hnone.2⟩

end Parser
end TextParsing
