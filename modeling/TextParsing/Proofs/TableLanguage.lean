import TextParsing.Proofs.Numeral
import TextParsing.Proofs.Repetition
import TextParsing.Proofs.RunAgreement

/-! The language of tables, and that exactly its texts are parsed, to the records that they write. -/
namespace TextParsing.Table
open TextParsing.Parser

def line (content : Text) : Text := ['|', ' '] ++ (content ++ ['\n'])

def flag (content : Text) : Text := ['{', '{', 'f', 'l', 'a', 'g', '|'] ++ (content ++ ['}', '}'])

/-- A name may be written with white space around it. The closing mark does not begin in the writing,
not even with its last character. -/
def IsName (t name : Text) : Prop := ¬ ['}', '}'] <:+: t ++ ['}'] ∧ t.IsTrimmed name

/-- A decimal fraction as a whole, and the finite number that is read from it. -/
def IsValue (t : Text) (d : Double) : Prop :=
  (∃ negative whole fraction, Decimal.IsDecimal t negative whole fraction) ∧
    (∃ stop, Parser.double (.ofText t) = .success d stop ∧ stop.rest = []) ∧ d.isFinite = true

/-- The five lines of a record. -/
def IsBlock (r : Record) (t : Text) : Prop :=
  ∃ id name first second third : Text,
    t = line id ++ (line (flag name) ++ (line first ++ (line second ++ line third))) ∧
      Decimal.IsInteger id r.id.toInt ∧ IsName name r.name ∧ IsValue first r.first ∧
      IsValue second r.second ∧ IsValue third r.third

/-- The blocks of the records in their order, with a separator line between any two. -/
def IsTable (rs : List Record) (t : Text) : Prop :=
  ∃ blocks, List.Forall₂ IsBlock rs blocks ∧ t = List.intercalate ['|', '-', '\n'] blocks

lemma isValue_iff {t : Text} {d : Double} : IsValue t d ↔
    ∃ negative whole fraction, Decimal.IsDecimal t negative whole fraction ∧
      Double.ofDecimal? negative whole fraction = some d := by
  unfold IsValue
  rw [reads_double.ofText_iff]
  constructor
  · intro h
    exact h.2.1.1
  · intro h
    obtain ⟨negative, whole, fraction, ht, hd⟩ := h
    exact ⟨⟨negative, whole, fraction, ht⟩,
      ⟨⟨negative, whole, fraction, ht, hd⟩, by simp, by simp⟩, Double.isFinite_of_ofDecimal? hd⟩

lemma reads_cell {α : Type} {p : Parser α} {L : Rule α} (hp : p.Reads L) :
    (cell p).Reads fun t v rest => ∃ s, t = line s ∧ L s v ('\n' :: rest) :=
  hp.between_literal cellStart cellEnd

lemma reads_cell_int64 :
    (cell int64).Reads fun t n _ => ∃ s, t = line s ∧ Decimal.IsInteger s n.toInt := by
  refine (reads_cell reads_int64).congr fun t n rest => ?_
  have hdigit : Char.isDigit '\n' = false := by decide
  simp [hdigit]

lemma reads_cell_double : (cell double).Reads fun t d _ => ∃ s, t = line s ∧ IsValue s d := by
  refine (reads_cell reads_double).congr fun t d rest => ?_
  have hdigit : Char.isDigit '\n' = false := by decide
  simp [hdigit, isValue_iff]

lemma reads_name : name.Reads fun t n _ => ∃ s, t = line (flag s) ∧ IsName s n := by
  have hmark : nameEnd ≠ [] := by simp [nameEnd]
  have h := (reads_cell ((reads_takeUntil hmark).between_literal nameStart nameEnd)).map Text.trim
  refine h.congr fun t n rest => ?_
  constructor
  · intro h
    obtain ⟨_, ⟨_, rfl, s, rfl, rfl, hfirst⟩, rfl⟩ := h
    exact ⟨_, rfl, (Text.isBeforeFirst_append_iff hmark).mp hfirst, Text.isTrimmed_trim _⟩
  · intro h
    obtain ⟨s, rfl, hnone, htrim⟩ := h
    exact ⟨s, ⟨flag s, rfl, s, rfl, rfl, (Text.isBeforeFirst_append_iff hmark).mpr hnone⟩,
      htrim.trim_eq.symm⟩

/-- Of three closing braces the first two end the name. -/
example : name (.ofText (line (flag ['a', '}']))) = .failure := by rfl

/-- A record is read from its block, whatever follows. -/
theorem reads_record : record.Reads fun t r _ => IsBlock r t := by
  have h := reads_cell_int64.bind fun id => reads_name.bind fun name =>
    reads_cell_double.bind fun first => reads_cell_double.bind fun second =>
      reads_cell_double.bind fun third => Reads.pure (Record.mk id name first second third)
  refine h.congr fun t r rest => ?_
  constructor
  · intro h
    obtain ⟨_, _, _, rfl, ⟨id, rfl, hid⟩, _, _, _, rfl, ⟨name, rfl, hname⟩, h⟩ := h
    obtain ⟨_, _, _, rfl, ⟨first, rfl, hfirst⟩, _, _, _, rfl, ⟨second, rfl, hsecond⟩, h⟩ := h
    obtain ⟨_, _, _, rfl, ⟨third, rfl, hthird⟩, rfl, rfl⟩ := h
    exact ⟨id, name, first, second, third, by simp, hid, hname, hfirst, hsecond, hthird⟩
  · intro h
    obtain ⟨id, name, first, second, third, rfl, hid, hname, hfirst, hsecond, hthird⟩ := h
    exact ⟨_, _, _, rfl, ⟨id, rfl, hid⟩, _, _, _, rfl, ⟨name, rfl, hname⟩, _, _, _, rfl,
      ⟨first, rfl, hfirst⟩, _, _, _, rfl, ⟨second, rfl, hsecond⟩, line third, [], _, by simp,
      ⟨third, rfl, hthird⟩, rfl, rfl⟩

/-- A repetition of records comes to an end and never fails. -/
lemma exists_records_eq_success {c : Cursor} (hc : c.Valid) :
    ∃ rs stop, records c = .success rs stop ∧ Cursor.PlaceFrom c.source c.position stop :=
  exists_sepBy_eq_success reads_record.leads (reads_literal rowSeparator).leads hc.placeFrom

lemma records_eq_success_iff {c stop : Cursor} (hc : c.Valid) {rs : List Record} :
    records c = .success rs stop ↔ (record c = .failure ∧ rs = [] ∧ stop = c) ∨
      ∃ last, Chain record (literal rowSeparator) c rs last stop ∧
        Stops record (literal rowSeparator) last stop :=
  sepBy_eq_success_iff reads_record.leads.staysIn (reads_literal rowSeparator).leads.staysIn
    hc.placeFrom

/-- The chains of records are the tables with a record in them. -/
lemma exists_chain_iff {c stop : Cursor} {rs : List Record} :
    (∃ last, Chain record (literal rowSeparator) c rs last stop) ↔
      rs ≠ [] ∧ ∃ t, IsTable rs t ∧ c.Passes t stop := by
  rw [chain_literal_iff reads_record (by simp [rowSeparator])]
  constructor
  · intro h
    obtain ⟨hrs, blocks, hblocks, hpass⟩ := h
    exact ⟨hrs, _, ⟨blocks, hblocks, rfl⟩, hpass⟩
  · intro h
    obtain ⟨hrs, _, ⟨blocks, hblocks, rfl⟩, hpass⟩ := h
    exact ⟨hrs, blocks, hblocks, hpass⟩

/-- What the records read is a table. -/
lemma exists_isTable_of_records {c stop : Cursor} (hc : c.Valid) {rs : List Record}
    (h : records c = .success rs stop) : ∃ t, IsTable rs t ∧ c.Passes t stop := by
  rcases (records_eq_success_iff hc).mp h with ⟨-, rfl, rfl⟩ | ⟨last, hchain, -⟩
  · exact ⟨[], ⟨[], .nil, rfl⟩, .refl stop⟩
  · exact (exists_chain_iff.mp ⟨last, hchain⟩).2

/-- The texts that the records read as a whole are the tables. -/
lemma records_ofText_iff {t : Text} {rs : List Record} :
    (∃ stop, records (.ofText t) = .success rs stop ∧ stop.rest = []) ↔ IsTable rs t := by
  constructor
  · intro h
    obtain ⟨stop, hs, hr⟩ := h
    obtain ⟨u, hu, hpass⟩ := exists_isTable_of_records (Cursor.valid_ofText t) hs
    have ht : t = u ++ stop.rest := hpass.2.1
    rw [hr, List.append_nil] at ht
    exact ht ▸ hu
  · intro h
    by_cases hrs : rs = []
    · subst hrs
      obtain ⟨_, hblocks, rfl⟩ := h
      cases hblocks
      exact ⟨_, rfl, rfl⟩
    · obtain ⟨stop, hpass, hr⟩ := Cursor.exists_passes_of_rest_eq
        (c := .ofText t) (List.append_nil t).symm
      obtain ⟨last, hc⟩ := exists_chain_iff.mpr ⟨hrs, t, h, hpass⟩
      have hstop : literal rowSeparator stop = .failure := by
        rw [literal_eq_failure_iff, hr]
        simp [rowSeparator]
      exact ⟨stop, (records_eq_success_iff (Cursor.valid_ofText t)).mpr
        (.inr ⟨last, hc, .inl hstop⟩), hr⟩

/-- Every text has a verdict, and it is a list of records exactly if the text is their table. -/
theorem parse_ok_iff_isTable (input : Text) :
    ∃ verdict, parse input = some verdict ∧ ∀ rs, verdict.result = .ok rs ↔ IsTable rs input := by
  obtain ⟨found, stop, hs, -⟩ := exists_records_eq_success (Cursor.valid_ofText input)
  obtain ⟨report, h⟩ : ∃ report, records.run input = some report :=
    ⟨_, run_eq_some_iff.mpr (.inr ⟨found, stop, hs, rfl⟩)⟩
  obtain ⟨verdict, hv⟩ := exists_runToEnd_eq_some h
  refine ⟨verdict, hv, fun rs => ?_⟩
  calc verdict.result = .ok rs
    _ ↔ report.value = some rs ∧ report.residue = [] := runToEnd_result_eq_ok_iff h hv rs
    _ ↔ ∃ stop, records (.ofText input) = .success rs stop ∧ stop.rest = [] :=
      value_eq_some_and_residue_eq_nil_iff h rs
    _ ↔ IsTable rs input := records_ofText_iff

end TextParsing.Table
