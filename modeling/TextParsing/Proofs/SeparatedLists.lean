import TextParsing.Proofs.MaximalMunch
import TextParsing.Proofs.Repetition
import TextParsing.Proofs.TextAhead

/-! Lists that are written with a separator between any two elements. Each element ends in front of
the separator behind it, and the list ends where no separator and element follow. -/
namespace TextParsing.Parser
open Decimal
variable {α β : Type} {p : Parser α} {q : Parser β} {vs : List α} {ts : List Text}
  {separator input residue : Text}

/-- A repetition without a first element matches with nothing. -/
lemma Refuses.sepBy (hp : p.Refuses input) : (p.sepBy q).Yields input [] input := by
  intro c hc hr
  refine ⟨c, ?_, hc, hr⟩
  rw [Parser.sepBy, rounds, hp c hc hr]
  rfl

/-- Elements that are read in front of a separator, and in front of the residue, make the list if no
further element follows. -/
theorem Reads.sepBy_literal {L : Rule α} (hp : p.Reads L) (before : Text → Prop)
    (hne : separator ≠ []) (hbefore : ∀ rest, before (separator ++ rest)) (hvs : vs ≠ [])
    (hts : List.Forall₂ (fun v t => ∀ rest, before rest → L t v rest) vs ts)
    (hresidue : before residue) (hstop : ∀ rest, residue = separator ++ rest → p.Refuses rest) :
    (p.sepBy (literal separator)).Yields (separator.intercalate ts ++ residue) vs residue := by
  intro c hc hr
  obtain ⟨stop, hpass, rfl⟩ := Cursor.exists_passes_of_rest_eq hr
  have hvalid := hpass.valid hc
  obtain ⟨last, hchain⟩ := hp.exists_chain before hne hbefore hvs hts hpass hresidue
  -- A separator may still follow, but then the repetition goes back in front of it.
  have hstops : Stops p (literal separator) last stop := by
    cases hs : literal separator stop with
    | success _ next =>
      have hnext := literal_eq_success_iff.mp hs
      exact .inr ⟨(), next, hs, .inr (hstop next.rest hnext.2.1 next (hnext.valid hvalid) rfl)⟩
    | failure => exact .inl hs
    | unfinished => exact absurd hs ((reads_literal separator).answers stop)
  have hs := (sepBy_eq_success_iff hp.leads.staysIn (reads_literal separator).leads.staysIn
    hc.placeFrom).mpr (.inr ⟨last, hchain, hstops⟩)
  exact ⟨stop, hs, hvalid, rfl⟩

/-- An integer refused at the beginning of a text is refused wherever the text lies ahead. -/
lemma int64_refuses (h : ∀ n stop, int64 (.ofText input) ≠ .success n stop) :
    int64.Refuses input := by
  refine reads_int64.refuses fun t n rest ht hn => ?_
  obtain ⟨stop, hs, -⟩ := reads_int64.exists_success (c := .ofText input) ht hn
  exact h n stop hs

/-- Integers with a separator between any two are read back if the separator does not begin with a
digit, and neither a digit nor a separator with an integer behind it follows. They may be written
with a plus, and the separator may be a sign. No integers are read back from any text that does not
begin with one. -/
theorem separated_integers_read_back (hne : separator ≠ [])
    (hdigit : separator.StartsOutside Char.isDigit) :
    (∀ (ns : List Int64) (ws : List Text) (residue : Text), ns ≠ [] →
      List.Forall₂ (fun n w => IsWriting n.toInt w) ns ws → residue.StartsOutside Char.isDigit →
      (∀ rest, residue = separator ++ rest → ∀ n stop, int64 (.ofText rest) ≠ .success n stop) →
      (int64.sepBy (literal separator)).Yields (separator.intercalate ws ++ residue) ns residue ∧
      ∃ report,
        (int64.sepBy (literal separator)).run (separator.intercalate ws ++ residue) = some report ∧
        report.value = some ns ∧ report.residue = residue) ∧
    ∀ residue : Text, int64 (.ofText residue) = .failure →
      (int64.sepBy (literal separator)).Yields residue [] residue ∧
      ∃ report, (int64.sepBy (literal separator)).run residue = some report ∧
        report.value = some [] ∧ report.residue = residue := by
  have hbefore : ∀ rest, (separator ++ rest).StartsOutside Char.isDigit := by
    obtain ⟨ch, separator, rfl⟩ := List.exists_cons_of_ne_nil hne
    exact fun rest => Text.startsOutside_cons.mpr (Text.startsOutside_cons.mp hdigit)
  refine ⟨fun ns ws residue hns hws hresidue hstop => ?_, fun residue hfail => ?_⟩
  · have hread : List.Forall₂ (fun (n : Int64) w => ∀ rest : Text,
        rest.StartsOutside Char.isDigit → IsInteger w n.toInt ∧ rest.StartsOutside Char.isDigit)
        ns ws := hws.imp fun _ _ hw _ hrest => ⟨hw.isInteger, hrest⟩
    have h := reads_int64.sepBy_literal (Text.StartsOutside Char.isDigit) hne hbefore hns hread
      hresidue fun rest hrest => int64_refuses (hstop rest hrest)
    exact ⟨h, h.exists_run⟩
  · have h : (int64.sepBy (literal separator)).Yields residue [] residue :=
      (int64_refuses (by simp [hfail])).sepBy
    exact ⟨h, h.exists_run⟩

/-- The separator is a minus, and one more of them is left behind the last integer. -/
theorem separated_integers_read_back_minus :
    ∃ report, (int64.sepBy (literal ['-'])).run ['1', '-', '-', '2', '-', '+', '3', '-', 'x'] =
        some report ∧
      report.value = some [1, -2, 3] ∧ report.residue = ['-', 'x'] := by
  have hws : List.Forall₂ (fun (n : Int64) w => IsWriting n.toInt w) [1, -2, 3]
      [['1'], ['-', '2'], ['+', '3']] :=
    .cons ⟨[], 0, .none, rfl⟩ (.cons ⟨['-'], 0, .minus, rfl⟩ (.cons ⟨['+'], 0, .plus, rfl⟩ .nil))
  have hstop : ∀ rest : Text, ['-', 'x'] = ['-'] ++ rest →
      ∀ n stop, int64 (.ofText rest) ≠ .success n stop := by
    intro rest hrest n stop hs
    obtain ⟨-, rfl⟩ := List.cons.inj hrest
    cases hs
  exact ((separated_integers_read_back (by simp) (Text.startsOutside_cons.mpr rfl)).1 _ _ ['-', 'x']
    (by simp) hws (Text.startsOutside_cons.mpr rfl) hstop).2

/-- An integer, a colon, and characters with commas between them, of which there have to be as many
as the integer says. -/
def counted : Parser (List Char) :=
  (int64.seqLeft (literal [':'])).bind fun count =>
    (anyChar.sepBy (literal [','])).filter fun chars => (chars.length : Int) == count.toInt

/-- A list of characters is read greedily, whichever characters they are: it ends where no comma and
further character follow. -/
lemma yields_chars {chars : List Char} (hempty : chars = [] → residue = [])
    (hstop : ∀ ch rest, residue ≠ ',' :: ch :: rest) :
    (anyChar.sepBy (literal [','])).Yields
      (List.intercalate [','] (chars.map ([·])) ++ residue) chars residue := by
  have hend : anyChar.Refuses [] := by
    refine reads_anyChar.refuses fun t ch rest ht hch => ?_
    simp [hch] at ht
  by_cases hchars : chars = []
  · subst hchars
    rw [hempty rfl]
    exact hend.sepBy
  · have hread : List.Forall₂ (fun ch t => ∀ rest : Text, True → t = [ch]) chars
        (chars.map ([·])) := by
      rw [List.forall₂_map_right_iff, List.forall₂_same]
      exact fun _ _ _ _ => rfl
    refine reads_anyChar.sepBy_literal (fun _ => True) (by simp) (fun _ => trivial) hchars hread
      trivial fun rest hrest => ?_
    cases rest with
    | nil => exact hend
    | cons ch rest => exact absurd hrest (hstop ch rest)

/-- A list behind its length is read back, whichever characters are in it, if no comma and further
character follow. Behind any other number it is not read, and not a part of it either. -/
theorem counted_reads_back_iff {k : Int64} {number residue : Text} {chars : List Char}
    (hnumber : IsWriting k.toInt number) (hempty : chars = [] → residue = [])
    (hstop : ∀ ch rest, residue ≠ ',' :: ch :: rest) :
    let input := number ++ ':' :: (List.intercalate [','] (chars.map ([·])) ++ residue)
    (k.toInt = chars.length → counted.Yields input chars residue ∧
      ∃ report, counted.run input = some report ∧ report.value = some chars ∧
        report.residue = residue) ∧
    (k.toInt ≠ chars.length → counted.Refuses input ∧
      ∃ report, counted.run input = some report ∧ report.value = none ∧
        report.residue = input) := by
  intro input
  have hcount : (int64.seqLeft (literal [':'])).Yields input k
      (List.intercalate [','] (chars.map ([·])) ++ residue) :=
    (reads_int64.yields ⟨hnumber.isInteger, Text.startsOutside_cons.mpr rfl⟩).seqLeft
      (yields_literal [':'] _)
  have hchars := yields_chars hempty hstop
  constructor
  · intro hk
    have h : counted.Yields input chars residue := hcount.bind (hchars.filter (by simp [hk]))
    exact ⟨h, h.exists_run⟩
  · intro hk
    have h : counted.Refuses input :=
      hcount.bind_refuses (hchars.filter_refuses (by simpa using Ne.symm hk))
    exact ⟨h, h.exists_run⟩

/-- A comma and a digit in a list of three, which is not read behind another number. -/
theorem counted_reads_back_iff_commas :
    (∃ report, counted.run ['3', ':', ',', ',', '1', ',', ':', ','] = some report ∧
      report.value = some [',', '1', ':'] ∧ report.residue = [',']) ∧
    ∃ report, counted.run ['2', ':', ',', ',', '1', ',', ':', ','] = some report ∧
      report.value = none ∧ report.residue = ['2', ':', ',', ',', '1', ',', ':', ','] := by
  have hempty : [',', '1', ':'] = [] → [','] = [] := nofun
  have hstop : ∀ ch rest, [','] ≠ ',' :: ch :: rest := nofun
  have hthree : IsWriting (3 : Int64).toInt ['3'] := ⟨[], 0, .none, rfl⟩
  have htwo : IsWriting (2 : Int64).toInt ['2'] := ⟨[], 0, .none, rfl⟩
  exact ⟨((counted_reads_back_iff hthree hempty hstop).1 rfl).2,
    ((counted_reads_back_iff htwo hempty hstop).2 (by decide)).2⟩

end TextParsing.Parser
