import TextParsing.Proofs.TableLanguage

/-! Where the parse of a table stops that does not reach the end of its text: behind the longest
beginning that is a table. -/
namespace TextParsing.Table
open TextParsing.Parser

/-- A text is parsed to a list of records exactly if it is their table. -/
lemma exists_parse_ok_iff {t : Text} {rs : List Record} :
    (∃ verdict, parse t = some verdict ∧ verdict.result = .ok rs) ↔ IsTable rs t :=
  exists_runToEnd_ok_iff.trans records_ofText_iff

/-- Records depend on what is left only, so that where one fails they fail at the beginning of the rest
taken as a text of its own. -/
lemma record_ofText_rest {c : Cursor} (h : record c = .failure) :
    record (.ofText c.rest) = .failure := by
  have hnone := reads_record.eq_failure_iff.mp h
  exact (reads_record.eq_failure_iff (c := .ofText c.rest)).mpr hnone

/-- Behind the records no separator follows, or no record behind it. -/
lemma rest_of_stops {c last stop : Cursor} {rs : List Record}
    (h : Chain record (literal rowSeparator) c rs last stop)
    (hstops : Stops record (literal rowSeparator) last stop) :
    ¬ rowSeparator <+: stop.rest ∨
      ∃ rest, stop.rest = rowSeparator ++ rest ∧ record (.ofText rest) = .failure := by
  rcases hstops with hfail | ⟨w, next, hs, hnext⟩
  · left
    exact literal_eq_failure_iff.mp hfail
  · right
    have hpass := literal_eq_success_iff.mp hs
    obtain ⟨r, hlast⟩ := h.exists_last
    obtain ⟨t, ht, -⟩ := (reads_record.success_iff _ _ _).mp hlast
    -- The separator is not empty, so it is not for want of progress that the repetition stopped.
    have hfurther : last.position < next.position := by
      have := ht.2.2
      have := hpass.2.2
      have : rowSeparator.byteLength = 3 := rfl
      omega
    exact ⟨next.rest, hpass.2.1, record_ofText_rest (hnext.resolve_left (by omega))⟩

/-- No beginning of a text that is a table is longer than what the records read. -/
lemma byteLength_le_of_isTable {input front : Text} {rs us : List Record} {stop : Cursor}
    (h : records (.ofText input) = .success rs stop) (hfront : front <+: input)
    (htable : IsTable us front) : front.byteLength ≤ stop.position := by
  by_cases hus : us = []
  · subst hus
    obtain ⟨_, hblocks, rfl⟩ := htable
    cases hblocks
    exact Nat.zero_le _
  · obtain ⟨rest, hr⟩ := hfront
    obtain ⟨d, hpass, -⟩ := Cursor.exists_passes_of_rest_eq (c := .ofText input) hr.symm
    obtain ⟨last', hchain'⟩ := exists_chain_iff.mpr ⟨hus, front, htable, hpass⟩
    have hd : d.position = 0 + front.byteLength := hpass.2.2
    rcases (records_eq_success_iff (Cursor.valid_ofText input)).mp h with
      ⟨hfail, -⟩ | ⟨last, hchain, hstops⟩
    · exact absurd hfail hchain'.ne_failure
    · have := hchain.position_le_of_stops (fun _ _ => reads_record.leads.staysIn)
        (fun _ _ => (reads_literal rowSeparator).leads.staysIn) (Cursor.valid_ofText input) hstops
        hchain'
      omega

/-- A failure has read what lies in front of it as a table, which the text behind it does not go on:
no beginning of the text that is a table is longer. -/
theorem parse_stops_behind_longest_table (input : Text) :
    ∃ verdict, parse input = some verdict ∧ ∀ f, verdict.result = .error f →
      f.kind = .trailingInput ∧ f.location.text = input ∧
      ∃ report rs front residue, records.run input = some report ∧ report.value = some rs ∧
        input.splitBytes? f.location.offset = some (front, residue) ∧
        f.location.residue = residue ∧ report.residue = residue ∧ residue ≠ [] ∧
        (∃ whole, parse front = some whole ∧ whole.result = .ok rs) ∧
        (rs = [] → f.location.offset = 0 ∧ record (.ofText input) = .failure) ∧
        (rs ≠ [] → ¬ ['|', '-', '\n'] <+: residue ∨
          ∃ rest, residue = ['|', '-', '\n'] ++ rest ∧ record (.ofText rest) = .failure) ∧
        ∀ (longer : Text) us, longer <+: input →
          (∃ whole, parse longer = some whole ∧ whole.result = .ok us) →
            longer.byteLength ≤ f.location.offset := by
  have hvalid := Cursor.valid_ofText input
  obtain ⟨rs, stop, hs, -⟩ := exists_records_eq_success hvalid
  obtain ⟨front, htable, hpass⟩ := exists_isTable_of_records hvalid hs
  obtain ⟨report, h, hvalue, hresidue⟩ : ∃ report, records.run input = some report ∧
      report.value = some rs ∧ report.residue = stop.rest :=
    ⟨_, run_eq_some_iff.mpr (.inr ⟨rs, stop, hs, rfl⟩), rfl, rfl⟩
  obtain ⟨verdict, hv⟩ := exists_runToEnd_eq_some h
  refine ⟨verdict, hv, fun f hf => ?_⟩
  have hrest : report.residue ≠ [] := by
    intro hr
    cases hf.symm.trans ((runToEnd_result_eq_ok_iff h hv rs).mpr ⟨hvalue, hr⟩)
  have hstays : records.ReadsRest := fun s t => refines_records (Cursor.SameRest.simulation s t)
  obtain ⟨_, hs', hstop, hsource, -, -, hresult, -⟩ :=
    runToEnd_of_residue_ne_nil hstays.staysValid h hv hvalue hrest
  cases hs.symm.trans hs'
  cases hf.symm.trans hresult
  refine ⟨rfl, rfl, report, rs, front, stop.rest, h, hvalue, ?_, ?_, hresidue, hresidue ▸ hrest,
    exists_parse_ok_iff.mpr htable, fun hnil => ?_, fun hne => ?_, fun longer us hprefix hok => ?_⟩
  · exact Text.splitBytes?_eq_some_iff.mpr ⟨hpass.2.1, by simpa [Cursor.ofText] using hpass.2.2⟩
  · rw [← hsource]
    exact Location.residue_of_valid hstop
  · rcases (records_eq_success_iff hvalid).mp hs with ⟨hfail, -, rfl⟩ | ⟨last, hchain, -⟩
    · exact ⟨rfl, hfail⟩
    · exact absurd hnil (exists_chain_iff.mp ⟨last, hchain⟩).1
  · rcases (records_eq_success_iff hvalid).mp hs with ⟨-, hnil, -⟩ | ⟨last, hchain, hstops⟩
    · exact absurd hnil hne
    · exact rest_of_stops hchain hstops
  · exact byteLength_le_of_isTable hs hprefix (exists_parse_ok_iff.mp hok)

/-- A record and a separator behind it, with a second record that is not one. -/
def brokenTable : Text :=
  line ['7'] ++ (line (flag [' ', 'é']) ++ (line ['1'] ++ (line ['2'] ++ line ['.', '5']))) ++
    (['|', '-', '\n'] ++ line ['x'])

theorem parse_stops_behind_longest_table_broken :
    ∃ verdict f front residue rs, parse brokenTable = some verdict ∧ verdict.result = .error f ∧
      f.kind = .trailingInput ∧ f.location.offset = 32 ∧
      brokenTable.splitBytes? 32 = some (front, residue) ∧ rs ≠ [] ∧
      (∃ whole, parse front = some whole ∧ whole.result = .ok rs) ∧
      ∃ rest, residue = ['|', '-', '\n'] ++ rest ∧ record (.ofText rest) = .failure := by
  have hoffset : ((parse brokenTable).bind fun verdict => match verdict.result with
      | .error f => some f.location.offset
      | .ok _ => none) = some 32 := by decide +kernel
  obtain ⟨verdict, hv, h⟩ := parse_stops_behind_longest_table brokenTable
  rw [hv, Option.bind_some] at hoffset
  cases hf : verdict.result with
  | ok rs => simp [hf] at hoffset
  | error f =>
    simp only [hf, Option.some.injEq] at hoffset
    obtain ⟨hkind, -, -, rs, front, residue, -, -, hsplit, -, -, -, hfront, hnil, hcons, -⟩ := h f hf
    rw [hoffset] at hsplit hnil
    have hrs : rs ≠ [] := fun h => by cases (hnil h).1
    refine ⟨verdict, f, front, residue, rs, hv, hf, hkind, hoffset, hsplit, hrs, hfront, ?_⟩
    have hprefix : ['|', '-', '\n'] <+: residue := by
      obtain ⟨hbroken, hfront⟩ := Text.splitBytes?_eq_some_iff.mp hsplit
      rw [(Text.append_inj_of_byteLength hbroken hfront).2.symm]
      exact List.prefix_append ..
    exact (hcons hrs).resolve_left (fun h => h hprefix)

end TextParsing.Table
