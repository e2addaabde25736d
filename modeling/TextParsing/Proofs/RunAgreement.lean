import TextParsing.Proofs.Closures
import TextParsing.Proofs.Expansion
import TextParsing.Proofs.LinePlaces
import TextParsing.Run

/-! A run, a run that has to read the whole text and a run of a parser that asks for the end agree,
and the place of a failure is the one at which the parser stopped. -/
namespace TextParsing

namespace Location

/-- Behind the place where a valid cursor stands lies what is left of it. -/
lemma residue_of_valid {c : Cursor} (h : c.Valid) :
    (⟨c.source, c.position⟩ : Location).residue = c.rest := by
  obtain ⟨passed, hs, hp⟩ := h
  exact (passed_and_residue_of_append hs hp).2

lemma residue_zero (t : Text) : (⟨t, 0⟩ : Location).residue = t :=
  residue_of_valid (Cursor.valid_ofText t)

lemma linePosition_zero (t : Text) : (⟨t, 0⟩ : Location).linePosition = ⟨1, 0⟩ := by
  have h : (⟨t, 0⟩ : Location).passed = [] := (passed_and_residue_of_append rfl rfl).1
  rw [linePosition, h]
  rfl

end Location

namespace Event

/-- A numeral ends in front of the first character that is not a digit. -/
lemma toDigits_append_inj {m n : Nat} {s t : Text} (hs : s.StartsOutside Char.isDigit)
    (ht : t.StartsOutside Char.isDigit) (h : Nat.toDigits 10 m ++ s = Nat.toDigits 10 n ++ t) :
    m = n ∧ s = t := by
  have hdigits (n : Nat) : ∀ ch ∈ Nat.toDigits 10 n, ch.isDigit = true :=
    fun ch hch => Nat.isDigit_of_mem_toDigits (by decide) (by decide) hch
  have hnumeral : Nat.toDigits 10 m = Nat.toDigits 10 n := by
    rw [← Text.takeWhile_append (hdigits m) hs, h, Text.takeWhile_append (hdigits n) ht]
  rw [hnumeral] at h
  refine ⟨?_, List.append_cancel_left h⟩
  rw [← Nat.ofDigitChars_ten_toDigits (n := m), hnumeral, Nat.ofDigitChars_ten_toDigits]

lemma toDigits_inj {m n : Nat} (h : Nat.toDigits 10 m = Nat.toDigits 10 n) : m = n :=
  (toDigits_append_inj Text.startsOutside_nil Text.startsOutside_nil (congrArg (· ++ []) h)).1

/-- The words in front of the first count are different for each kind of event. -/
lemma message_getElem? (e : Event) : e.message[7]? = some
    (match e with
      | started _ => ' '
      | stopped _ => 's'
      | unmatched _ => 'd'
      | leftover .. => 'l') := by
  cases e <;> rfl

/-- A message tells which event it reports, with all counts of the event. -/
theorem eq_of_message_eq {e f : Event} (h : e.message = f.message) : e = f := by
  have hbytes : Text.StartsOutside Char.isDigit " bytes".toList := Text.startsOutside_cons.mpr rfl
  have hmiddle (n : Nat) : Text.StartsOutside Char.isDigit
      (" unconsumed bytes at ".toList ++ Nat.toDigits 10 n) := Text.startsOutside_cons.mpr rfl
  have hkind := (message_getElem? e).symm.trans ((congrArg (·[7]?) h).trans (message_getElem? f))
  cases e with
  | started a =>
    cases f with
    | started b =>
      rw [message_started, message_started] at h
      rw [(toDigits_append_inj hbytes hbytes (List.append_cancel_left h)).1]
    | _ => cases hkind
  | stopped a =>
    cases f with
    | stopped b =>
      rw [message_stopped, message_stopped] at h
      rw [toDigits_inj (List.append_cancel_left h)]
    | _ => cases hkind
  | unmatched a =>
    cases f with
    | unmatched b =>
      rw [message_unmatched, message_unmatched] at h
      rw [(toDigits_append_inj hbytes hbytes (List.append_cancel_left h)).1]
    | _ => cases hkind
  | leftover a b =>
    cases f with
    | leftover c d =>
      rw [message_leftover, message_leftover] at h
      obtain ⟨hcount, h⟩ :=
        toDigits_append_inj (hmiddle b) (hmiddle d) (List.append_cancel_left h)
      rw [hcount, toDigits_inj (List.append_cancel_left h)]
    | _ => cases hkind

end Event

namespace Parser
variable {α : Type} {p : Parser α} {input : Text} {report : Report α} {verdict : Verdict α}

/-- The reports of a run, one for each answer of the parser. -/
lemma run_eq_some_iff :
    p.run input = some report ↔
      (p (.ofText input) = .failure ∧
        report = ⟨none, input, [.started input.byteLength, .unmatched input.byteLength]⟩) ∨
      ∃ v stop, p (.ofText input) = .success v stop ∧
        report = ⟨some v, stop.rest, [.started input.byteLength, .stopped stop.position]⟩ := by
  unfold run
  cases p (.ofText input) with
  | success v stop => simp [eq_comm]
  | failure => simp [eq_comm]
  | unfinished => simp

lemma exists_runToEnd_eq_some (h : p.run input = some report) :
    ∃ verdict, p.runToEnd input = some verdict := by
  rw [runToEnd, h]
  exact ⟨_, rfl⟩

/-- A run leaves nothing if the parser stopped with nothing left. -/
lemma value_eq_some_and_residue_eq_nil_iff (h : p.run input = some report) (v : α) :
    report.value = some v ∧ report.residue = [] ↔
      ∃ stop, p (.ofText input) = .success v stop ∧ stop.rest = [] := by
  rcases run_eq_some_iff.mp h with ⟨hs, rfl⟩ | ⟨w, stop, hs, rfl⟩
  · simp [hs]
  · rw [hs]
    constructor
    · intro h
      obtain ⟨hv, hr⟩ := h
      cases hv
      exact ⟨stop, rfl, hr⟩
    · intro h
      obtain ⟨_, hv, hr⟩ := h
      cases hv
      exact ⟨rfl, hr⟩

/-- The verdicts of a run to the end, one for each kind of report. -/
lemma verdict_cases (h : p.run input = some report) (hv : p.runToEnd input = some verdict) :
    (report.value = none ∧ verdict = ⟨.error ⟨.noMatch, ⟨input, input.byteLength -
      report.residue.byteLength⟩⟩, report.events⟩) ∨
    ∃ v, report.value = some v ∧ ((report.residue = [] ∧ verdict = ⟨.ok v, report.events⟩) ∨
      (report.residue ≠ [] ∧ verdict = ⟨.error ⟨.trailingInput, ⟨input, input.byteLength -
        report.residue.byteLength⟩⟩, report.events ++ [.leftover report.residue.byteLength
          (input.byteLength - report.residue.byteLength)]⟩)) := by
  rw [runToEnd, h, Option.map_some, Option.some_inj] at hv
  obtain rfl := hv
  cases hvalue : report.value with
  | none => simp
  | some v =>
    by_cases hr : report.residue = []
    · simp [hr]
    · simp [hr]

/-- A run to the end logs something for debugging exactly if it fails. -/
theorem exists_debug_iff (hv : p.runToEnd input = some verdict) :
    (∃ e ∈ verdict.events, e.level = .debug) ↔ ∃ f, verdict.result = .error f := by
  obtain ⟨report, h, -⟩ := Option.map_eq_some_iff.mp hv
  rcases run_eq_some_iff.mp h with ⟨-, rfl⟩ | ⟨v, stop, -, rfl⟩
  · rcases verdict_cases h hv with ⟨-, rfl⟩ | ⟨_, hw, -⟩
    · simp [Event.level]
    · cases hw
  · rcases verdict_cases h hv with ⟨hn, -⟩ | ⟨_, -, ⟨-, rfl⟩ | ⟨-, rfl⟩⟩
    · cases hn
    · simp [Event.level]
    · simp [Event.level]

/-- Whether the parser matched all of the text, a run to the end says by its result. -/
lemma runToEnd_result_eq_ok_iff (h : p.run input = some report)
    (hv : p.runToEnd input = some verdict) (v : α) :
    verdict.result = .ok v ↔ report.value = some v ∧ report.residue = [] := by
  rcases verdict_cases h hv with ⟨hn, rfl⟩ | ⟨w, hw, ⟨hr, rfl⟩ | ⟨hr, rfl⟩⟩
  · simp [hn]
  · simp [hw, hr]
  · simp [hr]

/-- A run to the end is a success exactly if the parser stops with nothing left. -/
lemma exists_runToEnd_ok_iff {v : α} :
    (∃ verdict, p.runToEnd input = some verdict ∧ verdict.result = .ok v) ↔
      ∃ stop, p (.ofText input) = .success v stop ∧ stop.rest = [] := by
  constructor
  · intro h
    obtain ⟨verdict, hv, hok⟩ := h
    obtain ⟨report, h, -⟩ := Option.map_eq_some_iff.mp hv
    exact (value_eq_some_and_residue_eq_nil_iff h v).mp
      ((runToEnd_result_eq_ok_iff h hv v).mp hok)
  · intro h
    obtain ⟨stop, hs, hr⟩ := h
    have hrun := run_eq_some_iff.mpr (.inr ⟨v, stop, hs, rfl⟩)
    obtain ⟨verdict, hv⟩ := exists_runToEnd_eq_some hrun
    exact ⟨verdict, hv, (runToEnd_result_eq_ok_iff hrun hv v).mpr ⟨rfl, hr⟩⟩

/-- To match and to leave nothing is to match in front of the end. -/
lemma run_seqLeft_eof {β : Type} (f : Unit → β) (hp : p.StaysValid)
    (h : p.run input = some report) (v : α) :
    report.value = some v ∧ report.residue = [] ↔
      ∃ r, (p.seqLeft (eof.map f)).run input = some r ∧ r.value = some v := by
  rcases run_eq_some_iff.mp h with ⟨hs, rfl⟩ | ⟨w, stop, hs, rfl⟩
  · simp [run, seqLeft, hs]
  · have hend := (hp (Cursor.valid_ofText input) hs).1.atEnd_iff
    by_cases hr : stop.rest = []
    · simp [run, seqLeft, Parser.map, eof, hs, hend.mpr hr, hr]
    · simp [run, seqLeft, Parser.map, eof, hs, mt hend.mp hr, hr]

/-- Without a match nothing is read: the failure is placed at the beginning of the text. -/
lemma runToEnd_of_value_eq_none (h : p.run input = some report)
    (hv : p.runToEnd input = some verdict) (hnone : report.value = none) :
    report.residue = input ∧ verdict.result = .error ⟨.noMatch, ⟨input, 0⟩⟩ := by
  obtain ⟨-, rfl⟩ | ⟨_, _, -, rfl⟩ := run_eq_some_iff.mp h
  · rcases verdict_cases h hv with ⟨-, rfl⟩ | ⟨w, hw, -⟩
    · simp
    · cases hw
  · cases hnone

/-- A rest behind a match is reported where the parser stopped, although that place is computed from
the lengths of the text and of the rest. -/
lemma runToEnd_of_residue_ne_nil (hp : p.StaysValid) (h : p.run input = some report)
    (hv : p.runToEnd input = some verdict) {v : α} (hsome : report.value = some v)
    (hrest : report.residue ≠ []) :
    ∃ stop, p (.ofText input) = .success v stop ∧ stop.Valid ∧ stop.source = input ∧
      stop.rest = report.residue ∧
      stop.position = input.byteLength - report.residue.byteLength ∧
      verdict.result = .error ⟨.trailingInput, ⟨input, stop.position⟩⟩ ∧
      verdict.events = [.started input.byteLength, .stopped stop.position,
        .leftover report.residue.byteLength stop.position] := by
  obtain ⟨-, rfl⟩ | ⟨w, stop, hs, rfl⟩ := run_eq_some_iff.mp h
  · cases hsome
  · cases hsome
    obtain ⟨hvalid, hsource⟩ := hp (Cursor.valid_ofText input) hs
    have hlength := hvalid.position_add_byteLength_rest
    rw [hsource] at hlength
    change _ + _ = input.byteLength at hlength
    have hposition : input.byteLength - stop.rest.byteLength = stop.position := by omega
    rcases verdict_cases h hv with ⟨hn, -⟩ | ⟨_, _, ⟨hr, -⟩ | ⟨-, rfl⟩⟩
    · cases hn
    · exact absurd hr hrest
    · dsimp only at hposition ⊢
      rw [hposition]
      exact ⟨stop, hs, hvalid, hsource, rfl, rfl, rfl, rfl⟩

end Parser

namespace Grammar
variable {defs : Definitions} {g : Grammar}

lemma parser_seqLeft_eof : (seqLeft g eof).parser defs =
    (g.parser defs).seqLeft (Parser.eof.map fun _ => Value.unit) := by
  funext c
  simp [parser, denote, Parser.seqLeft, Parser.map]

/-- The three ways to run a grammar over a text agree. All of it is read if a run leaves nothing, or
if the grammar matches in front of the end. Otherwise the failure is placed at the beginning of the
text or at the beginning of what is left, which is where the grammar stopped, as the messages say in
bytes. -/
theorem runs_agree (hdefs : defs.EveryCustom Parser.StaysValid)
    (hg : g.EveryCustom Parser.StaysValid) {input : Text} {report : Report Value}
    (h : (g.parser defs).run input = some report) :
    ∃ verdict, (g.parser defs).runToEnd input = some verdict ∧
      (∀ v, verdict.result = .ok v ↔ report.value = some v ∧ report.residue = []) ∧
      (∀ v, verdict.result = .ok v ↔
        ∃ r, ((seqLeft g eof).parser defs).run input = some r ∧ r.value = some v) ∧
      (report.value = none → report.residue = input ∧
        ∃ f, verdict.result = .error f ∧ f.kind = .noMatch ∧ f.location.text = input ∧
          f.location.offset = 0 ∧ f.location.linePosition = ⟨1, 0⟩ ∧
          f.location.residue = input) ∧
      ∀ v, report.value = some v → report.residue ≠ [] →
        ∃ f stop, verdict.result = .error f ∧ f.kind = .trailingInput ∧
          f.location.text = input ∧ g.parser defs (.ofText input) = .success v stop ∧
          f.location.offset = stop.position ∧ input.IsBoundary stop.position ∧
          report.residue.byteLength ≤ input.byteLength ∧
          stop.position = input.byteLength - report.residue.byteLength ∧
          f.location.residue = report.residue ∧
          ∃ N P R, verdict.events = [.started N, .stopped P, .leftover R P] ∧
            verdict.events.map Event.message =
              ["running parser over ".toList ++ (Nat.toDigits 10 N ++ " bytes".toList),
                "parser stopped at byte ".toList ++ Nat.toDigits 10 P,
                "parser left ".toList ++ (Nat.toDigits 10 R ++
                  (" unconsumed bytes at ".toList ++ Nat.toDigits 10 P))] ∧
            P = stop.position ∧ P + R = N := by
  have hp := parser_staysValid hdefs hg
  obtain ⟨verdict, hv⟩ := Parser.exists_runToEnd_eq_some h
  have hok := Parser.runToEnd_result_eq_ok_iff h hv
  have hend : ∀ v, report.value = some v ∧ report.residue = [] ↔
      ∃ r, ((seqLeft g eof).parser defs).run input = some r ∧ r.value = some v := by
    rw [parser_seqLeft_eof]
    exact Parser.run_seqLeft_eof _ hp h
  refine ⟨verdict, hv, hok, fun v => (hok v).trans (hend v), fun hnone => ?_,
    fun v hsome hrest => ?_⟩
  · obtain ⟨hresidue, hresult⟩ := Parser.runToEnd_of_value_eq_none h hv hnone
    exact ⟨hresidue, _, hresult, rfl, rfl, rfl, Location.linePosition_zero input,
      Location.residue_zero input⟩
  · obtain ⟨stop, hs, hvalid, rfl, hresidue, hposition, hresult, hevents⟩ :=
      Parser.runToEnd_of_residue_ne_nil hp h hv hsome hrest
    have hlength := hvalid.position_add_byteLength_rest
    rw [hresidue] at hlength
    refine ⟨_, stop, hresult, rfl, rfl, hs, rfl, hvalid.isBoundary, by omega, hposition,
      (Location.residue_of_valid hvalid).trans hresidue, _, _, _, hevents, ?_, rfl, hlength⟩
    rw [hevents, List.map_cons, List.map_cons, List.map_singleton, Event.message_started,
      Event.message_stopped, Event.message_leftover]

/-- A grammar that goes back leaves what it had read already. -/
theorem runs_agree_seek :
    ∃ report verdict f, ((seqRight (literal ['a', 'é', 'b']) (seek 3)).parser []).run
        ['a', 'é', 'b', 'c'] = some report ∧ report.value = some .unit ∧
      report.residue = ['b', 'c'] ∧ verdict.result = .error f ∧
      ((seqRight (literal ['a', 'é', 'b']) (seek 3)).parser []).runToEnd
        ['a', 'é', 'b', 'c'] = some verdict ∧
      f.kind = .trailingInput ∧ f.location.offset = 3 ∧ f.location.residue = ['b', 'c'] := by
  obtain ⟨report, h, hvalue, hresidue⟩ : ∃ report,
      ((seqRight (literal ['a', 'é', 'b']) (seek 3)).parser []).run ['a', 'é', 'b', 'c'] =
        some report ∧ report.value = some .unit ∧ report.residue = ['b', 'c'] :=
    ⟨_, rfl, rfl, rfl⟩
  have hdefs : Definitions.EveryCustom Parser.StaysValid [] := by simp [Definitions.EveryCustom]
  have hg : (seqRight (literal ['a', 'é', 'b']) (seek 3)).EveryCustom Parser.StaysValid :=
    ⟨trivial, staysValid_closures 3 _ (by simp)⟩
  obtain ⟨verdict, hv, -, -, -, hrest⟩ := runs_agree hdefs hg h
  obtain ⟨f, stop, hf, hkind, -, -, hoffset, -, -, hposition, hplace, -⟩ :=
    hrest _ hvalue (by simp [hresidue])
  refine ⟨report, verdict, f, h, hvalue, hresidue, hf, hv, hkind, ?_, hplace.trans hresidue⟩
  rw [hoffset, hposition, hresidue]
  rfl

end Grammar
end TextParsing
