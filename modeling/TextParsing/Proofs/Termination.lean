import TextParsing.Proofs.Closures
import TextParsing.Proofs.Completion
import TextParsing.Proofs.TableLanguage

/-! Repetitions come to an end, even those whose elements and separators read nothing or go back: each
further element begins further on than the one before it. So do all grammars without references. -/
namespace TextParsing

namespace Parser
open Cursor
variable {α β : Type} {p : Parser α} {q : Parser β}

/-- A parser that comes to an end at every valid place, and at a valid place of the same source where
it matches. It may match without reading anything, and it may go back. -/
def Completes (p : Parser α) : Prop :=
  ∀ ⦃c⦄, c.Valid → p c = .failure ∨ ∃ v d, p c = .success v d ∧ d.Valid ∧ d.source = c.source

lemma completes_iff_leads : p.Completes ↔ ∀ s, p.Leads (PlaceFrom s 0) (PlaceFrom s 0) := by
  constructor
  · intro h s c hc
    rcases h hc.valid with hs | ⟨v, d, hs, hd, hsource⟩
    · exact .inl hs
    · exact .inr ⟨v, d, hs, hd, hsource.trans hc.source_eq, Nat.zero_le _⟩
  · intro h c hc
    rcases h c.source hc.placeFrom_zero with hs | ⟨v, d, hs, hd⟩
    · exact .inl hs
    · exact .inr ⟨v, d, hs, hd.valid, hd.source_eq⟩

/-- The loop of a repetition as it runs, without a budget. With the elements found before, the place
behind the last of them and the place where the next one is looked for, it comes to an end after `n`
further matches of the element, with the elements and the place that it returns. -/
inductive EndsAfter (p : Parser α) (q : Parser β) :
    Nat → List α → Cursor → Cursor → List α → Cursor → Prop where
  | missing {found : List α} {stop start : Cursor} (element : p start = .failure) :
      EndsAfter p q 0 found stop start found.reverse stop
  | last {found : List α} {stop start after : Cursor} {v : α}
      (element : p start = .success v after)
      (separator : q after = .failure ∨
        ∃ w next, q after = .success w next ∧ next.position ≤ start.position) :
      EndsAfter p q 1 found stop start (v :: found).reverse after
  | again {n : Nat} {found vs : List α} {stop start after next e : Cursor} {v : α} {w : β}
      (element : p start = .success v after) (separator : q after = .success w next)
      (further : start.position < next.position)
      (loop : EndsAfter p q n (v :: found) after next vs e) :
      EndsAfter p q (n + 1) found stop start vs e

/-- The loop runs along a chain and finds what stands in it. -/
lemma Chain.endsAfter {found vs : List α} {stop start last e : Cursor}
    (h : Chain p q start vs last e) (hstops : Stops p q last e) :
    EndsAfter p q vs.length found stop start (found.reverse ++ vs) e := by
  induction h generalizing found stop with
  | @one c e v element =>
    rw [← List.reverse_cons]
    rcases hstops with hfail | ⟨w, next, hq, hnext⟩
    · exact .last element (.inl hfail)
    · -- A separator that leads further on is taken once more before the next element is missing.
      by_cases hlt : c.position < next.position
      · exact .again element hq hlt (.missing (hnext.resolve_left (Nat.not_le.mpr hlt)))
      · exact .last element (.inr ⟨w, next, hq, Nat.not_lt.mp hlt⟩)
  | @cons c d next last e v w vs element separator further _ ih =>
    rw [List.append_cons, ← List.reverse_cons]
    exact .again element separator further (ih hstops)

/-- A repetition of parsers that come to an end does so after at most one match more than there are
bytes left, and finds one element with each. -/
theorem Completes.sepBy_endsAfter (hp : p.Completes) (hq : q.Completes) {c : Cursor}
    (hc : c.Valid) :
    ∃ n vs e, p.sepBy q c = .success vs e ∧ EndsAfter p q n [] c c vs e ∧
      n ≤ c.rest.byteLength + 1 ∧ vs.length = n := by
  have hp := completes_iff_leads.mp hp c.source
  have hq := completes_iff_leads.mp hq c.source
  have hc := hc.placeFrom_zero
  obtain ⟨vs, e, hs, -⟩ := exists_sepBy_eq_success hp hq hc
  rcases (sepBy_eq_success_iff hp.staysIn hq.staysIn hc).mp hs with
    ⟨hfail, rfl, rfl⟩ | ⟨last, hchain, hstops⟩
  · exact ⟨0, [], e, hs, .missing hfail, Nat.zero_le _, rfl⟩
  · have hlength := hchain.length_le hp.staysIn hq.staysIn hc
    have hbytes := c.rest.length_le_byteLength
    exact ⟨vs.length, vs, e, hs, hchain.endsAfter hstops, by omega, rfl⟩

end Parser

namespace Grammar
open Cursor

mutual

/-- Every name that a grammar refers to, also in what goes on from a value, has the property `P`. -/
def EveryRef (P : String → Prop) : Grammar → Prop
  | int64 | double | number | anyChar => True
  | literal _ | takeWhile _ | takeUntil _ | takeThrough _ => True
  | pure _ | fail | eof | custom _ => True
  | ref name => P name
  | map _ of | filter _ of | optional of => EveryRef P of
  | bind of next => EveryRef P of ∧ ∀ v, EveryRef P (next v)
  | firstOf gs | sequence gs => EveryRefOf P gs
  | between opening of closing => EveryRef P opening ∧ EveryRef P of ∧ EveryRef P closing
  | orElse g h | seqLeft g h | seqRight g h | pair g h | sepBy g h | sepBy1 g h =>
    EveryRef P g ∧ EveryRef P h

/-- The same for several grammars. -/
def EveryRefOf (P : String → Prop) : List Grammar → Prop
  | [] => True
  | g :: gs => EveryRef P g ∧ EveryRefOf P gs

end

/-- A grammar that refers to no name. -/
def IsRefFree (g : Grammar) : Prop := g.EveryRef fun _ => False

section
variable {env : String → Parser Value} {P : String → Prop} {s : Text} {n : Nat}

mutual

/-- A grammar comes to an end if its custom parsers and the names that it refers to do. -/
theorem denote_leads
    (henv : ∀ name, P name → (env name).Leads (PlaceFrom s n) (PlaceFrom s n)) :
    ∀ g : Grammar, g.EveryCustom (fun p => p.Leads (PlaceFrom s n) (PlaceFrom s n)) →
      g.EveryRef P → Parser.Leads (PlaceFrom s n) (PlaceFrom s n) (g.denote env)
  | .int64, _, _ => Parser.reads_int64.leads.map _
  | .double, _, _ => Parser.reads_double.leads.map _
  | .number, _, _ => Parser.leads_number.map _
  | .anyChar, _, _ => Parser.reads_anyChar.leads.map _
  | .literal t, _, _ => (Parser.reads_literal t).leads.map _
  | .takeWhile p, _, _ => (Parser.reads_takeWhile p).leads.map _
  | .takeUntil d, _, _ => (Parser.reads_takeUntil_any d).leads.map _
  | .takeThrough d, _, _ => (Parser.reads_takeThrough_any d).leads.map _
  | .pure v, _, _ => .pure v
  | .fail, _, _ => .fail
  | .eof, _, _ => Parser.Leads.eof.map _
  | .custom _, h, _ => h
  | .map f of, h, k => (denote_leads henv of h k).map f
  | .filter condition of, h, k => (denote_leads henv of h k).filter condition
  | .bind of next, h, k =>
    (denote_leads henv of h.1 k.1).bind fun v => denote_leads henv (next v) (h.2 v) (k.2 v)
  | .optional of, h, k => (denote_leads henv of h k).optional.map _
  | .orElse f g, h, k => (denote_leads henv f h.1 k.1).orElse (denote_leads henv g h.2 k.2)
  | .firstOf gs, h, k => .firstOf (parsers_lead henv gs h k)
  | .between opening of closing, h, k =>
    (denote_leads henv opening h.1 k.1).between (denote_leads henv of h.2.1 k.2.1)
      (denote_leads henv closing h.2.2 k.2.2)
  | .seqLeft f g, h, k => (denote_leads henv f h.1 k.1).seqLeft (denote_leads henv g h.2 k.2)
  | .seqRight f g, h, k => (denote_leads henv f h.1 k.1).seqRight (denote_leads henv g h.2 k.2)
  | .pair f g, h, k => ((denote_leads henv f h.1 k.1).pair (denote_leads henv g h.2 k.2)).map _
  | .sequence gs, h, k => (Parser.Leads.sequence (parsers_lead henv gs h k)).map _
  | .sepBy f g, h, k => ((denote_leads henv f h.1 k.1).sepBy (denote_leads henv g h.2 k.2)).map _
  | .sepBy1 f g, h, k =>
    ((denote_leads henv f h.1 k.1).sepBy1 (denote_leads henv g h.2 k.2)).map _
  | .ref name, _, k => henv name k

theorem parsers_lead
    (henv : ∀ name, P name → (env name).Leads (PlaceFrom s n) (PlaceFrom s n)) :
    ∀ gs : List Grammar, EveryCustomOf (fun p => p.Leads (PlaceFrom s n) (PlaceFrom s n)) gs →
      EveryRefOf P gs →
        ∀ p ∈ parsers env gs, Parser.Leads (PlaceFrom s n) (PlaceFrom s n) p
  | [], _, _ => by simp [parsers]
  | g :: gs, h, k => List.forall_mem_cons.mpr
      ⟨denote_leads henv g h.1 k.1, parsers_lead henv gs h.2 k.2⟩

end

end

variable {defs : Definitions} {g : Grammar}

/-- Without references the definitions do not matter. -/
theorem IsRefFree.parser_completes (h : g.IsRefFree) (hg : g.EveryCustom Parser.Completes) :
    (g.parser defs).Completes := by
  rw [Parser.completes_iff_leads]
  intro s c hc
  exact denote_leads (P := fun _ => False) (fun _ => False.elim) g
    (hg.imp (fun p hp => Parser.completes_iff_leads.mp hp s) g) h hc

/-- Setting the position leads to the places of the same source only, or fails. -/
lemma leads_seek (s : Text) (n : Nat) :
    (Parser.seek n).Leads (PlaceFrom s 0) (PlaceFrom s 0) := by
  intro c hc
  unfold Parser.seek
  cases hn : (Cursor.ofText c.source).advance? n with
  | none => exact .inl rfl
  | some d =>
    obtain ⟨t, ht, -⟩ := Cursor.advance?_eq_some_iff.mp hn
    have hstart := (Cursor.valid_ofText c.source).placeFrom_zero
    exact .inr ⟨(), d, rfl, hc.source_eq ▸ hstart.passes ht⟩

/-- The custom parsers of the library come to an end. -/
theorem completes_closures (n : Nat) :
    ∀ g ∈ [position, seek n, upperChar, peek, remainder, takeBytes n, record, records],
      g.EveryCustom Parser.Completes := by
  simp only [List.forall_mem_cons, List.not_mem_nil, false_implies, implies_true, and_true]
  refine ⟨?_, ?_, ?_, ?_, ?_, ?_, ?_, ?_⟩ <;> refine Parser.completes_iff_leads.mpr fun s => .map ?_ _
  · exact fun c hc => .inr ⟨c.position, c, rfl, hc⟩
  · exact leads_seek s n
  · exact Parser.reads_anyChar.leads.map _
  · exact Parser.reads_peek.leads
  · exact Parser.reads_remainder.leads
  · exact (Parser.reads_takeBytes n).leads
  · exact Table.reads_record.leads
  · exact Table.reads_record.leads.sepBy (Parser.reads_literal Table.rowSeparator).leads

/-- A repetition returns after at most one match more than there are bytes left, whatever its elements
and separators read, and so a grammar without references comes to an end at every place of every
text. -/
theorem repetition_ends :
    (∀ {α β : Type} {p : Parser α} {q : Parser β}, p.Completes → q.Completes →
      ∀ {c : Cursor}, c.Valid → ∃ n vs e, p.sepBy q c = .success vs e ∧
        Parser.EndsAfter p q n [] c c vs e ∧ n ≤ c.rest.byteLength + 1 ∧ vs.length = n) ∧
    ∀ {defs : Definitions} {g : Grammar}, g.IsRefFree → g.EveryCustom Parser.Completes →
      (g.parser defs).Completes :=
  ⟨Parser.Completes.sepBy_endsAfter, IsRefFree.parser_completes⟩

/-- Behind a number, as many runs of a letter as it says, each one from byte 3 again. A run may be
empty. -/
def countedRuns : Grammar :=
  bind int64 (countOf (many (optional (literal ['é']))) (seek 3))

/-- Separators go back in both texts, and the repetitions end although the places repeat. -/
theorem repetition_ends_seek :
    (∃ e, (Parser.anyChar.sepBy (Parser.seek 2)) (.ofText ['é', 'a', 'b']) =
        .success ['é', 'a'] e ∧ e.position = 3 ∧
      Parser.EndsAfter Parser.anyChar (Parser.seek 2) 2 [] (.ofText ['é', 'a', 'b'])
        (.ofText ['é', 'a', 'b']) ['é', 'a'] e) ∧
    ∃ v d, countedRuns.parser [] (.ofText ['2', 'é', 'é']) = .success v d ∧ d.Valid ∧
      d.position = 5 := by
  have hchar : Parser.anyChar.Completes :=
    Parser.completes_iff_leads.mpr fun _ => Parser.leads_anyChar
  have hseek : (Parser.seek 2).Completes := Parser.completes_iff_leads.mpr fun s => leads_seek s 2
  have hfree : countedRuns.IsRefFree := by
    refine ⟨trivial, fun v => ?_⟩
    unfold countOf
    split
    · exact ⟨⟨trivial, trivial⟩, trivial⟩
    · trivial
  have hcustom : countedRuns.EveryCustom Parser.Completes := by
    refine ⟨trivial, fun v => ?_⟩
    unfold countOf
    split
    · exact ⟨⟨trivial, trivial⟩, completes_closures 3 (seek 3) (by simp)⟩
    · trivial
  constructor
  · obtain ⟨n, vs, e, hs, hends, -, hn⟩ := repetition_ends.1 hchar hseek
      (Cursor.valid_ofText ['é', 'a', 'b'])
    have hrun : (Parser.anyChar.sepBy (Parser.seek 2)) (.ofText ['é', 'a', 'b']) =
      .success ['é', 'a'] ⟨['é', 'a', 'b'], 3, ['b']⟩ := by rfl
    cases hs.symm.trans hrun
    cases hn
    exact ⟨_, hrun, rfl, hends⟩
  · have hrun : ∃ v, countedRuns.parser [] (.ofText ['2', 'é', 'é']) =
      .success v ⟨['2', 'é', 'é'], 5, []⟩ := ⟨_, rfl⟩
    obtain ⟨v, hrun⟩ := hrun
    have hcompletes : (countedRuns.parser []).Completes := repetition_ends.2 hfree hcustom
    rcases hcompletes (Cursor.valid_ofText ['2', 'é', 'é']) with hs | ⟨w, d, hs, hd, -⟩
    · cases hs.symm.trans hrun
    · cases hs.symm.trans hrun
      exact ⟨_, _, hrun, hd, rfl⟩

end Grammar
end TextParsing
