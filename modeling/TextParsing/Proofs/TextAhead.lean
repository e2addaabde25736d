import TextParsing.Proofs.Reading
import TextParsing.Proofs.RunAgreement

/-! What a parser makes of a text, wherever that lies ahead: it matches with one value and leaves
one residue, or it does not match. The rules follow the ways in which parsers are put together. -/
namespace TextParsing.Parser
variable {α β : Type} {p p' : Parser α} {q : Parser β} {next : α → Parser β} {v : α} {w : β}
  {input middle residue : Text}

/-- Wherever the text lies ahead, the parser matches with the value and leaves the residue. -/
def Yields (p : Parser α) (input : Text) (v : α) (residue : Text) : Prop :=
  ∀ c : Cursor, c.Valid → c.rest = input → ∃ stop, p c = .success v stop ∧ stop.Valid ∧
    stop.rest = residue

/-- Wherever the text lies ahead, the parser does not match. -/
def Refuses (p : Parser α) (input : Text) : Prop :=
  ∀ c : Cursor, c.Valid → c.rest = input → p c = .failure

lemma Yields.exists_run (h : p.Yields input v residue) :
    ∃ report, p.run input = some report ∧ report.value = some v ∧ report.residue = residue := by
  obtain ⟨stop, hs, -, hr⟩ := h (.ofText input) (Cursor.valid_ofText input) rfl
  exact ⟨_, run_eq_some_iff.mpr (.inr ⟨v, stop, hs, rfl⟩), rfl, hr⟩

lemma Refuses.exists_run (h : p.Refuses input) :
    ∃ report, p.run input = some report ∧ report.value = none ∧ report.residue = input := by
  have hs := h (.ofText input) (Cursor.valid_ofText input) rfl
  exact ⟨_, run_eq_some_iff.mpr (.inl ⟨hs, rfl⟩), rfl, rfl⟩

lemma Reads.yields {L : Rule α} (hp : p.Reads L) (hL : L input v residue) :
    p.Yields (input ++ residue) v residue := by
  intro c hc hr
  obtain ⟨stop, hs, hpass, hrest⟩ := hp.exists_success hr hL
  exact ⟨stop, hs, hpass.valid hc, hrest⟩

lemma Reads.refuses {L : Rule α} (hp : p.Reads L)
    (h : ∀ t v rest, input = t ++ rest → ¬ L t v rest) : p.Refuses input := by
  intro c _ hr
  exact hp.eq_failure_iff.mpr fun t v rest ht => h t v rest (hr ▸ ht)

lemma yields_pure (v : α) (input : Text) : (Parser.pure v).Yields input v input :=
  fun c hc hr => ⟨c, rfl, hc, hr⟩

lemma yields_literal (t residue : Text) : (literal t).Yields (t ++ residue) () residue :=
  (reads_literal t).yields rfl

lemma refuses_literal {t : Text} (h : ¬ t <+: input) : (literal t).Refuses input := by
  rintro c _ rfl
  exact literal_eq_failure_iff.mpr h

lemma Yields.bind (hp : p.Yields input v middle) (hq : (next v).Yields middle w residue) :
    (p.bind next).Yields input w residue := by
  intro c hc hr
  obtain ⟨d, hd, hvalid, hrest⟩ := hp c hc hr
  obtain ⟨stop, hs, hstop⟩ := hq d hvalid hrest
  exact ⟨stop, by rw [Parser.bind, hd]; exact hs, hstop⟩

lemma Yields.bind_refuses (hp : p.Yields input v middle) (hq : (next v).Refuses middle) :
    (p.bind next).Refuses input := by
  intro c hc hr
  obtain ⟨d, hd, hvalid, hrest⟩ := hp c hc hr
  rw [Parser.bind, hd]
  exact hq d hvalid hrest

lemma Refuses.bind (hp : p.Refuses input) : (p.bind next).Refuses input := by
  intro c hc hr
  rw [Parser.bind, hp c hc hr]
  rfl

lemma Yields.map (hp : p.Yields input v residue) (f : α → β) :
    (p.map f).Yields input (f v) residue := hp.bind (yields_pure (f v) residue)

lemma Refuses.map (hp : p.Refuses input) (f : α → β) : (p.map f).Refuses input := hp.bind

lemma Yields.filter {condition : α → Bool} (hp : p.Yields input v residue)
    (h : condition v = true) : (p.filter condition).Yields input v residue := by
  intro c hc hr
  obtain ⟨stop, hs, hstop⟩ := hp c hc hr
  exact ⟨stop, by simp [Parser.filter, hs, h], hstop⟩

lemma Yields.filter_refuses {condition : α → Bool} (hp : p.Yields input v residue)
    (h : condition v = false) : (p.filter condition).Refuses input := by
  intro c hc hr
  obtain ⟨stop, hs, -⟩ := hp c hc hr
  simp [Parser.filter, hs, h]

lemma Yields.seqLeft (hp : p.Yields input v middle) (hq : q.Yields middle w residue) :
    (p.seqLeft q).Yields input v residue := hp.bind (hq.map fun _ => v)

lemma Yields.seqLeft_refuses (hp : p.Yields input v middle) (hq : q.Refuses middle) :
    (p.seqLeft q).Refuses input := hp.bind_refuses (hq.map fun _ => v)

lemma Refuses.seqLeft (hp : p.Refuses input) : (p.seqLeft q).Refuses input := hp.bind

lemma Yields.seqRight (hp : p.Yields input v middle) (hq : q.Yields middle w residue) :
    (p.seqRight q).Yields input w residue := hp.bind hq

lemma Yields.seqRight_refuses (hp : p.Yields input v middle) (hq : q.Refuses middle) :
    (p.seqRight q).Refuses input := hp.bind_refuses hq

lemma Refuses.seqRight (hp : p.Refuses input) : (p.seqRight q).Refuses input := hp.bind

lemma Yields.orElse (hp : p.Yields input v residue) : (p.orElse p').Yields input v residue := by
  intro c hc hr
  obtain ⟨stop, hs, hstop⟩ := hp c hc hr
  exact ⟨stop, by rw [Parser.orElse, hs], hstop⟩

lemma Refuses.orElse_yields (hp : p.Refuses input) (hp' : p'.Yields input v residue) :
    (p.orElse p').Yields input v residue := by
  intro c hc hr
  rw [Parser.orElse, hp c hc hr]
  exact hp' c hc hr

lemma Refuses.orElse (hp : p.Refuses input) (hp' : p'.Refuses input) :
    (p.orElse p').Refuses input := by
  intro c hc hr
  rw [Parser.orElse, hp c hc hr]
  exact hp' c hc hr

end TextParsing.Parser
