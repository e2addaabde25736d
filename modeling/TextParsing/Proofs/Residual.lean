import TextParsing.Proofs.Closures
import TextParsing.Proofs.Expansion

/-! Parsing depends on the residual text only: where the same is left, a parser answers alike, in
whatever text and at whatever position it stands. -/
namespace TextParsing

namespace Parser
variable {α : Type} {p : Parser α} {c d c' d' : Cursor} {v : α}

/-- At two places with the same rest the answers are the same. -/
lemma ReadsRest.success_of_rest_eq (hp : p.ReadsRest) (hc : c.Valid) (hd : d.Valid)
    (h : c.rest = d.rest) (hs : p c = .success v c') :
    ∃ d', p d = .success v d' ∧ Cursor.SameRest c.source d.source c' d' := by
  have hr := hp c.source d.source c d ⟨rfl, hc, rfl, hd, h⟩
  rw [hs] at hr
  obtain ⟨_, d', hd', rfl, hr⟩ := hr.exists_eq_success
  exact ⟨d', hd', hr⟩

/-- What depends on the rest only moves forwards: the answer is the same at the beginning of the rest
taken as a text of its own, and nothing lies in front of that. -/
lemma ReadsRest.position_le (hp : p.ReadsRest) (hc : c.Valid) (hs : p c = .success v c') :
    c.position ≤ c'.position := by
  obtain ⟨d', -, hr⟩ := hp.success_of_rest_eq hc (Cursor.valid_ofText c.rest) rfl hs
  have hstart : Cursor.SameRest c.source c.rest c (.ofText c.rest) :=
    ⟨rfl, hc, rfl, Cursor.valid_ofText _, rfl⟩
  have := hstart.position_add_position hr
  have : (Cursor.ofText c.rest).position = 0 := rfl
  omega

/-- A parser that depends on the rest only answers alike wherever the same is left. -/
theorem ReadsRest.answers_alike (hp : p.ReadsRest) (hc : c.Valid) (hd : d.Valid)
    (h : c.rest = d.rest) :
    (p c = .failure ∧ p d = .failure) ∨ (p c = .unfinished ∧ p d = .unfinished) ∨
      ∃ v c' d' n, p c = .success v c' ∧ p d = .success v d' ∧ c'.position = c.position + n ∧
        d'.position = d.position + n ∧ c'.rest = d'.rest := by
  have hcd := hp c.source d.source c d ⟨rfl, hc, rfl, hd, h⟩
  have hdc := hp d.source c.source d c ⟨rfl, hd, rfl, hc, h.symm⟩
  cases hs : p c with
  | success v c' =>
    obtain ⟨d', hs', hr⟩ := hp.success_of_rest_eq hc hd h hs
    have hle := hp.position_le hc hs
    have hstart : Cursor.SameRest c.source d.source c d := ⟨rfl, hc, rfl, hd, h⟩
    have := hstart.position_add_position hr
    exact .inr (.inr ⟨v, c', d', c'.position - c.position, rfl, hs', by omega, by omega,
      hr.rest_eq⟩)
  | failure =>
    rw [hs] at hcd
    exact .inl ⟨rfl, hcd.eq_failure⟩
  | unfinished =>
    rw [hs] at hdc
    exact .inr (.inl ⟨rfl, hdc.eq_unfinished⟩)

end Parser

namespace Grammar
variable {defs : Definitions} {g : Grammar}

/-- A grammar of parsers that depend on the rest only describes such a parser, although the depth of
expansions that it allows depends on the whole text. -/
theorem parser_readsRest (hdefs : defs.EveryCustom Parser.ReadsRest)
    (hg : g.EveryCustom Parser.ReadsRest) : (g.parser defs).ReadsRest := by
  intro s t c d h
  obtain rfl := h.left_source
  have hR := Cursor.SameRest.simulation c.source t
  have henv := defs.expand_refines hR (hdefs.imp fun _ hp => hp c.source t)
    (le_refl (defs.maxDepth c.source))
  have hsame := denote_refines hR henv g (hg.imp (fun _ hp => hp c.source t) g)
  exact hsame.trans_sameRest (denote_refines_maxDepth (hdefs.imp fun _ hp => hp.staysValid)
    hg.staysValid t (defs.maxDepth c.source)) c d h

/-- From two places with the same rest a grammar without positions fails or finds the same value over
the same number of bytes and leaves the same, or has no answer at either of them. -/
theorem parser_alike_of_rest_eq (hdefs : defs.EveryCustom Parser.ReadsRest)
    (hg : g.EveryCustom Parser.ReadsRest) {c d : Cursor} (hc : c.Valid) (hd : d.Valid)
    (h : c.rest = d.rest) :
    (g.parser defs c = .failure ∧ g.parser defs d = .failure) ∨
      (g.parser defs c = .unfinished ∧ g.parser defs d = .unfinished) ∨
      ∃ v c' d' n, g.parser defs c = .success v c' ∧ g.parser defs d = .success v d' ∧
        c'.position = c.position + n ∧ d'.position = d.position + n ∧ c'.rest = d'.rest :=
  (parser_readsRest hdefs hg).answers_alike hc hd h

theorem parser_alike_of_rest_eq_nestedBytes :
    ∃ c d : Cursor, c.Valid ∧ d.Valid ∧ c.position = 3 ∧ d.position = 0 ∧ c.rest = d.rest ∧
      ∃ c' d' n, (ref "nested").parser nestedBytes c = .success (.str ['é']) c' ∧
        (ref "nested").parser nestedBytes d = .success (.str ['é']) d' ∧
        c'.position = c.position + n ∧ d'.position = d.position + n ∧ c'.rest = d'.rest := by
  have hs : (ref "nested").parser nestedBytes
      ⟨['é', 'x', '(', '(', '2', 'é', ')', ')'], 3, ['(', '(', '2', 'é', ')', ')']⟩ =
      .success (.str ['é']) ⟨['é', 'x', '(', '(', '2', 'é', ')', ')'], 10, []⟩ := by rfl
  have hc := Cursor.valid_next (Cursor.valid_next
    (Cursor.valid_ofText ['é', 'x', '(', '(', '2', 'é', ')', ')']))
  have hd := Cursor.valid_ofText ['(', '(', '2', 'é', ')', ')']
  have h := parser_alike_of_rest_eq (g := ref "nested") readsRest_nestedBytes trivial hc hd rfl
  rcases h with ⟨h, -⟩ | ⟨h, -⟩ | ⟨v, c', d', n, he, hd', h⟩
  · cases h.symm.trans hs
  · cases h.symm.trans hs
  · cases he.symm.trans hs
    exact ⟨_, _, hc, hd, rfl, rfl, rfl, _, d', n, he, hd', h⟩

end Grammar
end TextParsing
