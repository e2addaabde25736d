import TextParsing.Proofs.Unfolding

/-! Greed. A repetition takes elements as long as the separator behind one leads further on and an
element follows it; what it read then ends behind the last element. -/
namespace TextParsing.Parser
open Cursor
variable {α β : Type} {p : Parser α} {q : Parser β} {vs : List α} {v : α} {c d e last next : Cursor}
  {places : List (Cursor × Cursor)}

/-- The values `vs` are those of elements that begin and end at the `places`, the first one at `c`,
with separators between them that lead on, and behind the last one, which ends at `e`, there is no
going on. -/
structure Greedy (p : Parser α) (q : Parser β) (c : Cursor) (vs : List α)
    (places : List (Cursor × Cursor)) (e : Cursor) : Prop where
  elements : List.Forall₂ (fun v place => p place.1 = .success v place.2) vs places
  begins : ∀ place ∈ places.head?, place.1 = c
  separators : places.IsChain fun place next =>
    (∃ w, q place.2 = .success w next.1) ∧ place.1.position < next.1.position
  empty : places = [] → p c = .failure ∧ e = c
  last : ∀ place ∈ places.getLast?, place.2 = e ∧ Stops p q place.1 e

lemma greedy_nil_iff : Greedy p q c vs [] e ↔ p c = .failure ∧ vs = [] ∧ e = c := by
  constructor
  · intro h
    obtain ⟨hfail, he⟩ := h.empty rfl
    exact ⟨hfail, List.forall₂_nil_right_iff.mp h.elements, he⟩
  · rintro ⟨hfail, rfl, rfl⟩
    exact ⟨.nil, by simp, .nil, fun _ => ⟨hfail, rfl⟩, by simp⟩

/-- Behind the first element there is either no going on, or a separator that leads further on and
the greedy reading of the rest. -/
lemma greedy_cons_iff {place : Cursor × Cursor} :
    Greedy p q c vs (place :: places) e ↔ ∃ v us stop,
      vs = v :: us ∧ place = (c, stop) ∧ p c = .success v stop ∧
        ((us = [] ∧ places = [] ∧ stop = e ∧ Stops p q c e) ∨
          ∃ w next, q stop = .success w next ∧ c.position < next.position ∧
            p next ≠ .failure ∧ Greedy p q next us places e) := by
  constructor
  · intro h
    obtain ⟨start, stop⟩ := place
    obtain rfl : start = c := h.begins _ rfl
    obtain ⟨v, us, element, elements, rfl⟩ := List.forall₂_cons_right_iff.mp h.elements
    refine ⟨v, us, stop, rfl, rfl, element, ?_⟩
    cases places with
    | nil =>
      obtain ⟨rfl, hstops⟩ := h.last _ rfl
      exact .inl ⟨List.forall₂_nil_right_iff.mp elements, rfl, rfl, hstops⟩
    | cons place places =>
      obtain ⟨⟨⟨w, separator⟩, further⟩, separators⟩ := List.isChain_cons_cons.mp h.separators
      have hlast := h.last
      rw [List.getLast?_cons_cons] at hlast
      obtain ⟨v', us', element', -, rfl⟩ := List.forall₂_cons_right_iff.mp elements
      exact .inr ⟨w, place.1, separator, further, by simp [element'],
        ⟨elements, by simp, separators, by simp, hlast⟩⟩
  · rintro ⟨v, us, stop, rfl, rfl, element, h | ⟨w, next, separator, further, hne, h⟩⟩
    · obtain ⟨rfl, rfl, rfl, hstops⟩ := h
      exact ⟨.cons element .nil, by simp, .singleton _, by simp, by simpa using hstops⟩
    · cases places with
      | nil => exact absurd (greedy_nil_iff.mp h).1 hne
      | cons place places =>
        obtain rfl : place.1 = next := h.begins _ rfl
        refine ⟨.cons element h.elements, by simp, ?_, by simp, ?_⟩
        · exact List.isChain_cons_cons.mpr ⟨⟨⟨w, separator⟩, further⟩, h.separators⟩
        · rw [List.getLast?_cons_cons]
          exact h.last

/-- To be read greedily is to be nothing where no element is, or a chain that cannot go on. -/
theorem exists_greedy_iff :
    (∃ places, Greedy p q c vs places e) ↔ (p c = .failure ∧ vs = [] ∧ e = c) ∨
      ∃ last, Chain p q c vs last e ∧ Stops p q last e := by
  constructor
  · intro h
    obtain ⟨places, h⟩ := h
    induction places generalizing c vs with
    | nil => exact .inl (greedy_nil_iff.mp h)
    | cons place places ih =>
      right
      obtain ⟨v, us, stop, rfl, -, element, h⟩ := greedy_cons_iff.mp h
      rcases h with ⟨rfl, -, rfl, hstops⟩ | ⟨w, next, separator, further, hne, h⟩
      · exact ⟨c, .one element, hstops⟩
      · rcases ih h with ⟨hfail, -⟩ | ⟨last, hchain, hstops⟩
        · exact absurd hfail hne
        · exact ⟨last, .cons element separator further hchain, hstops⟩
  · intro h
    rcases h with hfail | ⟨last, hchain, hstops⟩
    · exact ⟨[], greedy_nil_iff.mpr hfail⟩
    · induction hchain with
      | one element =>
        exact ⟨_, greedy_cons_iff.mpr
          ⟨_, _, _, rfl, rfl, element, .inl ⟨rfl, rfl, rfl, hstops⟩⟩⟩
      | cons element separator further tail ih =>
        obtain ⟨places, h⟩ := ih hstops
        exact ⟨_, greedy_cons_iff.mpr ⟨_, _, _, rfl, rfl, element,
          .inr ⟨_, _, separator, further, tail.ne_failure, h⟩⟩⟩

/-- Behind an element that the chain cannot go on from, no other one is found. -/
lemma Stops.eq_failure {w : β} (h : Stops p q c d) (separator : q d = .success w next)
    (further : c.position < next.position) : p next = .failure := by
  rcases h with hfail | ⟨w', next', hsep, hstop⟩
  · cases hfail.symm.trans separator
  · cases hsep.symm.trans separator
    exact hstop.resolve_left (Nat.not_le.mpr further)

/-- There is one greedy reading at most: an element says where it ends, a separator where the next
element begins, and where the one reading stops the other one cannot go on. -/
theorem Greedy.unique {us : List α} {others : List (Cursor × Cursor)} (h : Greedy p q c vs places e)
    (k : Greedy p q c us others d) : us = vs ∧ others = places ∧ d = e := by
  induction places generalizing c vs us others with
  | nil =>
    obtain ⟨hfail, rfl, rfl⟩ := greedy_nil_iff.mp h
    cases others with
    | nil =>
      obtain ⟨-, rfl, rfl⟩ := greedy_nil_iff.mp k
      exact ⟨rfl, rfl, rfl⟩
    | cons other others =>
      obtain ⟨_, _, _, -, -, element, -⟩ := greedy_cons_iff.mp k
      cases hfail.symm.trans element
  | cons place places ih =>
    obtain ⟨v, vs, stop, rfl, rfl, element, hnext⟩ := greedy_cons_iff.mp h
    cases others with
    | nil => cases (greedy_nil_iff.mp k).1.symm.trans element
    | cons other others =>
      obtain ⟨v', us, stop', rfl, rfl, element', knext⟩ := greedy_cons_iff.mp k
      cases element.symm.trans element'
      rcases hnext with ⟨rfl, rfl, rfl, hstops⟩ | ⟨w, next, separator, further, hne, hnext⟩ <;>
        rcases knext with ⟨rfl, rfl, rfl, kstops⟩ | ⟨w', next', separator', further', kne, knext⟩
      · exact ⟨rfl, rfl, rfl⟩
      · exact absurd (hstops.eq_failure separator' further') kne
      · exact absurd (kstops.eq_failure separator further) hne
      · cases separator.symm.trans separator'
        obtain ⟨rfl, rfl, rfl⟩ := ih hnext knext
        exact ⟨rfl, rfl, rfl⟩

section
variable {budget : Text} {found : List α} {stop start : Cursor}

lemma round_ne_failure {go : List α → Cursor → Cursor → Outcome (List α)}
    (hgo : ∀ {found stop next}, go found stop next ≠ .failure) :
    p.round q found stop start go ≠ .failure := by
  unfold round
  split
  case h_1 => simp
  case h_2 => simp
  case h_3 =>
    split
    case h_1 => simp
    case h_2 => simp
    case h_3 =>
      split
      case isTrue => exact hgo
      case isFalse => simp

lemma rounds_ne_failure : p.rounds q budget found stop start ≠ .failure := by
  induction budget generalizing found stop start with
  | nil =>
    rw [rounds_nil]
    exact round_ne_failure (by simp)
  | cons ch budget ih =>
    rw [rounds_cons]
    exact round_ne_failure ih

end

lemma exists_greedy_of_sepBy (h : p.sepBy q c = .success vs e) :
    ∃ places, Greedy p q c vs places e := by
  apply exists_greedy_iff.mpr
  rcases collects_of_rounds h with hfail | ⟨us, last, rfl, hchain⟩
  · exact .inl hfail
  · exact .inr ⟨last, hchain⟩

lemma sepBy1_eq_success_iff :
    p.sepBy1 q c = .success vs e ↔ vs ≠ [] ∧ p.sepBy q c = .success vs e := by
  rw [sepBy1, filter_eq_success_iff, and_comm]
  simp

lemma sepBy1_eq_failure_iff :
    p.sepBy1 q c = .failure ↔ ∃ e, p.sepBy q c = .success [] e := by
  have hne : p.sepBy q c ≠ .failure := rounds_ne_failure
  unfold sepBy1 filter
  cases h : p.sepBy q c with
  | success us d => cases us <;> simp
  | failure => exact absurd h hne
  | unfinished => simp

/-- A repetition never fails, and what it matches is the greedy reading, of which there is one: the
elements with separators that lead on between them, up to the first place where no element begins,
and no separator that nothing follows. It comes to no end only where an element or a separator that
it tries comes to none. With at least one element demanded it matches the same, or fails where there
is none. -/
theorem sepBy_greedy (p : Parser α) (q : Parser β) (c : Cursor) :
    p.sepBy q c ≠ .failure ∧
    (∀ vs e, p.sepBy q c = .success vs e → ∃! places, Greedy p q c vs places e) ∧
    (∀ vs places e, Greedy p q c vs places e → ∀ us others d, Greedy p q c us others d →
      us = vs ∧ others = places ∧ d = e) ∧
    (p.StaysValid → q.StaysValid → c.Valid →
      (∀ vs places e, Greedy p q c vs places e → p.sepBy q c = .success vs e) ∧
      (p.sepBy q c = .unfinished → ∃ d, Starts p q c d ∧ (p d = .unfinished ∨
        ∃ v after, p d = .success v after ∧ q after = .unfinished))) ∧
    (∀ vs e, p.sepBy1 q c = .success vs e ↔ vs ≠ [] ∧ p.sepBy q c = .success vs e) ∧
    (p.sepBy1 q c = .failure ↔ p.sepBy q c = .success [] c) := by
  refine ⟨rounds_ne_failure, fun vs e h => ?_, fun vs places e h us others d k => h.unique k,
    fun hp hq hc => ?_, fun vs e => sepBy1_eq_success_iff, ?_⟩
  · obtain ⟨places, hplaces⟩ := exists_greedy_of_sepBy h
    exact ⟨places, hplaces, fun others hothers => (hplaces.unique hothers).2.1⟩
  · have hp := hp.staysIn_zero c.source
    have hq := hq.staysIn_zero c.source
    refine ⟨fun vs places e h => ?_, exists_starts_of_sepBy hp hq hc.placeFrom_zero⟩
    exact (sepBy_eq_success_iff hp hq hc.placeFrom_zero).mpr (exists_greedy_iff.mp ⟨places, h⟩)
  · rw [sepBy1_eq_failure_iff]
    constructor
    · rintro ⟨e, h⟩
      obtain ⟨places, hplaces⟩ := exists_greedy_of_sepBy h
      obtain rfl := List.forall₂_nil_left_iff.mp hplaces.elements
      rw [h, (hplaces.empty rfl).2]
    · exact fun h => ⟨c, h⟩

/-- The separator behind the last element is not part of the match. -/
theorem sepBy_greedy_dangling :
    ∃ e, (anyChar.sepBy (literal [','])) (.ofText ['é', ',', 'b', ',']) = .success ['é', 'b'] e ∧
      e.position = 4 := by
  have hchar : anyChar.Completes := completes_iff_leads.mpr fun _ => leads_anyChar
  have hcomma : (literal [',']).Completes :=
    completes_iff_leads.mpr fun _ => (reads_literal [',']).leads
  have hgreedy : ∃ places, Greedy anyChar (literal [',']) (.ofText ['é', ',', 'b', ','])
      ['é', 'b'] places ⟨['é', ',', 'b', ','], 4, [',']⟩ :=
    exists_greedy_iff.mpr (.inr ⟨⟨_, 3, ['b', ',']⟩,
      .cons rfl rfl (by decide) (.one rfl), .inr ⟨(), _, rfl, .inr rfl⟩⟩)
  obtain ⟨places, hgreedy⟩ := hgreedy
  have hread := ((sepBy_greedy anyChar (literal [',']) _).2.2.2.1 hchar.staysValid
    hcomma.staysValid (valid_ofText _)).1 _ _ _ hgreedy
  exact ⟨_, hread, rfl⟩

end TextParsing.Parser
