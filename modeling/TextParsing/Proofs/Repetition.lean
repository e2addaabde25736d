import TextParsing.Proofs.Places

/-! Repetitions. The elements that one finds stand in a chain, each behind the one before it, and a
repetition of parsers that come to an end does so as well. -/
namespace TextParsing.Parser
open Cursor
variable {α β : Type} {p : Parser α} {q : Parser β} {budget : Text} {found vs : List α} {v : α}
  {stop start last c d e next : Cursor}

/-- Elements with a separator between any two, from the place where the first one begins. Each begins
further on than the one before it; `last` is where the last one begins and `stop` where it ends. -/
inductive Chain (p : Parser α) (q : Parser β) : Cursor → List α → Cursor → Cursor → Prop where
  | one {c stop : Cursor} {v : α} (element : p c = .success v stop) : Chain p q c [v] c stop
  | cons {c d next last stop : Cursor} {v : α} {w : β} {vs : List α}
      (element : p c = .success v d) (separator : q d = .success w next)
      (further : c.position < next.position) (tail : Chain p q next vs last stop) :
      Chain p q c (v :: vs) last stop

/-- Behind an element that began at `last` and ended at `stop` the chain cannot go on. -/
def Stops (p : Parser α) (q : Parser β) (last stop : Cursor) : Prop :=
  q stop = .failure ∨ ∃ w next, q stop = .success w next ∧
    (next.position ≤ last.position ∨ p next = .failure)

/-- What a repetition from `start` adds to the elements found before it, the last of which ended at
`stop`. -/
def Collects (p : Parser α) (q : Parser β) (found : List α) (stop start : Cursor) (vs : List α)
    (e : Cursor) : Prop :=
  (p start = .failure ∧ vs = found.reverse ∧ e = stop) ∨
    ∃ us last, vs = found.reverse ++ us ∧ Chain p q start us last e ∧ Stops p q last e

/-- A round collects what the rounds behind it do, and its own element. -/
lemma collects_of_round {go : List α → Cursor → Cursor → Outcome (List α)}
    (hgo : ∀ {found stop start vs e}, go found stop start = .success vs e →
      Collects p q found stop start vs e)
    (h : p.round q found stop start go = .success vs e) : Collects p q found stop start vs e := by
  unfold round at h
  split at h
  case h_1 => cases h
  case h_2 hp =>
    cases h
    exact .inl ⟨hp, rfl, rfl⟩
  case h_3 v d hp =>
    right
    split at h
    case h_1 => cases h
    case h_2 hq =>
      cases h
      exact ⟨[v], start, by simp, .one hp, .inl hq⟩
    case h_3 w next hq =>
      split at h
      case isTrue hlt =>
        rcases hgo h with ⟨hfail, rfl, rfl⟩ | ⟨us, last, rfl, hchain, hstops⟩
        · exact ⟨[v], start, by simp, .one hp, .inr ⟨w, next, hq, .inr hfail⟩⟩
        · exact ⟨v :: us, last, by simp, .cons hp hq hlt hchain, hstops⟩
      case isFalse hlt =>
        cases h
        exact ⟨[v], start, by simp, .one hp, .inr ⟨w, next, hq, .inl (Nat.not_lt.mp hlt)⟩⟩

lemma collects_of_rounds (h : p.rounds q budget found stop start = .success vs e) :
    Collects p q found stop start vs e := by
  induction budget generalizing found stop start vs e with
  | nil =>
    rw [rounds_nil] at h
    exact collects_of_round (by simp) h
  | cons ch budget ih =>
    rw [rounds_cons] at h
    exact collects_of_round ih h

section
variable {s : Text} {n : Nat}

section
variable (hp : p.StaysIn (PlaceFrom s n)) (hq : q.StaysIn (PlaceFrom s n))
include hp hq

/-- A round goes on only to places at which less is left. -/
lemma round_congr {go go' : List α → Cursor → Cursor → Outcome (List α)}
    (hstart : PlaceFrom s n start)
    (h : ∀ {found stop next}, PlaceFrom s n next → next.rest.length < start.rest.length →
      go found stop next = go' found stop next) :
    p.round q found stop start go = p.round q found stop start go' := by
  unfold round
  cases hps : p start with
  | unfinished => rfl
  | failure => rfl
  | success v d =>
    have hd := hp hstart hps
    dsimp only
    cases hqs : q d with
    | unfinished => rfl
    | failure => rfl
    | success w next =>
      have hnext := hq hd hqs
      by_cases hlt : start.position < next.position
      · simp only [hlt, if_true]
        exact h hnext (hstart.length_rest_lt hnext hlt)
      · simp [hlt]

/-- What is left is budget enough, and with a budget that is enough a round goes on to rounds with the
same budget. -/
lemma rounds_eq_round (hstart : PlaceFrom s n start) (hbudget : start.rest.length ≤ budget.length) :
    p.rounds q budget found stop start = p.round q found stop start (p.rounds q budget) := by
  induction budget generalizing found stop start with
  | nil =>
    rw [rounds_nil]
    apply round_congr hp hq hstart
    intro found stop next _ hlt
    simp at hbudget
    simp [hbudget] at hlt
  | cons ch budget ih =>
    rw [rounds_cons]
    apply round_congr hp hq hstart
    intro found stop next hnext hlt
    rw [List.length_cons] at hbudget
    rw [ih hnext (by omega), rounds_cons]

lemma rounds_of_chain (hstart : PlaceFrom s n start) (hbudget : start.rest.length ≤ budget.length)
    (h : Chain p q start vs last e) (hstops : Stops p q last e) :
    p.rounds q budget found stop start = .success (found.reverse ++ vs) e := by
  induction h generalizing found stop with
  | @one c e v hpc =>
    rw [rounds_eq_round hp hq hstart hbudget, round, hpc]
    have he := hp hstart hpc
    rcases hstops with hfail | ⟨w, next, hqe, hnext⟩
    · simp [hfail]
    · by_cases hlt : c.position < next.position
      · have hplace := hq he hqe
        have hless := hstart.length_rest_lt hplace hlt
        have hfail := hnext.resolve_left (Nat.not_le.mpr hlt)
        simp only [hqe, hlt, if_true]
        rw [rounds_eq_round hp hq hplace (by omega), round, hfail]
        simp
      · simp [hqe, hlt]
  | @cons c d next last e v w vs hpc hqd hlt _ ih =>
    have hnext := hq (hp hstart hpc) hqd
    have hless := hstart.length_rest_lt hnext hlt
    rw [rounds_eq_round hp hq hstart hbudget, round, hpc]
    simp only [hqd, hlt, if_true]
    rw [ih hnext (by omega) hstops]
    simp

/-- A repetition matches with nothing where no element does, and else with a chain that cannot go
on. -/
theorem sepBy_eq_success_iff (hc : PlaceFrom s n c) :
    p.sepBy q c = .success vs e ↔ (p c = .failure ∧ vs = [] ∧ e = c) ∨
      ∃ last, Chain p q c vs last e ∧ Stops p q last e := by
  constructor
  · intro h
    rcases collects_of_rounds h with hfail | ⟨us, last, rfl, hchain, hstops⟩
    · exact .inl hfail
    · exact .inr ⟨last, hchain, hstops⟩
  · intro h
    rcases h with ⟨hfail, rfl, rfl⟩ | ⟨last, hchain, hstops⟩
    · rw [sepBy, rounds_eq_round hp hq hc (Nat.le_refl _), round, hfail]
      simp
    · exact rounds_of_chain hp hq hc (Nat.le_refl _) hchain hstops

/-- Each element of a chain begins further on than the one before it. -/
lemma Chain.length_le (h : Chain p q c vs last e) (hc : PlaceFrom s n c) :
    vs.length ≤ c.rest.length + 1 := by
  induction h with
  | one element => simp
  | @cons c d next last e v w vs element separator further tail ih =>
    have hnext := hq (hp hc element) separator
    have hless := hc.length_rest_lt hnext further
    have := ih hnext
    rw [List.length_cons]
    omega

lemma Chain.placeFrom (h : Chain p q c vs last e) (hc : PlaceFrom s n c) : PlaceFrom s n e := by
  induction h with
  | one element => exact hp hc element
  | cons element separator _ _ ih => exact ih (hq (hp hc element) separator)

end

lemma Chain.ne_failure (h : Chain p q c vs last e) : p c ≠ .failure := by
  cases h with
  | one element => simp [element]
  | cons element _ _ _ => simp [element]

/-- The last element ends where the chain does. -/
lemma Chain.exists_last (h : Chain p q c vs last e) : ∃ v, p last = .success v e := by
  induction h with
  | one element => exact ⟨_, element⟩
  | cons _ _ _ _ ih => exact ih

/-- Of parsers that only move forwards, no chain leads further than one that cannot go on. -/
lemma Chain.position_le_of_stops (hp : ∀ s n, p.StaysIn (PlaceFrom s n))
    (hq : ∀ s n, q.StaysIn (PlaceFrom s n)) (hc : c.Valid) (h : Chain p q c vs last e)
    (hstops : Stops p q last e) {us : List α} (k : Chain p q c us start d) :
    d.position ≤ e.position := by
  -- Both chains find the same elements as long as both go on.
  induction h generalizing us with
  | @one c e v element =>
    cases k with
    | one element' =>
      cases element.symm.trans element'
      exact Nat.le_refl _
    | @cons _ _ next _ _ _ _ _ element' separator' further' tail' =>
      -- The second chain would go on from where the first one cannot.
      cases element.symm.trans element'
      exfalso
      rcases hstops with hfail | ⟨w, next', hsep, hback | hfail⟩
      · cases hfail.symm.trans separator'
      · cases hsep.symm.trans separator'
        omega
      · cases hsep.symm.trans separator'
        exact tail'.ne_failure hfail
  | @cons c a next last e v w vs element separator _ tail ih =>
    have ha := hp _ _ hc.placeFrom element
    cases k with
    | one element' =>
      cases element.symm.trans element'
      have hplace := ha.valid.placeFrom
      exact (tail.placeFrom (hp _ _) (hq _ _) (hq _ _ hplace separator)).le_position
    | cons element' separator' _ tail' =>
      cases element.symm.trans element'
      cases separator.symm.trans separator'
      exact ih (hq _ _ ha separator).valid hstops tail'

/-- The rounds of parsers that come to an end come to an end, since each one leaves less for those
behind it. -/
lemma exists_rounds_eq_success (hp : p.Leads (PlaceFrom s n) (PlaceFrom s n))
    (hq : q.Leads (PlaceFrom s n) (PlaceFrom s n)) (hstop : PlaceFrom s n stop)
    (hstart : PlaceFrom s n start) (hbudget : start.rest.length ≤ budget.length) :
    ∃ vs e, p.rounds q budget found stop start = .success vs e ∧ PlaceFrom s n e := by
  induction hk : start.rest.length using Nat.strongRecOn generalizing found stop start with
  | ind k ih =>
    rw [rounds_eq_round hp.staysIn hq.staysIn hstart hbudget, round]
    rcases hp hstart with hps | ⟨v, d, hps, hd⟩
    · exact ⟨found.reverse, stop, by rw [hps], hstop⟩
    · rcases hq hd with hqs | ⟨w, next, hqs, hnext⟩
      · exact ⟨(v :: found).reverse, d, by simp [hps, hqs], hd⟩
      · by_cases hlt : start.position < next.position
        · have hless := hstart.length_rest_lt hnext hlt
          simp only [hps, hqs, hlt, if_true]
          exact ih _ (hk ▸ hless) hd hnext (by omega) rfl
        · exact ⟨(v :: found).reverse, d, by simp [hps, hqs, hlt], hd⟩

/-- A repetition of parsers that come to an end comes to an end and does not fail. -/
theorem exists_sepBy_eq_success (hp : p.Leads (PlaceFrom s n) (PlaceFrom s n))
    (hq : q.Leads (PlaceFrom s n) (PlaceFrom s n)) (hc : PlaceFrom s n c) :
    ∃ vs e, p.sepBy q c = .success vs e ∧ PlaceFrom s n e :=
  exists_rounds_eq_success hp hq hc hc (Nat.le_refl _)

lemma Reads.leads {L : Rule α} (h : p.Reads L) : p.Leads (PlaceFrom s n) (PlaceFrom s n) := by
  refine StaysIn.leads (fun c v d hc hs => ?_) fun c _ => h.answers c
  obtain ⟨t, ht, -⟩ := (h.success_iff c v d).mp hs
  exact hc.passes ht

end

/-- Texts with a literal separator between any two are read as a chain, if each of them is read in
front of a separator and the last one in front of what is left. -/
theorem Reads.exists_chain {L : Rule α} (hp : p.Reads L) (before : Text → Prop) {separator : Text}
    (hne : separator ≠ []) (hbefore : ∀ rest, before (separator ++ rest)) {ts : List Text}
    (hvs : vs ≠ []) (hts : List.Forall₂ (fun v t => ∀ rest, before rest → L t v rest) vs ts)
    (hpass : c.Passes (separator.intercalate ts) e) (he : before e.rest) :
    ∃ last, Chain p (literal separator) c vs last e := by
  induction hts generalizing c with
  | nil => exact absurd rfl hvs
  | @cons v t vs ts hL hts ih =>
    cases hts with
    | nil =>
      rw [List.intercalate_singleton] at hpass
      exact ⟨c, .one ((hp.success_iff _ _ _).mpr ⟨t, hpass, hL _ he⟩)⟩
    | cons hL' hts =>
      rw [List.intercalate_cons_cons, List.append_assoc] at hpass
      obtain ⟨d, ht, hpass⟩ := Cursor.passes_append_iff.mp hpass
      obtain ⟨next, hsep, hpass⟩ := Cursor.passes_append_iff.mp hpass
      obtain ⟨last, hchain⟩ := ih (by simp) hpass
      have hd : before d.rest := hsep.2.1 ▸ hbefore next.rest
      have hlt : c.position < next.position := by
        have := Nat.pos_of_ne_zero (mt Text.byteLength_eq_zero.mp hne)
        have := ht.2.2
        have := hsep.2.2
        omega
      have hseparator : literal separator d = .success () next := literal_eq_success_iff.mpr hsep
      exact ⟨last, .cons ((hp.success_iff _ _ _).mpr ⟨t, ht, hL _ hd⟩) hseparator hlt hchain⟩

/-- Where the elements are read whatever follows them, the chains with a literal separator are the
texts of elements with the separator between any two. -/
theorem chain_literal_iff {L : α → Text → Prop} (hp : p.Reads fun t v _ => L v t)
    {separator : Text} (hne : separator ≠ []) :
    (∃ last, Chain p (literal separator) c vs last e) ↔
      vs ≠ [] ∧ ∃ ts, List.Forall₂ L vs ts ∧ c.Passes (separator.intercalate ts) e := by
  constructor
  · intro h
    obtain ⟨last, h⟩ := h
    induction h with
    | one element =>
      obtain ⟨t, ht, hL⟩ := (hp.success_iff _ _ _).mp element
      exact ⟨by simp, [t], .cons hL .nil, by simpa using ht⟩
    | cons element separates further tail ih =>
      obtain ⟨t, ht, hL⟩ := (hp.success_iff _ _ _).mp element
      have hsep := literal_eq_success_iff.mp separates
      obtain ⟨hvs, ts, hts, hpass⟩ := ih
      refine ⟨by simp, t :: ts, .cons hL hts, ?_⟩
      cases hts with
      | nil => exact absurd rfl hvs
      | cons _ _ =>
        rw [List.intercalate_cons_cons]
        exact (ht.trans hsep).trans hpass
  · intro h
    obtain ⟨hvs, ts, hts, hpass⟩ := h
    exact hp.exists_chain (fun _ => True) hne (fun _ => trivial) hvs (hts.imp fun _ _ hL _ _ => hL)
      hpass trivial

end TextParsing.Parser
