import TextParsing.Proofs.Consumption
import TextParsing.Proofs.Greedy

/-! A repetition with separators is its first element and a repetition without separators behind it,
each round of which is a separator and an element. The two loops look for progress at different
places, and where every round reads something neither of them stops for the want of it. -/
namespace TextParsing

namespace Outcome
variable {α β γ : Type}

/-- What goes on from a success can fail as well, and is recovered from in the same way. -/
lemma andThen_recover (o : Outcome α) (f : α → Cursor → Outcome β) (g : β → Cursor → Outcome γ)
    (h : Outcome γ) :
    (o.andThen f).recover g h = o.recover (fun v d => (f v d).recover g h) h := by
  cases o with
  | success v d => rfl
  | failure => rfl
  | unfinished => rfl

lemma recover_andThen (o : Outcome α) (f : α → Cursor → Outcome β) (g : Outcome β)
    (h : β → Cursor → Outcome γ) :
    (o.recover f g).andThen h = o.recover (fun v d => (f v d).andThen h) (g.andThen h) := by
  cases o with
  | success v d => rfl
  | failure => rfl
  | unfinished => rfl

lemma recover_congr {o : Outcome α} {f f' : α → Cursor → Outcome β} {g : Outcome β}
    (h : ∀ v d, o = success v d → f v d = f' v d) : o.recover f g = o.recover f' g := by
  cases o with
  | success v d => exact h v d rfl
  | failure => rfl
  | unfinished => rfl

end Outcome

namespace Parser
open Cursor
variable {α β : Type} {p : Parser α} {q : Parser β} {budget : Text} {found : List α}
  {stop start c d : Cursor} {s : Text} {k m n : Nat}

/-- Where every round reads something a repetition goes on behind every separator. -/
lemma rounds_eq_recover (hp : p.MovesBy m) (hq : q.MovesBy n) (hpos : 0 < m + n)
    (hstart : PlaceFrom s k start) (hbudget : start.rest.length ≤ budget.length) :
    p.rounds q budget found stop start =
      (p start).recover (fun v after => (q after).recover
        (fun _ next => p.rounds q budget (v :: found) after next)
        (.success (v :: found).reverse after)) (.success found.reverse stop) := by
  rw [rounds_eq_round (hp.staysIn s k) (hq.staysIn s k) hstart hbudget, round_eq_recover]
  apply Outcome.recover_congr
  intro v after hv
  apply Outcome.recover_congr
  intro w next hw
  obtain ⟨hafter, -, hle⟩ := hp hstart.valid hv
  obtain ⟨-, -, hle'⟩ := hq hafter hw
  rw [if_pos (by omega)]

/-- The elements found before stand in front of those that a round and the rounds behind it add. -/
lemma round_eq_andThen {go : List α → Cursor → Cursor → Outcome (List α)}
    (hgo : ∀ found stop start, go found stop start =
      (go [] stop start).andThen fun vs e => .success (found.reverse ++ vs) e) :
    p.round q found stop start go =
      (p.round q [] stop start go).andThen fun vs e => .success (found.reverse ++ vs) e := by
  simp only [round_eq_recover, Outcome.recover_andThen]
  congr 1
  · funext v after
    congr 1
    · funext w next
      split
      · rw [hgo (v :: found), hgo [v]]
        cases go [] after next <;> simp
      · simp
    · simp
  · simp

lemma rounds_eq_andThen (budget : Text) (found : List α) (stop start : Cursor) :
    p.rounds q budget found stop start =
      (p.rounds q budget [] stop start).andThen fun vs e => .success (found.reverse ++ vs) e := by
  induction budget generalizing found stop start with
  | nil =>
    rw [rounds_nil, rounds_nil]
    exact round_eq_andThen fun _ _ _ => rfl
  | cons ch budget ih =>
    rw [rounds_cons, rounds_cons]
    exact round_eq_andThen ih

/-- Behind an element that ends at `d` a repetition goes on as one of separators in front of elements
does from there. -/
lemma recover_rounds_eq_rounds {budget' : Text} (hp : p.MovesBy m) (hq : q.MovesBy n)
    (hpos : 0 < m + n) (hd : PlaceFrom s k d) (hbudget : d.rest.length ≤ budget.length)
    (hbudget' : d.rest.length ≤ budget'.length) :
    ((q d).recover (fun _ next => p.rounds q budget found d next) (.success found.reverse d)) =
      (q.seqRight p).rounds (Parser.pure ()) budget' found d d := by
  have hr : (q.seqRight p).MovesBy (n + m) := hq.seqRight hp
  induction hlength : d.rest.length using Nat.strongRecOn generalizing found d with
  | ind length ih =>
    -- Either loop asks for a separator and then for an element, and goes on behind that element,
    -- where less is left.
    rw [rounds_eq_recover hr (.pure ()) (by omega) hd hbudget', seqRight, Outcome.andThen_recover]
    apply Outcome.recover_congr
    intro w next hnext
    obtain ⟨hvalid, hsource, hle⟩ := hq hd.valid hnext
    have hplace := hq.staysIn s k hd hnext
    have hrest := hd.length_rest_le hplace (by omega)
    rw [rounds_eq_recover hp hq hpos hplace (by omega)]
    apply Outcome.recover_congr
    intro v after hafter
    obtain ⟨-, -, hle'⟩ := hp hvalid hafter
    have hplace' := hp.staysIn s k hplace hafter
    have hlt := hd.length_rest_lt hplace' (by omega)
    exact ih _ (hlength ▸ hlt) hplace' (by omega) (by omega) rfl

/-- After the first element the repetition is one of separators in front of elements. -/
theorem sepBy_eq_recover (hp : p.MovesBy m) (hq : q.MovesBy n) (hpos : 0 < m + n) (hc : c.Valid) :
    p.sepBy q c = (p c).recover (fun v d => ((q.seqRight p).many d).andThen fun vs e =>
      .success (v :: vs) e) (.success [] c) := by
  have hplace := hc.placeFrom
  rw [sepBy, rounds_eq_recover hp hq hpos hplace (Nat.le_refl _), List.reverse_nil]
  apply Outcome.recover_congr
  intro v d hd
  have hplace' := hp.staysIn _ _ hplace hd
  have hrest := hplace.length_rest_le hplace' hplace'.le_position
  rw [recover_rounds_eq_rounds hp hq hpos hplace' hrest (Nat.le_refl _), rounds_eq_andThen]
  rfl

/-- With at least one element demanded there is no recovering from the want of the first one. -/
theorem sepBy1_eq_andThen (hp : p.MovesBy m) (hq : q.MovesBy n) (hpos : 0 < m + n) (hc : c.Valid) :
    p.sepBy1 q c = (p c).andThen fun v d => ((q.seqRight p).many d).andThen fun vs e =>
      .success (v :: vs) e := by
  rw [sepBy1, filter, sepBy_eq_recover hp hq hpos hc]
  cases p c with
  | success v d =>
    rw [Outcome.recover_success, Outcome.andThen_success]
    cases (q.seqRight p).many d <;> rfl
  | failure => rfl
  | unfinished => rfl

/-- A repetition of parsers that move forwards, of which the element or the separator reads something
whenever it matches, is nothing where no element is, and else the first element and behind it the
repetition without separators of a separator in front of an element. With at least one element
demanded it is the same where there is a first element, and fails where there is none. -/
theorem sepBy_eq_first_then_many (hp : p.MovesForward) (hq : q.MovesForward)
    (h : p.MovesBy 1 ∨ q.MovesBy 1) (hc : c.Valid) :
    (p c = .failure → p.sepBy q c = .success [] c ∧ p.sepBy1 q c = .failure) ∧
    (∀ v d, p c = .success v d →
      p.sepBy q c = (((q.seqRight p).many d).andThen fun vs e => .success (v :: vs) e) ∧
      (q.seqRight p).many d ≠ .failure ∧ p.sepBy1 q c = p.sepBy q c) ∧
    (p c = .unfinished → p.sepBy q c = .unfinished ∧ p.sepBy1 q c = .unfinished) ∧
    ((∀ d, d.Valid → p d ≠ .unfinished ∧ q d ≠ .unfinished) →
      ((∃ vs e, p.sepBy1 q c = .success vs e) ↔ ∃ v d, p c = .success v d)) := by
  have hp : p.MovesBy 0 := hp
  have hq : q.MovesBy 0 := hq
  obtain ⟨m, n, hpm, hqn, hpos⟩ : ∃ m n, p.MovesBy m ∧ q.MovesBy n ∧ 0 < m + n := by
    rcases h with h | h
    · exact ⟨1, 0, h, hq, Nat.one_pos⟩
    · exact ⟨0, 1, hp, h, Nat.one_pos⟩
  have hsep := sepBy_eq_recover hpm hqn hpos hc
  have hsep1 := sepBy1_eq_andThen hpm hqn hpos hc
  have hfirst : ∀ v d, p c = .success v d → p.sepBy1 q c = p.sepBy q c := by
    intro v d hd
    rw [hsep, hsep1, hd, Outcome.andThen_success, Outcome.recover_success]
  refine ⟨fun hfail => ?_, fun v d hd => ⟨?_, rounds_ne_failure, hfirst v d hd⟩, fun hend => ?_,
    fun hends => ⟨?_, ?_⟩⟩
  · rw [hsep, hsep1, hfail]
    exact ⟨rfl, rfl⟩
  · rw [hsep, hd, Outcome.recover_success]
  · rw [hsep, hsep1, hend]
    exact ⟨rfl, rfl⟩
  · rintro ⟨vs, e, hs⟩
    rw [hsep1] at hs
    obtain ⟨v, d, hd, -⟩ := Outcome.andThen_eq_success_iff.mp hs
    exact ⟨v, d, hd⟩
  · rintro ⟨v, d, hd⟩
    have hleads : p.Leads (PlaceFrom c.source 0) (PlaceFrom c.source 0) :=
      (hp.staysIn _ _).leads fun d hd => (hends d hd.valid).1
    have hleads' : q.Leads (PlaceFrom c.source 0) (PlaceFrom c.source 0) :=
      (hq.staysIn _ _).leads fun d hd => (hends d hd.valid).2
    obtain ⟨vs, e, hs, -⟩ := exists_sepBy_eq_success hleads hleads' hc.placeFrom_zero
    exact ⟨vs, e, (hfirst v d hd).trans hs⟩

/-- Where neither an element nor a separator reads anything the loops differ: the one stops with one
element, the other one finds a second behind it. -/
example :
    (literal ['a']).optional.sepBy (literal [',']).optional (.ofText []) =
      .success [none] (.ofText []) ∧
    ((literal [',']).optional.seqRight (literal ['a']).optional).many (.ofText []) =
      .success [none] (.ofText []) :=
  ⟨rfl, rfl⟩

/-- The elements may be empty, since a separator never is. -/
theorem sepBy_eq_first_then_many_commas :
    ∃ (c d e : Cursor), c.Valid ∧ c.position = 2 ∧ c.rest = ['1', ',', ',', '2', 'x'] ∧
      takeWhile Char.isDigit c = .success ['1'] d ∧
      ((literal [',']).seqRight (takeWhile Char.isDigit)).many d = .success [[], ['2']] e ∧
      (takeWhile Char.isDigit).sepBy (literal [',']) c = .success [['1'], [], ['2']] e ∧
      (takeWhile Char.isDigit).sepBy1 (literal [',']) c = .success [['1'], [], ['2']] e ∧
      e.rest = ['x'] := by
  have hc := valid_next (valid_ofText ['é', '1', ',', ',', '2', 'x'])
  have hdigits : (takeWhile Char.isDigit).MovesForward :=
    movesForward_iff_staysIn.mpr fun _ _ => (reads_takeWhile Char.isDigit).leads.staysIn
  have hcomma : (literal [',']).MovesBy 1 := movesBy_literal (by simp)
  obtain ⟨d, hd, hdt⟩ : ∃ d, takeWhile Char.isDigit (ofText ['é', '1', ',', ',', '2', 'x']).next =
      .success ['1'] d ∧ d = ⟨['é', '1', ',', ',', '2', 'x'], 3, [',', ',', '2', 'x']⟩ :=
    ⟨_, rfl, rfl⟩
  have hmany : ((literal [',']).seqRight (takeWhile Char.isDigit)).many d =
      .success [[], ['2']] ⟨['é', '1', ',', ',', '2', 'x'], 6, ['x']⟩ := by
    rw [hdt]
    rfl
  obtain ⟨hsep, -, hsep1⟩ :=
    (sepBy_eq_first_then_many hdigits hcomma.movesForward (.inr hcomma) hc).2.1 _ _ hd
  rw [hmany, Outcome.andThen_success] at hsep
  exact ⟨_, d, _, hc, rfl, rfl, hd, hmany, hsep, hsep1.trans hsep, rfl⟩

end Parser
end TextParsing
