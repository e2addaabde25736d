import Mathlib.Tactic.Lemma
import TextParsing.Cursor.Valid
import TextParsing.Parser.Number

/-! Ordered choice. The first parser that matches decides, so that choices may be grouped in any way.
What stands in front of every choice may be taken out of them: each choice begins anew where the first
one began, and finds there what was found before. -/
namespace TextParsing.Parser
variable {α β : Type}

@[simp] lemma orElse_fail (p : Parser α) : p.orElse fail = p := by
  funext c
  unfold orElse
  cases p c <;> rfl

lemma orElse_assoc (p q r : Parser α) : (p.orElse q).orElse r = p.orElse (q.orElse r) := by
  funext c
  unfold orElse
  cases p c <;> rfl

lemma firstOf_append (ps qs : List (Parser α)) :
    firstOf (ps ++ qs) = (firstOf ps).orElse (firstOf qs) := by
  induction ps with
  | nil => rfl
  | cons p ps ih => rw [List.cons_append, firstOf_cons, firstOf_cons, ih, orElse_assoc]

lemma firstOf_eq_foldr (ps : List (Parser α)) : firstOf ps = ps.foldr orElse fail := by
  induction ps with
  | nil => rfl
  | cons p ps ih => rw [firstOf_cons, List.foldr_cons, ih]

/-- The second side of a choice begins where the first one did. With the same parser in front of both
it therefore comes to the place from which the first side failed. -/
lemma seqRight_orElse (p : Parser α) (q r : Parser β) :
    p.seqRight (q.orElse r) = (p.seqRight q).orElse (p.seqRight r) := by
  funext c
  unfold seqRight orElse
  cases h : p c with
  | success v d => simp [h]
  | failure => simp [h]
  | unfinished => simp [h]

/-- No choice at all fails, also behind a parser that comes to an end. -/
lemma seqRight_fail (p : Parser α) {c : Cursor} (h : p c ≠ .unfinished) :
    p.seqRight (fail : Parser β) c = .failure := by
  unfold seqRight
  cases hp : p c with
  | success v d => rfl
  | failure => rfl
  | unfinished => exact absurd hp h

/-- At least one choice is needed, since none would be tried before the parser in front of it. -/
lemma firstOf_map_seqRight (p : Parser α) {qs : List (Parser β)} (hqs : qs ≠ []) :
    firstOf (qs.map p.seqRight) = p.seqRight (firstOf qs) := by
  induction qs with
  | nil => exact absurd rfl hqs
  | cons q qs ih =>
    by_cases hnil : qs = []
    · simp [hnil, firstOf_cons]
    · calc firstOf ((q :: qs).map p.seqRight)
        _ = (p.seqRight q).orElse (firstOf (qs.map p.seqRight)) := firstOf_cons ..
        _ = (p.seqRight q).orElse (p.seqRight (firstOf qs)) := by rw [ih hnil]
        _ = p.seqRight (q.orElse (firstOf qs)) := (seqRight_orElse p q (firstOf qs)).symm
        _ = p.seqRight (firstOf (q :: qs)) := by rw [firstOf_cons]

/-- Choices that all begin with one parser are that parser in front of a choice: both match with the
same value and stop at the same place, or both fail. This holds wherever that parser comes to an end,
also for no choice at all, and for at least one choice everywhere. A choice may be divided in two
anywhere, and is made up of its parsers one by one, with one that never matches behind the last. -/
theorem firstOf_factored_and_regrouped (p : Parser α) (qs : List (Parser β)) :
    (∀ c, p c ≠ .unfinished → firstOf (qs.map p.seqRight) c = p.seqRight (firstOf qs) c) ∧
    (qs ≠ [] → firstOf (qs.map p.seqRight) = p.seqRight (firstOf qs)) ∧
    (∀ front back, qs = front ++ back → firstOf qs = (firstOf front).orElse (firstOf back)) ∧
    firstOf qs = qs.foldr orElse fail := by
  refine ⟨fun c hc => ?_, firstOf_map_seqRight p, fun front back h => ?_, firstOf_eq_foldr qs⟩
  · by_cases hqs : qs = []
    · rw [hqs]
      exact (seqRight_fail p hc).symm
    · rw [firstOf_map_seqRight p hqs]
  · rw [h, firstOf_append]

/-- Before nothing the first parser is not even tried, which makes a difference if it comes to no
end. -/
example (c : Cursor) :
    let p : Parser α := fun _ => .unfinished
    firstOf (([] : List (Parser β)).map p.seqRight) c = .failure ∧
      p.seqRight (firstOf ([] : List (Parser β))) c = .unfinished :=
  ⟨rfl, rfl⟩

/-- The integer is read again for the second choice, behind which the third one is not tried. -/
theorem firstOf_factored_and_regrouped_semicolon :
    ∃ c e : Cursor, c.Valid ∧ c.position = 2 ∧ c.rest = ['1', '2', 'a', ';', '.'] ∧
      firstOf [int64.seqRight (takeUntil ['!']), int64.seqRight (takeUntil [';']),
        int64.seqRight (takeUntil ['.'])] c = .success ['a'] e ∧
      int64.seqRight (firstOf [takeUntil ['!'], takeUntil [';'], takeUntil ['.']]) c =
        .success ['a'] e ∧
      firstOf [takeUntil ['!'], takeUntil [';'], takeUntil ['.']] =
        (firstOf [takeUntil ['!']]).orElse (firstOf [takeUntil [';'], takeUntil ['.']]) ∧
      int64.seqRight (firstOf ([] : List (Parser Text))) c = .failure ∧ e.position = 5 := by
  have hc := Cursor.valid_next (Cursor.valid_ofText ['é', '1', '2', 'a', ';', '.'])
  have hint : int64 (Cursor.ofText ['é', '1', '2', 'a', ';', '.']).next =
      .success 12 ⟨['é', '1', '2', 'a', ';', '.'], 4, ['a', ';', '.']⟩ := by rfl
  have hends : int64 (Cursor.ofText ['é', '1', '2', 'a', ';', '.']).next ≠ .unfinished := by
    simp [hint]
  obtain ⟨-, hfactor, hsplit, -⟩ := firstOf_factored_and_regrouped int64
    [takeUntil ['!'], takeUntil [';'], takeUntil ['.']]
  have hread : int64.seqRight (firstOf [takeUntil ['!'], takeUntil [';'], takeUntil ['.']])
      (Cursor.ofText ['é', '1', '2', 'a', ';', '.']).next =
        .success ['a'] ⟨['é', '1', '2', 'a', ';', '.'], 5, [';', '.']⟩ := by
    rw [seqRight, hint]
    rfl
  have hnone := (firstOf_factored_and_regrouped int64 ([] : List (Parser Text))).1 _ hends
  exact ⟨_, _, hc, rfl, rfl, (congrFun (hfactor (by simp)) _).trans hread, hread,
    hsplit [takeUntil ['!']] [takeUntil [';'], takeUntil ['.']] rfl, hnone.symm, rfl⟩

end TextParsing.Parser
