import TextParsing.Proofs.Completion
import TextParsing.Proofs.Forward
import TextParsing.Proofs.TableLanguage

/-! How much a parser reads at least. The amounts of parsers behind each other are added, and a
grammar that is put together from parsers that have to read something has to read something too. -/
namespace TextParsing

namespace Parser
open Cursor
variable {α β γ : Type} {p : Parser α} {q : Parser β} {r : Parser γ} {m n k : Nat}

/-- A parser that stops in the same source, at least `n` bytes behind where it began. -/
def MovesBy (n : Nat) (p : Parser α) : Prop :=
  ∀ ⦃c v d⦄, c.Valid → p c = .success v d →
    d.Valid ∧ d.source = c.source ∧ c.position + n ≤ d.position

namespace MovesBy

lemma mono (h : p.MovesBy n) (hmn : m ≤ n) : p.MovesBy m := by
  intro c v d hc hs
  obtain ⟨hd, hsource, hle⟩ := h hc hs
  exact ⟨hd, hsource, by omega⟩

lemma movesForward (h : p.MovesBy n) : p.MovesForward := h.mono (Nat.zero_le n)

lemma staysIn (h : p.MovesBy n) (s : Text) (k : Nat) : p.StaysIn (PlaceFrom s k) :=
  movesForward_iff_staysIn.mp h.movesForward s k

theorem pure (v : α) : (Parser.pure v).MovesBy 0 := by
  intro c w d hc hs
  cases hs
  exact ⟨hc, rfl, Nat.le_refl _⟩

theorem fail : (Parser.fail : Parser α).MovesBy n := by
  intro c v d _ hs
  cases hs

theorem bind {f : α → Parser β} (h : p.MovesBy m) (k : ∀ v, (f v).MovesBy n) :
    (p.bind f).MovesBy (m + n) := by
  intro c w e hc hs
  obtain ⟨v, d, hp, hf⟩ := Outcome.andThen_eq_success_iff.mp hs
  obtain ⟨hd, hsource, hle⟩ := h hc hp
  obtain ⟨he, hsource', hle'⟩ := k v hd hf
  exact ⟨he, hsource'.trans hsource, by omega⟩

theorem map (h : p.MovesBy n) (f : α → β) : (p.map f).MovesBy n := h.bind fun v => .pure (f v)

theorem filter (h : p.MovesBy n) (condition : α → Bool) : (p.filter condition).MovesBy n := by
  intro c v d hc hs
  exact h hc (filter_eq_success_iff.mp hs).1

theorem orElse {q : Parser α} (h : p.MovesBy n) (k : q.MovesBy n) : (p.orElse q).MovesBy n := by
  intro c v d hc hs
  unfold Parser.orElse at hs
  split at hs
  case h_1 hp =>
    cases hs
    exact h hc hp
  case h_2 => exact k hc hs
  case h_3 => cases hs

theorem firstOf {ps : List (Parser α)} (h : ∀ p ∈ ps, p.MovesBy n) : (firstOf ps).MovesBy n := by
  induction ps with
  | nil => exact .fail
  | cons p ps ih =>
    rw [List.forall_mem_cons] at h
    rw [firstOf_cons]
    exact h.1.orElse (ih h.2)

theorem seqRight (h : p.MovesBy m) (k : q.MovesBy n) : (p.seqRight q).MovesBy (m + n) :=
  h.bind fun _ => k

theorem seqLeft (h : p.MovesBy m) (k : q.MovesBy n) : (p.seqLeft q).MovesBy (m + n) :=
  h.bind fun v => k.map fun _ => v

theorem pair (h : p.MovesBy m) (k : q.MovesBy n) : (p.pair q).MovesBy (m + n) :=
  h.bind fun v => k.map fun w => (v, w)

theorem between (h : p.MovesBy m) (h' : q.MovesBy n) (h'' : r.MovesBy k) :
    (between p q r).MovesBy (m + (n + k)) := by
  rw [between_eq]
  exact h.seqRight (h'.seqLeft h'')

/-- Members that move forwards do so together. -/
theorem sequence {ps : List (Parser α)} (h : ∀ p ∈ ps, p.MovesBy 0) : (sequence ps).MovesBy 0 := by
  induction ps with
  | nil => exact .pure []
  | cons p ps ih =>
    rw [List.forall_mem_cons] at h
    exact h.1.bind fun v => (ih h.2).map (v :: ·)

/-- The first element of a repetition is read at least. -/
theorem sepBy1 (h : p.MovesBy n) (k : q.MovesForward) : (p.sepBy1 q).MovesBy n := by
  intro c vs e hc hs
  obtain ⟨hrounds, hne⟩ := filter_eq_success_iff.mp hs
  have hp := h.staysIn
  have hq := movesForward_iff_staysIn.mp k
  rcases (sepBy_eq_success_iff (hp _ _) (hq _ _) hc.placeFrom).mp hrounds with
    ⟨-, rfl, -⟩ | ⟨last, hchain, -⟩
  · cases hne
  · cases hchain with
    | one element => exact h hc element
    | cons element separator _ tail =>
      -- Nothing behind the first element leads back in front of its end.
      obtain ⟨hd, hsource, hle⟩ := h hc element
      have he := tail.placeFrom (hp _ _) (hq _ _) (hq _ _ hd.placeFrom separator)
      have := he.le_position
      exact ⟨he.valid, he.source_eq.trans hsource, by omega⟩

end MovesBy

/-- What is never read as the empty text takes a byte at least. -/
lemma Reads.movesBy_one {L : Rule α} (h : p.Reads L) (hne : ∀ t v rest, L t v rest → t ≠ []) :
    p.MovesBy 1 := by
  intro c v d hc hs
  obtain ⟨t, ht, hL⟩ := (h.success_iff c v d).mp hs
  have hpos := Nat.pos_of_ne_zero (mt Text.byteLength_eq_zero.mp (hne t v d.rest hL))
  have := ht.2.2
  exact ⟨ht.valid hc, ht.1, by omega⟩

lemma movesBy_int64 : int64.MovesBy 1 := by
  refine reads_int64.movesBy_one fun t v rest h => ?_
  obtain ⟨⟨s, negative, digits, rfl, -, hne, -⟩, -⟩ := h
  simp [hne]

lemma movesBy_double : double.MovesBy 1 := by
  refine reads_double.movesBy_one fun t v rest h => ?_
  obtain ⟨⟨negative, whole, fraction, ⟨s, point, rfl, -, -, hpoint, hne⟩, -⟩, -⟩ := h
  cases hpoint with
  | none => simp_all
  | some => simp

/-- A number is read as one of the other two kinds, from the same place. -/
lemma movesBy_number : number.MovesBy 1 := by
  have hdouble := movesBy_double.map Number.double
  intro c v d hc hs
  unfold number at hs
  split at hs
  case h_1 hn =>
    split at hs
    · exact hdouble hc hs
    · cases hs
      exact movesBy_int64 hc hn
  case h_2 => exact hdouble hc hs

lemma movesBy_anyChar : anyChar.MovesBy 1 :=
  reads_anyChar.movesBy_one fun t ch _ h => by simp [h]

lemma movesBy_literal {t : Text} (ht : t ≠ []) : (literal t).MovesBy 1 :=
  (reads_literal t).movesBy_one fun _ _ _ h => h ▸ ht

/-- The delimiter is read at least; an empty one is not found. -/
lemma movesBy_takeThrough (delimiter : Text) : (takeThrough delimiter).MovesBy 1 := by
  apply (reads_takeThrough_any delimiter).movesBy_one
  rintro _ _ _ ⟨hne, -, s, rfl, -⟩
  simp [hne]

end Parser

namespace Grammar

mutual

/-- A grammar that matches only where something is read: at least one member of a sequence has to
read something, and so has each of several choices. -/
def MustConsume : Grammar → Prop
  | int64 | double | number | anyChar | takeThrough _ | fail => True
  | literal t => t ≠ []
  | custom p => p.MovesBy 1
  | takeWhile _ | takeUntil _ | pure _ | eof | optional _ | sepBy _ _ | ref _ => False
  | map _ of | filter _ of | sepBy1 of _ => MustConsume of
  | bind of next => MustConsume of ∨ ∀ v, MustConsume (next v)
  | orElse g h => MustConsume g ∧ MustConsume h
  | firstOf gs => AllConsume gs
  | between opening of closing => MustConsume opening ∨ MustConsume of ∨ MustConsume closing
  | seqLeft g h | seqRight g h | pair g h => MustConsume g ∨ MustConsume h
  | sequence gs => SomeConsumes gs

def AllConsume : List Grammar → Prop
  | [] => True
  | g :: gs => MustConsume g ∧ AllConsume gs

def SomeConsumes : List Grammar → Prop
  | [] => False
  | g :: gs => MustConsume g ∨ SomeConsumes gs

end

variable {env : String → Parser Value}

/-- A grammar moves forwards if its custom parsers and the names do. -/
theorem denote_movesBy_zero (henv : ∀ name, (env name).MovesForward) (g : Grammar)
    (hg : g.EveryCustom Parser.MovesForward) : Parser.MovesBy 0 (g.denote env) := by
  refine Parser.movesForward_iff_staysIn.mpr fun s n => Parser.staysIn_iff_refines.mpr ?_
  have hrefines : ∀ p : Parser Value, p.MovesForward →
      p.Refines (· = ·) (Cursor.Inside (Cursor.PlaceFrom s n)) p := fun p hp =>
    Parser.staysIn_iff_refines.mp (Parser.movesForward_iff_staysIn.mp hp s n)
  exact denote_refines (Cursor.simulation_inside s n) (fun name => hrefines _ (henv name)) g
    (hg.imp hrefines g)

lemma parsers_moveBy_zero (henv : ∀ name, (env name).MovesForward) :
    ∀ gs : List Grammar, EveryCustomOf Parser.MovesForward gs → ∀ p ∈ parsers env gs, p.MovesBy 0
  | [], _ => by simp [parsers]
  | g :: gs, h =>
    List.forall_mem_cons.mpr ⟨denote_movesBy_zero henv g h.1, parsers_moveBy_zero henv gs h.2⟩

mutual

/-- What must consume reads a byte at least. -/
theorem denote_movesBy_one (henv : ∀ name, (env name).MovesForward) :
    ∀ g : Grammar, g.EveryCustom Parser.MovesForward → g.MustConsume →
      Parser.MovesBy 1 (g.denote env)
  | .int64, _, _ => Parser.movesBy_int64.map _
  | .double, _, _ => Parser.movesBy_double.map _
  | .number, _, _ => Parser.movesBy_number.map _
  | .anyChar, _, _ => Parser.movesBy_anyChar.map _
  | .literal _, _, k => (Parser.movesBy_literal k).map _
  | .takeThrough d, _, _ => (Parser.movesBy_takeThrough d).map _
  | .fail, _, _ => .fail
  | .custom _, _, k => k
  | .map f of, h, k => (denote_movesBy_one henv of h k).map f
  | .filter condition of, h, k => (denote_movesBy_one henv of h k).filter condition
  | .bind of next, h, k => by
    rcases k with k | k
    · exact (denote_movesBy_one henv of h.1 k).bind fun v => denote_movesBy_zero henv _ (h.2 v)
    · exact (denote_movesBy_zero henv of h.1).bind fun v =>
        denote_movesBy_one henv (next v) (h.2 v) (k v)
  | .orElse f g, h, k =>
    (denote_movesBy_one henv f h.1 k.1).orElse (denote_movesBy_one henv g h.2 k.2)
  | .firstOf gs, h, k => .firstOf (parsers_moveBy_one henv gs h k)
  | .between opening of closing, h, k => by
    have hopening := denote_movesBy_zero henv opening h.1
    have hof := denote_movesBy_zero henv of h.2.1
    have hclosing := denote_movesBy_zero henv closing h.2.2
    rcases k with k | k | k
    · exact (denote_movesBy_one henv opening h.1 k).between hof hclosing
    · exact hopening.between (denote_movesBy_one henv of h.2.1 k) hclosing
    · exact hopening.between hof (denote_movesBy_one henv closing h.2.2 k)
  | .seqLeft f g, h, k => by
    rcases k with k | k
    · exact (denote_movesBy_one henv f h.1 k).seqLeft (denote_movesBy_zero henv g h.2)
    · exact (denote_movesBy_zero henv f h.1).seqLeft (denote_movesBy_one henv g h.2 k)
  | .seqRight f g, h, k => by
    rcases k with k | k
    · exact (denote_movesBy_one henv f h.1 k).seqRight (denote_movesBy_zero henv g h.2)
    · exact (denote_movesBy_zero henv f h.1).seqRight (denote_movesBy_one henv g h.2 k)
  | .pair f g, h, k => by
    rcases k with k | k
    · exact ((denote_movesBy_one henv f h.1 k).pair (denote_movesBy_zero henv g h.2)).map _
    · exact ((denote_movesBy_zero henv f h.1).pair (denote_movesBy_one henv g h.2 k)).map _
  | .sequence gs, h, k => (sequence_movesBy_one henv gs h k).map _
  | .sepBy1 of separator, h, k =>
    ((denote_movesBy_one henv of h.1 k).sepBy1 (denote_movesBy_zero henv separator h.2)).map _

theorem parsers_moveBy_one (henv : ∀ name, (env name).MovesForward) :
    ∀ gs : List Grammar, EveryCustomOf Parser.MovesForward gs → AllConsume gs →
      ∀ p ∈ parsers env gs, p.MovesBy 1
  | [], _, _ => by simp [parsers]
  | g :: gs, h, k => List.forall_mem_cons.mpr
      ⟨denote_movesBy_one henv g h.1 k.1, parsers_moveBy_one henv gs h.2 k.2⟩

theorem sequence_movesBy_one (henv : ∀ name, (env name).MovesForward) :
    ∀ gs : List Grammar, EveryCustomOf Parser.MovesForward gs → SomeConsumes gs →
      Parser.MovesBy 1 (Parser.sequence (parsers env gs))
  | g :: gs, h, k => by
    have htail := Parser.MovesBy.sequence (parsers_moveBy_zero henv gs h.2)
    rcases k with k | k
    · exact (denote_movesBy_one henv g h.1 k).bind fun v => htail.map (v :: ·)
    · exact (denote_movesBy_zero henv g h.1).bind fun v =>
        (sequence_movesBy_one henv gs h.2 k).map (v :: ·)

end

end Grammar
end TextParsing
