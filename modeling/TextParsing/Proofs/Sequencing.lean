import Mathlib.Tactic.TFAE
import TextParsing.Proofs.Reading

/-! Sequences. The members of a sequence may be put together in pairs in any way: every grouping is
the same parser as the flat sequence, once the pairs are taken apart. -/
namespace TextParsing

namespace Outcome
variable {α β γ : Type}

lemma andThen_assoc (o : Outcome α) (f : α → Cursor → Outcome β) (g : β → Cursor → Outcome γ) :
    (o.andThen f).andThen g = o.andThen fun v d => (f v d).andThen g := by
  cases o <;> rfl

lemma andThen_success_right (o : Outcome α) : o.andThen .success = o := by
  cases o <;> rfl

end Outcome

namespace Parser
variable {α β γ δ : Type}

section
variable (p : Parser α) (q : Parser β) (c : Cursor)

lemma map_apply (f : α → β) : p.map f c = (p c).andThen fun v d => .success (f v) d := rfl

lemma pair_apply : p.pair q c =
    (p c).andThen fun v d => (q d).andThen fun w e => .success (v, w) e := rfl

lemma seqLeft_apply : p.seqLeft q c =
    (p c).andThen fun v d => (q d).andThen fun _ e => .success v e := rfl

lemma seqRight_apply : p.seqRight q c = (p c).andThen fun _ d => q d := rfl

lemma sequence_nil_apply : sequence ([] : List (Parser α)) c = .success [] c := rfl

lemma sequence_cons_apply (ps : List (Parser α)) : sequence (p :: ps) c =
    (p c).andThen fun v d => (sequence ps d).andThen fun vs e => .success (v :: vs) e := rfl

end

lemma map_map (p : Parser α) (f : α → β) (g : β → γ) : (p.map f).map g = p.map (g ∘ f) := by
  funext c
  simp only [map_apply, Outcome.andThen_assoc, Outcome.andThen_success, Function.comp_apply]

/-- Values may be changed before they are paired or behind it. -/
lemma map_pair_map (p : Parser α) (q : Parser β) (f : α → γ) (g : β → δ) :
    (p.map f).pair (q.map g) = (p.pair q).map (Prod.map f g) := by
  funext c
  simp only [map_apply, pair_apply, Outcome.andThen_assoc, Outcome.andThen_success, Prod.map_apply]

lemma pair_map_fst (p : Parser α) (q : Parser β) : (p.pair q).map Prod.fst = p.seqLeft q := by
  funext c
  simp only [seqLeft_apply, map_apply, pair_apply, Outcome.andThen_assoc, Outcome.andThen_success]

lemma pair_map_snd (p : Parser α) (q : Parser β) : (p.pair q).map Prod.snd = p.seqRight q := by
  funext c
  simp only [seqRight_apply, map_apply, pair_apply, Outcome.andThen_assoc, Outcome.andThen_success,
    Outcome.andThen_success_right]

lemma seqRight_seqLeft (p : Parser α) (q : Parser β) (r : Parser γ) :
    (p.seqRight q).seqLeft r = p.seqRight (q.seqLeft r) := by
  funext c
  simp only [seqLeft_apply, seqRight_apply, Outcome.andThen_assoc]

lemma sequence_singleton (p : Parser α) : sequence [p] = p.map ([·]) := by
  funext c
  simp only [sequence_cons_apply, sequence_nil_apply, map_apply, Outcome.andThen_success]

lemma sequence_append (ps qs : List (Parser α)) :
    sequence (ps ++ qs) = ((sequence ps).pair (sequence qs)).map fun v => v.1 ++ v.2 := by
  funext c
  induction ps generalizing c with
  | nil =>
    simp only [List.nil_append, map_apply, pair_apply, sequence_nil_apply, Outcome.andThen_success,
      Outcome.andThen_assoc]
    exact (Outcome.andThen_success_right _).symm
  | cons p ps ih =>
    simp only [List.cons_append, sequence_cons_apply, ih, map_apply, pair_apply,
      Outcome.andThen_assoc, Outcome.andThen_success]

lemma exists_map_eq_success_iff {p : Parser α} {f : α → β} {c e : Cursor} :
    (∃ w, p.map f c = .success w e) ↔ ∃ v, p c = .success v e := by
  rw [map_apply]
  cases p c <;> simp

lemma map_eq_failure_iff {p : Parser α} {f : α → β} {c : Cursor} :
    p.map f c = .failure ↔ p c = .failure := by
  rw [map_apply]
  cases p c <;> simp

/-- Between two others a parser has the middle one of three entries. -/
lemma sequence_map_middle (p : Parser α) (q : Parser β) (r : Parser γ) (f : α → δ) (g : β → δ)
    (h : γ → δ) : (sequence [p.map f, q.map g, r.map h]).map (·[1]?) =
      (between p q r).map fun v => some (g v) := by
  funext c
  simp only [between_eq, map_apply, sequence_cons_apply, sequence_nil_apply, seqLeft_apply,
    seqRight_apply, Outcome.andThen_assoc, Outcome.andThen_success, List.getElem?_cons_succ,
    List.getElem?_cons_zero]

/-- A sequence fails if and only if a member fails behind matches of those in front of it. -/
lemma sequence_eq_failure_iff {ps : List (Parser α)} {c : Cursor} :
    sequence ps c = .failure ↔ ∃ front p back vs d, ps = front ++ p :: back ∧
      sequence front c = .success vs d ∧ p d = .failure := by
  constructor
  · intro h
    induction ps generalizing c with
    | nil => cases h
    | cons p ps ih =>
      rw [sequence_cons_apply, Outcome.andThen_eq_failure_iff] at h
      rcases h with h | ⟨v, d, hp, h⟩
      · exact ⟨[], p, ps, [], c, rfl, rfl, h⟩
      · rcases Outcome.andThen_eq_failure_iff.mp h with h | ⟨_, _, _, h⟩
        · obtain ⟨front, q, back, vs, e, rfl, hfront, hq⟩ := ih h
          refine ⟨p :: front, q, back, v :: vs, e, rfl, ?_, hq⟩
          rw [sequence_cons_apply, hp, Outcome.andThen_success, hfront, Outcome.andThen_success]
        · cases h
  · rintro ⟨front, p, back, vs, d, rfl, hfront, hp⟩
    rw [sequence_append, map_apply, pair_apply, hfront, Outcome.andThen_success,
      sequence_cons_apply, hp]
    rfl

/-- A member of a sequence. Each has values of a type of its own, which are put into one type to stand
as entries in the list of the values of all members. -/
structure Member (δ : Type) where
  {Value : Type}
  parser : Parser Value
  entry : Value → δ

def Member.toEntry (m : Member δ) : Parser δ := m.parser.map m.entry

lemma sequence_toEntry_eq_failure_iff {ms : List (Member δ)} {c : Cursor} :
    sequence (ms.map Member.toEntry) c = .failure ↔ ∃ front n back vs d, ms = front ++ n :: back ∧
      sequence (front.map Member.toEntry) c = .success vs d ∧ n.parser d = .failure := by
  rw [sequence_eq_failure_iff]
  constructor
  · rintro ⟨_, _, _, vs, d, hms, hfront, hfail⟩
    obtain ⟨front, _, rfl, rfl, hback⟩ := List.map_eq_append_iff.mp hms
    obtain ⟨n, back, rfl, rfl, rfl⟩ := List.map_eq_cons_iff.mp hback
    exact ⟨front, n, back, vs, d, rfl, hfront, map_eq_failure_iff.mp hfail⟩
  · rintro ⟨front, n, back, vs, d, rfl, hfront, hfail⟩
    exact ⟨_, n.toEntry, back.map Member.toEntry, vs, d, by simp, hfront,
      map_eq_failure_iff.mpr hfail⟩

/-- Members that are put together in pairs, which may be members of further pairs. -/
inductive Grouping (δ : Type) where
  | member (m : Member δ)
  | pair (first second : Grouping δ)

namespace Grouping

/-- The members in their order. -/
def members : Grouping δ → List (Member δ)
  | member m => [m]
  | pair g h => g.members ++ h.members

/-- The values of a grouping: pairs of pairs, as the members are grouped. -/
def Value : Grouping δ → Type
  | member m => m.Value
  | pair g h => g.Value × h.Value

def parser : (g : Grouping δ) → Parser g.Value
  | member m => m.parser
  | pair g h => g.parser.pair h.parser

/-- The entries of all members from left to right, without the pairs around them. -/
def entries : (g : Grouping δ) → g.Value → List δ
  | member m, v => [m.entry v]
  | pair g h, v => g.entries v.1 ++ h.entries v.2

/-- Each further member is paired with all those in front of it. -/
def fromLeft (m : Member δ) (ms : List (Member δ)) : Grouping δ :=
  ms.foldl (fun g n => pair g (member n)) (member m)

/-- Each member is paired with all those behind it. -/
def fromRight : Member δ → List (Member δ) → Grouping δ
  | m, [] => member m
  | m, n :: ms => pair (member m) (fromRight n ms)

example (m n o : Member δ) :
    (fromLeft m [n, o]).parser = (m.parser.pair n.parser).pair o.parser ∧
      (fromRight m [n, o]).parser = m.parser.pair (n.parser.pair o.parser) :=
  ⟨rfl, rfl⟩

lemma members_foldl_pair (g : Grouping δ) (ms : List (Member δ)) :
    (ms.foldl (fun g n => pair g (member n)) g).members = g.members ++ ms := by
  induction ms generalizing g with
  | nil => simp
  | cons m ms ih =>
    rw [List.foldl_cons, ih, members, members, List.append_assoc, List.singleton_append]

lemma members_fromLeft (m : Member δ) (ms : List (Member δ)) :
    (fromLeft m ms).members = m :: ms := members_foldl_pair (member m) ms

lemma members_fromRight (m : Member δ) (ms : List (Member δ)) :
    (fromRight m ms).members = m :: ms := by
  induction ms generalizing m with
  | nil => rfl
  | cons n ms ih => rw [fromRight, members, members, ih, List.singleton_append]

/-- Whatever the grouping, it is the flat sequence of its members. -/
theorem parser_map_entries (g : Grouping δ) :
    g.parser.map g.entries = sequence (g.members.map Member.toEntry) := by
  induction g with
  | member m =>
    rw [members, List.map_singleton, sequence_singleton, Member.toEntry, map_map]
    rfl
  | pair g h ihg ihh =>
    calc (pair g h).parser.map (pair g h).entries
      _ = ((g.parser.pair h.parser).map (Prod.map g.entries h.entries)).map fun v => v.1 ++ v.2 := by
        rw [map_map]
        rfl
      _ = ((g.parser.map g.entries).pair (h.parser.map h.entries)).map fun v => v.1 ++ v.2 := by
        rw [map_pair_map]
      _ = sequence ((pair g h).members.map Member.toEntry) := by
        rw [ihg, ihh, members, List.map_append, sequence_append]

end Grouping

/-- All forms of a sequence agree. Grouped from the left or from the right the members match where the
flat sequence does, stop at the same place, and have its entries once the pairs are taken apart; and
all of these forms fail where a member fails behind matches of those in front of it. To keep the first
or the second value of two is to project their pair, and between two others a parser has the middle
one of three entries, however the three are grouped. -/
theorem sequencing_forms_agree (m : Member δ) (ms : List (Member δ)) (p : Parser α) (q : Parser β)
    (r : Parser γ) :
    let flat := sequence ((m :: ms).map Member.toEntry)
    let left := Grouping.fromLeft m ms
    let right := Grouping.fromRight m ms
    (left.parser.map left.entries = flat ∧ right.parser.map right.entries = flat) ∧
    (∀ c e, [∃ vs, flat c = .success vs e, ∃ v, left.parser c = .success v e,
      ∃ v, right.parser c = .success v e].TFAE) ∧
    (∀ c, [flat c = .failure, left.parser c = .failure, right.parser c = .failure,
      ∃ front n back vs d, m :: ms = front ++ n :: back ∧
        sequence (front.map Member.toEntry) c = .success vs d ∧ n.parser d = .failure].TFAE) ∧
    p.seqLeft q = (p.pair q).map Prod.fst ∧ p.seqRight q = (p.pair q).map Prod.snd ∧
    (p.seqRight q).seqLeft r = between p q r ∧ p.seqRight (q.seqLeft r) = between p q r ∧
    ∀ (f : α → δ) (g : β → δ) (h : γ → δ),
      (sequence [p.map f, q.map g, r.map h]).map (·[1]?) =
        (between p q r).map fun v => some (g v) := by
  intro flat left right
  have hleft : left.parser.map left.entries = flat := by
    rw [Grouping.parser_map_entries, Grouping.members_fromLeft]
  have hright : right.parser.map right.entries = flat := by
    rw [Grouping.parser_map_entries, Grouping.members_fromRight]
  refine ⟨⟨hleft, hright⟩, fun c e => ?_, fun c => ?_, (pair_map_fst p q).symm,
    (pair_map_snd p q).symm, (seqRight_seqLeft p q r).trans (between_eq p q r).symm,
    (between_eq p q r).symm, sequence_map_middle p q r⟩
  · tfae_have 1 ↔ 2 := by rw [← hleft, exists_map_eq_success_iff]
    tfae_have 1 ↔ 3 := by rw [← hright, exists_map_eq_success_iff]
    tfae_finish
  · tfae_have 1 ↔ 2 := by rw [← hleft, map_eq_failure_iff]
    tfae_have 1 ↔ 3 := by rw [← hright, map_eq_failure_iff]
    tfae_have 1 ↔ 4 := sequence_toEntry_eq_failure_iff
    tfae_finish

end Parser
end TextParsing
