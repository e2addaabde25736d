import Mathlib.Data.List.Forall2
import TextParsing.Cursor.Valid
import TextParsing.Parser.Repetition

/-! Two runs of parsers that go on in step. Every way to build a parser from others keeps them in
step, the loop of a repetition included, since it looks at its places only to compare them. -/
namespace TextParsing

/-- A relation between places in step: they have the same rest, their positions compare alike, and
reading the same text leads to places in step again. -/
structure Cursor.Simulation (R : Cursor → Cursor → Prop) : Prop where
  rest_eq {c d : Cursor} : R c d → c.rest = d.rest
  atEnd_eq {c d : Cursor} : R c d → c.atEnd = d.atEnd
  position_lt_iff {c d c' d' : Cursor} :
    R c d → R c' d' → (c.position < c'.position ↔ d.position < d'.position)
  passes {c d c' d' : Cursor} {t : Text} :
    R c d → c.Passes t c' → d.Passes t d' → R c' d'

/-- Whenever the first outcome is an answer, the second one is an answer like it. -/
inductive Outcome.Refines {α β : Type} (V : α → β → Prop) (R : Cursor → Cursor → Prop) :
    Outcome α → Outcome β → Prop
  | success {v w c d} (value : V v w) (rest : R c d) : Refines V R (success v c) (success w d)
  | failure : Refines V R failure failure
  | unfinished (o) : Refines V R unfinished o

/-- From any two places in step the second parser answers like the first one. -/
def Parser.Refines {α β : Type} (V : α → β → Prop) (R : Cursor → Cursor → Prop)
    (p : Parser α) (q : Parser β) : Prop :=
  ∀ c d, R c d → Outcome.Refines V R (p c) (q d)

namespace Outcome
variable {α β γ α' β' γ' : Type} {V : α → α' → Prop} {W : β → β' → Prop}
  {R S : Cursor → Cursor → Prop}

lemma Refines.andThen {o : Outcome α} {o' : Outcome α'} {f : α → Cursor → Outcome β}
    {g : α' → Cursor → Outcome β'} (h : Refines V R o o')
    (k : ∀ v w c d, V v w → R c d → Refines W R (f v c) (g w d)) :
    Refines W R (o.andThen f) (o'.andThen g) := by
  cases h with
  | success hv hr => exact k _ _ _ _ hv hr
  | failure => exact .failure
  | unfinished o' => exact .unfinished _

/-- Go on from a success or from a failure. -/
def recover (o : Outcome α) (f : α → Cursor → Outcome β) (g : Outcome β) : Outcome β :=
  match o with
  | success v rest => f v rest
  | failure => g
  | unfinished => unfinished

@[simp] lemma recover_success (v : α) (d : Cursor) (f : α → Cursor → Outcome β) (g : Outcome β) :
    (success v d).recover f g = f v d := rfl

@[simp] lemma recover_failure (f : α → Cursor → Outcome β) (g : Outcome β) :
    (failure : Outcome α).recover f g = g := rfl

@[simp] lemma recover_unfinished (f : α → Cursor → Outcome β) (g : Outcome β) :
    (unfinished : Outcome α).recover f g = unfinished := rfl

lemma Refines.recover {o : Outcome α} {o' : Outcome α'} {f : α → Cursor → Outcome β}
    {f' : α' → Cursor → Outcome β'} {g : Outcome β} {g' : Outcome β'} (h : Refines V R o o')
    (hf : ∀ v w c d, V v w → R c d → Refines W R (f v c) (f' w d)) (hg : Refines W R g g') :
    Refines W R (o.recover f g) (o'.recover f' g') := by
  cases h with
  | success hv hr => exact hf _ _ _ _ hv hr
  | failure => exact hg
  | unfinished o' => exact .unfinished _

lemma Refines.exists_eq_success {v : α} {c : Cursor} {o' : Outcome α'}
    (h : Refines V R (.success v c) o') : ∃ w d, o' = .success w d ∧ V v w ∧ R c d := by
  cases h with
  | success hv hr => exact ⟨_, _, rfl, hv, hr⟩

lemma Refines.eq_failure {o' : Outcome α'} (h : Refines V R (.failure : Outcome α) o') :
    o' = .failure := by
  cases h with
  | failure => rfl

lemma Refines.eq_unfinished {o : Outcome α} (h : Refines V R o (.unfinished : Outcome α')) :
    o = .unfinished := by
  cases h with
  | unfinished _ => rfl

/-- Answers that are alike to a third one are alike. -/
lemma Refines.trans {T : Cursor → Cursor → Prop} {U : α → α → Prop} {o : Outcome α}
    {o' : Outcome α} {o'' : Outcome α'} (h : Refines U R o o') (k : Refines V S o' o'')
    (hV : ∀ u v w, U u v → V v w → V u w) (hT : ∀ c d e, R c d → S d e → T c e) :
    Refines V T o o'' := by
  cases h with
  | success hv hr =>
    cases k with
    | success hv' hr' => exact .success (hV _ _ _ hv hv') (hT _ _ _ hr hr')
  | failure =>
    cases k with
    | failure => exact .failure
  | unfinished o' => exact .unfinished _

/-- A parser that never comes to an end has no answer. -/
def isAnswer : Outcome α → Bool
  | unfinished => false
  | _ => true

lemma Refines.isAnswer {o : Outcome α} {o' : Outcome α'} (h : Refines V R o o')
    (ho : o.isAnswer) : o'.isAnswer := by
  cases h with
  | success _ _ => rfl
  | failure => rfl
  | unfinished o' => cases ho

lemma Refines.of_not_isAnswer {o : Outcome α} {o' : Outcome α'} (ho : o.isAnswer = false) :
    Refines V R o o' := by
  cases o with
  | success _ _ => cases ho
  | failure => cases ho
  | unfinished => exact .unfinished _

/-- An answer is refined by whatever it refines. -/
lemma Refines.symm {U : α → α → Prop} {o o' : Outcome α} (h : Refines U R o o')
    (ho : o.isAnswer) (hU : ∀ u v, U u v → U v u) (hR : ∀ c d, R c d → R d c) :
    Refines U R o' o := by
  cases h with
  | success hv hr => exact .success (hU _ _ hv) (hR _ _ hr)
  | failure => exact .failure
  | unfinished o' => cases ho

end Outcome

namespace Parser
variable {α β γ α' β' γ' : Type} {V : α → α' → Prop} {W : β → β' → Prop} {U : γ → γ' → Prop}
  {R : Cursor → Cursor → Prop} {p : Parser α} {p' : Parser α'} {q : Parser β} {q' : Parser β'}

theorem Refines.pure {v : α} {w : α'} (h : V v w) : Refines V R (Parser.pure v) (Parser.pure w) :=
  fun _ _ hr => .success h hr

theorem Refines.fail : Refines V R (fail : Parser α) (fail : Parser α') := fun _ _ _ => .failure

theorem Refines.eof (hR : Cursor.Simulation R) : Refines (· = ·) R eof eof := by
  intro c d hr
  unfold Parser.eof
  rw [hR.atEnd_eq hr]
  split
  · exact .success rfl hr
  · exact .failure

theorem Refines.map {f : α → β} {g : α' → β'} (h : Refines V R p p')
    (hf : ∀ v w, V v w → W (f v) (g w)) : Refines W R (p.map f) (p'.map g) :=
  fun c d hr => (h c d hr).andThen fun _ _ _ _ hv hr => .success (hf _ _ hv) hr

theorem Refines.filter {condition : α → Bool} {condition' : α' → Bool} (h : Refines V R p p')
    (hf : ∀ v w, V v w → condition v = condition' w) :
    Refines V R (p.filter condition) (p'.filter condition') := by
  refine fun c d hr => (h c d hr).andThen fun v w c d hv hr => ?_
  rw [hf v w hv]
  split
  · exact .success hv hr
  · exact .failure

theorem Refines.bind {f : α → Parser β} {g : α' → Parser β'} (h : Refines V R p p')
    (hf : ∀ v w, V v w → Refines W R (f v) (g w)) : Refines W R (p.bind f) (p'.bind g) :=
  fun c d hr => (h c d hr).andThen fun v w c d hv hr => hf v w hv c d hr

theorem Refines.optional (h : Refines V R p p') :
    Refines (Option.Rel V) R p.optional p'.optional :=
  fun c d hr => (h c d hr).recover (fun _ _ _ _ hv hr => .success (.some hv) hr) (.success .none hr)

theorem Refines.orElse {q : Parser α} {q' : Parser α'} (h : Refines V R p p')
    (k : Refines V R q q') : Refines V R (p.orElse q) (p'.orElse q') :=
  fun c d hr => (h c d hr).recover (fun _ _ _ _ hv hr => .success hv hr) (k c d hr)

theorem Refines.firstOf {ps : List (Parser α)} {ps' : List (Parser α')}
    (h : List.Forall₂ (Refines V R) ps ps') : Refines V R (firstOf ps) (firstOf ps') := by
  induction h with
  | nil => exact .fail
  | cons h _ ih =>
    rw [firstOf_cons, firstOf_cons]
    exact h.orElse ih

theorem Refines.seqLeft (h : Refines V R p p') (k : Refines W R q q') :
    Refines V R (p.seqLeft q) (p'.seqLeft q') :=
  fun c d hr => (h c d hr).andThen fun _ _ c d hv hr =>
    (k c d hr).andThen fun _ _ _ _ _ hr => .success hv hr

theorem Refines.seqRight (h : Refines V R p p') (k : Refines W R q q') :
    Refines W R (p.seqRight q) (p'.seqRight q') :=
  fun c d hr => (h c d hr).andThen fun _ _ c d _ hr => k c d hr

theorem Refines.pair (h : Refines V R p p') (k : Refines W R q q') :
    Refines (fun v w => V v.1 w.1 ∧ W v.2 w.2) R (p.pair q) (p'.pair q') :=
  fun c d hr => (h c d hr).andThen fun _ _ c d hv hr =>
    (k c d hr).andThen fun _ _ _ _ hw hr => .success ⟨hv, hw⟩ hr

theorem Refines.between {r : Parser γ} {r' : Parser γ'} (h : Refines V R p p')
    (k : Refines W R q q') (l : Refines U R r r') :
    Refines W R (between p q r) (between p' q' r') := by
  rw [between_eq, between_eq]
  exact h.seqRight (k.seqLeft l)

theorem Refines.sequence {ps : List (Parser α)} {ps' : List (Parser α')}
    (h : List.Forall₂ (Refines V R) ps ps') :
    Refines (List.Forall₂ V) R (sequence ps) (sequence ps') := by
  induction h with
  | nil => exact .pure .nil
  | cons h _ ih =>
    exact fun c d hr => (h c d hr).andThen fun _ _ c d hv hr =>
      (ih c d hr).andThen fun _ _ _ _ hvs hr => .success (.cons hv hvs) hr

/-- One round of a repetition, with `go` for the rounds that follow it. -/
def round (p : Parser α) (separator : Parser β) (found : List α) (stop start : Cursor)
    (go : List α → Cursor → Cursor → Outcome (List α)) : Outcome (List α) :=
  match p start with
  | .unfinished => .unfinished
  | .failure => .success found.reverse stop
  | .success v after =>
    match separator after with
    | .unfinished => .unfinished
    | .failure => .success (v :: found).reverse after
    | .success _ next =>
      if start.position < next.position then go (v :: found) after next
      else .success (v :: found).reverse after

lemma round_eq_recover {go : List α → Cursor → Cursor → Outcome (List α)} (found : List α)
    (stop start : Cursor) : p.round q found stop start go =
      (p start).recover (fun v after => (q after).recover (fun _ next =>
        if start.position < next.position then go (v :: found) after next
        else .success (v :: found).reverse after) (.success (v :: found).reverse after))
        (.success found.reverse stop) := by
  unfold Parser.round
  cases p start with
  | success v after => cases hq : q after <;> simp [Outcome.recover, hq]
  | failure => rfl
  | unfinished => rfl

lemma rounds_nil (found : List α) (stop start : Cursor) :
    p.rounds q [] found stop start = p.round q found stop start fun _ _ _ => .unfinished :=
  (Parser.rounds.eq_def ..).trans rfl

lemma rounds_cons (ch : Char) (budget : Text) (found : List α) (stop start : Cursor) :
    p.rounds q (ch :: budget) found stop start =
      p.round q found stop start (p.rounds q budget) :=
  (Parser.rounds.eq_def ..).trans rfl

/-- A round in step finds an element or stops on both sides, and goes on from places in step. -/
lemma Refines.round (hR : Cursor.Simulation R) (h : Refines V R p p') (k : Refines W R q q')
    {go : List α → Cursor → Cursor → Outcome (List α)}
    {go' : List α' → Cursor → Cursor → Outcome (List α')}
    (hgo : ∀ {found found' stop stop' start start'}, List.Forall₂ V found found' →
      R stop stop' → R start start' →
        Outcome.Refines (List.Forall₂ V) R (go found stop start) (go' found' stop' start'))
    {found : List α} {found' : List α'} {stop start stop' start' : Cursor}
    (hfound : List.Forall₂ V found found') (hstop : R stop stop') (hstart : R start start') :
    Outcome.Refines (List.Forall₂ V) R (p.round q found stop start go)
      (p'.round q' found' stop' start' go') := by
  rw [round_eq_recover, round_eq_recover]
  refine (h start start' hstart).recover (fun v w after after' hv hafter => ?_)
    (.success (List.forall₂_reverse_iff.mpr hfound) hstop)
  have hvs := List.Forall₂.cons hv hfound
  refine (k after after' hafter).recover (fun _ _ next next' _ hnext => ?_)
    (.success (List.forall₂_reverse_iff.mpr hvs) hafter)
  simp only [hR.position_lt_iff hstart hnext]
  split
  · exact hgo hvs hafter hnext
  · exact .success (List.forall₂_reverse_iff.mpr hvs) hafter

lemma Refines.rounds (hR : Cursor.Simulation R) (h : Refines V R p p') (k : Refines W R q q')
    (budget : Text) {found : List α} {found' : List α'} {stop start stop' start' : Cursor}
    (hfound : List.Forall₂ V found found') (hstop : R stop stop') (hstart : R start start') :
    Outcome.Refines (List.Forall₂ V) R (rounds p q budget found stop start)
      (rounds p' q' budget found' stop' start') := by
  induction budget generalizing found found' stop start stop' start' with
  | nil =>
    rw [rounds_nil, rounds_nil]
    exact h.round hR k (fun _ _ _ => .unfinished _) hfound hstop hstart
  | cons ch budget ih =>
    rw [rounds_cons, rounds_cons]
    exact h.round hR k ih hfound hstop hstart

theorem Refines.sepBy (hR : Cursor.Simulation R) (h : Refines V R p p') (k : Refines W R q q') :
    Refines (List.Forall₂ V) R (p.sepBy q) (p'.sepBy q') := by
  intro c d hr
  unfold Parser.sepBy
  rw [hR.rest_eq hr]
  exact h.rounds hR k d.rest .nil hr hr

theorem Refines.sepBy1 (hR : Cursor.Simulation R) (h : Refines V R p p') (k : Refines W R q q') :
    Refines (List.Forall₂ V) R (p.sepBy1 q) (p'.sepBy1 q') := by
  refine (h.sepBy hR k).filter fun vs ws hvs => ?_
  cases hvs with
  | nil => rfl
  | cons _ _ => rfl

end Parser
end TextParsing
