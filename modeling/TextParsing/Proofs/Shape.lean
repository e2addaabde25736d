import TextParsing.Proofs.GrammarSimulation
import TextParsing.Proofs.Reading
import TextParsing.Run

/-! What a grammar reads does not depend on the values that it makes, unless a filter or a bind looks
at them: grammars of one shape read alike, whatever their maps and their constants are. -/
namespace TextParsing

theorem Cursor.simulation_eq : Cursor.Simulation (· = ·) where
  rest_eq h := congrArg Cursor.rest h
  atEnd_eq h := congrArg Cursor.atEnd h
  position_lt_iff h k := by rw [h, k]
  passes h hc hd := by
    subst h
    exact Cursor.Passes.unique hc hd

namespace Parser
variable {α β : Type} {p : Parser α} {q : Parser β}

/-- Whenever the first parser has an answer, the second one has an answer that stops at the same
place. -/
abbrev StopsLike (p : Parser α) (q : Parser β) : Prop := p.Refines (fun _ _ => True) (· = ·) q

lemma StopsLike.refl (p : Parser α) : p.StopsLike p := by
  rintro c _ rfl
  cases p c with
  | success v d => exact .success trivial rfl
  | failure => exact .failure
  | unfinished => exact .unfinished _

theorem map_id (p : Parser α) : p.map id = p := by
  funext c
  unfold Parser.map
  cases p c <;> rfl

lemma StopsLike.map_left {γ : Type} (h : p.StopsLike q) (f : α → γ) : (p.map f).StopsLike q := by
  rw [← map_id q]
  exact h.map fun _ _ _ => trivial

lemma StopsLike.map_right {γ : Type} (h : p.StopsLike q) (f : β → γ) : p.StopsLike (q.map f) := by
  rw [← map_id p]
  exact h.map fun _ _ _ => trivial

/-- Parsers each of which stops like the other one fail, have no answer or stop at the same place, all
together. -/
lemma StopsLike.cases (h : p.StopsLike q) (k : q.StopsLike p) (c : Cursor) :
    (p c = .failure ∧ q c = .failure) ∨ (p c = .unfinished ∧ q c = .unfinished) ∨
      ∃ v w d, p c = .success v d ∧ q c = .success w d := by
  have hc := h c c rfl
  have kc := k c c rfl
  cases hp : p c with
  | success v d =>
    rw [hp] at hc
    obtain ⟨w, _, hq, -, rfl⟩ := hc.exists_eq_success
    exact .inr (.inr ⟨v, w, d, rfl, hq⟩)
  | failure =>
    rw [hp] at hc
    exact .inl ⟨rfl, hc.eq_failure⟩
  | unfinished =>
    rw [hp] at kc
    exact .inr (.inl ⟨rfl, kc.eq_unfinished⟩)

/-- Whether a run matches, and what it leaves. -/
lemma StopsLike.run_eq (h : p.StopsLike q) (k : q.StopsLike p) (input : Text) :
    (p.run input).map (fun r => (r.value.isSome, r.residue)) =
      (q.run input).map fun r => (r.value.isSome, r.residue) := by
  unfold run
  rcases h.cases k (.ofText input) with ⟨hp, hq⟩ | ⟨hp, hq⟩ | ⟨v, w, d, hp, hq⟩
  · rw [hp, hq]
    rfl
  · rw [hp, hq]
    rfl
  · rw [hp, hq]
    rfl

end Parser

namespace Grammar

mutual

/-- Grammars without filters and binds that differ in their maps and in their constants only. A map
may stand anywhere in one of them, with another map or with none in the other. -/
inductive SameShape : Grammar → Grammar → Prop
  | int64 : SameShape int64 int64
  | double : SameShape double double
  | number : SameShape number number
  | anyChar : SameShape anyChar anyChar
  | literal (t : Text) : SameShape (literal t) (literal t)
  | takeWhile (p : Char → Bool) : SameShape (takeWhile p) (takeWhile p)
  | takeUntil (delimiter : Text) : SameShape (takeUntil delimiter) (takeUntil delimiter)
  | takeThrough (delimiter : Text) : SameShape (takeThrough delimiter) (takeThrough delimiter)
  | pure (v w : Value) : SameShape (pure v) (pure w)
  | fail : SameShape fail fail
  | eof : SameShape eof eof
  | custom (p : Parser Value) : SameShape (custom p) (custom p)
  | ref (name : String) : SameShape (ref name) (ref name)
  | mapLeft {g h : Grammar} (f : Value → Value) (of : SameShape g h) : SameShape (map f g) h
  | mapRight {g h : Grammar} (f : Value → Value) (of : SameShape g h) : SameShape g (map f h)
  | optional {g h : Grammar} (of : SameShape g h) : SameShape (optional g) (optional h)
  | orElse {g h g' h' : Grammar} (first : SameShape g h) (second : SameShape g' h') :
      SameShape (orElse g g') (orElse h h')
  | firstOf {gs hs : List Grammar} (choices : SameShapes gs hs) :
      SameShape (firstOf gs) (firstOf hs)
  | between {g h g' h' g'' h'' : Grammar} (opening : SameShape g h) (of : SameShape g' h')
      (closing : SameShape g'' h'') : SameShape (between g g' g'') (between h h' h'')
  | seqLeft {g h g' h' : Grammar} (first : SameShape g h) (second : SameShape g' h') :
      SameShape (seqLeft g g') (seqLeft h h')
  | seqRight {g h g' h' : Grammar} (first : SameShape g h) (second : SameShape g' h') :
      SameShape (seqRight g g') (seqRight h h')
  | pair {g h g' h' : Grammar} (first : SameShape g h) (second : SameShape g' h') :
      SameShape (pair g g') (pair h h')
  | sequence {gs hs : List Grammar} (members : SameShapes gs hs) :
      SameShape (sequence gs) (sequence hs)
  | sepBy {g h g' h' : Grammar} (of : SameShape g h) (separator : SameShape g' h') :
      SameShape (sepBy g g') (sepBy h h')
  | sepBy1 {g h g' h' : Grammar} (of : SameShape g h) (separator : SameShape g' h') :
      SameShape (sepBy1 g g') (sepBy1 h h')

/-- The same for several grammars. -/
inductive SameShapes : List Grammar → List Grammar → Prop
  | nil : SameShapes [] []
  | cons {g h : Grammar} {gs hs : List Grammar} (head : SameShape g h) (tail : SameShapes gs hs) :
      SameShapes (g :: gs) (h :: hs)

end

mutual

theorem SameShape.symm {g h : Grammar} : SameShape g h → SameShape h g
  | .int64 => .int64
  | .double => .double
  | .number => .number
  | .anyChar => .anyChar
  | .literal t => .literal t
  | .takeWhile p => .takeWhile p
  | .takeUntil d => .takeUntil d
  | .takeThrough d => .takeThrough d
  | .pure v w => .pure w v
  | .fail => .fail
  | .eof => .eof
  | .custom p => .custom p
  | .ref name => .ref name
  | .mapLeft f of => .mapRight f of.symm
  | .mapRight f of => .mapLeft f of.symm
  | .optional of => .optional of.symm
  | .orElse first second => .orElse first.symm second.symm
  | .firstOf choices => .firstOf choices.symm
  | .between opening of closing => .between opening.symm of.symm closing.symm
  | .seqLeft first second => .seqLeft first.symm second.symm
  | .seqRight first second => .seqRight first.symm second.symm
  | .pair first second => .pair first.symm second.symm
  | .sequence members => .sequence members.symm
  | .sepBy of separator => .sepBy of.symm separator.symm
  | .sepBy1 of separator => .sepBy1 of.symm separator.symm

theorem SameShapes.symm {gs hs : List Grammar} : SameShapes gs hs → SameShapes hs gs
  | .nil => .nil
  | .cons head tail => .cons head.symm tail.symm

end

variable {env env' : String → Parser Value} {g h : Grammar}

mutual

/-- Grammars of one shape stop alike where the names do. -/
theorem SameShape.stopsLike (henv : ∀ name, (env name).StopsLike (env' name)) {g h : Grammar} :
    SameShape g h → Parser.StopsLike (g.denote env) (h.denote env')
  | .int64 | .double | .number | .anyChar => .refl _
  | .literal _ | .takeWhile _ | .takeUntil _ | .takeThrough _ => .refl _
  | .fail | .eof | .custom _ => .refl _
  | .pure _ _ => Parser.Refines.pure trivial
  | .ref name => henv name
  | .mapLeft f of => (of.stopsLike henv).map_left f
  | .mapRight f of => (of.stopsLike henv).map_right f
  | .optional of => (of.stopsLike henv).optional.map fun _ _ _ => trivial
  | .orElse first second => (first.stopsLike henv).orElse (second.stopsLike henv)
  | .firstOf choices => Parser.Refines.firstOf (choices.stopLike henv)
  | .between opening of closing =>
    (opening.stopsLike henv).between (of.stopsLike henv) (closing.stopsLike henv)
  | .seqLeft first second => (first.stopsLike henv).seqLeft (second.stopsLike henv)
  | .seqRight first second => (first.stopsLike henv).seqRight (second.stopsLike henv)
  | .pair first second =>
    ((first.stopsLike henv).pair (second.stopsLike henv)).map fun _ _ _ => trivial
  | .sequence members =>
    (Parser.Refines.sequence (members.stopLike henv)).map fun _ _ _ => trivial
  | .sepBy of separator =>
    ((of.stopsLike henv).sepBy Cursor.simulation_eq (separator.stopsLike henv)).map
      fun _ _ _ => trivial
  | .sepBy1 of separator =>
    ((of.stopsLike henv).sepBy1 Cursor.simulation_eq (separator.stopsLike henv)).map
      fun _ _ _ => trivial

theorem SameShapes.stopLike (henv : ∀ name, (env name).StopsLike (env' name))
    {gs hs : List Grammar} :
    SameShapes gs hs → List.Forall₂ Parser.StopsLike (parsers env gs) (parsers env' hs)
  | .nil => .nil
  | .cons head tail => .cons (head.stopsLike henv) (tail.stopLike henv)

end

end Grammar

namespace Definitions
variable {defs defs' : Definitions}

/-- Definitions of the same names, in the same order, by grammars of one shape. -/
def SameShape (defs defs' : Definitions) : Prop :=
  List.Forall₂ (fun a b => a.1 = b.1 ∧ a.2.SameShape b.2) defs defs'

lemma SameShape.symm (h : defs.SameShape defs') : defs'.SameShape defs :=
  h.flip.imp fun _ _ hab => ⟨hab.1.symm, hab.2.symm⟩

lemma SameShape.lookup (h : defs.SameShape defs') (name : String) :
    Option.Rel Grammar.SameShape (defs.lookup name) (defs'.lookup name) := by
  induction h with
  | nil => exact .none
  | @cons a b defs defs' hab _ ih =>
    obtain ⟨hname, hshape⟩ := hab
    rw [List.lookup_cons, List.lookup_cons, hname]
    split
    · exact .some hshape
    · exact ih

lemma SameShape.expand_stopsLike (h : defs.SameShape defs') (depth : Nat) (name : String) :
    Parser.StopsLike (defs.expand depth name) (defs'.expand depth name) := by
  induction depth generalizing name with
  | zero => exact fun _ _ _ => .unfinished _
  | succ depth ih =>
    rintro c _ rfl
    rw [expand, expand]
    have hlookup := h.lookup name
    generalize defs.lookup name = left at hlookup ⊢
    generalize defs'.lookup name = right at hlookup ⊢
    cases hlookup with
    | none => exact .failure
    | some hshape => exact hshape.stopsLike ih c c rfl

end Definitions

namespace Grammar
variable {defs defs' : Definitions} {g h : Grammar}

theorem SameShape.parser_stopsLike (hdefs : defs.SameShape defs') (hshape : SameShape g h) :
    (g.parser defs).StopsLike (h.parser defs') := by
  rintro c _ rfl
  have hdepth : defs.maxDepth c.source = defs'.maxDepth c.source := by
    rw [Definitions.maxDepth, Definitions.maxDepth, List.Forall₂.length_eq hdefs]
  rw [parser, parser, hdepth]
  exact hshape.stopsLike (hdefs.expand_stopsLike _) c c rfl

/-- Grammars of one shape over definitions of one shape fail, have no answer or stop at the same place,
all together, at every place; so runs of them match and leave the same. -/
theorem reading_blind_to_values (hdefs : defs.SameShape defs') (hshape : SameShape g h) :
    (∀ c : Cursor, (g.parser defs c = .failure ∧ h.parser defs' c = .failure) ∨
      (g.parser defs c = .unfinished ∧ h.parser defs' c = .unfinished) ∨
      ∃ v w d, g.parser defs c = .success v d ∧ h.parser defs' c = .success w d) ∧
    ∀ input : Text, ((g.parser defs).run input).map (fun r => (r.value.isSome, r.residue)) =
      ((h.parser defs').run input).map fun r => (r.value.isSome, r.residue) := by
  have hleft := hshape.parser_stopsLike hdefs
  have hright := hshape.symm.parser_stopsLike hdefs.symm
  exact ⟨hleft.cases hright, hleft.run_eq hright⟩

/-- Trees in parentheses, with a constant for a tree that is not written. -/
def trees (leaf : Value) : Definitions :=
  [("tree", orElse (between (literal ['(']) (sepBy (ref "tree") (literal [','])) (literal [')']))
    (pure leaf))]

/-- The same with what is in the parentheses counted. -/
def countedTrees (leaf : Value) : Definitions :=
  [("tree", orElse (between (literal ['(']) (map Value.length (sepBy (ref "tree") (literal [','])))
    (literal [')'])) (pure leaf))]

theorem reading_blind_to_values_trees :
    ∃ v d, (ref "tree").parser (trees .unit) (.ofText ['(', ',', '(', ')', ')', ')']) =
        .success v d ∧ d.rest = [')'] ∧
      ∃ w, (map id (ref "tree")).parser (countedTrees (.int 0))
        (.ofText ['(', ',', '(', ')', ')', ')']) = .success w d := by
  have hdefs : (trees .unit).SameShape (countedTrees (.int 0)) := by
    refine .cons ⟨rfl, .orElse (.between (.literal _) ?_ (.literal _)) (.pure _ _)⟩ .nil
    exact .mapRight _ (.sepBy (.ref _) (.literal _))
  have hshape : SameShape (ref "tree") (map id (ref "tree")) := .mapRight id (.ref "tree")
  obtain ⟨v, d, hs, hd⟩ : ∃ v d, (ref "tree").parser (trees .unit)
      (.ofText ['(', ',', '(', ')', ')', ')']) = .success v d ∧ d.rest = [')'] := ⟨_, _, rfl, rfl⟩
  refine ⟨v, d, hs, hd, ?_⟩
  rcases (reading_blind_to_values hdefs hshape).1 (.ofText ['(', ',', '(', ')', ')', ')']) with
    ⟨hp, -⟩ | ⟨hp, -⟩ | ⟨_, w, _, hp, hq⟩
  · cases hp.symm.trans hs
  · cases hp.symm.trans hs
  · cases hp.symm.trans hs
    exact ⟨w, hq⟩

end Grammar
end TextParsing
