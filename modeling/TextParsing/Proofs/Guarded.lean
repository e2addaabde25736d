import TextParsing.Proofs.Unfolding

/-! Guarded recursion comes to an end. Where every reference in a definition stands behind something
that must be read, each expansion inside another one begins further on, and there are no more of
them than there are places left. -/
namespace TextParsing

namespace Cursor
variable {s : Text} {n : Nat} {c : Cursor}

lemma PlaceFrom.here (h : PlaceFrom s n c) : PlaceFrom s c.position c :=
  ⟨h.valid, h.source_eq, Nat.le_refl _⟩

lemma PlaceFrom.zero (h : PlaceFrom s n c) : PlaceFrom s 0 c :=
  ⟨h.valid, h.source_eq, Nat.zero_le _⟩

lemma PlaceFrom.position_le (h : PlaceFrom s n c) : c.position ≤ s.byteLength := by
  have := h.valid.position_add_byteLength_rest
  rw [h.source_eq] at this
  omega

end Cursor

namespace Grammar

mutual

/-- Every reference stands to the right of a member that must consume, in a sequence around it. -/
def Guarded : Grammar → Prop
  | int64 | double | number | anyChar => True
  | literal _ | takeWhile _ | takeUntil _ | takeThrough _ => True
  | pure _ | fail | eof | custom _ => True
  | ref _ => False
  | map _ of | filter _ of | optional of => Guarded of
  | bind of next => Guarded of ∧ (MustConsume of ∨ ∀ v, Guarded (next v))
  | firstOf gs => AllGuarded gs
  | sequence gs => GuardedInOrder gs
  | between opening of closing =>
    Guarded opening ∧ (MustConsume opening ∨ Guarded of ∧ (MustConsume of ∨ Guarded closing))
  | seqLeft g h | seqRight g h | pair g h => Guarded g ∧ (MustConsume g ∨ Guarded h)
  | orElse g h | sepBy g h | sepBy1 g h => Guarded g ∧ Guarded h

def AllGuarded : List Grammar → Prop
  | [] => True
  | g :: gs => Guarded g ∧ AllGuarded gs

/-- Behind a member that must consume any reference is guarded. -/
def GuardedInOrder : List Grammar → Prop
  | [] => True
  | g :: gs => Guarded g ∧ (MustConsume g ∨ GuardedInOrder gs)

end

end Grammar

/-- Definitions in which every reference is guarded. -/
def Definitions.Guarded (defs : Definitions) : Prop := ∀ entry ∈ defs, entry.2.Guarded

lemma Definitions.Guarded.of_lookup {defs : Definitions} (h : defs.Guarded) {name : String}
    {g : Grammar} (hg : defs.lookup name = some g) : g.Guarded := by
  obtain ⟨front, back, rfl, -⟩ := List.lookup_eq_some_iff.mp hg
  exact h (name, g) (by simp)

/-- Names move forwards, to whatever depth they are expanded. -/
lemma Definitions.expand_movesForward {defs : Definitions}
    (hdefs : defs.EveryCustom Parser.MovesForward) (depth : Nat) (name : String) :
    Parser.MovesForward (defs.expand depth name) := by
  induction depth generalizing name with
  | zero =>
    intro c v d _ hs
    cases hs
  | succ depth ih =>
    intro c v d hc hs
    rw [expand] at hs
    cases hbody : defs.lookup name with
    | none => simp [hbody] at hs
    | some body =>
      rw [hbody] at hs
      exact Grammar.denote_movesBy_zero ih body (hdefs.of_lookup hbody) hc hs

namespace Grammar
open Cursor
variable {defs : Definitions} {g h of : Grammar} {gs front back : List Grammar} {c d : Cursor}

lemma Guarded.inner (hg : g.Guarded) (part : g.inner? = some of) : of.Guarded := by
  cases g <;> simp_all [inner?, Guarded]

lemma Guarded.choices (hg : g.Guarded) : AllGuarded g.choices := by
  cases g <;> simp_all [Grammar.choices, Guarded, AllGuarded]

lemma Guarded.members (hg : g.Guarded) : GuardedInOrder g.members := by
  cases g <;> simp_all [Grammar.members, Guarded, GuardedInOrder]

lemma Guarded.repeated {separator : Grammar} (hg : g.Guarded)
    (part : g.repeated? = some (of, separator)) : of.Guarded ∧ separator.Guarded := by
  cases g <;> simp_all [repeated?, Guarded]

lemma AllGuarded.of_append (h : AllGuarded (front ++ of :: back)) : of.Guarded := by
  induction front with
  | nil => exact h.1
  | cons f front ih => exact ih h.2

lemma GuardedInOrder.of_append (h : GuardedInOrder (front ++ of :: back)) :
    SomeConsumes front ∨ of.Guarded := by
  induction front with
  | nil => exact .inr h.1
  | cons f front ih =>
    rcases h.2 with hf | hfront
    · exact .inl (.inl hf)
    · rcases ih hfront with hfront | hof
      · exact .inl (.inr hfront)
      · exact .inr hof

/-- What must consume leads further on. -/
lemma MustConsume.position_lt (hg : g.MustConsume) (hdefs : defs.EveryCustom Parser.MovesForward)
    (hcustom : g.EveryCustom Parser.MovesForward) (hc : c.Valid) {v : Value}
    (hs : g.parser defs c = .success v d) : c.position < d.position :=
  (denote_movesBy_one (defs.expand_movesForward hdefs _) g hcustom hg hc hs).2.2

lemma MatchInOrder.placeFrom_position (hdefs : defs.EveryCustom Parser.MovesForward)
    (hgs : EveryCustomOf Parser.MovesForward gs) (h : MatchInOrder defs gs c d) (hc : c.Valid) :
    PlaceFrom c.source c.position d := by
  have hstays : ∀ p : Parser Value, p.MovesForward →
      p.StaysIn (PlaceFrom c.source c.position) :=
    fun p hp => Parser.movesForward_iff_staysIn.mp hp _ _
  exact h.placeFrom (hdefs.imp hstays) (EveryCustomOf.imp hstays gs hgs) hc.placeFrom

/-- So does a match of members of which one must consume. -/
lemma SomeConsumes.position_lt (hgs : SomeConsumes gs)
    (hdefs : defs.EveryCustom Parser.MovesForward) (hcustom : EveryCustomOf Parser.MovesForward gs)
    (h : MatchInOrder defs gs c d) (hc : c.Valid) : c.position < d.position := by
  induction h with
  | nil => cases hgs
  | @cons g gs c middle d v head tail ih =>
    obtain ⟨hmiddle, -, hle⟩ := parser_movesForward hdefs hcustom.1 hc head
    have hd := (tail.placeFrom_position hdefs hcustom.2 hmiddle).le_position
    rcases hgs with hg | hgs
    · have := hg.position_lt hdefs hcustom.1 hc head
      omega
    · have := ih hgs hcustom.2 hmiddle
      omega

/-- A part of a guarded grammar is guarded, or it is parsed further on. -/
theorem Calls.guarded_or_position_lt (hdefs : defs.EveryCustom Parser.MovesForward)
    (hcustom : g.EveryCustom Parser.MovesForward) (call : Calls defs g c h d) (hg : g.Guarded)
    (hc : c.Valid) : h.Guarded ∨ c.position < d.position := by
  cases call with
  | inner part => exact .inl (hg.inner part)
  | choice front part _ =>
    have hparts := hg.choices
    rw [part] at hparts
    exact .inl hparts.of_append
  | member front part before =>
    have hparts := hg.members
    have hmembers := hcustom.members
    rw [part] at hparts hmembers
    rcases hparts.of_append with hfront | hof
    · exact .inr (hfront.position_lt hdefs (everyCustomOf_append.mp hmembers).1 before hc)
    · exact .inl hof
  | first => exact .inl hg.1
  | next before =>
    rcases hg.2 with hof | hnext
    · exact .inr (hof.position_lt hdefs hcustom.1 hc before)
    · exact .inl (hnext _)
  | element part _ => exact .inl (hg.repeated part).1
  | separator part _ _ => exact .inl (hg.repeated part).2

variable {names : List String} {s : Text}

/-- Of names that are open inside each other each one begins further on than the one before it. The
first one begins among the places that the grammar does not lead out of, and behind the place of the
grammar if that is guarded. -/
theorem OpenNames.length_le (hdefs : defs.EveryCustom Parser.MovesForward)
    (hguarded : defs.Guarded) (hnames : OpenNames defs g c names) :
    (∀ n, g.EveryCustom (Parser.StaysIn (PlaceFrom s n)) → PlaceFrom s n c →
      names.length + n ≤ s.byteLength + 1) ∧
    (g.Guarded → g.EveryCustom Parser.MovesForward → PlaceFrom s 0 c →
      names.length + c.position ≤ s.byteLength) := by
  have hstays : ∀ n (p : Parser Value), p.MovesForward → p.StaysIn (PlaceFrom s n) :=
    fun n p hp => Parser.movesForward_iff_staysIn.mp hp s n
  induction hnames with
  | none =>
    refine ⟨fun n _ hc => ?_, fun _ _ hc => ?_⟩
    · have := hc.le_position.trans hc.position_le
      rw [List.length_nil]
      omega
    · have := hc.position_le
      rw [List.length_nil]
      omega
  | @part g h c d names call inside ih =>
    refine ⟨fun n hg hc => ?_, fun hg hcustom hc => ?_⟩
    · exact ih.1 n (call.everyCustom hg) (call.placeFrom (hdefs.imp (hstays n)) hg hc)
    · have hh := call.everyCustom hcustom
      have hd := call.placeFrom (hdefs.imp (hstays _)) (hcustom.imp (hstays _) g) hc.here
      have hle := hd.le_position
      rcases call.guarded_or_position_lt hdefs hcustom hg hc.valid with hguard | hlt
      · have := ih.2 hguard hh hd.zero
        omega
      · have := ih.1 d.position (hh.imp (hstays _) h) hd.here
        omega
  | name =>
    refine ⟨fun n _ hc => ?_, fun hg => hg.elim⟩
    have := hc.le_position.trans hc.position_le
    rw [List.length_singleton]
    omega
  | expansion defined inside ih =>
    refine ⟨fun n _ hc => ?_, fun hg => hg.elim⟩
    have hle := hc.le_position
    have := ih.2 (hguarded.of_lookup defined) (hdefs.of_lookup defined) hc.zero
    rw [List.length_cons]
    omega

/-- A grammar that does not lead out of the places from some byte on opens at most one name more
than there are bytes behind that one. -/
lemma OpenNames.length_add_le (hdefs : defs.EveryCustom Parser.MovesForward)
    (hguarded : defs.Guarded) {n : Nat} (hg : g.EveryCustom (Parser.StaysIn (PlaceFrom s n)))
    (hc : PlaceFrom s n c) (hnames : OpenNames defs g c names) :
    names.length + n ≤ s.byteLength + 1 :=
  (hnames.length_le hdefs hguarded).1 n hg hc

lemma EveryCustom.staysIn_zero (hg : g.EveryCustom Parser.Completes) (s : Text) :
    g.EveryCustom (Parser.StaysIn (PlaceFrom s 0)) :=
  hg.imp (fun _ hp => (Parser.completes_iff_leads.mp hp s).staysIn) g

/-- Over guarded definitions every grammar comes to an end, since the names that are open at any
moment need no more depth than there are bytes. -/
theorem parser_completes_of_guarded
    (hdefs : defs.EveryCustom fun p => p.Completes ∧ p.MovesForward) (hguarded : defs.Guarded)
    (hg : g.EveryCustom Parser.Completes) : (g.parser defs).Completes := by
  have hcompletes := hdefs.imp fun _ hp => hp.1
  have hforward := hdefs.imp fun _ hp => hp.2
  intro c hc
  have hends : g.denote (defs.expand (c.source.byteLength + 1)) c ≠ .unfinished :=
    denote_ne_unfinished_of_openNames hcompletes hg hc fun names hnames =>
      hnames.length_add_le hforward hguarded (hg.staysIn_zero c.source) hc.placeFrom_zero
  cases hs : g.denote (defs.expand (c.source.byteLength + 1)) c with
  | unfinished => exact absurd hs hends
  | failure => exact .inl (parser_eq_of_denote hcompletes hg hc (o := .failure) rfl hs)
  | success v d =>
    obtain ⟨hp, hd⟩ := success_of_denote hcompletes hg hc hs
    exact .inr ⟨v, d, hp, hd⟩

/-- Where definitions do not set the position and every reference in them is guarded, every grammar
comes to an end at every place of every text, and at most one more name than there are bytes left is
open at any moment. If the grammar itself goes back, these are the bytes of the whole text. -/
theorem guarded_recursion_ends
    (hdefs : defs.EveryCustom fun p => p.Completes ∧ p.MovesForward) (hguarded : defs.Guarded) :
    (∀ g : Grammar, g.EveryCustom Parser.Completes → (g.parser defs).Completes ∧
      ∀ input names, OpenNames defs g (.ofText input) names →
        names.length ≤ input.byteLength + 1) ∧
    ∀ g : Grammar, g.EveryCustom (fun p => p.Completes ∧ p.MovesForward) → ∀ c : Cursor, c.Valid →
      ∀ names, OpenNames defs g c names → names.length ≤ c.rest.byteLength + 1 := by
  have hforward := hdefs.imp fun _ hp => hp.2
  refine ⟨fun g hg => ⟨parser_completes_of_guarded hdefs hguarded hg, fun input names hnames => ?_⟩,
    fun g hg c hc names hnames => ?_⟩
  · exact hnames.length_add_le hforward hguarded (hg.staysIn_zero input)
      (valid_ofText input).placeFrom_zero
  · have hstays : g.EveryCustom (Parser.StaysIn (PlaceFrom c.source c.position)) :=
      hg.imp (fun _ hp => Parser.movesForward_iff_staysIn.mp hp.2 _ _) g
    have := hnames.length_add_le hforward hguarded hstays hc.placeFrom
    have := hc.position_add_byteLength_rest
    omega

lemma completes_nestedBytes :
    nestedBytes.EveryCustom fun p => p.Completes ∧ p.MovesForward := by
  intro entry hentry
  rw [List.mem_singleton.mp hentry]
  refine ⟨⟨trivial, trivial, trivial⟩, trivial, fun v => ?_⟩
  unfold takeBytesOf
  split
  case h_1 n =>
    split
    · exact ⟨completes_closures n.toInt.toNat (takeBytes _) (by simp),
        movesForward_closures n.toInt.toNat (takeBytes _) (by simp)⟩
    · trivial
  case h_2 => trivial

/-- An opening parenthesis leads from one name to the same one inside it. -/
lemma OpenNames.parenthesis {names : List String}
    (hs : (literal ['(']).parser nestedBytes c = .success .unit d)
    (hnames : OpenNames nestedBytes (ref "nested") d names) :
    OpenNames nestedBytes (ref "nested") c ("nested" :: names) := by
  have hbody : OpenNames nestedBytes (orElse (between (literal ['(']) (ref "nested")
      (literal [')'])) (bind int64 takeBytesOf)) c names :=
    .part (.choice [] rfl (by simp)) (.part (.member [literal ['(']] rfl (.cons hs .nil)) hnames)
  exact .expansion rfl hbody

/-- Every parenthesis opens a name, and so does the end of the text behind the last one. -/
theorem guarded_recursion_ends_unclosed :
    nestedBytes.Guarded ∧ ((ref "nested").parser nestedBytes).Completes ∧
      OpenNames nestedBytes (ref "nested") (.ofText ['(', '(']) ["nested", "nested", "nested"] ∧
      ∀ names, OpenNames nestedBytes (ref "nested") (.ofText ['(', '(']) names →
        names.length ≤ 3 := by
  have hguarded : nestedBytes.Guarded := by
    intro entry hentry
    rw [List.mem_singleton.mp hentry]
    exact ⟨⟨trivial, .inl (by simp [MustConsume])⟩, trivial, .inl trivial⟩
  have h := guarded_recursion_ends completes_nestedBytes hguarded
  refine ⟨hguarded, (h.1 (ref "nested") trivial).1, ?_, fun names hnames => ?_⟩
  · exact .parenthesis (d := (Cursor.ofText ['(', '(']).next) rfl
      (.parenthesis (d := (Cursor.ofText ['(', '(']).next.next) rfl .name)
  · exact h.2 (ref "nested") trivial _ (valid_ofText _) names hnames

end Grammar
end TextParsing
