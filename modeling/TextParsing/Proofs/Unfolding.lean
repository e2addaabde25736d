import TextParsing.Proofs.Consumption
import TextParsing.Proofs.Expansion
import TextParsing.Proofs.Termination

/-! What is being parsed inside what. A parse that comes to no end within some depth of expansions
has as many names open inside each other, and one more. -/
namespace TextParsing

namespace Parser
open Cursor
variable {α β γ : Type} {p p' : Parser α} {q q' : Parser β} {s : Text} {n : Nat}
  {c d start stop : Cursor}

lemma Completes.staysValid (hp : p.Completes) : p.StaysValid := by
  intro c v d hc hs
  rcases hp hc with hfail | ⟨w, e, hs', he⟩
  · cases hfail.symm.trans hs
  · cases hs'.symm.trans hs
    exact he

lemma unfinished_of_map {f : α → β} (h : p.map f c = .unfinished) : p c = .unfinished := by
  rcases Outcome.andThen_eq_unfinished_iff.mp h with h | ⟨_, _, _, h⟩
  · exact h
  · cases h

lemma unfinished_of_filter {condition : α → Bool} (h : p.filter condition c = .unfinished) :
    p c = .unfinished := by
  rcases Outcome.andThen_eq_unfinished_iff.mp h with h | ⟨_, _, _, h⟩
  · exact h
  · split at h <;> cases h

lemma unfinished_of_optional (h : p.optional c = .unfinished) : p c = .unfinished := by
  unfold Parser.optional at h
  split at h
  case h_1 => cases h
  case h_2 => cases h
  case h_3 hp => exact hp

lemma unfinished_of_orElse {q : Parser α} (h : p.orElse q c = .unfinished) :
    p c = .unfinished ∨ p c = .failure ∧ q c = .unfinished := by
  unfold Parser.orElse at h
  split at h
  case h_1 => cases h
  case h_2 hp => exact .inr ⟨hp, h⟩
  case h_3 hp => exact .inl hp

lemma unfinished_of_bind {f : α → Parser β} (h : p.bind f c = .unfinished) :
    p c = .unfinished ∨ ∃ v d, p c = .success v d ∧ f v d = .unfinished :=
  Outcome.andThen_eq_unfinished_iff.mp h

lemma unfinished_of_seqRight (h : p.seqRight q c = .unfinished) :
    p c = .unfinished ∨ ∃ v d, p c = .success v d ∧ q d = .unfinished := unfinished_of_bind h

/-- The value that the second parser is put into does not matter. -/
lemma unfinished_of_bind_map {f : α → β → γ}
    (h : (p.bind fun v => q.map (f v)) c = .unfinished) :
    p c = .unfinished ∨ ∃ v d, p c = .success v d ∧ q d = .unfinished := by
  rcases unfinished_of_bind h with h | ⟨v, d, hp, h⟩
  · exact .inl h
  · exact .inr ⟨v, d, hp, unfinished_of_map h⟩

lemma unfinished_of_seqLeft (h : p.seqLeft q c = .unfinished) :
    p c = .unfinished ∨ ∃ v d, p c = .success v d ∧ q d = .unfinished :=
  unfinished_of_bind_map (f := fun v _ => v) h

lemma unfinished_of_pair (h : p.pair q c = .unfinished) :
    p c = .unfinished ∨ ∃ v d, p c = .success v d ∧ q d = .unfinished :=
  unfinished_of_bind_map (f := Prod.mk) h

/-- The places at which a repetition that begins at `c` looks for an element. -/
inductive Starts (p : Parser α) (q : Parser β) : Cursor → Cursor → Prop where
  | first {c : Cursor} : Starts p q c c
  | again {c after next d : Cursor} {v : α} {w : β} (element : p c = .success v after)
      (separator : q after = .success w next) (further : c.position < next.position)
      (tail : Starts p q next d) : Starts p q c d

lemma Starts.placeFrom (hp : p.StaysIn (PlaceFrom s n)) (hq : q.StaysIn (PlaceFrom s n))
    (h : Starts p q c d) (hc : PlaceFrom s n c) : PlaceFrom s n d := by
  induction h with
  | first => exact hc
  | again element separator _ _ ih => exact ih (hq (hp hc element) separator)

/-- An element is looked for where a parser with the same matches looks for it. -/
lemma Starts.imp (hp : p.StaysIn (PlaceFrom s n)) (hq : q.StaysIn (PlaceFrom s n))
    (hpp : ∀ c v d, PlaceFrom s n c → p c = .success v d → p' c = .success v d)
    (hqq : ∀ c w d, PlaceFrom s n c → q c = .success w d → q' c = .success w d)
    (h : Starts p q c d) (hc : PlaceFrom s n c) : Starts p' q' c d := by
  induction h with
  | first => exact .first
  | again element separator further _ ih =>
    have hafter := hp hc element
    exact .again (hpp _ _ _ hc element) (hqq _ _ _ hafter separator) further
      (ih (hq hafter separator))

/-- A repetition that comes to no end has met an element or a separator that does not. -/
lemma exists_starts_of_rounds (hp : p.StaysIn (PlaceFrom s n)) (hq : q.StaysIn (PlaceFrom s n))
    {budget : Text} {found : List α} (hstart : PlaceFrom s n start)
    (hbudget : start.rest.length ≤ budget.length)
    (h : p.rounds q budget found stop start = .unfinished) :
    ∃ d, Starts p q start d ∧ (p d = .unfinished ∨
      ∃ v after, p d = .success v after ∧ q after = .unfinished) := by
  induction hk : start.rest.length using Nat.strongRecOn generalizing found stop start with
  | ind k ih =>
    rw [rounds_eq_round hp hq hstart hbudget, round] at h
    cases hps : p start with
    | unfinished => exact ⟨start, .first, .inl hps⟩
    | failure => simp [hps] at h
    | success v after =>
      cases hqs : q after with
      | unfinished => exact ⟨start, .first, .inr ⟨v, after, hps, hqs⟩⟩
      | failure => simp [hps, hqs] at h
      | success w next =>
        by_cases hlt : start.position < next.position
        · have hnext := hq (hp hstart hps) hqs
          have hless := hstart.length_rest_lt hnext hlt
          simp only [hps, hqs, hlt, if_true] at h
          obtain ⟨d, hd, hstuck⟩ := ih _ (hk ▸ hless) hnext (by omega) h rfl
          exact ⟨d, .again hps hqs hlt hd, hstuck⟩
        · simp [hps, hqs, hlt] at h

lemma exists_starts_of_sepBy (hp : p.StaysIn (PlaceFrom s n)) (hq : q.StaysIn (PlaceFrom s n))
    (hc : PlaceFrom s n c) (h : p.sepBy q c = .unfinished) :
    ∃ d, Starts p q c d ∧ (p d = .unfinished ∨
      ∃ v after, p d = .success v after ∧ q after = .unfinished) :=
  exists_starts_of_rounds hp hq hc (Nat.le_refl _) h

end Parser

namespace Grammar
open Cursor

/-- The grammar whose match a grammar changes or makes optional. -/
def inner? : Grammar → Option Grammar
  | map _ of | filter _ of | optional of => some of
  | _ => none

/-- The members of a sequence, in their order. -/
def members : Grammar → List Grammar
  | between opening of closing => [opening, of, closing]
  | seqLeft g h | seqRight g h | pair g h => [g, h]
  | sequence gs => gs
  | _ => []

/-- What is tried one after the other. -/
def choices : Grammar → List Grammar
  | orElse g h => [g, h]
  | firstOf gs => gs
  | _ => []

/-- The element and the separator of a repetition. -/
def repeated? : Grammar → Option (Grammar × Grammar)
  | sepBy of separator | sepBy1 of separator => some (of, separator)
  | _ => none

/-- The grammars match behind each other, from the first place to the second one. -/
inductive MatchInOrder (defs : Definitions) : List Grammar → Cursor → Cursor → Prop where
  | nil {c : Cursor} : MatchInOrder defs [] c c
  | cons {g : Grammar} {gs : List Grammar} {c middle d : Cursor} {v : Value}
      (head : g.parser defs c = .success v middle) (tail : MatchInOrder defs gs middle d) :
      MatchInOrder defs (g :: gs) c d

/-- To parse the first grammar at the first place is, at some moment, to parse the second one, which
is a part of it, at the second place. -/
inductive Calls (defs : Definitions) : Grammar → Cursor → Grammar → Cursor → Prop where
  | inner {g of : Grammar} {c : Cursor} (part : g.inner? = some of) : Calls defs g c of c
  | choice {g of : Grammar} (front : List Grammar) {back : List Grammar} {c : Cursor}
      (part : g.choices = front ++ of :: back)
      (fail : ∀ f ∈ front, f.parser defs c = .failure) : Calls defs g c of c
  | member {g of : Grammar} (front : List Grammar) {back : List Grammar} {c d : Cursor}
      (part : g.members = front ++ of :: back) (before : MatchInOrder defs front c d) :
      Calls defs g c of d
  | first {of : Grammar} {next : Value → Grammar} {c : Cursor} : Calls defs (bind of next) c of c
  | next {of : Grammar} {next : Value → Grammar} {c d : Cursor} {v : Value}
      (before : of.parser defs c = .success v d) : Calls defs (bind of next) c (next v) d
  | element {g of separator : Grammar} {c d : Cursor} (part : g.repeated? = some (of, separator))
      (start : Parser.Starts (of.parser defs) (separator.parser defs) c d) : Calls defs g c of d
  | separator {g of separator : Grammar} {c d after : Cursor} {v : Value}
      (part : g.repeated? = some (of, separator))
      (start : Parser.Starts (of.parser defs) (separator.parser defs) c d)
      (before : of.parser defs d = .success v after) : Calls defs g c separator after

/-- The names that are being expanded at some moment while a grammar is parsed at some place, each
one inside the one before it. -/
inductive OpenNames (defs : Definitions) : Grammar → Cursor → List String → Prop where
  | none {g : Grammar} {c : Cursor} : OpenNames defs g c []
  | part {g h : Grammar} {c d : Cursor} {names : List String} (call : Calls defs g c h d)
      (inside : OpenNames defs h d names) : OpenNames defs g c names
  | name {name : String} {c : Cursor} : OpenNames defs (ref name) c [name]
  | expansion {name : String} {body : Grammar} {c : Cursor} {names : List String}
      (defined : defs.lookup name = some body) (inside : OpenNames defs body c names) :
      OpenNames defs (ref name) c (name :: names)

variable {defs : Definitions} {g h of : Grammar} {gs front back : List Grammar} {c d : Cursor}
  {P : Parser Value → Prop}

lemma EveryCustom.members (hg : g.EveryCustom P) : EveryCustomOf P g.members := by
  cases g <;> simp_all [Grammar.members, EveryCustom, EveryCustomOf]

lemma EveryCustom.choices (hg : g.EveryCustom P) : EveryCustomOf P g.choices := by
  cases g <;> simp_all [Grammar.choices, EveryCustom, EveryCustomOf]

lemma EveryCustom.inner (hg : g.EveryCustom P) (part : g.inner? = some of) : of.EveryCustom P := by
  cases g <;> simp_all [inner?, EveryCustom]

lemma EveryCustom.repeated {separator : Grammar} (hg : g.EveryCustom P)
    (part : g.repeated? = some (of, separator)) : of.EveryCustom P ∧ separator.EveryCustom P := by
  cases g <;> simp_all [repeated?, EveryCustom]

lemma everyCustomOf_append :
    EveryCustomOf P (front ++ gs) ↔ EveryCustomOf P front ∧ EveryCustomOf P gs := by
  induction front with
  | nil => simp [EveryCustomOf]
  | cons f front ih => rw [List.cons_append, EveryCustomOf, EveryCustomOf, ih, and_assoc]

/-- The custom parsers of a part are custom parsers of the whole. -/
lemma Calls.everyCustom (call : Calls defs g c h d) (hg : g.EveryCustom P) : h.EveryCustom P := by
  cases call with
  | inner part => exact hg.inner part
  | choice front part _ =>
    have hparts := hg.choices
    rw [part, everyCustomOf_append] at hparts
    exact hparts.2.1
  | member front part _ =>
    have hparts := hg.members
    rw [part, everyCustomOf_append] at hparts
    exact hparts.2.1
  | first => exact hg.1
  | next _ => exact hg.2 _
  | element part _ => exact (hg.repeated part).1
  | separator part _ _ => exact (hg.repeated part).2

section
variable {s : Text} {n : Nat}

lemma MatchInOrder.placeFrom (hdefs : defs.EveryCustom (Parser.StaysIn (PlaceFrom s n)))
    (hgs : EveryCustomOf (Parser.StaysIn (PlaceFrom s n)) gs) (h : MatchInOrder defs gs c d)
    (hc : PlaceFrom s n c) : PlaceFrom s n d := by
  induction h with
  | nil => exact hc
  | cons head _ ih => exact ih hgs.2 (parser_staysIn hdefs hgs.1 hc head)

/-- The parts are parsed at places that the custom parsers do not lead out of. -/
theorem Calls.placeFrom (hdefs : defs.EveryCustom (Parser.StaysIn (PlaceFrom s n)))
    (hg : g.EveryCustom (Parser.StaysIn (PlaceFrom s n))) (call : Calls defs g c h d)
    (hc : PlaceFrom s n c) : PlaceFrom s n d := by
  cases call with
  | inner _ | choice _ _ _ | first => exact hc
  | member front part before =>
    exact before.placeFrom hdefs (everyCustomOf_append.mp (part ▸ hg.members)).1 hc
  | next before => exact parser_staysIn hdefs hg.1 hc before
  | element part start =>
    obtain ⟨hof, hseparator⟩ := hg.repeated part
    exact start.placeFrom (parser_staysIn hdefs hof) (parser_staysIn hdefs hseparator) hc
  | separator part start before =>
    obtain ⟨hof, hseparator⟩ := hg.repeated part
    exact parser_staysIn hdefs hof
      (start.placeFrom (parser_staysIn hdefs hof) (parser_staysIn hdefs hseparator) hc) before

end

/-- At some moment of the parse one name more than `n` is open. -/
def Exceeds (defs : Definitions) (n : Nat) (g : Grammar) (c : Cursor) : Prop :=
  ∃ names, OpenNames defs g c names ∧ names.length = n + 1

lemma Exceeds.call {n : Nat} (hh : Exceeds defs n h d) (call : Calls defs g c h d) :
    Exceeds defs n g c := by
  obtain ⟨names, hnames, hlength⟩ := hh
  exact ⟨names, .part call hnames, hlength⟩

section
variable {n : Nat}

/-- An answer within some depth of expansions is the answer of the parser. -/
lemma parser_eq_of_denote (hdefs : defs.EveryCustom Parser.Completes)
    (hg : g.EveryCustom Parser.Completes) (hc : c.Valid) {o : Outcome Value} (ho : o.isAnswer)
    (hs : g.denote (defs.expand n) c = o) : g.parser defs c = o := by
  have hdefs := hdefs.imp fun _ hp => hp.staysValid
  have hg := hg.imp (fun _ hp => hp.staysValid) g
  exact (parser_eq_iff hdefs hg hc ho).mpr ⟨n, hs⟩

lemma success_of_denote (hdefs : defs.EveryCustom Parser.Completes)
    (hg : g.EveryCustom Parser.Completes) (hc : c.Valid) {v : Value}
    (hs : g.denote (defs.expand n) c = .success v d) :
    g.parser defs c = .success v d ∧ d.Valid ∧ d.source = c.source := by
  have hp := parser_eq_of_denote hdefs hg hc (o := .success v d) rfl hs
  have hstays := parser_staysValid (hdefs.imp fun _ hp => hp.staysValid)
    (hg.imp (fun _ hp => hp.staysValid) g)
  exact ⟨hp, hstays hc hp⟩

/-- The element and the separator of a repetition are parsed where it comes to no end. -/
lemma Exceeds.of_sepBy {separator : Grammar} (hdefs : defs.EveryCustom Parser.Completes)
    (hof : of.EveryCustom Parser.Completes) (hseparator : separator.EveryCustom Parser.Completes)
    (part : g.repeated? = some (of, separator)) (hc : c.Valid)
    (h : Parser.sepBy (of.denote (defs.expand n)) (separator.denote (defs.expand n)) c =
      .unfinished)
    (ihof : ∀ d, d.Valid → of.denote (defs.expand n) d = .unfinished → Exceeds defs n of d)
    (ihseparator : ∀ d, d.Valid → separator.denote (defs.expand n) d = .unfinished →
      Exceeds defs n separator d) : Exceeds defs n g c := by
  have hstays : ∀ k : Grammar, k.EveryCustom Parser.Completes →
      Parser.StaysIn (PlaceFrom c.source 0) (k.denote (defs.expand n)) := by
    intro k hk a v b ha hs
    obtain ⟨-, hb, hsource⟩ := success_of_denote hdefs hk ha.valid hs
    exact ⟨hb, hsource.trans ha.source_eq, Nat.zero_le _⟩
  obtain ⟨d, hd, hstuck⟩ := Parser.exists_starts_of_sepBy (hstays of hof)
    (hstays separator hseparator) hc.placeFrom_zero h
  have hplace := hd.placeFrom (hstays of hof) (hstays separator hseparator) hc.placeFrom_zero
  have hstart : Parser.Starts (of.parser defs) (separator.parser defs) c d :=
    hd.imp (hstays of hof) (hstays separator hseparator)
      (fun _ _ _ ha hs => (success_of_denote hdefs hof ha.valid hs).1)
      (fun _ _ _ ha hs => (success_of_denote hdefs hseparator ha.valid hs).1) hc.placeFrom_zero
  rcases hstuck with hstuck | ⟨v, after, hs, hstuck⟩
  · exact (ihof d hplace.valid hstuck).call (.element part hstart)
  · obtain ⟨hs, hafter, -⟩ := success_of_denote hdefs hof hplace.valid hs
    exact (ihseparator after hafter hstuck).call (.separator part hstart hs)

/-- A grammar without references comes to an end. -/
lemma denote_ne_unfinished {env : String → Parser Value} (hg : g.EveryCustom Parser.Completes)
    (hfree : g.IsRefFree) (hc : c.Valid) : g.denote env c ≠ .unfinished := by
  have hleads : Parser.Leads (PlaceFrom c.source 0) (PlaceFrom c.source 0) (g.denote env) :=
    denote_leads (P := fun _ => False) (fun _ => False.elim) g
      (hg.imp (fun p hp => Parser.completes_iff_leads.mp hp c.source) g) hfree
  rcases hleads hc.placeFrom_zero with hs | ⟨v, d, hs, -⟩ <;> simp [hs]

/-- Of two members the second one is parsed behind the first one. -/
lemma Exceeds.of_members {f k : Grammar} (hdefs : defs.EveryCustom Parser.Completes)
    (hf : f.EveryCustom Parser.Completes) (part : g.members = [f, k]) (hc : c.Valid)
    (h : f.denote (defs.expand n) c = .unfinished ∨ ∃ v d,
      f.denote (defs.expand n) c = .success v d ∧ k.denote (defs.expand n) d = .unfinished)
    (ihf : f.denote (defs.expand n) c = .unfinished → Exceeds defs n f c)
    (ihk : ∀ d, d.Valid → k.denote (defs.expand n) d = .unfinished → Exceeds defs n k d) :
    Exceeds defs n g c := by
  rcases h with h | ⟨v, d, hs, h⟩
  · exact (ihf h).call (.member [] part .nil)
  · obtain ⟨hs, hd, -⟩ := success_of_denote hdefs hf hc hs
    exact (ihk d hd h).call (.member [f] part (.cons hs .nil))

mutual

/-- Where a grammar comes to no end, a part of it or a name that it is comes to none. -/
theorem exceeds_of_denote (hdefs : defs.EveryCustom Parser.Completes)
    (hnames : ∀ name c, c.Valid → defs.expand n name c = .unfinished →
      Exceeds defs n (ref name) c) :
    ∀ g : Grammar, g.EveryCustom Parser.Completes → ∀ c : Cursor, c.Valid →
      g.denote (defs.expand n) c = .unfinished → Exceeds defs n g c
  | .int64, hg, _, hc, h | .double, hg, _, hc, h | .number, hg, _, hc, h
  | .anyChar, hg, _, hc, h | .literal _, hg, _, hc, h | .takeWhile _, hg, _, hc, h
  | .takeUntil _, hg, _, hc, h | .takeThrough _, hg, _, hc, h | .pure _, hg, _, hc, h
  | .fail, hg, _, hc, h | .eof, hg, _, hc, h | .custom _, hg, _, hc, h =>
    absurd h (denote_ne_unfinished hg trivial hc)
  | .ref name, _, c, hc, h => hnames name c hc h
  | .map _ of, hg, c, hc, h =>
    (exceeds_of_denote hdefs hnames of hg c hc (Parser.unfinished_of_map h)).call (.inner rfl)
  | .filter _ of, hg, c, hc, h =>
    (exceeds_of_denote hdefs hnames of hg c hc (Parser.unfinished_of_filter h)).call (.inner rfl)
  | .optional of, hg, c, hc, h =>
    have h := Parser.unfinished_of_optional (Parser.unfinished_of_map h)
    (exceeds_of_denote hdefs hnames of hg c hc h).call (.inner rfl)
  | .bind of next, hg, c, hc, h => by
    rcases Parser.unfinished_of_bind h with h | ⟨v, d, hs, h⟩
    · exact (exceeds_of_denote hdefs hnames of hg.1 c hc h).call .first
    · obtain ⟨hs, hd, -⟩ := success_of_denote hdefs hg.1 hc hs
      exact (exceeds_of_denote hdefs hnames (next v) (hg.2 v) d hd h).call (.next hs)
  | .orElse first second, hg, c, hc, h => by
    rcases Parser.unfinished_of_orElse h with h | ⟨hs, h⟩
    · exact (exceeds_of_denote hdefs hnames first hg.1 c hc h).call
        (.choice [] rfl (by simp))
    · have hs := parser_eq_of_denote hdefs hg.1 hc (o := .failure) rfl hs
      exact (exceeds_of_denote hdefs hnames second hg.2 c hc h).call
        (.choice [first] rfl (by simpa using hs))
  | .firstOf gs, hg, c, hc, h => by
    obtain ⟨front, of, back, rfl, hfail, hof⟩ := exists_choice_exceeds hdefs hnames gs hg c hc h
    exact hof.call (.choice front rfl hfail)
  | .seqLeft f g, hg, c, hc, h =>
    .of_members hdefs hg.1 rfl hc (Parser.unfinished_of_seqLeft h)
      (exceeds_of_denote hdefs hnames f hg.1 c hc) (exceeds_of_denote hdefs hnames g hg.2)
  | .seqRight f g, hg, c, hc, h =>
    .of_members hdefs hg.1 rfl hc (Parser.unfinished_of_seqRight h)
      (exceeds_of_denote hdefs hnames f hg.1 c hc) (exceeds_of_denote hdefs hnames g hg.2)
  | .pair f g, hg, c, hc, h =>
    .of_members hdefs hg.1 rfl hc (Parser.unfinished_of_pair (Parser.unfinished_of_map h))
      (exceeds_of_denote hdefs hnames f hg.1 c hc) (exceeds_of_denote hdefs hnames g hg.2)
  | .between opening of closing, hg, c, hc, h => by
    have h := (congrFun (Parser.between_eq ..) c).symm.trans h
    rcases Parser.unfinished_of_seqRight h with h | ⟨v, d, hs, h⟩
    · exact (exceeds_of_denote hdefs hnames opening hg.1 c hc h).call
        (.member [] rfl .nil)
    · obtain ⟨hs, hd, -⟩ := success_of_denote hdefs hg.1 hc hs
      rcases Parser.unfinished_of_seqLeft h with h | ⟨w, e, hs', h⟩
      · exact (exceeds_of_denote hdefs hnames of hg.2.1 d hd h).call
          (.member [opening] rfl (.cons hs .nil))
      · obtain ⟨hs', he, -⟩ := success_of_denote hdefs hg.2.1 hd hs'
        exact (exceeds_of_denote hdefs hnames closing hg.2.2 e he h).call
          (.member [opening, of] rfl (.cons hs (.cons hs' .nil)))
  | .sequence gs, hg, c, hc, h => by
    obtain ⟨front, of, back, d, rfl, hbefore, hof⟩ :=
      exists_member_exceeds hdefs hnames gs hg c hc (Parser.unfinished_of_map h)
    exact hof.call (.member front rfl hbefore)
  | .sepBy of separator, hg, c, hc, h =>
    .of_sepBy hdefs hg.1 hg.2 rfl hc (Parser.unfinished_of_map h)
      (exceeds_of_denote hdefs hnames of hg.1) (exceeds_of_denote hdefs hnames separator hg.2)
  | .sepBy1 of separator, hg, c, hc, h =>
    .of_sepBy hdefs hg.1 hg.2 rfl hc (Parser.unfinished_of_filter (Parser.unfinished_of_map h))
      (exceeds_of_denote hdefs hnames of hg.1) (exceeds_of_denote hdefs hnames separator hg.2)

/-- Of choices that come to no end one does, and those in front of it fail. -/
theorem exists_choice_exceeds (hdefs : defs.EveryCustom Parser.Completes)
    (hnames : ∀ name c, c.Valid → defs.expand n name c = .unfinished →
      Exceeds defs n (ref name) c) :
    ∀ gs : List Grammar, EveryCustomOf Parser.Completes gs → ∀ c : Cursor, c.Valid →
      Parser.firstOf (parsers (defs.expand n) gs) c = .unfinished →
      ∃ front of back, gs = front ++ of :: back ∧ (∀ f ∈ front, f.parser defs c = .failure) ∧
        Exceeds defs n of c
  | [], _, _, _, h => by cases h
  | g :: gs, hgs, c, hc, h => by
    have h := (congrFun (Parser.firstOf_cons ..) c).symm.trans h
    rcases Parser.unfinished_of_orElse h with h | ⟨hs, h⟩
    · exact ⟨[], g, gs, rfl, by simp, exceeds_of_denote hdefs hnames g hgs.1 c hc h⟩
    · have hs := parser_eq_of_denote hdefs hgs.1 hc (o := .failure) rfl hs
      obtain ⟨front, of, back, rfl, hfail, hof⟩ :=
        exists_choice_exceeds hdefs hnames gs hgs.2 c hc h
      exact ⟨g :: front, of, back, rfl, List.forall_mem_cons.mpr ⟨hs, hfail⟩, hof⟩

/-- Of members that come to no end one does, behind matches of those in front of it. -/
theorem exists_member_exceeds (hdefs : defs.EveryCustom Parser.Completes)
    (hnames : ∀ name c, c.Valid → defs.expand n name c = .unfinished →
      Exceeds defs n (ref name) c) :
    ∀ gs : List Grammar, EveryCustomOf Parser.Completes gs → ∀ c : Cursor, c.Valid →
      Parser.sequence (parsers (defs.expand n) gs) c = .unfinished →
      ∃ front of back d, gs = front ++ of :: back ∧ MatchInOrder defs front c d ∧
        Exceeds defs n of d
  | [], _, _, _, h => by cases h
  | g :: gs, hgs, c, hc, h => by
    rcases Parser.unfinished_of_bind_map (f := List.cons) h with h | ⟨v, d, hs, h⟩
    · exact ⟨[], g, gs, c, rfl, .nil, exceeds_of_denote hdefs hnames g hgs.1 c hc h⟩
    · obtain ⟨hs, hd, -⟩ := success_of_denote hdefs hgs.1 hc hs
      obtain ⟨front, of, back, e, rfl, hbefore, hof⟩ :=
        exists_member_exceeds hdefs hnames gs hgs.2 d hd h
      exact ⟨g :: front, of, back, e, rfl, .cons hs hbefore, hof⟩

end

end

/-- A name that comes to no end within some depth of expansions has more open at some moment. -/
theorem exceeds_of_expand (hdefs : defs.EveryCustom Parser.Completes) (n : Nat) (name : String)
    (c : Cursor) (hc : c.Valid) (h : defs.expand n name c = .unfinished) :
    Exceeds defs n (ref name) c := by
  induction n generalizing name c with
  | zero => exact ⟨[name], .name, rfl⟩
  | succ n ih =>
    rw [Definitions.expand] at h
    cases hbody : defs.lookup name with
    | none => simp [hbody] at h
    | some body =>
      rw [hbody] at h
      obtain ⟨names, hnames, hlength⟩ :=
        exceeds_of_denote hdefs ih body (hdefs.of_lookup hbody) c hc h
      exact ⟨name :: names, .expansion hbody hnames, by rw [List.length_cons, hlength]⟩

/-- The depth that is reached at some moment, and no more, is what a parse needs. -/
theorem denote_ne_unfinished_of_openNames (hdefs : defs.EveryCustom Parser.Completes)
    (hg : g.EveryCustom Parser.Completes) (hc : c.Valid) {n : Nat}
    (hopen : ∀ names, OpenNames defs g c names → names.length ≤ n) :
    g.denote (defs.expand n) c ≠ .unfinished := by
  intro h
  obtain ⟨names, hnames, hlength⟩ :=
    exceeds_of_denote hdefs (exceeds_of_expand hdefs n) g hg c hc h
  have := hopen names hnames
  omega

end Grammar
end TextParsing
