import TextParsing.Grammar.Denotation
import TextParsing.Proofs.ScannerSimulation

/-! A grammar keeps two runs in step if the custom parsers in it do, and so do the expansions of its
names, the deeper one answering whenever the shallower one does. -/
namespace TextParsing

namespace Grammar

mutual

/-- Every custom parser in a grammar, also in what goes on from a value, has the property `P`. -/
def EveryCustom (P : Parser Value → Prop) : Grammar → Prop
  | int64 | double | number | anyChar => True
  | literal _ | takeWhile _ | takeUntil _ | takeThrough _ => True
  | pure _ | fail | eof | ref _ => True
  | custom p => P p
  | map _ of | filter _ of | optional of => EveryCustom P of
  | bind of next => EveryCustom P of ∧ ∀ v, EveryCustom P (next v)
  | firstOf gs | sequence gs => EveryCustomOf P gs
  | between opening of closing =>
    EveryCustom P opening ∧ EveryCustom P of ∧ EveryCustom P closing
  | orElse g h | seqLeft g h | seqRight g h | pair g h | sepBy g h | sepBy1 g h =>
    EveryCustom P g ∧ EveryCustom P h

/-- The same for several grammars. -/
def EveryCustomOf (P : Parser Value → Prop) : List Grammar → Prop
  | [] => True
  | g :: gs => EveryCustom P g ∧ EveryCustomOf P gs

end

mutual

lemma EveryCustom.imp {P Q : Parser Value → Prop} (hPQ : ∀ p, P p → Q p) :
    ∀ g : Grammar, g.EveryCustom P → g.EveryCustom Q
  | int64, _ | double, _ | number, _ | anyChar, _ => trivial
  | literal _, _ | takeWhile _, _ | takeUntil _, _ | takeThrough _, _ => trivial
  | pure _, _ | fail, _ | eof, _ | ref _, _ => trivial
  | custom p, h => hPQ p h
  | map _ of, h | filter _ of, h | optional of, h => EveryCustom.imp hPQ of h
  | bind of next, h =>
    ⟨EveryCustom.imp hPQ of h.1, fun v => EveryCustom.imp hPQ (next v) (h.2 v)⟩
  | firstOf gs, h | sequence gs, h => EveryCustomOf.imp hPQ gs h
  | between opening of closing, h =>
    ⟨EveryCustom.imp hPQ opening h.1, EveryCustom.imp hPQ of h.2.1,
      EveryCustom.imp hPQ closing h.2.2⟩
  | orElse g k, h | seqLeft g k, h | seqRight g k, h | pair g k, h | sepBy g k, h
  | sepBy1 g k, h => ⟨EveryCustom.imp hPQ g h.1, EveryCustom.imp hPQ k h.2⟩

lemma EveryCustomOf.imp {P Q : Parser Value → Prop} (hPQ : ∀ p, P p → Q p) :
    ∀ gs : List Grammar, EveryCustomOf P gs → EveryCustomOf Q gs
  | [], _ => trivial
  | g :: gs, h => ⟨EveryCustom.imp hPQ g h.1, EveryCustomOf.imp hPQ gs h.2⟩

end

end Grammar

/-- Every custom parser in a list of definitions has the property `P`. -/
def Definitions.EveryCustom (P : Parser Value → Prop) (defs : Definitions) : Prop :=
  ∀ entry ∈ defs, entry.2.EveryCustom P

lemma Definitions.EveryCustom.imp {P Q : Parser Value → Prop} (hPQ : ∀ p, P p → Q p)
    {defs : Definitions} (h : defs.EveryCustom P) : defs.EveryCustom Q :=
  fun entry hentry => Grammar.EveryCustom.imp hPQ entry.2 (h entry hentry)

lemma Definitions.EveryCustom.of_lookup {P : Parser Value → Prop} {defs : Definitions}
    (h : defs.EveryCustom P) {name : String} {g : Grammar} (hg : defs.lookup name = some g) :
    g.EveryCustom P := by
  obtain ⟨front, back, rfl, -⟩ := List.lookup_eq_some_iff.mp hg
  exact h (name, g) (by simp)

namespace Grammar
variable {R : Cursor → Cursor → Prop} {env env' : String → Parser Value}

mutual

/-- Names in step give grammars in step. -/
theorem denote_refines (hR : Cursor.Simulation R)
    (henv : ∀ name, (env name).Refines (· = ·) R (env' name)) :
    ∀ g : Grammar, g.EveryCustom (fun p => p.Refines (· = ·) R p) →
      Parser.Refines (· = ·) R (g.denote env) (g.denote env')
  | .int64, _ => (Parser.reads_int64.map Value.int).refines hR
  | .double, _ => (Parser.reads_double.map Value.double).refines hR
  | .number, _ => (Parser.Refines.number hR).map fun _ _ h => congrArg Value.number h
  | .anyChar, _ => (Parser.reads_anyChar.map Value.char).refines hR
  | .literal t, _ => ((Parser.reads_literal t).map fun _ => Value.unit).refines hR
  | .takeWhile p, _ => ((Parser.reads_takeWhile p).map Value.str).refines hR
  | .takeUntil d, _ => ((Parser.reads_takeUntil_any d).map Value.str).refines hR
  | .takeThrough d, _ => ((Parser.reads_takeThrough_any d).map Value.str).refines hR
  | .pure _, _ => Parser.Refines.pure rfl
  | .fail, _ => Parser.Refines.fail
  | .eof, _ => (Parser.Refines.eof hR).map fun _ _ _ => rfl
  | .custom _, h => h
  | .map f of, h => (denote_refines hR henv of h).map fun _ _ hv => congrArg f hv
  | .filter condition of, h =>
    (denote_refines hR henv of h).filter fun _ _ hv => congrArg condition hv
  | .bind of next, h =>
    (denote_refines hR henv of h.1).bind fun v _ hv =>
      hv ▸ denote_refines hR henv (next v) (h.2 v)
  | .optional of, h =>
    (denote_refines hR henv of h).optional.map fun _ _ hv => by
      cases hv with
      | none => rfl
      | some hv => exact congrArg Value.some hv
  | .orElse g k, h => (denote_refines hR henv g h.1).orElse (denote_refines hR henv k h.2)
  | .firstOf gs, h => Parser.Refines.firstOf (parsers_refines hR henv gs h)
  | .between opening of closing, h =>
    (denote_refines hR henv opening h.1).between (denote_refines hR henv of h.2.1)
      (denote_refines hR henv closing h.2.2)
  | .seqLeft g k, h => (denote_refines hR henv g h.1).seqLeft (denote_refines hR henv k h.2)
  | .seqRight g k, h => (denote_refines hR henv g h.1).seqRight (denote_refines hR henv k h.2)
  | .pair g k, h =>
    ((denote_refines hR henv g h.1).pair (denote_refines hR henv k h.2)).map
      fun _ _ hv => by rw [hv.1, hv.2]
  | .sequence gs, h =>
    (Parser.Refines.sequence (parsers_refines hR henv gs h)).map fun _ _ hv => by
      rw [List.forall₂_eq_eq_eq] at hv
      rw [hv]
  | .sepBy g k, h =>
    ((denote_refines hR henv g h.1).sepBy hR (denote_refines hR henv k h.2)).map fun _ _ hv => by
      rw [List.forall₂_eq_eq_eq] at hv
      rw [hv]
  | .sepBy1 g k, h =>
    ((denote_refines hR henv g h.1).sepBy1 hR (denote_refines hR henv k h.2)).map fun _ _ hv => by
      rw [List.forall₂_eq_eq_eq] at hv
      rw [hv]
  | .ref name, _ => henv name

theorem parsers_refines (hR : Cursor.Simulation R)
    (henv : ∀ name, (env name).Refines (· = ·) R (env' name)) :
    ∀ gs : List Grammar, EveryCustomOf (fun p => p.Refines (· = ·) R p) gs →
      List.Forall₂ (Parser.Refines (· = ·) R) (parsers env gs) (parsers env' gs)
  | [], _ => .nil
  | g :: gs, h => .cons (denote_refines hR henv g h.1) (parsers_refines hR henv gs h.2)

end

end Grammar

namespace Definitions
variable {R : Cursor → Cursor → Prop} {defs : Definitions}

lemma expand_succ_refines (hR : Cursor.Simulation R)
    (hdefs : defs.EveryCustom fun p => p.Refines (· = ·) R p) {m n : Nat}
    (h : ∀ name, Parser.Refines (· = ·) R (defs.expand m name) (defs.expand n name))
    (name : String) :
    Parser.Refines (· = ·) R (defs.expand (m + 1) name) (defs.expand (n + 1) name) := by
  intro c d hr
  rw [expand, expand]
  cases hg : defs.lookup name with
  | none => exact .failure
  | some g => exact Grammar.denote_refines hR h g (hdefs.of_lookup hg) c d hr

/-- Expansions in step stay in step, and more depth changes no answer. -/
theorem expand_refines (hR : Cursor.Simulation R)
    (hdefs : defs.EveryCustom fun p => p.Refines (· = ·) R p) {m n : Nat} (hmn : m ≤ n)
    (name : String) : Parser.Refines (· = ·) R (defs.expand m name) (defs.expand n name) := by
  induction m generalizing n name with
  | zero => exact fun _ _ _ => .unfinished _
  | succ m ih =>
    obtain ⟨n, rfl⟩ : ∃ k, n = k + 1 := ⟨n - 1, by omega⟩
    exact expand_succ_refines hR hdefs (ih (by omega)) name

end Definitions
end TextParsing
