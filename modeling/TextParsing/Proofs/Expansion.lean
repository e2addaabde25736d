import Mathlib.Data.Finset.Prod
import TextParsing.Proofs.GrammarSimulation
import TextParsing.Proofs.SameRest

/-! The depth of expansions that a parser allows is deep enough. What comes to an end within some
depth does so within that one: each further depth settles another name at another place of the
source, or no depth settles more. -/
namespace TextParsing

/-- A growing family inside a finite set does not grow at one of its first steps. -/
lemma exists_eq_succ_of_subset {α : Type} [DecidableEq α] {U : Finset α} {T : Nat → Finset α}
    (hU : ∀ n, T n ⊆ U) (hT : ∀ n, T n ⊆ T (n + 1)) : ∃ n ≤ U.card, T n = T (n + 1) := by
  by_contra hne
  push Not at hne
  have hgrow : ∀ n ≤ U.card + 1, n ≤ (T n).card := by
    intro n hn
    induction n with
    | zero => exact Nat.zero_le _
    | succ n ih =>
      have hlt := Finset.card_lt_card ((hT n).ssubset_of_ne (hne n (by omega)))
      have := ih (by omega)
      omega
  have := hgrow (U.card + 1) le_rfl
  have := Finset.card_le_card (hU (U.card + 1))
  omega

namespace Cursor

/-- The valid places of a text. -/
def placesIn (s : Text) : List Cursor :=
  (List.range (s.byteLength + 1)).filterMap fun n => (ofText s).advance? n

lemma mem_placesIn_iff {s : Text} {c : Cursor} :
    c ∈ placesIn s ↔ c.Valid ∧ c.source = s := by
  constructor
  · intro h
    obtain ⟨n, -, hn⟩ := List.mem_filterMap.mp h
    obtain ⟨t, ht, -⟩ := advance?_eq_some_iff.mp hn
    exact ⟨ht.valid (valid_ofText s), ht.1⟩
  · intro h
    obtain ⟨h, rfl⟩ := h
    obtain ⟨passed, hs, hp⟩ := id h
    refine List.mem_filterMap.mpr ⟨c.position, ?_, ?_⟩
    · have := h.position_add_byteLength_rest
      exact List.mem_range.mpr (by omega)
    · exact advance?_eq_some_iff.mpr ⟨passed, ⟨rfl, hs, by simpa [ofText] using hp⟩, hp⟩

lemma length_placesIn_le (s : Text) : (placesIn s).length ≤ s.byteLength + 1 := by
  simpa [placesIn] using
    List.length_filterMap_le (fun n => (ofText s).advance? n) (List.range (s.byteLength + 1))

end Cursor

namespace Definitions
variable {defs : Definitions} {s : Text}

/-- The names and places that an expansion can start from. -/
def entries (defs : Definitions) (s : Text) : Finset (String × Cursor) :=
  (defs.map Prod.fst).toFinset ×ˢ (Cursor.placesIn s).toFinset

lemma card_entries_le (defs : Definitions) (s : Text) :
    (entries defs s).card + 1 ≤ defs.maxDepth s := by
  have hnames := List.toFinset_card_le (defs.map Prod.fst)
  rw [List.length_map] at hnames
  have hplaces := (List.toFinset_card_le (Cursor.placesIn s)).trans (Cursor.length_placesIn_le s)
  rw [entries, Finset.card_product, maxDepth]
  exact Nat.succ_le_succ (Nat.mul_le_mul hnames hplaces)

lemma mem_entries_iff {e : String × Cursor} :
    e ∈ entries defs s ↔ (∃ g, defs.lookup e.1 = some g) ∧ e.2.Valid ∧ e.2.source = s := by
  rw [entries, Finset.mem_product, List.mem_toFinset, List.mem_toFinset,
    Cursor.mem_placesIn_iff, ← Option.isSome_iff_exists, List.lookup_isSome_iff]
  simp only [List.mem_map, beq_iff_eq, @eq_comm _ e.1]

lemma staysValid_refines (hdefs : defs.EveryCustom Parser.StaysValid) (s : Text) :
    defs.EveryCustom fun p => p.Refines (· = ·) (Cursor.SameRest s s) p :=
  hdefs.imp fun _ hp => Parser.staysValid_iff_refines.mp hp s

/-- Within one text more depth changes no answer. -/
lemma expand_refines_of_le (hdefs : defs.EveryCustom Parser.StaysValid) {m n : Nat}
    (hmn : m ≤ n) (name : String) :
    Parser.Refines (· = ·) (Cursor.SameRest s s) (defs.expand m name) (defs.expand n name) :=
  expand_refines (Cursor.SameRest.simulation s s) (staysValid_refines hdefs s) hmn name

/-- The entries that have an answer within some depth. -/
def settled (defs : Definitions) (s : Text) (n : Nat) : Finset (String × Cursor) :=
  (entries defs s).filter fun e => (defs.expand n e.1 e.2).isAnswer

lemma settled_subset_succ (hdefs : defs.EveryCustom Parser.StaysValid) (n : Nat) :
    settled defs s n ⊆ settled defs s (n + 1) := by
  intro e he
  obtain ⟨hmem, hans⟩ := Finset.mem_filter.mp he
  obtain ⟨-, hc, rfl⟩ := mem_entries_iff.mp hmem
  have hmono := expand_refines_of_le hdefs (Nat.le_succ n) e.1 e.2 e.2 (.refl hc)
  exact Finset.mem_filter.mpr ⟨hmem, hmono.isAnswer hans⟩

/-- At some depth that a parser allows no further depth settles more. -/
lemma exists_stable (hdefs : defs.EveryCustom Parser.StaysValid) (s : Text) :
    ∃ n ≤ defs.maxDepth s, ∀ name, Parser.Refines (· = ·) (Cursor.SameRest s s)
      (defs.expand (n + 1) name) (defs.expand n name) := by
  obtain ⟨n, hn, hT⟩ := exists_eq_succ_of_subset
    (U := entries defs s) (T := fun n => settled defs s (n + 1))
    (fun _ => Finset.filter_subset _ _) fun n => settled_subset_succ hdefs (n + 1)
  refine ⟨n + 1, by have := card_entries_le defs s; omega, fun name c d h => ?_⟩
  obtain rfl := h.eq
  cases hg : defs.lookup name with
  | none =>
    rw [expand, expand, hg]
    exact .failure
  | some g =>
    have hmono := expand_refines_of_le hdefs (Nat.le_succ (n + 1)) name c c h
    cases ho : (defs.expand (n + 1 + 1) name c).isAnswer with
    | false => exact .of_not_isAnswer ho
    | true =>
      have hmem : (name, c) ∈ settled defs s (n + 1) := by
        rw [show settled defs s (n + 1) = settled defs s (n + 1 + 1) from hT]
        exact Finset.mem_filter.mpr
          ⟨mem_entries_iff.mpr ⟨⟨g, hg⟩, h.left_valid, h.left_source⟩, ho⟩
      exact hmono.symm (Finset.mem_filter.mp hmem).2 (fun _ _ => Eq.symm) fun _ _ => .symm

/-- The depth that a parser allows gives every answer that any depth gives. -/
theorem expand_refines_maxDepth (hdefs : defs.EveryCustom Parser.StaysValid) (s : Text) (m : Nat)
    (name : String) : Parser.Refines (· = ·) (Cursor.SameRest s s) (defs.expand m name)
      (defs.expand (defs.maxDepth s) name) := by
  obtain ⟨n, hn, hstable⟩ := exists_stable hdefs s
  have hfrom : ∀ k name, Parser.Refines (· = ·) (Cursor.SameRest s s)
      (defs.expand (n + k) name) (defs.expand n name) := by
    intro k
    induction k with
    | zero => exact expand_refines_of_le hdefs le_rfl
    | succ k ih =>
      intro name
      exact (expand_succ_refines (Cursor.SameRest.simulation s s)
        (staysValid_refines hdefs s) ih name).trans_sameRest (hstable name)
  exact ((expand_refines_of_le hdefs (Nat.le_add_left m n) name).trans_sameRest
    (hfrom m name)).trans_sameRest (expand_refines_of_le hdefs hn name)

end Definitions

namespace Grammar
variable {defs : Definitions} {g : Grammar}

/-- A grammar whose names are expanded to any depth answers like its parser. -/
theorem denote_refines_maxDepth (hdefs : defs.EveryCustom Parser.StaysValid)
    (hg : g.EveryCustom Parser.StaysValid) (s : Text) (n : Nat) :
    Parser.Refines (· = ·) (Cursor.SameRest s s) (g.denote (defs.expand n)) (g.parser defs) := by
  intro c d h
  rw [parser, h.right_source]
  exact denote_refines (Cursor.SameRest.simulation s s)
    (defs.expand_refines_maxDepth hdefs s n) g
    (hg.imp (fun _ hp => Parser.staysValid_iff_refines.mp hp s) g) c d h

theorem parser_staysValid (hdefs : defs.EveryCustom Parser.StaysValid)
    (hg : g.EveryCustom Parser.StaysValid) : (g.parser defs).StaysValid := by
  refine Parser.staysValid_iff_refines.mpr fun s c d h => ?_
  obtain rfl := h.left_source
  exact denote_refines_maxDepth hdefs hg c.source (defs.maxDepth c.source) c d h

/-- The answers of a parser are those that its grammar gives at some depth of expansions. In
particular it comes to an end wherever any depth does. -/
theorem parser_eq_iff (hdefs : defs.EveryCustom Parser.StaysValid)
    (hg : g.EveryCustom Parser.StaysValid) {c : Cursor} (hc : c.Valid) {o : Outcome Value}
    (ho : o.isAnswer) : g.parser defs c = o ↔ ∃ n, g.denote (defs.expand n) c = o := by
  constructor
  · exact fun h => ⟨_, h⟩
  · intro h
    obtain ⟨n, rfl⟩ := h
    exact (denote_refines_maxDepth hdefs hg c.source n c c (.refl hc)).eq_of_isAnswer ho

end Grammar
end TextParsing
