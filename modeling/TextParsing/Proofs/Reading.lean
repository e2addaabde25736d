import Mathlib.Tactic.ByContra
import TextParsing.Parser.Scanner
import TextParsing.Proofs.Boundary

/-! What a parser reads, said of texts only: which text it passes, as which value, and in front of
which rest. The rules of parsers are put together in the way the parsers are. -/
namespace TextParsing

namespace Text
variable {p : Char → Bool} {s t rest word : Text}

/-- The text is empty or begins with a character outside a class. -/
def StartsOutside (p : Char → Bool) (t : Text) : Prop := ∀ ch ∈ t.head?, p ch = false

@[simp] lemma startsOutside_nil : StartsOutside p [] := by simp [StartsOutside]

@[simp] lemma startsOutside_cons {ch : Char} : StartsOutside p (ch :: t) ↔ p ch = false := by
  simp [StartsOutside]

lemma startsOutside_dropWhile (p : Char → Bool) (t : Text) : StartsOutside p (t.dropWhile p) := by
  intro ch h
  have := List.head?_dropWhile_not p t
  rw [Option.mem_def.mp h] at this
  simpa using this

/-- The longest run of a class ends where the class does. -/
lemma takeWhile_append (hs : ∀ ch ∈ s, p ch = true) (hr : rest.StartsOutside p) :
    (s ++ rest).takeWhile p = s := by
  rw [List.takeWhile_append_of_pos hs]
  cases rest with
  | nil => simp
  | cons ch rest => simp [startsOutside_cons.mp hr]

@[simp] lemma isSome_passIf (p : Char → Bool) (u : Unit) (ch : Char) :
    (passIf p u ch).isSome = p ch := by
  cases h : p ch <;> simp [passIf, h]

lemma foldlM_passIf {u v : Unit} : t.foldlM (passIf p) u = some v ↔ ∀ ch ∈ t, p ch = true := by
  induction t generalizing u with
  | nil => simp
  | cons ch t ih =>
    rw [List.foldlM_cons, List.forall_mem_cons, ← ih (u := ())]
    cases h : p ch <;> simp [passIf, h]

/-- There is one first occurrence at most. -/
lemma IsBeforeFirst.unique {s' rest' : Text} (h : IsBeforeFirst word s rest t)
    (k : IsBeforeFirst word s' rest' t) : s = s' ∧ rest = rest' := by
  have hle := h.2.2 s' rest' k.1 k.2.1
  have hge := k.2.2 s rest h.1 h.2.1
  exact List.append_inj (h.1.symm.trans k.1) (by omega)

/-- The search finds the first occurrence wherever there is one. -/
lemma splitFirst?_eq_some_iff :
    splitFirst? word t = some (s, rest) ↔ IsBeforeFirst word s rest t := by
  constructor
  · exact splitFirst?_eq_some
  · intro h
    cases hs : splitFirst? word t with
    | none => exact absurd h.2.1 (not_prefix_of_cutFirst?_eq_none hs h.1)
    | some parts =>
      obtain ⟨rfl, rfl⟩ := h.unique (splitFirst?_eq_some hs)
      rfl

/-- An occurrence is the first one if none begins before it, also of those that end inside it. -/
lemma isBeforeFirst_append_iff (hw : word ≠ []) :
    IsBeforeFirst word s (word ++ rest) (s ++ (word ++ rest)) ↔ ¬ word <:+: s ++ word.dropLast := by
  have hpos := List.length_pos_iff.mpr hw
  constructor
  · rintro ⟨-, -, hfirst⟩ ⟨before, behind, hb⟩
    have hlength := congrArg List.length hb
    simp only [List.length_append, List.length_dropLast] at hlength
    have ht : s ++ (word ++ rest) = before ++ (word ++ (behind ++ word.getLast hw :: rest)) :=
      calc s ++ (word ++ rest)
        _ = s ++ word.dropLast ++ ([word.getLast hw] ++ rest) := by
          rw [← List.append_assoc _ [_], List.append_assoc s, List.dropLast_concat_getLast]
          simp
        _ = _ := by simp [← hb]
    have hle := hfirst before _ ht (List.prefix_append ..)
    omega
  · intro hnone
    refine ⟨rfl, List.prefix_append .., fun s' rest' hs hword => ?_⟩
    by_contra hlt
    obtain ⟨behind, rfl⟩ := hword
    have hprefix : s' ++ word <+: s ++ word.dropLast := by
      have hlong : s ++ word.dropLast <+: s ++ (word ++ rest) :=
        (List.prefix_append_right_inj s).mpr ((List.dropLast_prefix word).trans
          (List.prefix_append ..))
      refine List.prefix_of_prefix_length_le ?_ hlong (by simp; omega)
      rw [hs, ← List.append_assoc]
      exact List.prefix_append ..
    obtain ⟨behind', hb⟩ := hprefix
    exact hnone ⟨s', behind', hb⟩

end Text

namespace Cursor
variable {c d e : Cursor} {s t rest : Text}

lemma Passes.unique (h : c.Passes t d) (k : c.Passes t e) : d = e := by
  obtain ⟨hs, hr, hp⟩ := h
  obtain ⟨hs', hr', hp'⟩ := k
  have := List.append_cancel_left (hr.symm.trans hr')
  cases d
  cases e
  simp_all

lemma passes_nil_iff : c.Passes [] d ↔ d = c := by
  constructor
  · exact fun h => h.unique (.refl c)
  · rintro rfl
    exact .refl d

lemma exists_passes_of_rest_eq (h : c.rest = t ++ rest) : ∃ d, c.Passes t d ∧ d.rest = rest :=
  ⟨⟨c.source, c.position + t.byteLength, rest⟩, ⟨rfl, h, rfl⟩, rfl⟩

/-- Between two texts that are passed lies a place. -/
lemma passes_append_iff : c.Passes (s ++ t) e ↔ ∃ d, c.Passes s d ∧ d.Passes t e := by
  constructor
  · intro h
    have hr := h.2.1
    rw [List.append_assoc] at hr
    obtain ⟨d, hd, hdr⟩ := exists_passes_of_rest_eq hr
    obtain ⟨e', he', her⟩ := exists_passes_of_rest_eq hdr
    obtain rfl := (hd.trans he').unique h
    exact ⟨d, hd, he'⟩
  · intro h
    obtain ⟨d, hd, he⟩ := h
    exact hd.trans he

/-- To advance over the bytes of a text that lies ahead is to pass it. -/
lemma advance?_byteLength_eq_some_iff (h : c.rest = t ++ rest) :
    c.advance? t.byteLength = some d ↔ c.Passes t d := by
  rw [advance?_eq_some_iff]
  constructor
  · intro h
    obtain ⟨u, hu, hn⟩ := h
    obtain ⟨rfl, -⟩ := Text.append_inj_of_byteLength (h.symm.trans hu.2.1) hn
    exact hu
  · exact fun hd => ⟨t, hd, rfl⟩

/-- Over a text that lies ahead a cursor can advance. -/
lemma exists_advance?_of_rest_eq (h : c.rest = t ++ rest) :
    ∃ d, c.advance? t.byteLength = some d ∧ c.Passes t d ∧ d.rest = rest := by
  obtain ⟨d, hd, hr⟩ := exists_passes_of_rest_eq h
  exact ⟨d, (advance?_byteLength_eq_some_iff h).mpr hd, hd, hr⟩

lemma startsWith_iff : c.startsWith t = true ↔ t <+: c.rest :=
  List.isPrefixOf_iff_prefix

end Cursor

namespace Outcome
variable {α β : Type} {v : α} {d : Cursor}

lemma andThen_eq_success_iff {o : Outcome α} {f : α → Cursor → Outcome β} {w : β} :
    o.andThen f = .success w d ↔ ∃ v c, o = .success v c ∧ f v c = .success w d := by
  cases o with
  | success v c =>
    constructor
    · exact fun h => ⟨v, c, rfl, h⟩
    · intro h
      obtain ⟨_, _, h, hf⟩ := h
      cases h
      exact hf
  | failure => simp
  | unfinished => simp

lemma andThen_eq_failure_iff {o : Outcome α} {f : α → Cursor → Outcome β} :
    o.andThen f = .failure ↔ o = .failure ∨ ∃ v d, o = .success v d ∧ f v d = .failure := by
  cases o with
  | success v d =>
    constructor
    · exact fun h => .inr ⟨v, d, rfl, h⟩
    · rintro (h | ⟨_, _, h, hf⟩)
      · cases h
      · cases h
        exact hf
  | failure => simp
  | unfinished => simp

lemma andThen_eq_unfinished_iff {o : Outcome α} {f : α → Cursor → Outcome β} :
    o.andThen f = .unfinished ↔
      o = .unfinished ∨ ∃ v d, o = .success v d ∧ f v d = .unfinished := by
  cases o with
  | success v d =>
    constructor
    · exact fun h => .inr ⟨v, d, rfl, h⟩
    · rintro (h | ⟨_, _, h, hf⟩)
      · cases h
      · cases h
        exact hf
  | failure => simp
  | unfinished => simp

lemma ofCursor?_eq_success_iff {c? : Option Cursor} {w : α} :
    ofCursor? v c? = .success w d ↔ w = v ∧ c? = some d := by
  cases c? with
  | none => simp [ofCursor?]
  | some c => simp [ofCursor?, eq_comm]

lemma ofCursor?_ne_unfinished {c? : Option Cursor} : ofCursor? v c? ≠ .unfinished := by
  cases c? <;> simp [ofCursor?]

end Outcome

/-- Which text is read, as which value, in front of which rest. -/
abbrev Rule (α : Type) := Text → α → Text → Prop

namespace Parser
variable {α β γ : Type} {p : Parser α} {q : Parser β} {L : Rule α} {M : Rule β}

lemma filter_eq_success_iff {condition : α → Bool} {v : α} {c d : Cursor} :
    p.filter condition c = .success v d ↔ p c = .success v d ∧ condition v = true := by
  unfold Parser.filter
  rw [Outcome.andThen_eq_success_iff]
  constructor
  · intro h
    obtain ⟨w, e, hs, hf⟩ := h
    split at hf
    case isTrue hw =>
      cases hf
      exact ⟨hs, hw⟩
    case isFalse => cases hf
  · exact fun h => ⟨v, d, h.1, if_pos h.2⟩

/-- The parser matches where a text lies ahead that the rule reads in front of what follows it, and
fails everywhere else. -/
structure Reads (p : Parser α) (L : Rule α) : Prop where
  success_iff : ∀ c v d, p c = .success v d ↔ ∃ t, c.Passes t d ∧ L t v d.rest
  answers : ∀ c, p c ≠ .unfinished

namespace Reads

lemma congr (hp : p.Reads L) {L' : Rule α} (h : ∀ t v rest, L t v rest ↔ L' t v rest) :
    p.Reads L' := by
  refine ⟨fun c v d => ?_, hp.answers⟩
  simp only [hp.success_iff c v d, h]

/-- What the rule reads in front of a rest is read wherever it lies ahead with that rest. -/
lemma exists_success (hp : p.Reads L) {c : Cursor} {t rest : Text} {v : α} (hr : c.rest = t ++ rest)
    (hL : L t v rest) : ∃ d, p c = .success v d ∧ c.Passes t d ∧ d.rest = rest := by
  obtain ⟨d, hd, rfl⟩ := Cursor.exists_passes_of_rest_eq hr
  exact ⟨d, (hp.success_iff c v d).mpr ⟨t, hd, hL⟩, hd, rfl⟩

/-- The parser fails where no text lies ahead that the rule reads. -/
lemma eq_failure_iff (hp : p.Reads L) {c : Cursor} :
    p c = .failure ↔ ∀ t v rest, c.rest = t ++ rest → ¬ L t v rest := by
  constructor
  · intro hfail t v rest hr hL
    obtain ⟨d, hs, -⟩ := hp.exists_success hr hL
    cases hfail.symm.trans hs
  · intro h
    cases hs : p c with
    | success v d =>
      obtain ⟨t, ht, hL⟩ := (hp.success_iff c v d).mp hs
      exact absurd hL (h t v d.rest ht.2.1)
    | failure => rfl
    | unfinished => exact absurd hs (hp.answers c)

/-- A parser is determined by the rule that it reads by. -/
lemma eq (hp : p.Reads L) {p' : Parser α} (hp' : p'.Reads L) : p = p' := by
  funext c
  cases hs : p c with
  | success v d => exact ((hp'.success_iff c v d).mpr ((hp.success_iff c v d).mp hs)).symm
  | failure => exact (hp'.eq_failure_iff.mpr (hp.eq_failure_iff.mp hs)).symm
  | unfinished => exact absurd hs (hp.answers c)

/-- A whole text is read if the rule reads it in front of nothing. -/
lemma ofText_iff (hp : p.Reads L) {t : Text} {v : α} :
    (∃ stop, p (.ofText t) = .success v stop ∧ stop.rest = []) ↔ L t v [] := by
  constructor
  · intro h
    obtain ⟨stop, hs, hr⟩ := h
    obtain ⟨u, hu, hL⟩ := (hp.success_iff _ _ _).mp hs
    have ht : t = u ++ stop.rest := hu.2.1
    rw [hr] at hL ht
    rwa [ht, List.append_nil]
  · intro hL
    obtain ⟨d, hs, -, hr⟩ := hp.exists_success (c := .ofText t) (List.append_nil t).symm hL
    exact ⟨d, hs, hr⟩

lemma pure (v : α) : (Parser.pure v).Reads fun t w _ => t = [] ∧ w = v := by
  refine ⟨fun c w d => ?_, fun c => by simp [Parser.pure]⟩
  constructor
  · intro h
    cases h
    exact ⟨[], .refl c, rfl, rfl⟩
  · intro h
    obtain ⟨_, hd, rfl, rfl⟩ := h
    rw [Cursor.passes_nil_iff.mp hd]
    rfl

lemma fail : (Parser.fail : Parser α).Reads fun _ _ _ => False :=
  ⟨fun c v d => by simp [Parser.fail], fun c => by simp [Parser.fail]⟩

lemma ofOption (o : Option α) : (Parser.ofOption o).Reads fun t v _ => t = [] ∧ o = some v := by
  cases o with
  | none => exact Reads.fail.congr (by simp)
  | some w => exact (Reads.pure w).congr (by simp [eq_comm])

lemma bind {q : α → Parser β} {M : α → Rule β} (hp : p.Reads L) (hq : ∀ v, (q v).Reads (M v)) :
    (p.bind q).Reads fun t w rest =>
      ∃ s u v, t = s ++ u ∧ L s v (u ++ rest) ∧ M v u w rest := by
  refine ⟨fun c w e => ?_, fun c => ?_⟩
  · simp only [Parser.bind, Outcome.andThen_eq_success_iff, hp.success_iff c,
      (hq _).success_iff _ w e]
    constructor
    · intro h
      obtain ⟨v, d, ⟨s, hs, hL⟩, u, hu, hM⟩ := h
      exact ⟨s ++ u, hs.trans hu, s, u, v, rfl, hu.2.1 ▸ hL, hM⟩
    · intro h
      obtain ⟨_, ht, s, u, v, rfl, hL, hM⟩ := h
      obtain ⟨d, hs, hu⟩ := Cursor.passes_append_iff.mp ht
      exact ⟨v, d, ⟨s, hs, hu.2.1.symm ▸ hL⟩, u, hu, hM⟩
  · unfold Parser.bind
    cases hs : p c with
    | success v d => exact (hq v).answers d
    | failure => simp
    | unfinished => exact absurd hs (hp.answers c)

lemma map (hp : p.Reads L) (f : α → β) :
    (p.map f).Reads fun t w rest => ∃ v, L t v rest ∧ w = f v := by
  refine (hp.bind fun v => Reads.pure (f v)).congr fun t w rest => ?_
  constructor
  · intro h
    obtain ⟨s, _, v, rfl, hL, rfl, rfl⟩ := h
    rw [List.nil_append] at hL
    exact ⟨v, (List.append_nil s).symm ▸ hL, rfl⟩
  · intro h
    obtain ⟨v, hL, rfl⟩ := h
    exact ⟨t, [], v, by simp, hL, rfl, rfl⟩

lemma filter (hp : p.Reads L) (condition : α → Bool) :
    (p.filter condition).Reads fun t v rest => L t v rest ∧ condition v = true := by
  refine ⟨fun c v d => ?_, fun c => ?_⟩
  · rw [filter_eq_success_iff, hp.success_iff]
    simp only [← exists_and_right, and_assoc]
  · unfold Parser.filter
    cases hs : p c with
    | success v d => by_cases hv : condition v = true <;> simp [hv]
    | failure => simp
    | unfinished => exact absurd hs (hp.answers c)

lemma seqRight (hp : p.Reads L) (hq : q.Reads M) :
    (p.seqRight q).Reads fun t w rest =>
      ∃ s u v, t = s ++ u ∧ L s v (u ++ rest) ∧ M u w rest :=
  hp.bind fun _ => hq

lemma seqLeft (hp : p.Reads L) (hq : q.Reads M) :
    (p.seqLeft q).Reads fun t v rest =>
      ∃ s u w, t = s ++ u ∧ L s v (u ++ rest) ∧ M u w rest := by
  refine (hp.bind fun v => hq.map fun _ => v).congr fun t v rest => ?_
  constructor
  · intro h
    obtain ⟨s, u, _, ht, hL, w, hM, rfl⟩ := h
    exact ⟨s, u, w, ht, hL, hM⟩
  · intro h
    obtain ⟨s, u, w, ht, hL, hM⟩ := h
    exact ⟨s, u, v, ht, hL, w, hM, rfl⟩

end Reads

theorem reads_literal (word : Text) : (literal word).Reads fun t _ _ => t = word := by
  refine ⟨fun c _ d => ?_, fun c => ?_⟩
  · unfold literal Cursor.startsWith
    split
    case isTrue h =>
      obtain ⟨rest, hr⟩ := List.isPrefixOf_iff_prefix.mp h
      simp [Outcome.ofCursor?_eq_success_iff, Cursor.advance?_byteLength_eq_some_iff hr.symm]
    case isFalse h =>
      simp only [reduceCtorEq, exists_eq_right, false_iff]
      exact fun hd => h (List.isPrefixOf_iff_prefix.mpr ⟨d.rest, hd.2.1.symm⟩)
  · unfold literal
    split
    · exact Outcome.ofCursor?_ne_unfinished
    · simp

lemma literal_eq_success_iff {word : Text} {v : Unit} {c d : Cursor} :
    literal word c = .success v d ↔ c.Passes word d := by
  rw [(reads_literal word).success_iff, exists_eq_right]

lemma literal_eq_failure_iff {word : Text} {c : Cursor} :
    literal word c = .failure ↔ ¬ word <+: c.rest := by
  rw [(reads_literal word).eq_failure_iff]
  constructor
  · rintro h ⟨rest, hr⟩
    exact h word () rest hr.symm rfl
  · rintro h _ _ rest hr rfl
    exact h ⟨rest, hr.symm⟩

theorem reads_anyChar : anyChar.Reads fun t ch _ => t = [ch] := by
  refine ⟨fun c ch d => ?_, fun c => by unfold anyChar; split <;> simp⟩
  unfold anyChar Cursor.peek?
  cases hr : c.rest with
  | nil =>
    simp only [List.head?_nil, reduceCtorEq, exists_eq_right, false_iff]
    intro hd
    cases hr.symm.trans hd.2.1
  | cons first rest =>
    have hpass := Cursor.passes_next_of_cons hr
    simp only [List.head?_cons, exists_eq_right]
    constructor
    · intro h
      cases h
      exact hpass
    · intro hd
      obtain rfl : first = ch := (List.cons.inj (hr.symm.trans hd.2.1)).1
      rw [hd.unique hpass]

/-- A scan stops in front of a character that no state follows. -/
theorem reads_scan {σ : Type} (next : σ → Char → Option σ) (start : σ) :
    (scan next start).Reads fun t v rest => v = t ∧
      ∃ last, t.foldlM next start = some last ∧
        rest.StartsOutside fun ch => (next last ch).isSome := by
  refine ⟨fun c v d => ?_, fun c => by simp [scan]⟩
  have hsuccess : scan next start c = .success v d ↔ c.scan next start = (v, d) := by
    simp [scan, Prod.ext_iff]
  rw [hsuccess, Cursor.scan_eq_iff]
  simp only [Text.StartsOutside, Option.isSome_eq_false_iff, Option.isNone_iff_eq_none]
  constructor
  · rintro ⟨hpass, hscan⟩
    exact ⟨v, hpass, rfl, hscan⟩
  · rintro ⟨_, hpass, rfl, hscan⟩
    exact ⟨hpass, hscan⟩

theorem reads_takeWhile (isIn : Char → Bool) : (takeWhile isIn).Reads fun t v rest =>
    v = t ∧ (∀ ch ∈ t, isIn ch = true) ∧ rest.StartsOutside isIn := by
  refine Reads.congr (reads_scan (Text.passIf isIn) ()) fun t v rest => and_congr_right fun _ => ?_
  simp only [Text.foldlM_passIf, Text.isSome_passIf, exists_and_left, exists_const]

theorem reads_takeUntil {word : Text} (hw : word ≠ []) : (takeUntil word).Reads fun t v rest =>
    v = t ∧ Text.IsBeforeFirst word t rest (t ++ rest) := by
  have hempty : ¬ word.isEmpty = true := by simpa using hw
  refine ⟨fun c v d => ?_, fun c => ?_⟩
  · unfold takeUntil
    rw [if_neg hempty]
    constructor
    · intro h
      cases hs : Text.splitFirst? word c.rest with
      | none => simp [hs] at h
      | some parts =>
        obtain ⟨t, rest⟩ := parts
        have hfirst := Text.splitFirst?_eq_some hs
        simp only [hs, Outcome.ofCursor?_eq_success_iff,
          Cursor.advance?_byteLength_eq_some_iff hfirst.1] at h
        obtain ⟨rfl, hd⟩ := h
        obtain rfl := List.append_cancel_left (hfirst.1.symm.trans hd.2.1)
        exact ⟨v, hd, rfl, hd.2.1 ▸ hfirst⟩
    · intro h
      obtain ⟨_, hd, rfl, hfirst⟩ := h
      rw [hd.2.1, Text.splitFirst?_eq_some_iff.mpr hfirst]
      exact Outcome.ofCursor?_eq_success_iff.mpr
        ⟨rfl, (Cursor.advance?_byteLength_eq_some_iff hd.2.1).mpr hd⟩
  · unfold takeUntil
    rw [if_neg hempty]
    cases Text.splitFirst? word c.rest with
    | none => simp
    | some parts => exact Outcome.ofCursor?_ne_unfinished

/-- To read through a delimiter is to read up to it, and then the delimiter. -/
lemma takeThrough_eq_bind {word : Text} (hw : word ≠ []) :
    takeThrough word = (takeUntil word).bind fun s => (literal word).map fun _ => s ++ word := by
  have hempty : ¬ word.isEmpty = true := by simpa using hw
  funext c
  rw [takeThrough, if_neg hempty, Parser.bind, takeUntil, if_neg hempty]
  cases hs : Text.splitFirst? word c.rest with
  | none => rfl
  | some parts =>
    obtain ⟨s, rest⟩ := parts
    obtain ⟨hrest, ⟨behind, rfl⟩, -⟩ := Text.splitFirst?_eq_some hs
    obtain ⟨d, huntil, hd, hdrest⟩ := Cursor.exists_advance?_of_rest_eq hrest
    obtain ⟨e, -, he, -⟩ := Cursor.exists_advance?_of_rest_eq hdrest
    have hread : literal word d = .success () e := literal_eq_success_iff.mpr he
    have hthrough : c.advance? (s.byteLength + word.byteLength) = some e := by
      rw [← Text.byteLength_append]
      exact (Cursor.advance?_byteLength_eq_some_iff (hd.trans he).2.1).mpr (hd.trans he)
    simp only [huntil, hthrough, Outcome.ofCursor?, Outcome.andThen_success, Parser.map, hread]

theorem reads_takeThrough {word : Text} (hw : word ≠ []) : (takeThrough word).Reads fun t v rest =>
    v = t ∧ ∃ s, t = s ++ word ∧ Text.IsBeforeFirst word s (word ++ rest) (t ++ rest) := by
  rw [takeThrough_eq_bind hw]
  apply ((reads_takeUntil hw).bind fun s => (reads_literal word).map fun _ => s ++ word).congr
  intro t v rest
  constructor
  · rintro ⟨s, _, _, rfl, ⟨rfl, hfirst⟩, _, rfl, rfl⟩
    exact ⟨rfl, _, rfl, by rwa [List.append_assoc]⟩
  · rintro ⟨rfl, s, rfl, hfirst⟩
    exact ⟨s, word, s, rfl, ⟨rfl, by rwa [← List.append_assoc]⟩, (), rfl, rfl⟩

/-- An empty delimiter is found nowhere. -/
lemma reads_takeUntil_any (word : Text) : (takeUntil word).Reads fun t v rest =>
    word ≠ [] ∧ v = t ∧ Text.IsBeforeFirst word t rest (t ++ rest) := by
  by_cases hw : word = []
  · subst hw
    exact Reads.fail.congr (by simp)
  · exact (reads_takeUntil hw).congr (by simp [hw])

lemma reads_takeThrough_any (word : Text) : (takeThrough word).Reads fun t v rest =>
    word ≠ [] ∧ v = t ∧ ∃ s, t = s ++ word ∧
      Text.IsBeforeFirst word s (word ++ rest) (t ++ rest) := by
  by_cases hw : word = []
  · subst hw
    exact Reads.fail.congr (by simp)
  · exact (reads_takeThrough hw).congr (by simp [hw])

theorem reads_peek : peek.Reads fun t ch rest => t = [] ∧ rest.head? = some ch := by
  refine ⟨fun c ch d => ?_, fun c => by unfold peek; split <;> simp⟩
  unfold peek Cursor.peek?
  constructor
  · intro h
    split at h
    case h_1 hr =>
      cases h
      exact ⟨[], .refl c, rfl, hr⟩
    case h_2 => cases h
  · rintro ⟨_, hd, rfl, hr⟩
    obtain rfl := Cursor.passes_nil_iff.mp hd
    rw [hr]

theorem reads_remainder : remainder.Reads fun t v rest => v = t ∧ rest = [] := by
  refine ⟨fun c v d => ?_, fun c => Outcome.ofCursor?_ne_unfinished⟩
  unfold remainder
  rw [Outcome.ofCursor?_eq_success_iff,
    Cursor.advance?_byteLength_eq_some_iff (List.append_nil c.rest).symm]
  constructor
  · rintro ⟨rfl, hd⟩
    exact ⟨c.rest, hd, rfl, List.self_eq_append_right.mp hd.2.1⟩
  · rintro ⟨_, hd, rfl, hr⟩
    have hv : c.rest = v := by rw [hd.2.1, hr, List.append_nil]
    exact ⟨hv.symm, hv.symm ▸ hd⟩

theorem reads_takeBytes (n : Nat) : (takeBytes n).Reads fun t v _ => v = t ∧ t.byteLength = n := by
  refine ⟨fun c v d => ?_, fun c => ?_⟩
  · unfold takeBytes
    constructor
    · intro h
      split at h
      case h_1 hs =>
        obtain ⟨hr, rfl⟩ := Text.splitBytes?_eq_some_iff.mp hs
        rw [Outcome.ofCursor?_eq_success_iff, Cursor.advance?_byteLength_eq_some_iff hr] at h
        obtain ⟨rfl, hd⟩ := h
        exact ⟨v, hd, rfl, rfl⟩
      case h_2 => cases h
    · rintro ⟨_, hd, rfl, rfl⟩
      rw [Text.splitBytes?_eq_some_iff.mpr ⟨hd.2.1, rfl⟩]
      exact Outcome.ofCursor?_eq_success_iff.mpr
        ⟨rfl, (Cursor.advance?_byteLength_eq_some_iff hd.2.1).mpr hd⟩
  · unfold takeBytes
    split
    · exact Outcome.ofCursor?_ne_unfinished
    · simp

/-- What stands between two literal texts is read in front of the second one. -/
theorem Reads.between_literal (hp : p.Reads L) (opening closing : Text) :
    (between (literal opening) p (literal closing)).Reads fun t v rest =>
      ∃ s, t = opening ++ (s ++ closing) ∧ L s v (closing ++ rest) := by
  rw [between_eq]
  have h := (reads_literal opening).seqRight (hp.seqLeft (reads_literal closing))
  refine h.congr fun t v rest => ?_
  constructor
  · intro h
    obtain ⟨_, _, -, rfl, rfl, s, _, -, rfl, hL, rfl⟩ := h
    exact ⟨s, rfl, hL⟩
  · intro h
    obtain ⟨s, rfl, hL⟩ := h
    exact ⟨_, _, (), rfl, rfl, s, _, (), rfl, hL, rfl⟩

end Parser
end TextParsing
