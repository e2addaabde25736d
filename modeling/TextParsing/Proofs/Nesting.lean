import TextParsing.Proofs.MaximalMunch
import TextParsing.Proofs.TextAhead

/-! A number in parentheses, by a grammar that names itself. It is read where at least as many
parentheses are closed as are opened, from the innermost ones outwards. -/
namespace TextParsing.Grammar
open Decimal
variable {defs : Definitions} {g : Grammar} {k : Nat} {p : Parser Value} {input residue : Text}
  {v : Value}

/-- What a grammar yields at some depth of expansions its parser yields. -/
lemma parser_yields (hdefs : defs.EveryCustom Parser.StaysValid)
    (hg : g.EveryCustom Parser.StaysValid) (hp : ∀ c, g.denote (defs.expand k) c = p c)
    (h : p.Yields input v residue) : (g.parser defs).Yields input v residue := by
  intro c hc hr
  obtain ⟨stop, hs, hstop⟩ := h c hc hr
  exact ⟨stop, (parser_eq_iff hdefs hg hc rfl).mpr ⟨k, (hp c).trans hs⟩, hstop⟩

lemma parser_refuses (hdefs : defs.EveryCustom Parser.StaysValid)
    (hg : g.EveryCustom Parser.StaysValid) (hp : ∀ c, g.denote (defs.expand k) c = p c)
    (h : p.Refuses input) : (g.parser defs).Refuses input :=
  fun c hc hr => (parser_eq_iff hdefs hg hc rfl).mpr ⟨k, (hp c).trans (h c hc hr)⟩

/-- A number in any depth of parentheses. `flat` makes a value of the number, and `deeper` another
one of what stands inside a pair of parentheses. -/
def nested (flat deeper : Value → Value) : Grammar :=
  orElse (map deeper (seqLeft (seqRight (literal ['(']) (ref "nested")) (literal [')'])))
    (map flat int64)

def nestedDefinition (flat deeper : Value → Value) : Definitions :=
  [("nested", nested flat deeper)]

/-- The parser of a literal that is one character. -/
def symbol (ch : Char) : Parser Value := .map (fun _ => Value.unit) (.literal [ch])

/-- What the grammar describes, given the parser of what stands inside the parentheses. -/
def nestedLevel (flat deeper : Value → Value) (inside : Parser Value) : Parser Value :=
  .orElse (.map deeper (.seqLeft (.seqRight (symbol '(') inside) (symbol ')')))
    (.map flat (.map Value.int .int64))

/-- The parser with that many levels inside the outermost one. -/
def nestedWithin (flat deeper : Value → Value) : Nat → Parser Value
  | 0 => nestedLevel flat deeper fun _ => .unfinished
  | k + 1 => nestedLevel flat deeper (nestedWithin flat deeper k)

variable {flat deeper : Value → Value} {pair : Nat → Int64 → Value} {inside : Parser Value}
  {number : Text} {m n : Nat} {i : Int64}

/-- The name inside the grammar stands for the grammar with one expansion less. -/
lemma denote_nested (k : Nat) (c : Cursor) :
    (nested flat deeper).denote ((nestedDefinition flat deeper).expand k) c =
      nestedWithin flat deeper k c := by
  induction k generalizing c with
  | zero => rfl
  | succ k ih =>
    have hinside : (fun c => (nested flat deeper).denote ((nestedDefinition flat deeper).expand k) c)
        = nestedWithin flat deeper k := funext ih
    exact congrArg (fun inside => nestedLevel flat deeper inside c) hinside

lemma staysValid_nested : (nested flat deeper).EveryCustom Parser.StaysValid :=
  ⟨⟨⟨trivial, trivial⟩, trivial⟩, trivial⟩

lemma staysValid_nestedDefinition :
    (nestedDefinition flat deeper).EveryCustom Parser.StaysValid := by
  intro entry hentry
  rw [List.mem_singleton.mp hentry]
  exact staysValid_nested

lemma yields_symbol (ch : Char) (input : Text) : (symbol ch).Yields (ch :: input) .unit input :=
  (Parser.yields_literal [ch] input).map _

lemma refuses_symbol {ch : Char} (h : input.StartsOutside (· == ch)) :
    (symbol ch).Refuses input := by
  refine (Parser.refuses_literal fun hprefix => ?_).map _
  obtain ⟨rest, rfl⟩ := hprefix
  simpa using Text.startsOutside_cons.mp h

/-- A text that begins with a parenthesis is not a number. -/
lemma refuses_flat (input : Text) :
    (Parser.map flat (Parser.int64.map Value.int)).Refuses ('(' :: input) := by
  refine ((Parser.reads_int64.refuses fun t n rest ht hn => ?_).map Value.int).map flat
  obtain ⟨ch, t, rfl, hch⟩ := hn.1.exists_cons
  obtain ⟨rfl, -⟩ := List.cons.inj ht
  simp at hch

/-- Without parentheses a number stands for itself. -/
lemma yields_nestedLevel_flat (hnumber : IsWriting i.toInt number)
    (hresidue : residue.StartsOutside Char.isDigit) :
    (nestedLevel flat deeper inside).Yields (number ++ residue) (flat (.int i)) residue := by
  have hopening : Text.StartsOutside (· == '(') (number ++ residue) := by
    obtain ⟨ch, rest, rfl, hch⟩ := hnumber.isInteger.exists_cons
    refine Text.startsOutside_cons.mpr (beq_false_of_ne ?_)
    rintro rfl
    simp at hch
  have hint := Parser.reads_int64.yields ⟨hnumber.isInteger, hresidue⟩
  exact ((refuses_symbol hopening).seqRight.seqLeft.map deeper).orElse_yields
    ((hint.map Value.int).map flat)

/-- In front of a closing parenthesis a pair is made out of what is inside. -/
lemma yields_nestedLevel_deeper (h : inside.Yields input v (')' :: residue)) :
    (nestedLevel flat deeper inside).Yields ('(' :: input) (deeper v) residue :=
  (((yields_symbol '(' input).seqRight h).seqLeft (yields_symbol ')' residue)).map deeper |>.orElse

/-- Where no closing parenthesis follows, the opening one is not read either. -/
lemma refuses_nestedLevel_of_yields (h : inside.Yields input v residue)
    (hclosing : residue.StartsOutside (· == ')')) :
    (nestedLevel flat deeper inside).Refuses ('(' :: input) :=
  (((yields_symbol '(' input).seqRight h).seqLeft_refuses (refuses_symbol hclosing)).map deeper
    |>.orElse (refuses_flat input)

lemma refuses_nestedLevel_of_refuses (h : inside.Refuses input) :
    (nestedLevel flat deeper inside).Refuses ('(' :: input) :=
  ((yields_symbol '(' input).seqRight_refuses h).seqLeft.map deeper |>.orElse (refuses_flat input)

section
variable (hflat : ∀ i, flat (.int i) = pair 0 i)
  (hdeeper : ∀ depth i, deeper (pair depth i) = pair (depth + 1) i)
  (hnumber : IsWriting i.toInt number) (hdigit : m = 0 → residue.StartsOutside Char.isDigit)
include hflat hdeeper hnumber hdigit

/-- Each opening parenthesis takes one of the closing ones. -/
lemma yields_nestedWithin (h : n ≤ m) :
    (nestedWithin flat deeper n).Yields
      (List.replicate n '(' ++ (number ++ (List.replicate m ')' ++ residue))) (pair n i)
      (List.replicate (m - n) ')' ++ residue) := by
  induction n with
  | zero =>
    have hresidue : Text.StartsOutside Char.isDigit (List.replicate m ')' ++ residue) := by
      cases m with
      | zero => exact hdigit rfl
      | succ m => exact Text.startsOutside_cons.mpr rfl
    rw [← hflat]
    exact yields_nestedLevel_flat hnumber hresidue
  | succ n ih =>
    have hclosing : List.replicate (m - n) ')' ++ residue =
        ')' :: (List.replicate (m - (n + 1)) ')' ++ residue) := by
      rw [show m - n = m - (n + 1) + 1 by omega, List.replicate_succ, List.cons_append]
    have hinside := ih (by omega)
    rw [hclosing] at hinside
    rw [← hdeeper]
    exact yields_nestedLevel_deeper hinside

/-- The innermost pair that is not closed fails, and with it all those around it. -/
lemma refuses_nestedWithin (hclosing : residue.StartsOutside (· == ')')) (h : m < n) :
    (nestedWithin flat deeper n).Refuses
      (List.replicate n '(' ++ (number ++ (List.replicate m ')' ++ residue))) := by
  induction n with
  | zero => cases h
  | succ n ih =>
    -- The level whose parenthesis is not closed reads what is inside; those around it do not.
    rcases Nat.lt_succ_iff_lt_or_eq.mp h with hlt | rfl
    · exact refuses_nestedLevel_of_refuses (ih hlt)
    · have hinside := yields_nestedWithin hflat hdeeper hnumber hdigit (Nat.le_refl m)
      rw [Nat.sub_self, List.replicate_zero, List.nil_append] at hinside
      exact refuses_nestedLevel_of_yields hinside hclosing

/-- Opening parentheses, a number and closing ones are read exactly if at least as many are closed
as are opened. What is read is the number with its depth, and the closing parentheses too many are
left. Otherwise nothing is read. -/
theorem nested_reads_iff_closed (hclosing : residue.StartsOutside (· == ')')) :
    let p := (nested flat deeper).parser (nestedDefinition flat deeper)
    let input := List.replicate n '(' ++ (number ++ (List.replicate m ')' ++ residue))
    (n ≤ m → p.Yields input (pair n i) (List.replicate (m - n) ')' ++ residue) ∧
      ∃ report, p.run input = some report ∧ report.value = some (pair n i) ∧
        report.residue = List.replicate (m - n) ')' ++ residue) ∧
    (m < n → p.Refuses input ∧
      ∃ report, p.run input = some report ∧ report.value = none ∧ report.residue = input) := by
  intro p input
  constructor
  · intro h
    have hyields : p.Yields input (pair n i) (List.replicate (m - n) ')' ++ residue) :=
      parser_yields staysValid_nestedDefinition staysValid_nested (denote_nested n)
        (yields_nestedWithin hflat hdeeper hnumber hdigit h)
    exact ⟨hyields, hyields.exists_run⟩
  · intro h
    have hrefuses : p.Refuses input :=
      parser_refuses staysValid_nestedDefinition staysValid_nested (denote_nested n)
        (refuses_nestedWithin hflat hdeeper hnumber hdigit hclosing h)
    exact ⟨hrefuses, hrefuses.exists_run⟩

end

/-- A number together with its depth. -/
def atDepth (depth : Nat) (i : Int64) : Value := .tuple [.int (Int64.ofNat depth), .int i]

def atNoDepth (v : Value) : Value := .tuple [.int 0, v]

def oneDeeper : Value → Value
  | .tuple [.int depth, v] => .tuple [.int (depth + 1), v]
  | v => v

lemma oneDeeper_atDepth (depth : Nat) (i : Int64) :
    oneDeeper (atDepth depth i) = atDepth (depth + 1) i := by
  rw [atDepth, atDepth, oneDeeper, Int64.ofNat_add]
  rfl

/-- Of three closing parentheses one is left, and one is not enough for two that are opened. -/
theorem nested_reads_iff_closed_twice :
    let p := (nested atNoDepth oneDeeper).parser (nestedDefinition atNoDepth oneDeeper)
    (∃ report, p.run ['(', '(', '-', '7', ')', ')', ')', 'x'] = some report ∧
      report.value = some (.tuple [.int 2, .int (-7)]) ∧ report.residue = [')', 'x']) ∧
    ∃ report, p.run ['(', '(', '-', '7', ')', 'x'] = some report ∧ report.value = none ∧
      report.residue = ['(', '(', '-', '7', ')', 'x'] := by
  intro p
  have hnumber : IsWriting (-7 : Int64).toInt ['-', '7'] := ⟨['-'], 0, .minus, rfl⟩
  have hclosing : Text.StartsOutside (· == ')') ['x'] := Text.startsOutside_cons.mpr rfl
  exact ⟨((nested_reads_iff_closed (m := 3) (n := 2) (fun _ => rfl) oneDeeper_atDepth hnumber
      nofun hclosing).1 (by decide)).2,
    ((nested_reads_iff_closed (m := 1) (n := 2) (fun _ => rfl) oneDeeper_atDepth hnumber
      nofun hclosing).2 (by decide)).2⟩

end TextParsing.Grammar
