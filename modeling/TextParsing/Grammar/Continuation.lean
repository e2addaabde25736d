import TextParsing.Grammar.Basic

/-! Grammars that depend on a value read before. -/
namespace TextParsing.Grammar

/-- The same text once more. -/
def literalOf (v : Value) : Grammar :=
  match v.text? with
  | some t => literal t
  | none => fail

/-- The text in front of the next occurrence of the same text. -/
def takeUntilOf (v : Value) : Grammar :=
  match v.text? with
  | some t => takeUntil t
  | none => fail

/-- The text up to and including the next occurrence of the same text. -/
def takeThroughOf (v : Value) : Grammar :=
  match v.text? with
  | some t => takeThrough t
  | none => fail

/-- As many bytes as the integer says. -/
def takeBytesOf : Value → Grammar
  | .int n => if 0 ≤ n then takeBytes n.toInt.toNat else fail
  | _ => fail

/-- A repetition whose number of elements has to be the integer. -/
def countOf (element separator : Grammar) : Value → Grammar
  | .int n =>
    filter (fun v => v.items?.any fun items => (items.length : Int) == n.toInt)
      (sepBy element separator)
  | _ => fail

/-- The grammar of the first case whose value is equal. -/
def caseOf (cases : List (Value × Grammar)) (otherwise : Grammar) (v : Value) : Grammar :=
  match cases.find? (·.1 == v) with
  | some (_, g) => g
  | none => otherwise

end TextParsing.Grammar
