import TextParsing.Value.Basic

/-! Functions and conditions on values. A function leaves a value of a form that it does not know
as it is, and a condition does not hold of it. -/
namespace TextParsing.Value

/-- The items of a list or a tuple. -/
def items? : Value → Option (List Value)
  | list items | tuple items => Option.some items
  | _ => Option.none

/-- The bytes of a text or the number of items. -/
def length? : Value → Option Nat
  | str t => Option.some t.byteLength
  | v => v.items?.map List.length

/-- The text of a text, a character or an integer. -/
def text? : Value → Option Text
  | str t => Option.some t
  | char c => Option.some [c]
  | int n => Option.some (Decimal.renderInt n.toInt)
  | _ => Option.none

/-- The length as an integer. -/
def length (v : Value) : Value :=
  match v.length? with
  | Option.some n => int (Int64.ofNat n)
  | Option.none => v

/-- The texts of the items, one after the other. -/
def concat (v : Value) : Value :=
  match v.items? with
  | Option.some items => str (items.filterMap text?).flatten
  | Option.none => v

/-- The integer in a value. -/
def int? : Value → Option Int64
  | int n => Option.some n
  | _ => Option.none

/-- The sum of the integers among the items, modulo `2 ^ 64`. -/
def sum (v : Value) : Value :=
  match v.items? with
  | Option.some items => int ((items.filterMap int?).foldl (· + ·) 0)
  | Option.none => v

/-- The sum with a constant, modulo `2 ^ 64`. -/
def add (k : Int64) : Value → Value
  | int n => int (n + k)
  | v => v

/-- The item with the given index, or the unit value if there is none. -/
def item (index : Nat) (v : Value) : Value :=
  match v.items? with
  | Option.some items => items.getD index unit
  | Option.none => v

def isIntWithin (lowest highest : Int64) : Value → Bool
  | int n => lowest ≤ n && n ≤ highest
  | _ => false

def hasLength (n : Nat) (v : Value) : Bool := v.length? == Option.some n

def hasLengthAtLeast (n : Nat) (v : Value) : Bool := v.length?.any (n ≤ ·)

/-- A character that satisfies `p`, or a text all of whose characters do. -/
def hasOnly (p : Char → Bool) : Value → Bool
  | char c => p c
  | str t => t.all p
  | _ => false

end TextParsing.Value
