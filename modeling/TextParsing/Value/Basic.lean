import TextParsing.Table

/-! Values of parsers that are put together at run time. -/
namespace TextParsing

inductive Value where
  | unit
  | int (n : Int64)
  | double (d : Double)
  | number (n : Number)
  | char (c : Char)
  | str (t : Text)
  | list (items : List Value)
  | tuple (items : List Value)
  | none
  | some (v : Value)
  | tag (name : String) (v : Value)
  | record (r : Record)

namespace Value

mutual

/-- Values are equal when they have the same form and equal parts, with doubles compared as
numbers. -/
def equal : Value → Value → Bool
  | unit, unit => true
  | int m, int n => m == n
  | double a, double b => a == b
  | number m, number n => m == n
  | char a, char b => a == b
  | str a, str b => a == b
  | list vs, list ws => equalAll vs ws
  | tuple vs, tuple ws => equalAll vs ws
  | none, none => true
  | some v, some w => equal v w
  | tag a v, tag b w => a == b && equal v w
  | record a, record b => a == b
  | _, _ => false

def equalAll : List Value → List Value → Bool
  | [], [] => true
  | v :: vs, w :: ws => equal v w && equalAll vs ws
  | _, _ => false

end

instance : BEq Value := ⟨equal⟩

end Value
end TextParsing
