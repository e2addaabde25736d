import TextParsing.Number.Double
import TextParsing.Parser.Scanner

/-! Parsers of numbers in ASCII digits. -/
namespace TextParsing.Parser

/-- An optional sign; says whether it is a minus. -/
def sign : Parser Bool := fun c =>
  match c.peek? with
  | some '+' => .success false c.next
  | some '-' => .success true c.next
  | _ => .success false c

/-- The longest run of digits behind an optional sign. A number out of range is no match. -/
def int64 : Parser Int64 := do
  let negative ← sign
  let digits ← takeWhile Char.isDigit
  if digits.isEmpty then fail else ofOption (Decimal.int64? negative digits)

/-- Digits with an optional point behind an optional sign, rounded to the nearest double. There is
a digit before or after the point, and the number is in the finite range. -/
def double : Parser Double := do
  let negative ← sign
  let (whole, fraction) := Decimal.splitPoint (← scan Decimal.pointOnce false)
  if whole.isEmpty && fraction.isEmpty then fail
  else ofOption (Double.ofDecimal? negative whole fraction)

/-- An integer, unless a point follows it, and else a double. -/
def number : Parser Number := fun c =>
  match int64 c with
  | .success n rest =>
    if rest.peek? = some '.' then double.map .double c else .success (.int n) rest
  | _ => double.map .double c

end TextParsing.Parser
