import TextParsing.Text.Basic

/-! Decimal numerals: digits to numbers and back. -/
namespace TextParsing.Decimal

/-- The number that a list of decimal digits writes. -/
def ofDigits (digits : Text) : Nat := Nat.ofDigitChars 10 digits 0

theorem ofDigits_eq (digits : Text) : ofDigits digits = Nat.ofDigitChars 10 digits 0 := rfl

/-- The digits without leading zeros. -/
def renderNat (n : Nat) : Text := Nat.toDigits 10 n

theorem renderNat_eq (n : Nat) : renderNat n = Nat.toDigits 10 n := rfl

/-- The digits without leading zeros, after a minus sign for a negative number. -/
def renderInt (n : Int) : Text :=
  if n < 0 then '-' :: renderNat n.natAbs else renderNat n.natAbs

/-- Digits are taken, and a point if none was taken before, as the state says. -/
def pointOnce (hasPoint : Bool) (c : Char) : Option Bool :=
  if c.isDigit then some hasPoint else if c = '.' ∧ hasPoint = false then some true else none

/-- The digits before the first point and the digits behind it. -/
def splitPoint (t : Text) : Text × Text :=
  (t.takeWhile (· != '.'), (t.dropWhile (· != '.')).drop 1)

/-- The 64-bit integer with the given sign and digits, if it is in range. -/
def int64? (negative : Bool) (digits : Text) : Option Int64 :=
  let n : Int := if negative then -(ofDigits digits : Int) else ofDigits digits
  if Int64.minValue.toInt ≤ n ∧ n ≤ Int64.maxValue.toInt then some (Int64.ofInt n) else none

end TextParsing.Decimal
