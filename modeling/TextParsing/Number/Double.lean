import TextParsing.Number.Decimal

/-! Double-precision numbers as bit patterns, and the exact rounding of a ratio to the nearest one. -/
namespace TextParsing

/-- A double by its IEEE 754 pattern: a sign bit, eleven exponent bits and 52 fraction bits. -/
structure Double where
  bits : UInt64

namespace Double

def isNegative (d : Double) : Bool := 1 <<< 63 ≤ d.bits.toNat

/-- The pattern without its sign bit. Patterns of finite magnitudes are ordered as their values. -/
def magnitude (d : Double) : Nat := d.bits.toNat % (1 <<< 63)

/-- The first pattern past the finite magnitudes. -/
def infinity : Nat := 0x7FF <<< 52

def isFinite (d : Double) : Bool := d.magnitude < infinity

def isNaN (d : Double) : Bool := infinity < d.magnitude

/-- Doubles are compared as numbers: the two zeros are equal, and no NaN equals anything. -/
instance : BEq Double where
  beq a b := !a.isNaN && !b.isNaN &&
    (a.bits == b.bits || (a.magnitude == 0 && b.magnitude == 0))

/-- The value of a magnitude pattern in units of `2 ^ (-1074)`, the least positive double. -/
def units (pattern : Nat) : Nat :=
  if pattern < 1 <<< 52 then pattern
  else ((1 <<< 52) + pattern % (1 <<< 52)) <<< (pattern >>> 52 - 1)

/-- The integer nearest to `num / den`, an even one where two are equally near. -/
def roundHalfEven (num den : Nat) : Nat :=
  let floor := num / den
  let twice := 2 * (num % den)
  if twice < den ∨ (twice = den ∧ floor % 2 = 0) then floor else floor + 1

/-- The magnitude pattern nearest to `num / den`, with ties to the even pattern and exponents
continued past the finite ones. Rounding keeps 53 bits, fewer below `2 ^ (-1022)`; the sum carries
a significand that rounds up to `2 ^ 53` into the next exponent. -/
def nearestPattern (num den : Nat) : Nat :=
  let scaled := num <<< 1074
  let shift := (scaled / den).log2 - 52
  (shift <<< 52) + roundHalfEven scaled (den <<< shift)

def ofPattern (negative : Bool) (pattern : Nat) : Double :=
  ⟨UInt64.ofNat (if negative then (1 <<< 63) + pattern else pattern)⟩

/-- The double nearest to `num / den` under the given sign, if it is finite. -/
def ofRatio? (negative : Bool) (num den : Nat) : Option Double :=
  let pattern := nearestPattern num den
  if pattern < infinity then some (ofPattern negative pattern) else none

/-- The double nearest to the decimal fraction with these digits before and after its point. -/
def ofDecimal? (negative : Bool) (whole fraction : Text) : Option Double :=
  ofRatio? negative (Decimal.ofDigits (whole ++ fraction)) (Nat.pow 10 fraction.length)

end Double

/-- An integer where the text is one, and else a double. -/
inductive Number where
  | int (value : Int64)
  | double (value : Double)

namespace Number

instance : BEq Number where
  beq
    | int m, int n => m == n
    | double a, double b => a == b
    | _, _ => false

end Number
end TextParsing
