import TextParsing.Text.WhiteSpace

/-! Sets of characters that scanners and conditions ask for. -/
namespace TextParsing

/-- A set of characters. The classes from `digit` to `ascii` hold ASCII characters only. -/
inductive CharClass where
  | all
  | digit
  | letter
  | alphanumeric
  | upper
  | lower
  | ascii
  | whiteSpace
  | oneOf (chars : Text)
  | range (first last : Char)
  | complement (of : CharClass)

namespace CharClass

def contains : CharClass → Char → Bool
  | all, _ => true
  | digit, c => c.isDigit
  | letter, c => c.isAlpha
  | alphanumeric, c => c.isAlphanum
  | upper, c => c.isUpper
  | lower, c => c.isLower
  | ascii, c => c.toNat < 128
  | whiteSpace, c => Text.isWhiteSpace c
  | oneOf chars, c => chars.contains c
  | range first last, c => first ≤ c && c ≤ last
  | complement of, c => !of.contains c

/-- The empty set. -/
def empty : CharClass := complement all

@[simp] theorem contains_empty (c : Char) : empty.contains c = false := rfl

end CharClass
end TextParsing
