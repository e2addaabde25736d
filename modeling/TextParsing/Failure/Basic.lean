import TextParsing.Failure.Location

/-! Failures of a parse that had to read the whole text. -/
namespace TextParsing

inductive FailureKind where
  | noMatch
  | trailingInput
  deriving DecidableEq

namespace FailureKind

def title : FailureKind → Text
  | noMatch => "No match".toList
  | trailingInput => "Unconsumed input".toList

end FailureKind

/-- Why and where a parse stopped. -/
structure Failure where
  kind : FailureKind
  location : Location
  deriving DecidableEq

namespace Failure

/-- The first line of the message. -/
def headline (f : Failure) : Text :=
  let place := f.location.linePosition
  f.kind.title ++ " at line ".toList ++ Decimal.renderNat place.line ++
    ", byte offset ".toList ++ Decimal.renderNat place.byteOffset ++
    " (absolute position: ".toList ++ Decimal.renderNat f.location.offset ++ [')']

/-- The headline, an empty line and the excerpt, every line with its newline. -/
def message (f : Failure) : Text :=
  (f.headline :: [] :: f.location.excerpt).flatMap (· ++ ['\n'])

end Failure
end TextParsing
