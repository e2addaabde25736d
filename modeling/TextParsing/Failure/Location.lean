import TextParsing.Number.Decimal

/-! Places in a text for a reader: the line, the offset in it, and the lines around it. -/
namespace TextParsing

/-- A byte offset into a text. An offset that no character begins at stands for the end. -/
structure Location where
  text : Text
  offset : Nat
  deriving DecidableEq

/-- Lines count from one, bytes of a line from zero. -/
structure LinePosition where
  line : Nat
  byteOffset : Nat
  deriving DecidableEq

namespace Location

/-- The text in front of the place. -/
def passed (l : Location) : Text := (Text.takeBytes? l.offset l.text).getD l.text

/-- The text behind the place. -/
def residue (l : Location) : Text := (Text.dropBytes? l.offset l.text).getD []

def linePosition (l : Location) : LinePosition where
  line := l.passed.count '\n' + 1
  byteOffset := l.passed.lastLine.byteLength

/-- What stands in front of a line that is shown: a mark at the line of the place, and the number. -/
def margin (isMarked : Bool) (line : Nat) : Text :=
  (if isMarked then "  > ".toList else "    ".toList) ++ Decimal.renderNat line ++ " | ".toList

/-- A pointer that stands under the given column. -/
def pointer (column : Nat) : Text := List.replicate column ' ' ++ "^--- here".toList

/-- A line of the excerpt, followed by the pointer if the place is in it. -/
def excerptOf (place : LinePosition) (content : Text) (line : Nat) : List Text :=
  let margin := margin (line = place.line) line
  if line = place.line then
    [margin ++ content, pointer (margin.byteLength + place.byteOffset)]
  else [margin ++ content]

/-- The line of the place with up to two lines before and after it. -/
def excerpt (l : Location) : List Text :=
  let place := l.linePosition
  (l.text.lines.zipIdx 1).flatMap fun (content, line) =>
    if place.line ≤ line + 2 ∧ line ≤ place.line + 2 then excerptOf place content line else []

theorem passed_append_residue (l : Location) : l.passed ++ l.residue = l.text := by
  rw [passed, residue, Text.takeBytes?_eq_map, Text.dropBytes?_eq_map]
  cases h : Text.splitBytes? l.offset l.text with
  | none => simp
  | some parts => exact (Text.splitBytes?_eq_some_iff.mp h).1.symm

end Location
end TextParsing
