import TextParsing.Cursor.Basic
import TextParsing.Number.Decimal
import TextParsing.Text.Quoted

/-! How a cursor is shown: its position and what is left. -/
namespace TextParsing.Cursor

def display (c : Cursor) : Text :=
  "Cursor \x7b position: ".toList ++ Decimal.renderNat c.position ++
    ", remaining: ".toList ++ c.rest.quoted ++ " \x7d".toList

/-- The same with a line for each part. -/
def displayLines (c : Cursor) : Text :=
  "Cursor \x7b\n    position: ".toList ++ Decimal.renderNat c.position ++
    ",\n    remaining: ".toList ++ c.rest.quoted ++ ",\n\x7d".toList

end TextParsing.Cursor
