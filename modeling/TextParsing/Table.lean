import TextParsing.Parser.Number
import TextParsing.Parser.Repetition
import TextParsing.Run
import TextParsing.Text.WhiteSpace

/-! Tables of named triples of numbers. A record is written as five cells, one after the other: its
identifier, its name inside `{{flag|…}}` and three numbers. A cell starts with a bar and a space and
ends with a newline; a line with a bar and a dash stands between two records. -/
namespace TextParsing

structure Record where
  id : Int64
  name : Text
  first : Double
  second : Double
  third : Double

instance : BEq Record where
  beq a b := a.id == b.id && a.name == b.name && a.first == b.first && a.second == b.second &&
    a.third == b.third

namespace Table
open TextParsing.Parser

def cellStart : Text := ['|', ' ']

def cellEnd : Text := ['\n']

def nameStart : Text := ['{', '{', 'f', 'l', 'a', 'g', '|']

def nameEnd : Text := ['}', '}']

def rowSeparator : Text := ['|', '-', '\n']

def cell {α : Type} (content : Parser α) : Parser α :=
  between (literal cellStart) content (literal cellEnd)

/-- A name ends at the first closing mark and is taken without the white space around it. -/
def name : Parser Text :=
  (cell (between (literal nameStart) (takeUntil nameEnd) (literal nameEnd))).map Text.trim

def record : Parser Record := do
  let id ← cell int64
  let name ← name
  let first ← cell double
  let second ← cell double
  let third ← cell double
  return { id, name, first, second, third }

def records : Parser (List Record) := sepBy record (literal rowSeparator)

/-- Read a text that is a table from its beginning to its end. -/
def parse (input : Text) : Option (Verdict (List Record)) := records.runToEnd input

end Table
end TextParsing
