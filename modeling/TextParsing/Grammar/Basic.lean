import TextParsing.Value.Operations

/-! Grammars as data: parsers of values that are put together at run time and may name each other. -/
namespace TextParsing

/-- A description of a parser. Only `filter` and `bind` look at the values of their parts, and only
`ref` leaves what it stands for to a list of definitions. -/
inductive Grammar where
  | int64
  | double
  | number
  | anyChar
  | literal (t : Text)
  | takeWhile (p : Char → Bool)
  | takeUntil (delimiter : Text)
  | takeThrough (delimiter : Text)
  | pure (v : Value)
  | fail
  | eof
  | custom (p : Parser Value)
  | map (f : Value → Value) (of : Grammar)
  | filter (condition : Value → Bool) (of : Grammar)
  | bind (of : Grammar) (next : Value → Grammar)
  | optional (of : Grammar)
  | orElse (first second : Grammar)
  | firstOf (choices : List Grammar)
  | between (opening of closing : Grammar)
  | seqLeft (first second : Grammar)
  | seqRight (first second : Grammar)
  | pair (first second : Grammar)
  | sequence (members : List Grammar)
  | sepBy (of separator : Grammar)
  | sepBy1 (of separator : Grammar)
  | ref (name : String)

/-- The grammars that a reference may name; of two with one name the first counts. -/
abbrev Definitions := List (String × Grammar)

namespace Grammar

/-- Elements that follow each other directly. -/
def many (of : Grammar) : Grammar := sepBy of (pure .unit)

def many1 (of : Grammar) : Grammar := sepBy1 of (pure .unit)

def upperChar : Grammar := custom (Parser.upperChar.map .char)

def peek : Grammar := custom (Parser.peek.map .char)

def position : Grammar := custom (Parser.position.map fun n => .int (Int64.ofNat n))

def remainder : Grammar := custom (Parser.remainder.map .str)

def takeBytes (n : Nat) : Grammar := custom ((Parser.takeBytes n).map .str)

def seek (n : Nat) : Grammar := custom ((Parser.seek n).map fun _ => .unit)

def record : Grammar := custom (Table.record.map .record)

def records : Grammar := custom (Table.records.map fun rs => .list (rs.map .record))

/-- The text that a literal matches. -/
def literalText? : Grammar → Option Text
  | literal t => some t
  | _ => none

end Grammar
end TextParsing
