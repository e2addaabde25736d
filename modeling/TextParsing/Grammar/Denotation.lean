import TextParsing.Grammar.Basic

/-! The parser that a grammar describes. References are expanded while a text is read, and as often
as a parse that comes to an end can need. -/
namespace TextParsing
namespace Grammar

mutual

/-- The parser of a grammar, given a parser for every name. -/
def denote (env : String → Parser Value) : Grammar → Cursor → Outcome Value
  | int64, c => Parser.int64.map .int c
  | double, c => Parser.double.map .double c
  | number, c => Parser.number.map .number c
  | anyChar, c => Parser.anyChar.map .char c
  | literal t, c => (Parser.literal t).map (fun _ => .unit) c
  | takeWhile p, c => (Parser.takeWhile p).map .str c
  | takeUntil delimiter, c => (Parser.takeUntil delimiter).map .str c
  | takeThrough delimiter, c => (Parser.takeThrough delimiter).map .str c
  | pure v, c => Parser.pure v c
  | fail, c => Parser.fail c
  | eof, c => Parser.eof.map (fun _ => .unit) c
  | custom p, c => p c
  | map f of, c => Parser.map f (denote env of) c
  | filter condition of, c => Parser.filter condition (denote env of) c
  | bind of next, c => Parser.bind (denote env of) (fun v => denote env (next v)) c
  | optional of, c =>
    (Parser.optional (denote env of)).map (fun v => v.elim .none .some) c
  | orElse first second, c => Parser.orElse (denote env first) (denote env second) c
  | firstOf choices, c => Parser.firstOf (parsers env choices) c
  | between opening of closing, c =>
    Parser.between (denote env opening) (denote env of) (denote env closing) c
  | seqLeft first second, c => Parser.seqLeft (denote env first) (denote env second) c
  | seqRight first second, c => Parser.seqRight (denote env first) (denote env second) c
  | pair first second, c =>
    (Parser.pair (denote env first) (denote env second)).map (fun v => .tuple [v.1, v.2]) c
  | sequence members, c => (Parser.sequence (parsers env members)).map .tuple c
  | sepBy of separator, c => (Parser.sepBy (denote env of) (denote env separator)).map .list c
  | sepBy1 of separator, c => (Parser.sepBy1 (denote env of) (denote env separator)).map .list c
  | ref name, c => env name c

/-- The parsers of several grammars. -/
def parsers (env : String → Parser Value) : List Grammar → List (Parser Value)
  | [] => []
  | g :: gs => denote env g :: parsers env gs

end

end Grammar

namespace Definitions

/-- The parser of a defined name, with at most `depth` expansions inside each other. A name without
a definition does not match. -/
def expand (defs : Definitions) : Nat → String → Cursor → Outcome Value
  | 0, _, _ => .unfinished
  | depth + 1, name, c =>
    match defs.lookup name with
    | some g => g.denote (expand defs depth) c
    | none => .failure

/-- A parse that expands a name inside an expansion of the same name at the same place does so
again and again. A parse that comes to an end therefore never has more expansions inside each other
than there are names and places, and one for a name without a definition. -/
def maxDepth (defs : Definitions) (source : Text) : Nat :=
  defs.length * (source.byteLength + 1) + 1

end Definitions

/-- The parser of a grammar over a list of definitions. -/
def Grammar.parser (defs : Definitions) (g : Grammar) : Parser Value := fun c =>
  g.denote (Definitions.expand defs (Definitions.maxDepth defs c.source)) c

end TextParsing
