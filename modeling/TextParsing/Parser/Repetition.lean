import TextParsing.Parser.Basic

/-! Repetition with a separator between the elements. -/
namespace TextParsing.Parser
variable {α β : Type}

/-- The rounds of a repetition. `found` holds the elements so far, last one first, `stop` is the
place behind the last one and `start` the place where the next one is looked for. A separator that
does not lead past `start`, or that no element follows, does not belong to the match. Every further
round takes a character from the budget. -/
def rounds (p : Parser α) (separator : Parser β) (budget : Text) (found : List α)
    (stop start : Cursor) : Outcome (List α) :=
  match p start with
  | .unfinished => .unfinished
  | .failure => .success found.reverse stop
  | .success v after =>
    match separator after with
    | .unfinished => .unfinished
    | .failure => .success (v :: found).reverse after
    | .success _ next =>
      if start.position < next.position then
        match budget with
        | [] => .unfinished
        | _ :: budget => rounds p separator budget (v :: found) after next
      else .success (v :: found).reverse after

/-- As many elements as there are, with a separator between any two. What is left of the text is
budget enough, since every round starts further on than the one before. -/
def sepBy (p : Parser α) (separator : Parser β) : Parser (List α) := fun c =>
  rounds p separator c.rest [] c c

/-- At least one element. -/
def sepBy1 (p : Parser α) (separator : Parser β) : Parser (List α) :=
  filter (fun vs => !vs.isEmpty) (sepBy p separator)

/-- Elements that follow each other directly. -/
def many (p : Parser α) : Parser (List α) := sepBy p (Parser.pure ())

def many1 (p : Parser α) : Parser (List α) := sepBy1 p (Parser.pure ())

end TextParsing.Parser
