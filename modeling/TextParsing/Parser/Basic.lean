import TextParsing.Cursor.Basic

/-! Parsers, and the ways to build one parser from others. -/
namespace TextParsing

/-- What a parser makes of a cursor: a value and the place behind what it read, or no match. The
third case is the answer of a parser that never comes to an end. -/
inductive Outcome (α : Type) where
  | success (value : α) (rest : Cursor)
  | failure
  | unfinished

namespace Outcome
variable {α β : Type}

/-- Go on from a success. -/
def andThen (o : Outcome α) (f : α → Cursor → Outcome β) : Outcome β :=
  match o with
  | success v rest => f v rest
  | failure => .failure
  | unfinished => .unfinished

/-- A success with the given value if there is a place to go on from. -/
def ofCursor? (value : α) : Option Cursor → Outcome α
  | some rest => success value rest
  | none => failure

@[simp] theorem andThen_success (v : α) (rest : Cursor) (f : α → Cursor → Outcome β) :
    (success v rest).andThen f = f v rest := rfl

@[simp] theorem andThen_failure (f : α → Cursor → Outcome β) :
    (failure : Outcome α).andThen f = failure := rfl

@[simp] theorem andThen_unfinished (f : α → Cursor → Outcome β) :
    (unfinished : Outcome α).andThen f = unfinished := rfl

end Outcome

/-- A parser reads from a cursor. It keeps no state, so one parser serves any number of runs. -/
def Parser (α : Type) := Cursor → Outcome α

namespace Parser
variable {α β γ : Type}

protected def pure (value : α) : Parser α := fun c => .success value c

protected def bind (p : Parser α) (next : α → Parser β) : Parser β := fun c =>
  (p c).andThen fun v rest => next v rest

instance : Monad Parser where
  pure := Parser.pure
  bind := Parser.bind

def fail : Parser α := fun _ => .failure

def ofOption : Option α → Parser α
  | some v => Parser.pure v
  | none => fail

/-- Matches at the end of the text only. -/
def eof : Parser Unit := fun c => if c.atEnd then .success () c else .failure

protected def map (f : α → β) (p : Parser α) : Parser β := fun c =>
  (p c).andThen fun v rest => .success (f v) rest

/-- Refuses a match whose value does not meet the condition. -/
def filter (condition : α → Bool) (p : Parser α) : Parser α := fun c =>
  (p c).andThen fun v rest => if condition v then .success v rest else .failure

/-- Always matches, with no value and nothing read where `p` does not match. -/
def optional (p : Parser α) : Parser (Option α) := fun c =>
  match p c with
  | .success v rest => .success (some v) rest
  | .failure => .success none c
  | .unfinished => .unfinished

/-- Ordered choice: `q` is tried only where `p` does not match. -/
def orElse (p q : Parser α) : Parser α := fun c =>
  match p c with
  | .success v rest => .success v rest
  | .failure => q c
  | .unfinished => .unfinished

/-- Ordered choice among any number of parsers; an empty choice does not match. -/
def firstOf : List (Parser α) → Parser α
  | [] => fail
  | p :: ps => fun c =>
    match p c with
    | .success v rest => .success v rest
    | .failure => firstOf ps c
    | .unfinished => .unfinished

def seqLeft (p : Parser α) (q : Parser β) : Parser α := fun c =>
  (p c).andThen fun v middle => (q middle).andThen fun _ rest => .success v rest

def seqRight (p : Parser α) (q : Parser β) : Parser β := fun c =>
  (p c).andThen fun _ middle => q middle

def pair (p : Parser α) (q : Parser β) : Parser (α × β) := fun c =>
  (p c).andThen fun v middle => (q middle).andThen fun w rest => .success (v, w) rest

/-- All parsers one after the other, with the list of their values. -/
def sequence : List (Parser α) → Parser (List α)
  | [] => Parser.pure []
  | p :: ps => fun c =>
    (p c).andThen fun v middle => (sequence ps middle).andThen fun vs rest => .success (v :: vs) rest

/-- `p` inside two delimiters whose values are dropped. -/
def between (opening : Parser α) (p : Parser β) (closing : Parser γ) : Parser β := fun c =>
  (opening c).andThen fun _ inside => (p inside).andThen fun v behind =>
    (closing behind).andThen fun _ rest => .success v rest

@[simp] theorem firstOf_nil : firstOf ([] : List (Parser α)) = fail := rfl

/-- The choice among the others is the second one of two. -/
theorem firstOf_cons (p : Parser α) (ps : List (Parser α)) :
    firstOf (p :: ps) = orElse p (firstOf ps) := by
  funext c
  rw [firstOf, orElse]

theorem between_eq (opening : Parser α) (p : Parser β) (closing : Parser γ) :
    between opening p closing = seqRight opening (seqLeft p closing) := rfl

end Parser
end TextParsing
