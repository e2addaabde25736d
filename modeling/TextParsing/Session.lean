import TextParsing.Cursor.Display
import TextParsing.Grammar.Denotation

/-! Sessions: a current cursor and saved ones, moved step by step. -/
namespace TextParsing

/-- A saved cursor goes by the name of its register. -/
structure Session where
  current : Cursor
  saved : List (String × Cursor)

/-- What a scan takes may depend on what it took before, which its condition is given with the last
character first. -/
inductive Step where
  | restart (t : Text)
  | save (register : String)
  | load (register : String)
  | peek
  | next
  | atEnd
  | rest
  | source
  | place
  | advance (n : Nat)
  | startsWith (t : Text)
  | scan (p : Text → Char → Bool)
  | textUntil (register : String)
  | textSince (register : String)
  | isSameAs (register : String)
  | display
  | displayLines
  | parse (g : Grammar)

/-- A scan that decides about each character by itself. -/
def Step.takeWhile (p : Char → Bool) : Step := .scan fun _ => p

inductive Answer where
  | nothing
  | char (c : Option Char)
  | truth (b : Bool)
  | text (t : Text)
  | place (source : Text) (position : Nat)
  | value (v : Option Value)

/-- Why a step has no answer. -/
inductive Fault where
  | emptyRegister (register : String)
  | noTextBetween
  | unfinished

namespace Session

def ofText (t : Text) : Session := ⟨.ofText t, []⟩

def load (s : Session) (register : String) : Except Fault Cursor :=
  match s.saved.lookup register with
  | some c => .ok c
  | none => .error (.emptyRegister register)

def textBetween (start stop : Cursor) : Except Fault Text :=
  match start.textUntil? stop with
  | some t => .ok t
  | none => .error .noTextBetween

/-- An answer and the session after it. -/
def step (defs : Definitions) (s : Session) : Step → Except Fault (Answer × Session)
  | .restart t => .ok (.nothing, { s with current := .ofText t })
  | .save register => .ok (.nothing, { s with saved := (register, s.current) :: s.saved })
  | .load register => do
    let current ← s.load register
    return (.nothing, { s with current })
  | .peek => .ok (.char s.current.peek?, s)
  | .next => .ok (.nothing, { s with current := s.current.next })
  | .atEnd => .ok (.truth s.current.atEnd, s)
  | .rest => .ok (.text s.current.rest, s)
  | .source => .ok (.text s.current.source, s)
  | .place => .ok (.place s.current.source s.current.position, s)
  | .advance n =>
    match s.current.advance? n with
    | some current => .ok (.truth true, { s with current })
    | none => .ok (.truth false, s)
  | .startsWith t => .ok (.truth (s.current.startsWith t), s)
  | .scan p =>
    let (taken, current) := s.current.scan (Text.passIfSeen p) []
    .ok (.text taken, { s with current })
  | .textUntil register => do
    let t ← textBetween s.current (← s.load register)
    return (.text t, s)
  | .textSince register => do
    let t ← textBetween (← s.load register) s.current
    return (.text t, s)
  | .isSameAs register => do
    let c ← s.load register
    return (.truth (s.current == c), s)
  | .display => .ok (.text s.current.display, s)
  | .displayLines => .ok (.text s.current.displayLines, s)
  | .parse g =>
    match g.parser defs s.current with
    | .success v current => .ok (.value (some v), { s with current })
    | .failure => .ok (.value none, s)
    | .unfinished => .error .unfinished

/-- All steps in order, with the session after them. Each answer comes with the position behind its
step. -/
def run (defs : Definitions) (s : Session) :
    List Step → Except Fault (List (Answer × Nat) × Session)
  | [] => .ok ([], s)
  | step :: steps => do
    let (answer, next) ← s.step defs step
    let (answers, last) ← run defs next steps
    return ((answer, next.current.position) :: answers, last)

end Session
end TextParsing
