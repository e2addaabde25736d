import TextParsing.Parser.Basic

/-! Parsers that read characters and pieces of text. -/
namespace TextParsing.Parser

def anyChar : Parser Char := fun c =>
  match c.peek? with
  | some ch => .success ch c.next
  | none => .failure

/-- Exactly the given text. -/
def literal (t : Text) : Parser Unit := fun c =>
  if c.startsWith t then .ofCursor? () (c.advance? t.byteLength) else .failure

/-- What is taken character by character from `start` on, which may be nothing. -/
def scan {σ : Type} (next : σ → Char → Option σ) (start : σ) : Parser Text := fun c =>
  let (taken, rest) := c.scan next start
  .success taken rest

/-- The longest run of characters that satisfy `p`, which may be empty. -/
def takeWhile (p : Char → Bool) : Parser Text := fun c =>
  let (taken, rest) := c.takeWhile p
  .success taken rest

/-- The text in front of the first occurrence of a delimiter. An empty delimiter occurs nowhere. -/
def takeUntil (delimiter : Text) : Parser Text := fun c =>
  if delimiter.isEmpty then .failure
  else match Text.splitFirst? delimiter c.rest with
    | some (t, _) => .ofCursor? t (c.advance? t.byteLength)
    | none => .failure

/-- The text up to and including the first occurrence of a delimiter. -/
def takeThrough (delimiter : Text) : Parser Text := fun c =>
  if delimiter.isEmpty then .failure
  else match Text.splitFirst? delimiter c.rest with
    | some (t, _) => .ofCursor? (t ++ delimiter) (c.advance? (t.byteLength + delimiter.byteLength))
    | none => .failure

/-- The next character with an ASCII letter in upper case. -/
def upperChar : Parser Char := anyChar.map Char.toUpper

/-- The next character, which stays unread. -/
def peek : Parser Char := fun c =>
  match c.peek? with
  | some ch => .success ch c
  | none => .failure

/-- The number of bytes passed so far. -/
def position : Parser Nat := fun c => .success c.position c

/-- Everything that is left. -/
def remainder : Parser Text := fun c => .ofCursor? c.rest (c.advance? c.rest.byteLength)

/-- The next `n` bytes, if they end between two characters. -/
def takeBytes (n : Nat) : Parser Text := fun c =>
  match Text.splitBytes? n c.rest with
  | some (t, _) => .ofCursor? t (c.advance? n)
  | none => .failure

/-- Go on from byte `n` of the whole text, forwards or backwards. -/
def seek (n : Nat) : Parser Unit := fun c => .ofCursor? () ((Cursor.ofText c.source).advance? n)

end TextParsing.Parser
