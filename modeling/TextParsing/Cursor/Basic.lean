import TextParsing.Text.Basic

/-! A place in a text from which parsing goes on. -/
namespace TextParsing

/-- A text, the number of bytes passed in it, and what is left of it. The left part is kept so that
reading on takes no time; `Cursor.Valid` says that the three belong together. -/
structure Cursor where
  source : Text
  position : Nat
  rest : Text
  deriving DecidableEq

namespace Cursor

/-- The beginning of a text. -/
def ofText (t : Text) : Cursor := ⟨t, 0, t⟩

/-- The next character. -/
def peek? (c : Cursor) : Option Char := c.rest.head?

/-- Past the next character; the end of the text stays where it is. -/
def next (c : Cursor) : Cursor :=
  match c.rest with
  | [] => c
  | ch :: rest => { c with position := c.position + ch.utf8Size, rest }

/-- Past the next `n` bytes, if they end between two characters. -/
def advance? (n : Nat) (c : Cursor) : Option Cursor :=
  (Text.splitBytes? n c.rest).map fun parts => { c with position := c.position + n, rest := parts.2 }

def atEnd (c : Cursor) : Bool := c.source.byteLength ≤ c.position

def startsWith (t : Text) (c : Cursor) : Bool := t.isPrefixOf c.rest

/-- What is taken character by character, and the place behind it. -/
def scan {σ : Type} (next : σ → Char → Option σ) (start : σ) (c : Cursor) : Text × Cursor :=
  let (taken, rest) := c.rest.scan next start
  (taken, { c with position := c.position + taken.byteLength, rest })

/-- The longest run of characters that satisfy `p`, and the place behind it. -/
def takeWhile (p : Char → Bool) (c : Cursor) : Text × Cursor := c.scan (Text.passIf p) ()

/-- The text between two places, empty if the second one does not lie further on. -/
def textUntil? (start stop : Cursor) : Option Text :=
  (Text.splitBytes? (stop.position - start.position) start.rest).map Prod.fst

/-- Two cursors are taken for the same when what is left is the same, wherever it stands. -/
instance : BEq Cursor where
  beq a b := a.rest == b.rest

theorem beq_iff_rest_eq {a b : Cursor} : (a == b) = true ↔ a.rest = b.rest := by
  change (a.rest == b.rest) = true ↔ _
  exact beq_iff_eq

end Cursor
end TextParsing
