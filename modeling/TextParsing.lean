import TextParsing.Text.Basic
import TextParsing.Text.WhiteSpace
import TextParsing.Text.CharClass
import TextParsing.Text.Unprintable
import TextParsing.Text.Quoted
import TextParsing.Number.Decimal
import TextParsing.Number.Double
import TextParsing.Cursor.Basic
import TextParsing.Cursor.Valid
import TextParsing.Cursor.Display
import TextParsing.Parser.Basic
import TextParsing.Parser.Repetition
import TextParsing.Parser.Scanner
import TextParsing.Parser.Number
import TextParsing.Failure.Location
import TextParsing.Failure.Basic
import TextParsing.Run
import TextParsing.Table
import TextParsing.Value.Basic
import TextParsing.Value.Operations
import TextParsing.Grammar.Basic
import TextParsing.Grammar.Continuation
import TextParsing.Grammar.Denotation
import TextParsing.Session
import TextParsing.Proofs.Boundary
import TextParsing.Proofs.ScannerSimulation
import TextParsing.Proofs.SameRest
import TextParsing.Proofs.Expansion
import TextParsing.Proofs.SessionCursors
import TextParsing.Proofs.Residual
import TextParsing.Proofs.RunAgreement
import TextParsing.Proofs.Numeral
import TextParsing.Proofs.Repetition
import TextParsing.Proofs.TableLanguage
import TextParsing.Proofs.Completion
import TextParsing.Proofs.Termination
import TextParsing.Proofs.Forward
import TextParsing.Proofs.Shape
import TextParsing.Proofs.TableFailure
import TextParsing.Proofs.Consumption
import TextParsing.Proofs.Unfolding
import TextParsing.Proofs.Guarded
import TextParsing.Proofs.Greedy
import TextParsing.Proofs.MaximalMunch
import TextParsing.Proofs.Rounding
import TextParsing.Proofs.CorrectRounding
import TextParsing.Proofs.NumberKinds
import TextParsing.Proofs.FirstOccurrence
import TextParsing.Proofs.PlainRepetition
import TextParsing.Proofs.LinePlaces
import TextParsing.Proofs.MessageWindow
import TextParsing.Proofs.SeparatedLists
import TextParsing.Proofs.Nesting
import TextParsing.Proofs.Row
import TextParsing.Proofs.Sequencing
import TextParsing.Proofs.OrderedChoice
import TextParsing.Proofs.Keywords
import TextParsing.Proofs.RecordLines
import TextParsing.Proofs.PointerColumn
import TextParsing.Proofs.CursorArithmetic
import TextParsing.Proofs.Literals
