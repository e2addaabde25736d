import TextParsing.Failure.Basic
import TextParsing.Parser.Basic

/-! Runs of a parser over a text, and what they report while they go on. -/
namespace TextParsing

inductive Level where
  | trace
  | debug
  deriving DecidableEq

/-- What a run reports. -/
inductive Event where
  | started (bytes : Nat)
  | stopped (position : Nat)
  | unmatched (bytes : Nat)
  | leftover (bytes position : Nat)
  deriving DecidableEq

namespace Event

def level : Event → Level
  | started _ | stopped _ => .trace
  | unmatched _ | leftover .. => .debug

def message : Event → Text
  | started bytes =>
    "running parser over ".toList ++ Decimal.renderNat bytes ++ " bytes".toList
  | stopped position => "parser stopped at byte ".toList ++ Decimal.renderNat position
  | unmatched bytes =>
    "parser did not match input of ".toList ++ Decimal.renderNat bytes ++ " bytes".toList
  | leftover bytes position =>
    "parser left ".toList ++ Decimal.renderNat bytes ++ " unconsumed bytes at ".toList ++
      Decimal.renderNat position

theorem message_started (bytes : Nat) : message (.started bytes) =
    "running parser over ".toList ++ (Nat.toDigits 10 bytes ++ " bytes".toList) :=
  List.append_assoc ..

theorem message_stopped (position : Nat) : message (.stopped position) =
    "parser stopped at byte ".toList ++ Nat.toDigits 10 position := rfl

theorem message_unmatched (bytes : Nat) : message (.unmatched bytes) =
    "parser did not match input of ".toList ++ (Nat.toDigits 10 bytes ++ " bytes".toList) :=
  List.append_assoc ..

theorem message_leftover (bytes position : Nat) : message (.leftover bytes position) =
    "parser left ".toList ++ (Nat.toDigits 10 bytes ++
      (" unconsumed bytes at ".toList ++ Nat.toDigits 10 position)) :=
  (List.append_assoc ..).trans (List.append_assoc ..)

end Event

/-- The result of a run: a value if the parser matched, and the text that it left. -/
structure Report (α : Type) where
  value : Option α
  residue : Text
  events : List Event

/-- The result of a run that has to read the whole text. -/
structure Verdict (α : Type) where
  result : Except Failure α
  events : List Event

namespace Parser
variable {α : Type}

/-- Run a parser from the beginning of a text. A run without a match leaves all of it. There is no
report on a parser that never comes to an end. -/
def run (p : Parser α) (input : Text) : Option (Report α) :=
  let started := Event.started input.byteLength
  match p (.ofText input) with
  | .success v rest => some ⟨some v, rest.rest, [started, .stopped rest.position]⟩
  | .failure => some ⟨none, input, [started, .unmatched input.byteLength]⟩
  | .unfinished => none

/-- Run a parser that has to read all of a text. A failure is placed where the residue begins. -/
def runToEnd (p : Parser α) (input : Text) : Option (Verdict α) :=
  (p.run input).map fun report =>
    let stop : Location := ⟨input, input.byteLength - report.residue.byteLength⟩
    match report.value with
    | none => ⟨.error ⟨.noMatch, stop⟩, report.events⟩
    | some v =>
      if report.residue.isEmpty then ⟨.ok v, report.events⟩
      else ⟨.error ⟨.trailingInput, stop⟩,
        report.events ++ [.leftover report.residue.byteLength stop.offset]⟩

end Parser
end TextParsing
