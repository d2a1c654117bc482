import Reckoner.Arithmetic.Rules
import Reckoner.Decimal.Positional
import Reckoner.Parser.Run
import Reckoner.Text.Quoted

/-! Evaluation of a text: the arithmetic expression at its start is matched and its value computed. What
    follows the expression is handed back, or refused where the whole text has to be an expression.
    Division by zero is no error; it yields an infinity or an undefined value. -/

namespace Reckoner

/-- How much of the text an expression has to span. -/
inductive Consumption where
  /-- Any beginning of the text. -/
  | leading
  /-- All of it. -/
  | whole
  deriving DecidableEq, Repr, Inhabited

/-- A value and the text that followed its expression. -/
structure Evaluation where
  value : Float
  remaining : String

/-- Why a text has no value. -/
inductive EvalError where
  /-- It does not start with an expression; parsing got as far as `offset`, where it needed one of
      `expected`. -/
  | noMatch (offset : Nat) (expected : List String)
  /-- The expression at its start ends at `offset`, before `remaining`. -/
  | trailingInput (offset : Nat) (remaining : String)
  deriving DecidableEq, Repr

namespace EvalError

/-- Alternatives in words. -/
def describe : List String → String
  | [] => "an expression"
  | [only] => only
  | first :: rest =>
    ", ".intercalate ((first :: rest).dropLast) ++ " or " ++ (first :: rest).getLast (by simp)

def message : EvalError → String
  | .noMatch offset expected =>
    "no expression found; expected " ++ describe expected ++ " at offset " ++ toString offset
  | .trailingInput offset remaining =>
    "unexpected input at offset " ++ toString offset ++ ": " ++ Text.quote remaining

end EvalError

/-! ### The log -/

/-- A record of the log of an evaluation. -/
inductive LogRecord where
  | attempt (attempt : Parser.Attempt)
  | evaluated (input : String) (value : Float) (remaining : String)
  | stuck (input : String) (offset : Nat)

/-- The line of the log that shows an attempt at a rule. -/
def Parser.Attempt.line : Parser.Attempt → String
  | .matched rule start stop => "TRACE " ++ rule ++ " matched " ++ toString start ++ ".." ++ toString stop
  | .failed rule start => "TRACE " ++ rule ++ " failed at " ++ toString start

def LogRecord.line : LogRecord → String
  | .attempt a => a.line
  | .evaluated input value remaining =>
    "DEBUG evaluated " ++ Text.quote input ++ " to " ++ Decimal.text value ++ ", remaining " ++
      Text.quote remaining
  | .stuck input offset =>
    "DEBUG no expression in " ++ Text.quote input ++ ", stuck at offset " ++ toString offset

/-! ### Evaluation -/

/-- Runs the rule for expressions on `input`. -/
def parseExpression (input : String) : Parser.Outcome Float := Arithmetic.expr.run input

/-- The value of the expression at the start of `input`, with the records that finding it leaves in the
    log. -/
def evaluateLogged (input : String) (consumption : Consumption) :
    Except EvalError Evaluation × List LogRecord :=
  let outcome := parseExpression input
  let attempts := outcome.trace.map .attempt
  match outcome.result with
  | .matched value remaining =>
    let log := attempts ++ [.evaluated input value remaining]
    if consumption = .whole ∧ remaining ≠ "" then
      (.error (.trailingInput (input.utf8ByteSize - remaining.utf8ByteSize) remaining), log)
    else (.ok ⟨value, remaining⟩, log)
  | .noMatch | .halted _ =>
    let (offset, expected) := match outcome.furthest with
      | some e => (e.offset, e.expected)
      | none => (0, [])
    (.error (.noMatch offset expected), attempts ++ [.stuck input offset])

/-- The value of the expression at the start of `input`. -/
def evaluate (input : String) (consumption : Consumption) : Except EvalError Evaluation :=
  (evaluateLogged input consumption).1

end Reckoner
