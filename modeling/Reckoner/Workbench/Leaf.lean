import Reckoner.Parser.Exec
import Reckoner.Workbench.Value

/-! Leaves of the workbench: parsers given by what they do to a state. Three of them look at what is left of
    the input; `leakChars` moves the cursor and then fails without putting it back, which shows who does. -/

namespace Reckoner.Workbench
open Reckoner.Parser

/-- The first `n` characters of a text; `none` when it has fewer. -/
def firstChars? (n : Nat) (text : List Char) : Option (List Char) :=
  if n ≤ text.length then some (text.take n) else none

/-- Matches the next `n` characters. -/
def takeChars (n : Nat) (text : List Char) (s : State) : Reply Value :=
  match s.rest? text with
  | none => .halted .badOffset
  | some rest =>
    match firstChars? n rest with
    | some chars =>
      match s.advance? text (Text.byteLength chars) with
      | some t => .matched (.text (String.ofList chars)) t
      | none => .halted .badOffset
    | none => .noMatch (s.expect (toString n ++ " chars"))

/-- Fails after the next `n` characters, or at once when there are fewer. -/
def leakChars (n : Nat) (text : List Char) (s : State) : Reply Value :=
  match s.rest? text with
  | none => .halted .badOffset
  | some rest =>
    match s.advance? text (Text.byteLength ((firstChars? n rest).getD [])) with
    | some t => .noMatch t
    | none => .halted .badOffset

/-- Matches where nothing is left. -/
def endOfInput (text : List Char) (s : State) : Reply Value :=
  match s.rest? text with
  | none => .halted .badOffset
  | some [] => .matched .null s
  | some (_ :: _) => .noMatch (s.expect "end of input")

/-- Yields the cursor. -/
def position (_ : List Char) (s : State) : Reply Value := .matched (.int (Int64.ofNat s.offset)) s

end Reckoner.Workbench
