import Reckoner.Workbench.Recipe

/-! The state of a parse driven by hand: the cursor is looked at, moved and put back, expectations are noted
    and relabelled, and parsers run where it stands. -/

namespace Reckoner.Workbench
open Reckoner.Parser

/-- A step that looks at a state or changes it. -/
inductive Move where
  | rest
  | advance (size : Nat)
  | restore (offset : Nat)
  | expect (what : String)
  | relabel (offset : Nat) (name : String)
  | parse (recipe : Recipe)

/-- What a move answers. -/
inductive Answer where
  | done
  | text (s : String)
  | matched (value : Value)
  | noMatch

/-- The answer of a move with the state after it, or the fault that it ran into. -/
def Move.apply (rules : Rulebook) (text : List Char) (s : State) : Move → Except Fault (Answer × State)
  | .rest =>
    match s.rest? text with
    | some remaining => .ok (.text (String.ofList remaining), s)
    | none => .error .badOffset
  | .advance size =>
    match s.advance? text size with
    | some t => .ok (.done, t)
    | none => .error .badOffset
  | .restore offset => .ok (.done, s.restore offset)
  | .expect what => .ok (.done, s.expect what)
  | .relabel offset name => .ok (.done, s.relabel offset name)
  | .parse recipe =>
    let parser : Closed Value := recipe.parser rules []
    match parser.reply .empty text s with
    | .matched value t => .ok (.matched value, t)
    | .noMatch t => .ok (.noMatch, t)
    | .halted fault => .error fault

/-- What the moves answer, up to the first fault. -/
def drive (rules : Rulebook) (text : List Char) (s : State) : List Move → List (Except Fault (Answer × State))
  | [] => []
  | move :: moves =>
    match move.apply rules text s with
    | .ok (answer, t) => .ok (answer, t) :: drive rules text t moves
    | .error fault => [.error fault]

end Reckoner.Workbench
