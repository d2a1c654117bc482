import Reckoner.Workbench.Recipe

/-! Sessions at the workbench: names are bound to parsers, forward declarations made and later defined, and
    parsers run. A name stands for what it is bound to when a parser that uses it is put together. -/

namespace Reckoner.Workbench
open Reckoner.Parser

/-- Parsers on the bench, which may refer to forward declarations by their numbers. -/
abbrev BenchParser := Parser (fun _ : Nat => Value) Value

/-- What has been bound and declared so far. -/
structure Session where
  rules : Rulebook
  names : Scope (fun _ : Nat => Value) := []
  /-- The forward declarations that are called by name, by their numbers. -/
  forwards : List (String × Nat) := []
  /-- How many forward declarations have been made. -/
  declared : Nat := 0
  definitions : Definitions (fun _ : Nat => Value) := .empty

/-- A step of a session. -/
inductive Action where
  | bind (name : String) (recipe : Recipe)
  | forward (name : String)
  | define (name : String) (recipe : Recipe)
  | run (recipe : Recipe) (input : String)

namespace Session

/-- The parser that a recipe describes at this point. -/
def parser (s : Session) (recipe : Recipe) : BenchParser := recipe.parser s.rules s.names

/-- The session after a step, and the outcome of a run. -/
def step (s : Session) : Action → Session × Option (Outcome Value)
  | .bind name recipe => ({ s with names := (name, s.parser recipe) :: s.names }, none)
  | .forward name =>
    ({ s with
        names := (name, .handle s.declared) :: s.names
        forwards := (name, s.declared) :: s.forwards
        declared := s.declared + 1 }, none)
  | .define name recipe =>
    match s.forwards.lookup name with
    | some number => ({ s with definitions := s.definitions.define number (s.parser recipe) }, none)
    | none => (s, none)
  | .run recipe input => (s, some ((s.parser recipe).runWith s.definitions input))

/-- The outcomes of the steps of a session. -/
def steps (s : Session) : List Action → List (Option (Outcome Value))
  | [] => []
  | action :: actions =>
    let (t, outcome) := s.step action
    outcome :: t.steps actions

end Session

end Reckoner.Workbench
