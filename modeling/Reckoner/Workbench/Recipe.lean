import Reckoner.Parser.Run
import Reckoner.Workbench.Bundle
import Reckoner.Workbench.Leaf
import Reckoner.Workbench.Written

/-! Recipes: descriptions of parsers, and the parsers that they describe. A recipe may bind a name to a
    recursive parser and use the names bound around it. It may also use recipes of a rulebook, which are put
    together only when they run, and then in the scope of the place that uses them. -/

namespace Reckoner.Workbench

mutual
/-- The description of a parser. -/
inductive Recipe where
  | literal (text : String)
  | pure (value : Value)
  | fail
  | or (a b : Recipe)
  | seq (a b : Recipe)
  | keepLeft (a b : Recipe)
  | keepRight (a b : Recipe)
  | map (of : Recipe) (f : Function)
  | any (of : List Recipe)
  | many (of : Recipe)
  | many1 (of : Recipe)
  | label (of : Recipe) (name : String)
  | chain (of : Recipe) (step : Step)
  /-- The recipe called `rule` in the rulebook, put together when it runs. -/
  | lazy (rule : String)
  /-- A recursive parser, which `of` calls `name`. -/
  | recursive (name : String) (of : Recipe)
  /-- The parser bound to `name`. -/
  | ref (name : String)
  | rule (name : Arithmetic.Rule)
  /-- The next `n` characters. -/
  | take (n : Nat)
  /-- Moves over `n` characters and then fails where it stands. -/
  | leak (n : Nat)
  /-- The end of the input. -/
  | eof
  /-- The cursor. -/
  | pos

/-- How a chain goes on after a value. -/
inductive Step where
  /-- With a literal of that value. -/
  | same
  /-- With a literal that repeats `text` as often as the value says. -/
  | repeated (text : String)
  | pure (f : Function)
  | next (recipe : Recipe)
  /-- With the recipe of the first case that has the written form of the value. -/
  | switch (cases : List (Written × Recipe)) (otherwise : Recipe)
end

/-! ### From recipes to parsers -/

/-- The names that a recipe may use, with the parsers that they are bound to. -/
abbrev Scope {ι : Type} (τ : ι → Type) := List (String × Parser τ Value)

namespace Scope
variable {ι : Type} {τ : ι → Type}

/-- The scope in the body of a recursive parser called `name`, where `name` means nothing else. -/
def enter (scope : Scope τ) (name : String) : Scope (Extended Value τ) :=
  (name, .self) :: (scope.filter (·.1 ≠ name)).map fun (n, p) => (n, p.weaken)

/-- The parser that `name` is bound to; one that never matches if there is none. -/
def find (scope : Scope τ) (name : String) : Parser τ Value := (scope.lookup name).getD .fail

end Scope

/-- The parsers of the recipes in a rulebook, by their names, in each scope. -/
abbrev RuleParsers := String → {ι : Type} → {τ : ι → Type} → Scope τ → Parser τ Value

/-- The text `text`, `n` times. -/
def repeated (n : Nat) (text : String) : String :=
  if text = "" then "" else String.join (List.replicate n text)

mutual
/-- The parser that a recipe describes. -/
def Recipe.parserWith (rules : RuleParsers) :
    Recipe → {ι : Type} → {τ : ι → Type} → Scope τ → Parser τ Value
  | .literal text, _, _, _ => (Parser.literal text).map .text
  | .pure value, _, _, _ => .pure value
  | .fail, _, _, _ => .fail
  | .or a b, _, _, scope => .or (a.parserWith rules scope) (b.parserWith rules scope)
  | .seq a b, _, _, scope =>
    ((a.parserWith rules scope).seq (b.parserWith rules scope)).map fun (x, y) => .pair x y
  | .keepLeft a b, _, _, scope => (a.parserWith rules scope).keepLeft (b.parserWith rules scope)
  | .keepRight a b, _, _, scope => (a.parserWith rules scope).keepRight (b.parserWith rules scope)
  | .map of f, _, _, scope => (of.parserWith rules scope).map f.apply
  | .any of, _, _, scope => .any (parsersWith rules of scope)
  | .many of, _, _, scope => (of.parserWith rules scope).many.map .list
  | .many1 of, _, _, scope => (of.parserWith rules scope).many1.map .list
  | .label of name, _, _, scope => (of.parserWith rules scope).label name
  | .chain of step, _, _, scope => (of.parserWith rules scope).chain (step.parserWith rules scope)
  | .lazy rule, _, _, scope => rules rule scope
  | .recursive name of, _, _, scope => .recursive (of.parserWith rules (scope.enter name))
  | .ref name, _, _, scope => scope.find name
  | .rule name, _, _, _ => Bundle.standard.parser name
  | .take n, _, _, _ => .leaf (takeChars n)
  | .leak n, _, _, _ => .leaf (leakChars n)
  | .eof, _, _, _ => .leaf endOfInput
  | .pos, _, _, _ => .leaf position

/-- The parsers that the recipes describe. -/
def parsersWith (rules : RuleParsers) :
    List Recipe → {ι : Type} → {τ : ι → Type} → Scope τ → List (Parser τ Value)
  | [], _, _, _ => []
  | recipe :: recipes, _, _, scope => recipe.parserWith rules scope :: parsersWith rules recipes scope

/-- The parser that a step goes on with after a value. -/
def Step.parserWith (rules : RuleParsers) :
    Step → {ι : Type} → {τ : ι → Type} → Scope τ → Value → Parser τ Value
  | .same, _, _, _ => fun v => (Parser.literal v.asText).map .text
  | .repeated text, _, _, _ => fun v =>
    match v with
    | .int n => if 0 ≤ n then (Parser.literal (repeated n.toInt.toNat text)).map .text else .fail
    | _ => .fail
  | .pure f, _, _, _ => fun v => .pure (f.apply v)
  | .next recipe, _, _, scope => let p := recipe.parserWith rules scope; fun _ => p
  | .switch cases otherwise, _, _, scope =>
    let ps := casesWith rules cases scope
    let p := otherwise.parserWith rules scope
    fun v => (ps.lookup v.written).getD p

/-- The parsers of the cases of a switch. -/
def casesWith (rules : RuleParsers) :
    List (Written × Recipe) → {ι : Type} → {τ : ι → Type} → Scope τ → List (Written × Parser τ Value)
  | [], _, _, _ => []
  | (form, recipe) :: cases, _, _, scope =>
    (form, recipe.parserWith rules scope) :: casesWith rules cases scope
end

/-! ### Rulebooks -/

/-- Recipes by name. -/
abbrev Rulebook := List (String × Recipe)

namespace Rulebook

/-- The parsers of the recipes, of which at most `depth` are open within each other. A recipe sees the names of
    the scope in which it is used. A name without a recipe never matches. -/
def parsers (rules : Rulebook) : Nat → RuleParsers
  | 0, _, _, _, _ => .leaf fun _ _ => .halted .tooDeep
  | depth + 1, name, _, _, scope =>
    match rules.lookup name with
    | some recipe => .lazy fun _ => recipe.parserWith (rules.parsers depth) scope
    | none => .fail

/-- How many recipes may be open within each other. A recipe that is open may be used again at the same place,
    in a scope where its names mean something else. In this way recipes can count, so no bound follows from the
    length of a text. This one lies beyond what a memory holds. -/
def openLimit : Nat := Nat.pow 2 32

end Rulebook

/-- The parser that a recipe describes in a scope, with the recipes of a rulebook. -/
def Recipe.parser {ι : Type} {τ : ι → Type} (recipe : Recipe) (rules : Rulebook) (scope : Scope τ) :
    Parser τ Value :=
  recipe.parserWith (rules.parsers Rulebook.openLimit) scope

/-! ### Whole descriptions -/

/-- What the parser that a recipe describes makes of each of `inputs`. -/
def Recipe.outcomes (recipe : Recipe) (rules : Rulebook) (inputs : List String) :
    List (Parser.Outcome Value) :=
  let parser : Parser.Closed Value := recipe.parser rules []
  inputs.map parser.run

/-- The rules over numbers and spaces that recipes describe, where they do. -/
def customBundle {ι : Type} {τ : ι → Type} (wiring : Wiring) (rules : Rulebook)
    (number space : Option Recipe) : Bundle τ :=
  wiring.bundle
    (match number with
    | some recipe => (recipe.parser rules []).map Value.asFloat
    | none => Arithmetic.number)
    (match space with
    | some recipe => (recipe.parser rules []).map Value.asText
    | none => Arithmetic.spaces)

end Reckoner.Workbench
