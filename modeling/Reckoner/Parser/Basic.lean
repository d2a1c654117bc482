import Reckoner.Parser.State

/-! Parsers as terms. A parser may refer to handles, which stand for parsers that are known only when it
    runs: `τ i` is the type of what handle `i` yields. `recursive` binds one more handle, `none`, which
    stands for the recursive parser itself. That a parser is a term, and not a function on states, lets
    one speak about all parsers that are built from these parts. -/

namespace Reckoner

/-- The handles in the body of a recursive parser that yields an `α`: its own, and those around it. -/
def Extended {ι : Type} (α : Type) (τ : ι → Type) : Option ι → Type
  | none => α
  | some i => τ i

/-- Parsers that yield an `α` and refer to handles of the types `τ`. -/
inductive Parser : {ι : Type} → (ι → Type) → Type → Type 1 where
  /-- Matches `text` exactly. -/
  | literal {ι} {τ : ι → Type} (text : String) : Parser τ String
  /-- Yields `value` and consumes nothing. -/
  | pure {ι} {τ : ι → Type} {α} (value : α) : Parser τ α
  /-- Never matches. -/
  | fail {ι} {τ : ι → Type} {α} : Parser τ α
  /-- A parser of one's own, given by what it answers on a text in a state. -/
  | leaf {ι} {τ : ι → Type} {α} (action : List Char → Parser.State → Parser.Reply α) : Parser τ α
  /-- Runs `p` and then the parser that `step` makes of its value. When that one fails, the cursor goes
      back to the start. -/
  | chain {ι} {τ : ι → Type} {α β} (p : Parser τ α) (step : α → Parser τ β) : Parser τ β
  /-- Applies `f` to what `p` yields. -/
  | map {ι} {τ : ι → Type} {α β} (p : Parser τ α) (f : α → β) : Parser τ β
  /-- Runs `p` and, when it fails, `q` from the same start. -/
  | or {ι} {τ : ι → Type} {α} (p q : Parser τ α) : Parser τ α
  /-- Names `p`: when it fails, what was expected at its start is reported as `name`. -/
  | label {ι} {τ : ι → Type} {α} (p : Parser τ α) (name : String) : Parser τ α
  /-- Runs the parser that `make` makes, which is put together only then. -/
  | lazy {ι} {τ : ι → Type} {α} (make : Unit → Parser τ α) : Parser τ α
  /-- Runs the parser that handle `i` stands for. -/
  | handle {ι} {τ : ι → Type} (i : ι) : Parser τ (τ i)
  /-- Runs `body`, whose handle `none` stands for the whole. -/
  | recursive {ι} {τ : ι → Type} {α} (body : Parser (Extended α τ) α) : Parser τ α
  /-- Runs `p` in the body of a recursive parser, whose own handle it does not use. -/
  | weaken {ι} {τ : ι → Type} {α β} (p : Parser τ α) : Parser (Extended β τ) α

namespace Parser
variable {ι : Type} {τ : ι → Type} {α β : Type}

/-- The recursive parser, in its own body. -/
def self : Parser (Extended α τ) α := .handle none

/-- Runs `p` and then `q`; yields both values. -/
def seq (p : Parser τ α) (q : Parser τ β) : Parser τ (α × β) := p.chain fun a => q.map fun b => (a, b)

/-- Runs `p` and then `q`; yields the value of `p`. -/
def keepLeft (p : Parser τ α) (q : Parser τ β) : Parser τ α := p.chain fun a => q.map fun _ => a

/-- Runs `p` and then `q`; yields the value of `q`. -/
def keepRight (p : Parser τ α) (q : Parser τ β) : Parser τ β := p.chain fun _ => q

/-- The first of `ps` that matches. -/
def any : List (Parser τ α) → Parser τ α
  | [] => .fail
  | p :: ps => ps.foldl .or p

/-- What is true of all of the parsers and kept by `or` is true of the first one that matches. -/
theorem any_induction {P : Parser τ α → Prop} (fail : P .fail) (or : ∀ p q, P p → P q → P (.or p q))
    {ps : List (Parser τ α)} (h : ∀ p ∈ ps, P p) : P (.any ps) := by
  cases ps with
  | nil => exact fail
  | cons p ps =>
    show P (ps.foldl .or p)
    induction ps generalizing p with
    | nil => exact h p (by simp)
    | cons q ps ih =>
      -- The first two are one alternative for those that come after them.
      refine ih (.or p q) fun r hr => ?_
      rcases List.mem_cons.mp hr with rfl | hr
      · exact or p q (h p (by simp)) (h q (by simp))
      · exact h r (by simp [hr])

/-- Runs `p` and then `q`; yields the value of `p` in front of the values of `q`. -/
def cons (p : Parser τ α) (q : Parser τ (List α)) : Parser τ (List α) :=
  (p.seq q).map fun values => values.1 :: values.2

/-- Runs `p` as often as it matches. -/
def many (p : Parser τ α) : Parser τ (List α) :=
  .recursive (.or (p.weaken.cons self) (.pure []))

/-- Runs `p` as often as it matches, and at least once. -/
def many1 (p : Parser τ α) : Parser τ (List α) := p.cons p.many

end Parser
end Reckoner
