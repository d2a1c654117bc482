import Reckoner.Parser.Basic

/-! Execution. A parser runs on a text, in a state, with a meaning for each of its handles. Recursion is
    bounded: a recursive parser may refer to itself at most `depth` times within itself, and then the run
    halts. Where recursion consumes some of the text before it comes back, a depth just above the length
    of the text is never reached; where it consumes nothing, no depth would do. -/

namespace Reckoner.Parser
variable {ι : Type} {τ : ι → Type} {α : Type}

/-- What the handles of a parser stand for. -/
abbrev Environment (τ : ι → Type) := (i : ι) → State → Reply (τ i)

/-- The environment in the body of a recursive parser that means `self`. -/
def Environment.extend (self : State → Reply α) (env : Environment τ) : Environment (Extended α τ)
  | none => self
  | some i => env i

/-- The recursive meaning given by `unfold`, cut off after `depth` unfoldings. -/
def tie : Nat → ((State → Reply α) → State → Reply α) → State → Reply α
  | 0, _, _ => .halted .tooDeep
  | depth + 1, unfold, s => unfold (tie depth unfold) s

/-- Matches `expected` at the cursor, or notes it as a literal between single quotes. -/
def matchLiteral (expected : String) (text : List Char) (s : State) : Reply String :=
  match s.rest? text with
  | none => .halted .badOffset
  | some rest =>
    if expected.toList.isPrefixOf rest then
      match s.advance? text (Text.byteLength expected.toList) with
      | none => .halted .badOffset
      | some t => .matched expected t
    else .noMatch (s.expect s!"'{expected}'")

/-- What `p` answers on `text` in the state `s`. -/
def exec (text : List Char) (depth : Nat) :
    {ι : Type} → {τ : ι → Type} → {α : Type} → Parser τ α → Environment τ → State → Reply α
  | _, _, _, .literal expected, _, s => matchLiteral expected text s
  | _, _, _, .pure value, _, s => .matched value s
  | _, _, _, .fail, _, s => .noMatch s
  | _, _, _, .leaf action, _, s => action text s
  | _, _, _, .chain p step, env, s =>
    (exec text depth p env s).andThen fun a t => (exec text depth (step a) env t).restore s.offset
  | _, _, _, .map p f, env, s => (exec text depth p env s).map f
  | _, _, _, .or p q, env, s =>
    (exec text depth p env s).orElse fun t => exec text depth q env (t.restore s.offset)
  | _, _, _, .label p name, env, s => (exec text depth p env s).label name s.offset
  | _, _, _, .lazy make, env, s => exec text depth (make ()) env s
  | _, τ, _, @Parser.handle _ .(τ) i, env, s => env i s
  | _, _, _, .recursive body, env, s =>
    tie depth (fun self => exec text depth body (env.extend self)) s
  | _, _, _, .weaken p, env, s => exec text depth p (fun i => env (some i)) s

section
variable {β : Type} (text : List Char) (depth : Nat) (env : Environment τ) (s : State)

@[simp] theorem tie_zero (unfold : (State → Reply α) → State → Reply α) :
    tie 0 unfold s = .halted .tooDeep := rfl

@[simp] theorem tie_succ (unfold : (State → Reply α) → State → Reply α) :
    tie (depth + 1) unfold s = unfold (tie depth unfold) s := rfl

@[simp] theorem exec_literal (expected : String) :
    exec text depth (.literal expected) env s = matchLiteral expected text s := rfl

@[simp] theorem exec_pure (value : α) : exec text depth (.pure value) env s = .matched value s := rfl

@[simp] theorem exec_fail : exec text depth (.fail : Parser τ α) env s = .noMatch s := rfl

@[simp] theorem exec_leaf (action : List Char → State → Reply α) :
    exec text depth (.leaf action) env s = action text s := rfl

@[simp] theorem exec_chain (p : Parser τ α) (step : α → Parser τ β) :
    exec text depth (.chain p step) env s =
      (exec text depth p env s).andThen fun a t => (exec text depth (step a) env t).restore s.offset := rfl

@[simp] theorem exec_map (p : Parser τ α) (f : α → β) :
    exec text depth (.map p f) env s = (exec text depth p env s).map f := rfl

@[simp] theorem exec_or (p q : Parser τ α) :
    exec text depth (.or p q) env s =
      (exec text depth p env s).orElse fun t => exec text depth q env (t.restore s.offset) := rfl

theorem exec_any_concat (ps : List (Parser τ α)) (q : Parser τ α) :
    exec text depth (.any (ps ++ [q])) env s = exec text depth (.or (.any ps) q) env s := by
  cases ps with
  | nil => rfl
  | cons p ps =>
    have hfold : Parser.any (p :: ps ++ [q]) = .or (.any (p :: ps)) q := List.foldl_append
    rw [hfold]

@[simp] theorem exec_label (p : Parser τ α) (name : String) :
    exec text depth (.label p name) env s = (exec text depth p env s).label name s.offset := rfl

@[simp] theorem exec_lazy (make : Unit → Parser τ α) :
    exec text depth (.lazy make) env s = exec text depth (make ()) env s := rfl

@[simp] theorem exec_handle (i : ι) : exec text depth (.handle i) env s = env i s := rfl

@[simp] theorem exec_recursive (body : Parser (Extended α τ) α) :
    exec text depth (.recursive body) env s =
      tie depth (fun self => exec text depth body (env.extend self)) s := rfl

@[simp] theorem exec_weaken (p : Parser τ α) (self : State → Reply β) :
    exec text depth p.weaken (env.extend self) s = exec text depth p env s := rfl

@[simp] theorem exec_self (self : State → Reply α) :
    exec text depth (.self : Parser (Extended α τ) α) (env.extend self) s = self s := rfl

end

/-! ### Definitions of handles -/

/-- Parsers for handles, some of which may still lack one; those that have one are among `defined`. -/
structure Definitions (τ : ι → Type) where
  parser? : (i : ι) → Option (Parser τ (τ i))
  defined : List ι
  mem_defined : ∀ i, (parser? i).isSome → i ∈ defined

namespace Definitions

/-- No handle has a parser. -/
def empty : Definitions τ := ⟨fun _ => none, [], by simp⟩

/-- Gives handle `i` the parser `p`, unless it has one already: the first definition counts. -/
def define [DecidableEq ι] (d : Definitions τ) (i : ι) (p : Parser τ (τ i)) : Definitions τ where
  parser? j := (d.parser? j).or (if h : i = j then some (h ▸ p) else none)
  defined := if (d.parser? i).isSome then d.defined else i :: d.defined
  mem_defined j hj := by
    cases hd : d.parser? j with
    | some q =>
      have := d.mem_defined j (by simp [hd])
      split <;> simp [this]
    | none =>
      by_cases h : i = j
      · subst h
        simp [hd]
      · simp [hd, h] at hj

/-- What the handles mean: their parsers, of which at most `depth` run within each other. A handle without a
    parser never matches. -/
def environment (d : Definitions τ) (text : List Char) : Nat → Environment τ
  | 0, _, _ => .halted .tooDeep
  | depth + 1, i, s =>
    match d.parser? i with
    | none => .noMatch s
    | some p => exec text depth p (d.environment text depth) s

/-- A depth that suffices on `text` wherever recursion consumes some of it: each handle may be running once
    at each position. -/
def depth (d : Definitions τ) (text : List Char) : Nat := (d.defined.length + 1) * (Text.byteLength text + 2)

section
variable [DecidableEq ι] (d : Definitions τ) (i : ι) (p : Parser τ (τ i))

theorem parser?_define_self : (d.define i p).parser? i = some ((d.parser? i).getD p) := by
  cases h : d.parser? i <;> simp [define, h]

theorem parser?_define_of_ne {j : ι} (h : i ≠ j) : (d.define i p).parser? j = d.parser? j := by
  simp [define, h]

end

end Definitions
end Reckoner.Parser
