import Reckoner.Parser.Run

/-! Runs that are looked at. How a run ends does not show what happened in it, least of all in alternatives
    that were given up. `observe` runs a parser as `exec` does and also collects the moments of the run, in
    their order: calls of handles and entries of recursive parsers, with all that was running at the time, and
    failures of leaves. -/

namespace Reckoner.Parser
variable {ι : Type} {τ : ι → Type} {α β : Type}

/-- What is worth telling of a run. -/
inductive Moment where
  /-- A handle was called at `offset`. The handles and recursive parsers that were running by then had been
      entered at `active`, the latest first. -/
  | called (offset : Nat) (active : List Nat)
  /-- A recursive parser was entered at `offset`, called by its own handle or not. -/
  | entered (offset : Nat) (active : List Nat)
  /-- A leaf that was started at `start` failed and left the cursor at `stop`. -/
  | leafFailed (start stop : Nat)
  deriving DecidableEq, Repr

/-- What a run answered, and its moments. -/
structure Observed (α : Type) where
  reply : Reply α
  moments : List Moment

namespace Observed

/-- Goes on after a match. -/
def andThen (r : Observed α) (next : α → State → Observed β) : Observed β :=
  match r.reply with
  | .matched a s => ⟨(next a s).reply, r.moments ++ (next a s).moments⟩
  | .noMatch s => ⟨.noMatch s, r.moments⟩
  | .halted f => ⟨.halted f, r.moments⟩

/-- Goes on after a failure. -/
def orElse (r : Observed α) (next : State → Observed α) : Observed α :=
  match r.reply with
  | .matched a s => ⟨.matched a s, r.moments⟩
  | .noMatch s => ⟨(next s).reply, r.moments ++ (next s).moments⟩
  | .halted f => ⟨.halted f, r.moments⟩

/-- Changes the reply and nothing else. -/
def on (r : Observed α) (f : Reply α → Reply β) : Observed β := ⟨f r.reply, r.moments⟩

/-- The moment `m`, and then the run. -/
def after (r : Observed α) (m : Moment) : Observed α := ⟨r.reply, m :: r.moments⟩

/-- The call of a handle that stands for `meaning`. -/
def call (meaning : List Nat → State → Observed α) (active : List Nat) (s : State) : Observed α :=
  (meaning active s).after (.called s.offset active)

/-- The answer of a leaf that was started at `start`. -/
def leaf (start : Nat) (r : Reply α) : Observed α :=
  ⟨r, match r with
    | .noMatch t => [.leafFailed start t.offset]
    | _ => []⟩

variable {r : Observed α}

@[simp] theorem andThen_reply {next : α → State → Observed β} :
    (r.andThen next).reply = r.reply.andThen fun a s => (next a s).reply := by
  unfold andThen
  cases r.reply <;> rfl

@[simp] theorem orElse_reply {next : State → Observed α} :
    (r.orElse next).reply = r.reply.orElse fun s => (next s).reply := by
  unfold orElse
  cases r.reply <;> rfl

@[simp] theorem on_reply {f : Reply α → Reply β} : (r.on f).reply = f r.reply := rfl

@[simp] theorem on_moments {f : Reply α → Reply β} : (r.on f).moments = r.moments := rfl

@[simp] theorem after_reply {m : Moment} : (r.after m).reply = r.reply := rfl

@[simp] theorem call_reply {meaning : List Nat → State → Observed α} {active : List Nat} {s : State} :
    (call meaning active s).reply = (meaning active s).reply := rfl

@[simp] theorem leaf_reply {start : Nat} {r : Reply α} : (leaf start r).reply = r := rfl

theorem mem_andThen {next : α → State → Observed β} {m : Moment} :
    m ∈ (r.andThen next).moments ↔ m ∈ r.moments ∨ ∃ a s, r.reply = .matched a s ∧ m ∈ (next a s).moments := by
  unfold andThen
  cases h : r.reply <;> simp [and_assoc]

theorem mem_orElse {next : State → Observed α} {m : Moment} :
    m ∈ (r.orElse next).moments ↔ m ∈ r.moments ∨ ∃ s, r.reply = .noMatch s ∧ m ∈ (next s).moments := by
  unfold orElse
  cases h : r.reply <;> simp

theorem mem_after {m m' : Moment} : m ∈ (r.after m').moments ↔ m = m' ∨ m ∈ r.moments := List.mem_cons

theorem mem_leaf {start : Nat} {r : Reply α} {m : Moment} :
    m ∈ (leaf start r).moments ↔ ∃ t, r = .noMatch t ∧ m = .leafFailed start t.offset := by
  cases r <;> simp [leaf]

end Observed

/-! ### Observed runs -/

/-- What the handles of a parser stand for, when their runs are looked at: they are told where the parsers
    that are running were entered. -/
abbrev ObservedEnvironment (τ : ι → Type) := (i : ι) → List Nat → State → Observed (τ i)

/-- The environment in the body of a recursive parser that means `self`. -/
def ObservedEnvironment.extend (self : List Nat → State → Observed α) (env : ObservedEnvironment τ) :
    ObservedEnvironment (Extended α τ)
  | none => self
  | some i => env i

/-- Enters the recursive parser given by `unfold`, cut off after `depth` unfoldings. -/
def enter : Nat → ((List Nat → State → Observed α) → List Nat → State → Observed α) →
    List Nat → State → Observed α
  | 0, _, _, _ => ⟨.halted .tooDeep, []⟩
  | depth + 1, unfold, active, s =>
    (unfold (.call (enter depth unfold)) (s.offset :: active) s).after (.entered s.offset active)

/-- What happens when `p` runs on `text` in the state `s`, while the parsers entered at `active` are
    running. -/
def observe (text : List Char) (depth : Nat) : {ι : Type} → {τ : ι → Type} → {α : Type} →
    Parser τ α → ObservedEnvironment τ → List Nat → State → Observed α
  | _, _, _, .literal expected, _, _, s => ⟨matchLiteral expected text s, []⟩
  | _, _, _, .pure value, _, _, s => ⟨.matched value s, []⟩
  | _, _, _, .fail, _, _, s => ⟨.noMatch s, []⟩
  | _, _, _, .leaf action, _, _, s => .leaf s.offset (action text s)
  | _, _, _, .chain p step, env, active, s =>
    (observe text depth p env active s).andThen fun a t =>
      (observe text depth (step a) env active t).on (·.restore s.offset)
  | _, _, _, .map p f, env, active, s => (observe text depth p env active s).on (·.map f)
  | _, _, _, .or p q, env, active, s =>
    (observe text depth p env active s).orElse fun t => observe text depth q env active (t.restore s.offset)
  | _, _, _, .label p name, env, active, s =>
    (observe text depth p env active s).on (·.label name s.offset)
  | _, _, _, .lazy make, env, active, s => observe text depth (make ()) env active s
  | _, τ, _, @Parser.handle _ .(τ) i, env, active, s => env i active s
  | _, _, _, .recursive body, env, active, s =>
    enter depth (fun self => observe text depth body (env.extend self)) active s
  | _, _, _, .weaken p, env, active, s => observe text depth p (fun i => env (some i)) active s

/-- What happens when handles are called whose parsers are those of `d`, of which at most `depth` run within
    each other. -/
def Definitions.observed (d : Definitions τ) (text : List Char) : Nat → ObservedEnvironment τ
  | 0, _, _, _ => ⟨.halted .tooDeep, []⟩
  | depth + 1, i, active, s =>
    .call (fun active s =>
      match d.parser? i with
      | none => ⟨.noMatch s, []⟩
      | some p => observe text depth p (d.observed text depth) (s.offset :: active) s) active s

/-! ### Looking changes nothing -/

section
variable {text : List Char} {depth : Nat}

theorem enter_reply {unfold : (List Nat → State → Observed α) → List Nat → State → Observed α}
    {unfold' : (State → Reply α) → State → Reply α}
    (h : ∀ (self : List Nat → State → Observed α) (self' : State → Reply α),
      (∀ active s, (self active s).reply = self' s) → ∀ active s, (unfold self active s).reply = unfold' self' s) :
    ∀ (k : Nat) (active : List Nat) (s : State), (enter k unfold active s).reply = tie k unfold' s
  | 0, _, _ => rfl
  | k + 1, active, s => by
    refine h _ _ (fun active' t => ?_) _ s
    rw [Observed.call_reply, enter_reply h k]

theorem observe_reply (p : Parser τ α) {env : ObservedEnvironment τ} {env' : Environment τ}
    (henv : ∀ i active s, (env i active s).reply = env' i s) (active : List Nat) (s : State) :
    (observe text depth p env active s).reply = exec text depth p env' s := by
  induction p generalizing active s with
  | literal _ | pure _ | fail | leaf _ => rfl
  | chain p f ihp ihf =>
    simp only [observe, Observed.andThen_reply, Observed.on_reply, exec_chain, ihp henv, ihf _ henv]
  | map p f ih => simp only [observe, Observed.on_reply, exec_map, ih henv]
  | or p q ihp ihq => simp only [observe, Observed.orElse_reply, exec_or, ihp henv, ihq henv]
  | label p name ih => simp only [observe, Observed.on_reply, exec_label, ih henv]
  | lazy make ih => exact ih () henv active s
  | handle i => exact henv i active s
  | recursive body ih =>
    refine enter_reply (fun self self' hself active t => ih (fun i active u => ?_) active t) depth active s
    cases i with
    | none => exact hself active u
    | some i => exact henv i active u
  | weaken p ih => exact ih (fun i => henv (some i)) active s

theorem observed_reply (d : Definitions τ) (i : ι) (active : List Nat) (s : State) :
    (d.observed text depth i active s).reply = d.environment text depth i s := by
  induction depth generalizing i active s with
  | zero => rfl
  | succ depth ih =>
    simp only [Definitions.observed, Definitions.environment, Observed.call_reply]
    cases d.parser? i with
    | none => rfl
    | some p => exact observe_reply p ih _ s

end

end Reckoner.Parser
