import Reckoner.Parser.Exec

/-! Alternatives in their order. The first of several parsers that matches is found by trying one after the other,
    each from the place where the first one was tried, until one does not fail. -/

namespace Reckoner.Parser
variable {ι : Type} {τ : ι → Type} {α β : Type}

/-- Tries the alternatives in order, each with the cursor at `start`, up to the first one that does not fail. -/
def attempt (start : Nat) : List (State → Reply α) → State → Reply α
  | [], s => .noMatch s
  | p :: ps, s => (p (s.restore start)).orElse (attempt start ps)

section
variable {start : Nat} {ps : List (State → Reply α)} {s : State}

theorem attempt_concat (q : State → Reply α) :
    attempt start (ps ++ [q]) s = (attempt start ps s).orElse fun t => q (t.restore start) := by
  induction ps generalizing s with
  | nil =>
    show (q (s.restore start)).orElse _ = q (s.restore start)
    cases q (s.restore start) <;> rfl
  | cons p ps ih =>
    rw [List.cons_append, attempt, attempt]
    cases p (s.restore start) with
    | noMatch t => exact ih
    | matched _ _ | halted _ => rfl

/-- What always goes on after an alternative that matches may as well go on after all of them. -/
theorem attempt_andThen {next : α → State → Reply β} (hnext : ∀ a t u, next a t ≠ .noMatch u) :
    attempt start (ps.map fun p s => (p s).andThen next) s = (attempt start ps s).andThen next := by
  induction ps generalizing s with
  | nil => rfl
  | cons p ps ih =>
    rw [List.map_cons, attempt, attempt]
    cases p (s.restore start) with
    | matched a t =>
      simp only [Reply.andThen_matched, Reply.orElse_matched]
      cases h : next a t with
      | noMatch u => exact absurd h (hnext a t u)
      | matched _ _ | halted _ => rfl
    | noMatch t => exact ih
    | halted fault => rfl

/-- Where the alternatives leave the cursor when they fail makes a difference for the last one only. -/
theorem attempt_restore_congr {κ : Type} {is : List κ} {p q : κ → State → Reply α} {s t : State}
    (h : ∀ i s, s.offset = start → (p i s).restore start = (q i s).restore start)
    (hst : s.restore start = t.restore start) :
    (attempt start (is.map p) s).restore start = (attempt start (is.map q) t).restore start := by
  induction is generalizing s t with
  | nil => exact congrArg Reply.noMatch hst
  | cons i is ih =>
    have hi := h i (s.restore start) rfl
    simp only [List.map_cons, attempt, ← hst]
    cases hp : p i (s.restore start) <;> cases hq : q i (s.restore start) <;> rw [hp, hq] at hi
    case noMatch.noMatch t u => exact ih (Reply.noMatch.inj hi)
    all_goals cases hi <;> rfl

end

section
variable (text : List Char) (depth : Nat) (env : Environment τ)

theorem exec_foldl_or (p : Parser τ α) (ps : List (Parser τ α)) (s : State) :
    exec text depth (ps.foldl .or p) env s =
      (exec text depth p env s).orElse (attempt s.offset (ps.map fun q => exec text depth q env)) := by
  induction ps generalizing p with
  | nil => cases h : exec text depth p env s <;> simp [h, attempt]
  | cons q ps ih =>
    rw [List.foldl_cons, ih, exec_or]
    cases exec text depth p env s <;> rfl

/-- The first of the parsers that matches is found by trying them in order. -/
theorem exec_any (ps : List (Parser τ α)) (s : State) :
    exec text depth (.any ps) env s = attempt s.offset (ps.map fun q => exec text depth q env) s := by
  cases ps with
  | nil => rfl
  | cons p ps => exact exec_foldl_or text depth env p ps s

end

end Reckoner.Parser
