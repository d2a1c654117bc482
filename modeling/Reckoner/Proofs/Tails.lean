import Reckoner.Proofs.Alternatives
import Reckoner.Proofs.Loops
import Reckoner.Proofs.Operators

/-! What follows a first operand is a loop. The rule for a tail calls itself behind each operator, and puts its fold
    together from the last operator backwards; the loop tries the operators in order at the cursor, takes the first
    one that is followed by an operand into the value so far and goes on behind it. Both do the same with every
    value and in every state, whatever spaces and operands are and wherever they leave the cursor when they fail. -/

namespace Reckoner.Arithmetic
open Reckoner.Parser

variable {ι : Type} {τ : ι → Type}

/-! ### Operations -/

section
variable (text : List Char) (space : State → Reply String) (operand : State → Reply Float)

/-- An operator with its right operand, each after spaces. Every part begins where the one before it ended, and the
    cursor stays where the part left it that failed. -/
def operation (operator : Operator) (s : State) : Reply (Operator × Float) :=
  (space s).andThen fun _ t =>
    (matchLiteral operator.symbol text t).andThen fun _ t =>
      (space t).andThen fun _ t => (operand t).map fun right => (operator, right)

/-- The first of the operators that is there with its right operand. -/
def nextOperation (operators : List Operator) (s : State) : Reply (Operator × Float) :=
  attempt s.offset (operators.map (operation text space operand)) s

end

/-- What an operation does to the value of its left operand. -/
def applyOperation (value : Float) (step : Operator × Float) : Float := step.1.apply value step.2

/-- The fold that begins with an operation. -/
def prependOperation (step : Operator × Float) (fold : Fold) : Fold := fun value => fold (applyOperation value step)

/-! ### The rule -/

section
variable (text : List Char) (depth : Nat) (env : Environment τ) (space : Parser τ String) (operand : Parser τ Float)

/-- But for where it leaves the cursor when it fails, a binary operator is such an operation. -/
theorem exec_binary_restore (operator : Operator) (s : State) :
    ((exec text depth (binary operator.symbol space operand) env s).map fun right => (operator, right)).restore s.offset =
      (operation text (exec text depth space env) (exec text depth operand env) operator s).restore s.offset := by
  simp only [binary, keepRight, exec_chain, exec_literal, operation]
  cases exec text depth space env s with
  | noMatch _ | halted _ => rfl
  | matched _ t =>
    simp only [Reply.andThen_matched]
    cases matchLiteral operator.symbol text t with
    | noMatch _ | halted _ => rfl
    | matched _ t =>
      simp only [Reply.andThen_matched, Reply.restore_matched]
      cases exec text depth space env t with
      | noMatch _ | halted _ => rfl
      | matched _ t =>
        simp only [Reply.andThen_matched, Reply.restore_matched]
        cases exec text depth operand env t <;> rfl

variable {self : State → Reply Fold} (hself : ∀ s t, self s ≠ .noMatch t)
include hself

/-- An operator and then the tail itself, which never fails, so that nothing is put back. -/
theorem exec_further (operator : Operator) (s : State) :
    exec text depth (further space operand operator) (env.extend self) s =
      ((exec text depth (binary operator.symbol space operand) env s).map fun right => (operator, right)).andThen
        fun step t => (self t).map (prependOperation step) := by
  have hbinary : exec text depth (binary operator.symbol space.weaken operand.weaken) (env.extend self) s =
      exec text depth (binary operator.symbol space operand) env s := rfl
  simp only [further, Parser.seq, exec_map, exec_chain, exec_self, hbinary]
  cases exec text depth (binary operator.symbol space operand) env s with
  | noMatch _ | halted _ => rfl
  | matched right t =>
    simp only [Reply.andThen_matched, Reply.map_matched]
    cases h : self t with
    | noMatch u => exact absurd h (hself t u)
    | matched _ _ | halted _ => rfl

theorem exec_tail_body (operators : List Operator) (s : State) :
    exec text depth (.any (operators.map (further space operand) ++ [.pure id])) (env.extend self) s =
      unwind (nextOperation text (exec text depth space env) (exec text depth operand env) operators)
        prependOperation id self s := by
  have hnext : ∀ (step : Operator × Float) t u, (self t).map (prependOperation step) ≠ .noMatch u := by
    intro step t u
    cases h : self t with
    | noMatch v => exact absurd h (hself t v)
    | matched _ _ | halted _ => simp
  have hfurther : (operators.map (further space operand)).map (fun q => exec text depth q (env.extend self)) =
      (operators.map fun operator s =>
        (exec text depth (binary operator.symbol space operand) env s).map fun right => (operator, right)).map
          fun p s => (p s).andThen fun step t => (self t).map (prependOperation step) := by
    simp only [List.map_map]
    refine List.map_congr_left fun operator _ => funext fun s => ?_
    exact exec_further text depth env space operand hself operator s
  rw [exec_any, List.map_append, hfurther, List.map_singleton, attempt_concat, attempt_andThen hnext]
  refine unwind_congr ?_
  refine attempt_restore_congr (fun operator t ht => ?_) rfl
  rw [← ht]
  exact exec_binary_restore text depth env space operand operator t

end

section
variable (text : List Char) (depth : Nat) (env : Environment τ) (operators : List Operator) (space : Parser τ String)
  (operand : Parser τ Float) (s : State)

theorem exec_tail_ne_noMatch (t : State) : exec text depth (tail operators space operand) env s ≠ .noMatch t :=
  tie_ne_noMatch (fun _ hself => exec_tail_body text depth env space operand hself operators) depth s t

/-- At every bound the fold does to a value what the loop does that is cut off after as many rounds. -/
theorem map_exec_tail (value : Float) :
    (exec text depth (tail operators space operand) env s).map (fun fold => fold value) =
      loop (nextOperation text (exec text depth space env) (exec text depth operand env) operators) applyOperation
        depth value s :=
  map_tie_eq_loop (fun _ hself => exec_tail_body text depth env space operand hself operators)
    (fun fold value => fold value) (fun _ => rfl) (fun _ _ _ => rfl) depth value s

end

/-- A tail never fails. Its fold takes every value to the value with which the loop ends that begins with it: the loop
    takes the first operator that is at the cursor with its right operand, each after spaces, applies it to the value
    so far and goes on behind it; when there is none, it puts the cursor back to where it looked for one, and ends.
    The tail leaves the state that the loop leaves, at every bound; so it comes to its end where the loop does. This
    holds of all operators, and of any spaces and operands, wherever they leave the cursor. -/
theorem tail_eq_loop (operators : List Operator) (space : Parser τ String) (operand : Parser τ Float)
    (d : Definitions τ) (text : List Char) (s : State) :
    let answer (depth : Nat) := exec text depth (tail operators space operand) (d.environment text depth) s
    let result (depth : Nat) (value : Float) :=
      loop (nextOperation text (exec text depth space (d.environment text depth))
        (exec text depth operand (d.environment text depth)) operators) applyOperation depth value s
    (∀ depth t, answer depth ≠ .noMatch t) ∧
      (∀ depth value, (answer depth).map (fun fold => fold value) = result depth value) ∧
      (∀ fold t, Answers d text (tail operators space operand) s (.matched fold t) →
        ∀ᶠ depth in Filter.atTop, ∀ value, result depth value = .matched (fold value) t) ∧
      ∀ depth value, result depth value ≠ .halted .tooDeep →
        Answers d text (tail operators space operand) s (answer depth) := by
  intro answer result
  have hresult : ∀ depth value, (answer depth).map (fun fold => fold value) = result depth value := fun depth =>
    map_exec_tail text depth (d.environment text depth) operators space operand s
  refine ⟨fun depth => exec_tail_ne_noMatch text depth _ operators space operand s, hresult, fun fold t h => ?_,
    fun depth value h => ⟨fun hcut => h ?_, depth, rfl⟩⟩
  · filter_upwards [h.below.resolve_left h.1] with depth hdepth value
    rw [← hresult, show answer depth = _ from hdepth, Reply.map_matched]
  · rw [← hresult, hcut, Reply.map_halted]

end Reckoner.Arithmetic
