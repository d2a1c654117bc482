import Reckoner.Proofs.Operators

/-! What the rules of arithmetic recognize: each reads every word in some way, without going too deep, and what
    it consumes when it matches is derivable from it. -/

namespace Reckoner.Arithmetic
open Reckoner.Parser Reckoner.Arithmetic.Derivation
open scoped Computability

variable {ι : Type} {τ : ι → Type} {text : List Char} {depth : Nat} {env : Environment τ} {w u : List Char}

theorem recognizes_chained {first : Parser τ Float} {rest : Parser τ Fold} {L M : Language Char}
    (hfirst : Recognizes text depth env first L w)
    (hrest : ∀ v : List Char, v.length ≤ w.length → Recognizes text depth env rest M v) :
    Recognizes text depth env (chained first rest) (L * M) w := by
  refine (hfirst.seq fun x v _ hw => hrest v ?_).map _
  rw [hw, List.length_append]
  exact Nat.le_add_left _ _

variable (hdepth : Text.byteLength text < depth)
include hdepth

/-! ### Factors -/

/-- What stands in parentheses runs as an expression does. -/
theorem exec_enclosed (s : State) :
    exec text depth (Assembly.expression.tied number spaces) env s = exec text depth expr env s := by
  have hends : exec text depth (Assembly.expression.tied number spaces) env s ≠ .halted .tooDeep :=
    (Assembly.steady_tied hdepth (steady_number hdepth) (steady_spaces hdepth) Assembly.expression).ne_tooDeep s
  exact exec_recursive_eq hends

theorem reads_enclosed {r : Option (Float × List Char)} (h : Reads text depth env expr w r) :
    Reads text depth env (Assembly.expression.tied number spaces) w r := h.congr (exec_enclosed hdepth)

theorem reads_factor_parenthesized (before after : Nat) {z : List Char} {x : Float} (hz : z.head? ≠ some ' ')
    (h : Reads text depth env expr z (some (x, blanks after ++ ')' :: u))) :
    Reads text depth env rules.factor ('(' :: (blanks before ++ z)) (some (x, u)) := by
  refine Reads.recursive (exec_rule_ne_tooDeep hdepth .factor) (Reads.label "factor" (Reads.or_left (Reads.or_left ?_)))
  have hopen : Reads text depth (env.extend (exec text depth rules.factor env)) (.literal "(")
      ('(' :: (blanks before ++ z)) (some ("(", blanks before ++ z)) := Reads.char rfl
  have hinside := (hopen.keepRight (reads_spaces hdepth before hz).weaken).keepRight (reads_enclosed hdepth h).weaken
  have hclose : (')' :: u).head? ≠ some ' ' := by simp
  exact (hinside.keepLeft (reads_spaces hdepth after hclose).weaken).keepLeft (Reads.char rfl)

theorem reads_factor_negated {x : Float} (h : Reads text depth env rules.factor w (some (x, u))) :
    Reads text depth env rules.factor ('-' :: w) (some (-x, u)) := by
  refine Reads.recursive (exec_rule_ne_tooDeep hdepth .factor) (Reads.label "factor" (Reads.or_left (Reads.or_right ?_ ?_)))
  · have hopen : ('-' :: w).head? ≠ some '(' := by simp
    exact (Reads.char_none rfl hopen).chain_none.chain_none.chain_none.chain_none
  · exact ((Reads.char rfl).keepRight h.self).map_some rfl

theorem reads_factor_number {r : Option (Float × List Char)} (hopen : w.head? ≠ some '(')
    (hminus : w.head? ≠ some '-') (h : Reads text depth env number w r) :
    Reads text depth env rules.factor w r := by
  refine Reads.recursive (exec_rule_ne_tooDeep hdepth .factor)
    (Reads.label "factor" (Reads.or_right (Reads.or_right ?_ ?_) h.weaken))
  · exact (Reads.char_none rfl hopen).chain_none.chain_none.chain_none.chain_none
  · exact (Reads.char_none rfl hminus).chain_none.map _

theorem recognizes_enclosed (h : Recognizes text depth env expr Rule.expr.language w) :
    Recognizes text depth env (Assembly.expression.tied number spaces) Rule.expr.language w :=
  h.imp fun _ h => ⟨reads_enclosed hdepth h.1, h.2⟩

/-- The three alternatives of a factor; `self` is the meaning of a factor in its own body. -/
theorem recognizes_factor_parenthesized {self : State → Reply Float}
    (hexpr : ∀ v : List Char, v.length < w.length → Recognizes text depth env expr Rule.expr.language v) :
    Recognizes text depth (env.extend self)
      (((((Parser.literal "(").keepRight spaces.weaken).keepRight
        (Assembly.expression.tied number spaces).weaken).keepLeft spaces.weaken).keepLeft (.literal ")"))
      Rule.factor.language w := by
  have hspaces : ∀ v, Recognizes text depth (env.extend self) spaces.weaken Rule.spaces.language v :=
    fun v => (recognizes_spaces hdepth v).weaken
  have hopen : Recognizes text depth (env.extend self) ((Parser.literal "(").keepRight spaces.weaken)
      ({['(']} * Rule.spaces.language) w := (Recognizes.literal "(").keepRight fun _ u _ _ => hspaces u
  have hinside : Recognizes text depth (env.extend self)
      (((Parser.literal "(").keepRight spaces.weaken).keepRight (Assembly.expression.tied number spaces).weaken)
      ({['(']} * Rule.spaces.language * Rule.expr.language) w := by
    refine hopen.keepRight fun x u hx hw => (recognizes_enclosed hdepth (hexpr u ?_)).weaken
    obtain ⟨_, rfl, y, -, rfl⟩ := Language.mem_mul.mp hx
    rw [hw]
    simp only [List.length_append, List.length_singleton]
    omega
  have hclose := (hinside.keepLeft fun _ u _ _ => hspaces u).keepLeft fun _ _ _ _ => Recognizes.literal ")"
  refine hclose.mono fun x hx => ?_
  obtain ⟨_, hafter, _, rfl, rfl⟩ := Language.mem_mul.mp hx
  obtain ⟨_, he, _, ⟨after, rfl⟩, rfl⟩ := Language.mem_mul.mp hafter
  obtain ⟨_, hbefore, _, ⟨e, rfl⟩, rfl⟩ := Language.mem_mul.mp he
  obtain ⟨_, rfl, _, ⟨before, rfl⟩, rfl⟩ := Language.mem_mul.mp hbefore
  exact ⟨.parenthesized before e after, rfl⟩

theorem recognizes_factor
    (hexpr : ∀ v : List Char, v.length < w.length → Recognizes text depth env expr Rule.expr.language v) :
    Recognizes text depth env rules.factor Rule.factor.language w := by
  induction hlength : w.length using Nat.strong_induction_on generalizing w with
  | h n ih =>
    subst hlength
    refine Recognizes.recursive (exec_rule_ne_tooDeep hdepth .factor) (Recognizes.label "factor" ?_)
    refine Recognizes.any fun p hp => ?_
    simp only [List.mem_cons, List.not_mem_nil, or_false] at hp
    rcases hp with rfl | rfl | rfl
    · exact recognizes_factor_parenthesized hdepth hexpr
    · have hnegated : Recognizes text depth (env.extend (exec text depth rules.factor env))
          ((Parser.literal "-").keepRight .self) ({['-']} * Rule.factor.language) w := by
        refine (Recognizes.literal "-").keepRight fun x u hx hw => ?_
        obtain rfl : x = ['-'] := hx
        have hshorter : u.length < w.length := by simp [hw]
        exact (ih u.length hshorter (fun v hv => hexpr v (hv.trans hshorter)) rfl).self
      refine (hnegated.map _).mono fun x hx => ?_
      obtain ⟨_, rfl, _, ⟨f, rfl⟩, rfl⟩ := Language.mem_mul.mp hx
      exact ⟨.negated f, rfl⟩
    · refine (recognizes_number hdepth w).weaken.mono ?_
      rintro _ ⟨n, rfl⟩
      exact ⟨.number n, rfl⟩

/-! ### Terms and expressions -/

theorem recognizes_termTail
    (hfactor : ∀ v : List Char, v.length < w.length → Recognizes text depth env rules.factor Rule.factor.language v) :
    Recognizes text depth env rules.termTail Rule.termTail.language w :=
  (recognizes_tail (exec_rule_ne_tooDeep hdepth .termTail) hdepth ranked_factorOperators.symbol_ne_empty hfactor).mono
    language_termTail.ge

theorem recognizes_term
    (hfactor : ∀ v : List Char, v.length ≤ w.length → Recognizes text depth env rules.factor Rule.factor.language v) :
    Recognizes text depth env rules.term Rule.term.language w := by
  have hchained : Recognizes text depth env rules.term (Rule.factor.language * Rule.termTail.language) w :=
    recognizes_chained (hfactor w (Nat.le_refl _)) fun u hu => recognizes_termTail hdepth fun v hv =>
      hfactor v (Nat.le_trans (Nat.le_of_lt hv) hu)
  refine hchained.mono fun x hx => ?_
  obtain ⟨y, hy, z, hz, rfl⟩ := Language.mem_mul.mp hx
  exact derives_term hy hz

theorem recognizes_exprTail
    (hterm : ∀ v : List Char, v.length < w.length → Recognizes text depth env rules.term Rule.term.language v) :
    Recognizes text depth env rules.exprTail Rule.exprTail.language w :=
  (recognizes_tail (exec_rule_ne_tooDeep hdepth .exprTail) hdepth ranked_termOperators.symbol_ne_empty hterm).mono
    language_exprTail.ge

theorem recognizes_expr (w : List Char) : Recognizes text depth env expr Rule.expr.language w := by
  induction hlength : w.length using Nat.strong_induction_on generalizing w with
  | h n ih =>
    subst hlength
    have hterm : ∀ v : List Char, v.length ≤ w.length → Recognizes text depth env rules.term Rule.term.language v :=
      fun v hv => recognizes_term hdepth fun v' hv' => recognizes_factor hdepth fun v'' hv'' =>
        ih v''.length (by omega) v'' rfl
    have hchained : Recognizes text depth env (chained rules.term rules.exprTail)
        (Rule.term.language * Rule.exprTail.language) w :=
      recognizes_chained (hterm w (Nat.le_refl _)) fun u hu => recognizes_exprTail hdepth fun v hv =>
        hterm v (Nat.le_trans (Nat.le_of_lt hv) hu)
    refine (hchained.label "expression").mono fun x hx => ?_
    obtain ⟨y, hy, z, hz, rfl⟩ := Language.mem_mul.mp hx
    exact derives_expr hy hz

/-- Every rule reads every word, and what it consumes is derivable from it. -/
theorem recognizes_rule (rule : Rule) (w : List Char) :
    Recognizes text depth env (rule.parser : Parser τ rule.Value) rule.language w := by
  have hfactor : ∀ v, Recognizes text depth env rules.factor Rule.factor.language v :=
    fun v => recognizes_factor hdepth fun v' _ => recognizes_expr hdepth v'
  have hterm : ∀ v, Recognizes text depth env rules.term Rule.term.language v :=
    fun v => recognizes_term hdepth fun v' _ => hfactor v'
  cases rule with
  | digit => exact recognizes_digit w
  | spaces => exact recognizes_spaces hdepth w
  | number => exact recognizes_number hdepth w
  | factor => exact hfactor w
  | termTail => exact recognizes_termTail hdepth fun v _ => hfactor v
  | term => exact hterm w
  | exprTail => exact recognizes_exprTail hdepth fun v _ => hterm v
  | expr => exact recognizes_expr hdepth w

end Reckoner.Arithmetic
