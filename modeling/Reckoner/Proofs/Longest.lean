import Reckoner.Evaluation
import Reckoner.Proofs.Recognition

/-! Rules match the longest derivable beginning of a text. Each alternative is taken at its first success and
    never reconsidered, and still nothing longer is lost: from the text of a tree a rule reads all of it when
    no digit and no further step extends it, and within a text that is the case at every place but the end,
    since an operator or a parenthesis follows. What is read yields the value of the tree. -/

namespace Reckoner.Arithmetic
open Reckoner.Parser Reckoner.Arithmetic.Derivation

variable {ι : Type} {τ : ι → Type} {text : List Char} {depth : Nat} {env : Environment τ}

/-! ### Tails -/

section
variable {x w : List Char} (hdepth : Text.byteLength text < depth)
include hdepth

theorem reads_termTail_stop (hx : Derives .termTail x) (h : Unextended Rule.termTail.language factorSteps x w) :
    Reads text depth env rules.termTail w (some (id, w)) :=
  reads_tail_stop_of_noStart (exec_rule_ne_tooDeep hdepth .termTail) hdepth ranked_factorOperators.symbol_ne_empty
    (recognizes_rule hdepth .factor) (h.noStart fun _ hy => derives_termTail_append hx hy)

theorem reads_exprTail_stop (hx : Derives .exprTail x) (h : Unextended Rule.exprTail.language termSteps x w) :
    Reads text depth env rules.exprTail w (some (id, w)) :=
  reads_tail_stop_of_noStart (exec_rule_ne_tooDeep hdepth .exprTail) hdepth ranked_termOperators.symbol_ne_empty
    (recognizes_rule hdepth .term) (h.noStart fun _ hy => derives_exprTail_append hx hy)

end

/-! ### Trees -/

theorem isDigit_eq_false_of_unextended {n : Numeral} {u : List Char}
    (h : Unextended Rule.number.language Rule.digit.language n.digits u) :
    ∀ c, u.head? = some c → c.isDigit = false := by
  refine noStart_digit.mp (h.noStart ?_)
  rintro _ ⟨c, hc, rfl⟩
  have hall : (n.digits ++ [c]).all Char.isDigit = true := by
    rw [List.all_append, n.all_digits]
    simp [hc]
  exact ⟨⟨n.digits ++ [c], by simp, hall⟩, rfl⟩

mutual

/-- By induction on the trees. A tail is read from its end: what follows it is read already when its last
    step is put in front. -/
theorem reads_factor (hdepth : Text.byteLength text < depth) : (f : Factor) → (u : List Char) →
    Unextended Rule.factor.language Rule.digit.language f.text u →
    Reads text depth env rules.factor (f.text ++ u) (some (f.value, u))
  | .number n, u, hdigit => by
    obtain ⟨c, x, hx, hc⟩ := n.digits_head
    have hhead : ∀ d : Char, d.isDigit = false → (n.digits ++ u).head? ≠ some d := by
      intro d hd hcd
      rw [hx, List.cons_append, List.head?_cons, Option.some.injEq] at hcd
      rw [hcd, hd] at hc
      cases hc
    exact reads_factor_number hdepth (hhead '(' (by decide)) (hhead '-' (by decide))
      (reads_number hdepth n (isDigit_eq_false_of_unextended (hdigit.anti number_le_factor)))
  | .negated f, u, hdigit => by
    have hf : Unextended Rule.factor.language Rule.digit.language f.text u := by
      refine Unextended.part (z := ['-']) hdigit fun y hy => ?_
      obtain ⟨f', hf'⟩ := hy
      exact ⟨.negated f', congrArg ('-' :: ·) hf'⟩
    exact reads_factor_negated hdepth (reads_factor hdepth f u hf)
  | .parenthesized before e after, u, _ => by
    have he : Reads text depth env expr (e.text ++ (blanks after ++ ')' :: u)) (some (e.value, blanks after ++ ')' :: u)) :=
      reads_expr hdepth e _ (noStart_digit_blanks (by decide)).unextended
        ranked_factorOperators.noStart_closing.unextended ranked_termOperators.noStart_closing.unextended
    have hfactor := reads_factor_parenthesized hdepth before after ((treeClosed_opens.expr e).head?_append_ne _) he
    simpa [Factor.text, Factor.value] using hfactor

theorem reads_termTail (hdepth : Text.byteLength text < depth) : (t : TermTail) → (u u' : List Char) → (g : Fold) →
    Unextended Rule.termTail.language Rule.digit.language t.text u →
    Reads text depth env rules.termTail u (some (g, u')) →
    Reads text depth env rules.termTail (t.text ++ u) (some (fun x => g (t.value x), u'))
  | .nil, u, u', g, _, hu => hu
  | .snoc rest before operator after f, u, u', g, hdigit, hu => by
    have hf : Unextended Rule.factor.language Rule.digit.language f.text u := by
      refine Unextended.part (z := rest.text ++ blanks before ++ operator.symbol :: blanks after) hdigit fun y hy => ?_
      obtain ⟨f', hf'⟩ := hy
      exact ⟨.snoc rest before operator after f', by rw [TermTail.text, hf']⟩
    have hstep := reads_tail_step (exec_rule_ne_tooDeep hdepth .termTail) hdepth ranked_factorOperators operator
      before after ((treeClosed_opens.factor f).head?_append_ne u) (reads_factor hdepth f u hf) hu
    have hrest := reads_termTail hdepth rest _ u' _
      (noStart_digit_blanks (ranked_factorOperators.isDigit_symbol operator)).unextended hstep
    simpa [TermTail.text, TermTail.value] using hrest

theorem reads_term (hdepth : Text.byteLength text < depth) : (t : Term) → (u : List Char) →
    Unextended Rule.term.language Rule.digit.language t.text u →
    Unextended Rule.term.language factorSteps t.text u →
    Reads text depth env rules.term (t.text ++ u) (some (t.value, u))
  | .mk f rest, u, hdigit, hstep => by
    have hf : Unextended Rule.factor.language Rule.digit.language f.text (rest.text ++ u) := by
      refine ranked_factorOperators.unextended_digit rest.text_mem fun hnil => ?_
      rw [Term.text, hnil, List.append_nil] at hdigit
      exact hdigit.anti factor_le_term
    have hlast : ∀ y, rest.text ++ y ∈ Rule.termTail.language → f.text ++ (rest.text ++ y) ∈ Rule.term.language :=
      fun y hy => derives_term ⟨f, rfl⟩ hy
    have hfirst := reads_factor hdepth f (rest.text ++ u) hf
    have hrest := reads_termTail hdepth rest u u id (hdigit.part hlast)
      (reads_termTail_stop hdepth ⟨rest, rfl⟩ (hstep.part hlast))
    rw [Term.text, List.append_assoc]
    exact (hfirst.seq hrest).map_some rfl

theorem reads_exprTail (hdepth : Text.byteLength text < depth) : (t : ExprTail) → (u u' : List Char) → (g : Fold) →
    Unextended Rule.exprTail.language Rule.digit.language t.text u →
    Unextended Rule.exprTail.language factorSteps t.text u →
    Reads text depth env rules.exprTail u (some (g, u')) →
    Reads text depth env rules.exprTail (t.text ++ u) (some (fun x => g (t.value x), u'))
  | .nil, u, u', g, _, _, hu => hu
  | .snoc rest before operator after t, u, u', g, hdigit, hstep, hu => by
    have hlast : ∀ y, t.text ++ y ∈ Rule.term.language →
        rest.text ++ blanks before ++ operator.symbol :: blanks after ++ (t.text ++ y) ∈ Rule.exprTail.language := by
      rintro y ⟨t', ht'⟩
      exact ⟨.snoc rest before operator after t', by rw [ExprTail.text, ht']⟩
    have hstep := reads_tail_step (exec_rule_ne_tooDeep hdepth .exprTail) hdepth ranked_termOperators operator
      before after ((treeClosed_opens.term t).head?_append_ne u)
      (reads_term hdepth t u (hdigit.part hlast) (hstep.part hlast)) hu
    have hrest := reads_exprTail hdepth rest _ u' _
      (noStart_digit_blanks (ranked_termOperators.isDigit_symbol operator)).unextended
      (noStart_factorSteps _ operator _).unextended hstep
    simpa [ExprTail.text, ExprTail.value] using hrest

theorem reads_expr (hdepth : Text.byteLength text < depth) : (e : Expr) → (u : List Char) →
    Unextended Rule.expr.language Rule.digit.language e.text u →
    Unextended Rule.expr.language factorSteps e.text u →
    Unextended Rule.expr.language termSteps e.text u →
    Reads text depth env expr (e.text ++ u) (some (e.value, u))
  | .mk t rest, u, hdigit, hfactor, hterm => by
    have hfirst : rest.text = [] → ∀ {M : Language Char}, Unextended Rule.expr.language M (Expr.mk t rest).text u →
        Unextended Rule.term.language M t.text u := by
      intro hnil M h
      rw [Expr.text, hnil, List.append_nil] at h
      exact h.anti term_le_expr
    have hlast : ∀ y, rest.text ++ y ∈ Rule.exprTail.language → t.text ++ (rest.text ++ y) ∈ Rule.expr.language :=
      fun y hy => derives_expr ⟨t, rfl⟩ hy
    have ht := reads_term hdepth t (rest.text ++ u)
      (ranked_termOperators.unextended_digit rest.text_mem fun hnil => hfirst hnil hdigit)
      (ranked_termOperators.unextended rest.text_mem noStart_factorSteps fun hnil => hfirst hnil hfactor)
    have hrest := reads_exprTail hdepth rest u u id (hdigit.part hlast) (hfactor.part hlast)
      (reads_exprTail_stop hdepth ⟨rest, rfl⟩ (hterm.part hlast))
    rw [Expr.text, List.append_assoc]
    exact ((ht.seq hrest).map_some rfl).label "expression"

end

/-! ### Every rule -/

theorem reads_expr_of_longest (hdepth : Text.byteLength text < depth) {e : Expr} {u : List Char}
    (h : Longest Rule.expr.language e.text (e.text ++ u)) :
    Reads text depth env expr (e.text ++ u) (some (e.value, u)) :=
  reads_expr hdepth e u (h.unextended nil_notMem_digit) (h.unextended (nil_notMem_steps nil_notMem_factor))
    (h.unextended (nil_notMem_steps nil_notMem_term))

/-- A rule reads the longest word at the start of what is left that is derivable from it. -/
theorem reads_of_longest (hdepth : Text.byteLength text < depth) (rule : Rule) {x u : List Char}
    (h : Longest rule.language x (x ++ u)) :
    ∃ value, Reads text depth env (rule.parser : Parser τ rule.Value) (x ++ u) (some (value, u)) := by
  have hdigit : Unextended rule.language Rule.digit.language x u := h.unextended nil_notMem_digit
  have hfactor : Unextended rule.language factorSteps x u := h.unextended (nil_notMem_steps nil_notMem_factor)
  have hterm : Unextended rule.language termSteps x u := h.unextended (nil_notMem_steps nil_notMem_term)
  cases rule with
  | digit =>
    obtain ⟨c, hc, rfl⟩ := h.mem
    exact ⟨_, reads_digit hc⟩
  | spaces =>
    obtain ⟨n, rfl⟩ := h.mem
    refine ⟨_, reads_spaces hdepth n fun hblank => ?_⟩
    obtain ⟨v, rfl⟩ := List.head?_eq_some_iff.mp hblank
    have hlength := h.length_le (blanks (n + 1)) ⟨n + 1, rfl⟩ ⟨v, by simp [blanks, List.replicate_succ']⟩
    rw [blanks, blanks, List.length_replicate, List.length_replicate] at hlength
    omega
  | number =>
    obtain ⟨n, rfl⟩ := h.mem
    exact ⟨_, reads_number hdepth n (isDigit_eq_false_of_unextended hdigit)⟩
  | factor =>
    obtain ⟨f, rfl⟩ := h.mem
    exact ⟨_, reads_factor hdepth f u hdigit⟩
  | termTail =>
    obtain ⟨t, rfl⟩ := h.mem
    exact ⟨_, reads_termTail hdepth t u u id hdigit (reads_termTail_stop hdepth ⟨t, rfl⟩ hfactor)⟩
  | term =>
    obtain ⟨t, rfl⟩ := h.mem
    exact ⟨_, reads_term hdepth t u hdigit hfactor⟩
  | exprTail =>
    obtain ⟨t, rfl⟩ := h.mem
    exact ⟨_, reads_exprTail hdepth t u u id hdigit hfactor (reads_exprTail_stop hdepth ⟨t, rfl⟩ hterm)⟩
  | expr =>
    obtain ⟨e, rfl⟩ := h.mem
    exact ⟨_, reads_expr_of_longest hdepth h⟩

section
variable {w : List Char} (hdepth : Text.byteLength text < depth) (rule : Rule)
include hdepth

theorem reads_of_derives {x : List Char} (hx : Derives rule x) (hstart : x <+: w) :
    ∃ y u value, w = y ++ u ∧ Longest rule.language y w ∧
      Reads text depth env (rule.parser : Parser τ rule.Value) w (some (value, u)) := by
  obtain ⟨y, hy⟩ := exists_longest (L := rule.language) hx hstart
  obtain ⟨u, hu⟩ := hy.isPrefix
  obtain ⟨value, hvalue⟩ := reads_of_longest hdepth rule (hu.symm ▸ hy)
  exact ⟨y, u, value, hu.symm, hy, hu ▸ hvalue⟩

theorem reads_of_not_derives (h : ∀ x, Derives rule x → ¬ x <+: w) :
    Reads text depth env (rule.parser : Parser τ rule.Value) w none := by
  obtain ⟨r, hr, hx⟩ := recognizes_rule hdepth rule w
  cases r with
  | none => exact hr
  | some a =>
    obtain ⟨x, hx, hstart⟩ := hx a rfl
    exact absurd ⟨a.2, hstart.symm⟩ (h x hx)

end

section
variable (d : Definitions τ) (rule : Rule) (input : String)

theorem runWith_of_derives {x : List Char} (hx : Derives rule x) (hstart : x <+: input.toList) :
    ∃ y u value, input.toList = y ++ u ∧ Longest rule.language y input.toList ∧
      (rule.parser.runWith d input).result = .matched value (String.ofList u) := by
  obtain ⟨y, u, value, hinput, hy, hreads⟩ := reads_of_derives (byteLength_lt_depth d input.toList) rule hx hstart
  exact ⟨y, u, value, hinput, hy, runWith_of_reads hreads⟩

theorem runWith_of_not_derives (h : ∀ x, Derives rule x → ¬ x <+: input.toList) :
    (rule.parser.runWith d input).result = .noMatch :=
  runWith_of_reads_none (reads_of_not_derives (byteLength_lt_depth d input.toList) rule h)

end

/-- A rule matches at the start of a text when something derivable from it is there, and takes the longest
    such beginning; otherwise it does not match. -/
theorem run_longest (rule : Rule) (input : String) :
    ((∃ value remaining, (rule.parser.run input).result = .matched value remaining) ↔
        ∃ x, Derives rule x ∧ x <+: input.toList) ∧
      (∀ value remaining, (rule.parser.run input).result = .matched value remaining →
        ∃ x, input.toList = x ++ remaining.toList ∧ Derives rule x ∧
          ∀ y, Derives rule y → y <+: input.toList → y.length ≤ x.length) ∧
      ((∀ x, Derives rule x → ¬ x <+: input.toList) → (rule.parser.run input).result = .noMatch) := by
  have hnone : (∀ x, Derives rule x → ¬ x <+: input.toList) → (rule.parser.run input).result = .noMatch :=
    runWith_of_not_derives .empty rule input
  have hsome : ∀ x, Derives rule x → x <+: input.toList → ∃ y u value, input.toList = y ++ u ∧
      Longest rule.language y input.toList ∧ (rule.parser.run input).result = .matched value (String.ofList u) :=
    fun _ hx hstart => runWith_of_derives .empty rule input hx hstart
  have hderives : ∀ value remaining, (rule.parser.run input).result = .matched value remaining →
      ∃ x, Derives rule x ∧ x <+: input.toList := by
    intro value remaining hresult
    by_contra hno
    have hempty := hnone fun x hx hstart => hno ⟨x, hx, hstart⟩
    cases hempty.symm.trans hresult
  refine ⟨⟨?_, ?_⟩, ?_, hnone⟩
  · rintro ⟨value, remaining, hresult⟩
    exact hderives value remaining hresult
  · rintro ⟨x, hx, hstart⟩
    obtain ⟨y, u, value, -, -, hresult⟩ := hsome x hx hstart
    exact ⟨value, _, hresult⟩
  · intro value remaining hresult
    obtain ⟨x, hx, hstart⟩ := hderives value remaining hresult
    obtain ⟨y, u, value', hinput, hy, hresult'⟩ := hsome x hx hstart
    cases hresult'.symm.trans hresult
    exact ⟨y, by rw [String.toList_ofList, hinput], hy.mem, hy.length_le⟩

/-! ### Values -/

/-- What is derivable from an expression has one value, however it is derived. -/
theorem value_eq_of_text_eq {e e' : Expr} (h : e.text = e'.text) : e.value = e'.value := by
  let env : Environment fun _ : Unit => Unit := fun _ s => .noMatch s
  have hreads : ∀ e : Expr, Reads e.text (Text.byteLength e.text + 1) env expr e.text (some (e.value, [])) := by
    intro e
    have hlongest : Longest Rule.expr.language e.text (e.text ++ []) :=
      ⟨⟨e, rfl⟩, List.prefix_append _ _, fun y _ hy => by simpa using hy.length_le⟩
    have he : Reads e.text (Text.byteLength e.text + 1) env expr (e.text ++ []) (some (e.value, [])) :=
      reads_expr_of_longest (Nat.lt_succ_self _) hlongest
    rwa [List.append_nil] at he
  obtain ⟨t, ht, -⟩ := hreads e {} (Text.dropBytes?_zero _)
  obtain ⟨t', ht', -⟩ := hreads e' {} (Text.dropBytes?_zero _)
  rw [← h, ht] at ht'
  exact (Reply.matched.inj ht').1

/-- From the text of a tree and what follows it, where no longer expression begins, all of the text is matched,
    and its value is that of the tree. -/
theorem parseExpression_text (e : Expr) (remaining : String)
    (h : ∀ y, Derives .expr y → y <+: e.text ++ remaining.toList → y.length ≤ e.text.length) :
    (parseExpression (String.ofList e.text ++ remaining)).result = .matched e.value remaining := by
  have hinput : (String.ofList e.text ++ remaining).toList = e.text ++ remaining.toList := by
    rw [String.toList_append, String.toList_ofList]
  have hlongest : Longest Rule.expr.language e.text (e.text ++ remaining.toList) :=
    ⟨⟨e, rfl⟩, List.prefix_append _ _, h⟩
  have hrun : (parseExpression (String.ofList e.text ++ remaining)).result =
      .matched e.value (String.ofList remaining.toList) := by
    refine runWith_of_reads ?_
    rw [hinput]
    exact reads_expr_of_longest (byteLength_lt_depth _ _) hlongest
  rwa [String.ofList_toList] at hrun

/-- An operator without a right operand is left. -/
theorem parseExpression_text_left_operator :
    let digit (c : Char) (hc : c.isDigit = true) : Term := .mk (.number ⟨[c], by simp, by simp [hc]⟩) .nil
    let e : Expr := .mk (digit '1' rfl) (.snoc .nil 1 .minus 1 (digit '2' rfl))
    (∀ y, Derives .expr y → y <+: e.text ++ " +".toList → y.length ≤ e.text.length) ∧
      (parseExpression (String.ofList e.text ++ " +")).result = .matched e.value " +" := by
  intro digit e
  have hlongest : ∀ y, Derives .expr y → y <+: e.text ++ " +".toList → y.length ≤ e.text.length := by
    rintro _ ⟨e', rfl⟩ ⟨v, hv⟩
    obtain ⟨z, c, hz, hc⟩ := treeClosed_closes.expr e'
    -- Otherwise the blank or the operator would be last.
    by_contra hlt
    have hsum := congrArg List.length hv
    have hlast : (z ++ [c] ++ v)[z.length]? = ['1', ' ', '-', ' ', '2', ' ', '+'][z.length]? := by
      rw [← hz, hv]
      rfl
    have hz' : z.length = 5 ∨ z.length = 6 := by
      rw [hz] at hlt hsum
      simp only [List.length_append, List.length_singleton] at hlt hsum
      have hfive : e.text.length = 5 := rfl
      have htwo : " +".toList.length = 2 := rfl
      omega
    rw [List.append_assoc, List.getElem?_append_right (Nat.le_refl _), Nat.sub_self] at hlast
    rcases hz' with hlength | hlength
    · rw [hlength] at hlast
      obtain rfl : c = ' ' := by simpa using hlast
      exact absurd hc (by decide)
    · rw [hlength] at hlast
      obtain rfl : c = '+' := by simpa using hlast
      exact absurd hc (by decide)
  exact ⟨hlongest, parseExpression_text e " +" hlongest⟩

end Reckoner.Arithmetic
