import Mathlib
import Reckoner.Arithmetic.Derivation
import Reckoner.Arithmetic.Rules

/-! The languages of the rules of arithmetic: which words are derivable when shorter ones are, how words begin and
    end that are derivable, and which beginning of a text is the longest derivable one. What holds of operators and
    of the steps they make is said once for both ranks. -/

namespace Reckoner.Arithmetic
open Reckoner.Arithmetic.Derivation
open scoped Computability

/-- The words that are derivable from the rule. -/
def Rule.language (rule : Rule) : Language Char := {x | Derives rule x}

/-- The symbols of operators. -/
def symbols (operators : List Operator) : Language Char :=
  {x | ∃ operator ∈ operators, x = operator.symbol.toList}

/-- Operators with their right operands, and the spaces before both. -/
def steps (symbols operand : Language Char) : Language Char :=
  Rule.spaces.language * symbols * Rule.spaces.language * operand

def factorSteps : Language Char := steps (symbols factorOperators) Rule.factor.language

def termSteps : Language Char := steps (symbols termOperators) Rule.term.language

/-! ### Spaces -/

theorem blanks_succ (n : Nat) : blanks (n + 1) = ' ' :: blanks n := rfl

/-- What comes first after spaces tells where these end. -/
theorem blanks_append_cons_inj {m n : Nat} {c d : Char} {x y : List Char} (hc : c ≠ ' ') (hd : d ≠ ' ')
    (h : blanks m ++ c :: x = blanks n ++ d :: y) : m = n ∧ c = d ∧ x = y := by
  induction m generalizing n with
  | zero =>
    cases n with
    | zero => simpa [blanks] using h
    | succ n =>
      rw [blanks_succ] at h
      exact absurd (List.cons.inj h).1 hc
  | succ m ih =>
    cases n with
    | zero =>
      rw [blanks_succ] at h
      exact absurd (List.cons.inj h).1.symm hd
    | succ n =>
      rw [blanks_succ, blanks_succ] at h
      obtain ⟨hmn, hrest⟩ := ih (List.cons.inj h).2
      exact ⟨congrArg (· + 1) hmn, hrest⟩

/-! ### Operators -/

/-- The symbols of the binary operators, as they are tried. -/
def operatorSymbols : List Char := ['*', '/', '+', '-']

theorem operatorSymbols_ne {c : Char} (h : c ∈ operatorSymbols) : c ≠ ' ' ∧ c.isDigit = false := by
  simp only [operatorSymbols, List.mem_cons, List.not_mem_nil, or_false] at h
  rcases h with rfl | rfl | rfl | rfl <;> decide

/-- An operator of trees as a rule tries it. -/
def tried {Op : Type} (symbol : Op → Char) (apply : Op → Float → Float → Float) (operator : Op) : Operator :=
  ⟨String.singleton (symbol operator), apply operator⟩

/-- The operators of one rank, in trees and as a rule tries them. Their symbols tell them apart. -/
structure Ranked {Op : Type} (symbol : Op → Char) (apply : Op → Float → Float → Float) (operators : List Operator) :
    Prop where
  listed : ∃ all : List Op, (∀ operator, operator ∈ all) ∧ operators = all.map (tried symbol apply)
  symbol_mem : ∀ operator, symbol operator ∈ operatorSymbols
  injective : Function.Injective symbol

theorem ranked_factorOperators : Ranked FactorOperator.symbol FactorOperator.apply factorOperators where
  listed := ⟨[.times, .over], fun operator => by cases operator <;> decide, rfl⟩
  symbol_mem operator := by cases operator <;> decide
  injective operator operator' := by cases operator <;> cases operator' <;> decide

theorem ranked_termOperators : Ranked TermOperator.symbol TermOperator.apply termOperators where
  listed := ⟨[.plus, .minus], fun operator => by cases operator <;> decide, rfl⟩
  symbol_mem operator := by cases operator <;> decide
  injective operator operator' := by cases operator <;> cases operator' <;> decide

/-- The ranks have no symbol in common. -/
theorem symbol_ne_symbol (operator : FactorOperator) (operator' : TermOperator) :
    operator.symbol ≠ operator'.symbol := by
  cases operator <;> cases operator' <;> decide

variable {Op : Type} {symbol : Op → Char} {apply : Op → Float → Float → Float} {operators : List Operator}

theorem toList_symbol_tried (operator : Op) : (tried symbol apply operator).symbol.toList = [symbol operator] :=
  String.toList_singleton _

namespace Ranked
variable (h : Ranked symbol apply operators)
include h

theorem mem_iff {o : Operator} : o ∈ operators ↔ ∃ operator, tried symbol apply operator = o := by
  obtain ⟨all, hall, rfl⟩ := h.listed
  simp only [List.mem_map, hall, true_and]

theorem symbol_ne_empty : ∀ o ∈ operators, o.symbol ≠ "" := by
  intro o ho hempty
  obtain ⟨operator, rfl⟩ := h.mem_iff.mp ho
  have hsymbol : (tried symbol apply operator).symbol.toList = [symbol operator] := toList_symbol_tried operator
  rw [hempty] at hsymbol
  cases hsymbol

theorem symbol_ne_blank (operator : Op) : symbol operator ≠ ' ' := (operatorSymbols_ne (h.symbol_mem operator)).1

theorem isDigit_symbol (operator : Op) : (symbol operator).isDigit = false :=
  (operatorSymbols_ne (h.symbol_mem operator)).2

theorem mem_symbols {x : List Char} : x ∈ symbols operators ↔ ∃ operator, x = [symbol operator] := by
  constructor
  · rintro ⟨o, ho, rfl⟩
    obtain ⟨operator, rfl⟩ := h.mem_iff.mp ho
    exact ⟨operator, toList_symbol_tried operator⟩
  · rintro ⟨operator, rfl⟩
    exact ⟨_, h.mem_iff.mpr ⟨operator, rfl⟩, (toList_symbol_tried operator).symm⟩

end Ranked

/-! ### Steps -/

theorem mem_steps {L M : Language Char} {x : List Char} :
    x ∈ steps L M ↔ ∃ before, ∃ s ∈ L, ∃ after, ∃ y ∈ M, x = blanks before ++ s ++ blanks after ++ y := by
  constructor
  · intro h
    obtain ⟨_, hopen, y, hy, rfl⟩ := Language.mem_mul.mp h
    obtain ⟨_, hsymbol, _, ⟨after, rfl⟩, rfl⟩ := Language.mem_mul.mp hopen
    obtain ⟨_, ⟨before, rfl⟩, s, hs, rfl⟩ := Language.mem_mul.mp hsymbol
    exact ⟨before, s, hs, after, y, hy, rfl⟩
  · rintro ⟨before, s, hs, after, y, hy, rfl⟩
    have hspaces : ∀ n, blanks n ∈ Rule.spaces.language := fun n => ⟨n, rfl⟩
    exact Language.append_mem_mul
      (Language.append_mem_mul (Language.append_mem_mul (hspaces before) hs) (hspaces after)) hy

/-- The same by operators and trees, when the operands are texts of trees. -/
theorem Ranked.mem_steps (h : Ranked symbol apply operators) {Tree : Type} {text : Tree → List Char}
    {M : Language Char} (hM : ∀ y, y ∈ M ↔ ∃ t, text t = y) {x : List Char} : x ∈ steps (symbols operators) M ↔
      ∃ before operator after t, x = blanks before ++ symbol operator :: blanks after ++ text t := by
  rw [Arithmetic.mem_steps]
  constructor
  · rintro ⟨before, s, hs, after, y, hy, rfl⟩
    obtain ⟨operator, rfl⟩ := h.mem_symbols.mp hs
    obtain ⟨t, rfl⟩ := (hM y).mp hy
    exact ⟨before, operator, after, t, by simp⟩
  · rintro ⟨before, operator, after, t, rfl⟩
    exact ⟨before, _, h.mem_symbols.mpr ⟨operator, rfl⟩, after, _, (hM _).mpr ⟨t, rfl⟩, by simp⟩

theorem mem_factorSteps {x : List Char} : x ∈ factorSteps ↔
    ∃ before, ∃ operator : FactorOperator, ∃ after, ∃ f : Factor,
      x = blanks before ++ operator.symbol :: blanks after ++ f.text :=
  ranked_factorOperators.mem_steps fun _ => Iff.rfl

theorem mem_termSteps {x : List Char} : x ∈ termSteps ↔
    ∃ before, ∃ operator : TermOperator, ∃ after, ∃ t : Term,
      x = blanks before ++ operator.symbol :: blanks after ++ t.text :=
  ranked_termOperators.mem_steps fun _ => Iff.rfl

/-- Runs of steps are in a language that has the empty word and in which a step may be added at the end. -/
theorem kstar_le_of_append {L M : Language Char} (hnil : [] ∈ L) (happend : ∀ x ∈ L, ∀ y ∈ M, x ++ y ∈ L) :
    M∗ ≤ L := by
  refine kstar_le_of_mul_le_left ?_ fun w hw => ?_
  · rintro w rfl
    exact hnil
  · obtain ⟨x, hx, y, hy, rfl⟩ := Language.mem_mul.mp hw
    exact happend x hx y hy

theorem append_mem_kstar {M : Language Char} {x y : List Char} (hx : x ∈ M) (hy : y ∈ M∗) : x ++ y ∈ M∗ :=
  (mul_kstar_le_kstar : M * M∗ ≤ M∗) (Language.append_mem_mul hx hy)

theorem mem_kstar_append {M : Language Char} {x y : List Char} (hx : x ∈ M∗) (hy : y ∈ M) : x ++ y ∈ M∗ :=
  (kstar_mul_le_kstar : M∗ * M ≤ M∗) (Language.append_mem_mul hx hy)

/-! ### Derivable words -/

section
variable {x y : List Char}

theorem derives_termTail_append (hx : Derives .termTail x) (hy : y ∈ factorSteps) : Derives .termTail (x ++ y) := by
  obtain ⟨t, rfl⟩ := hx
  obtain ⟨before, operator, after, f, rfl⟩ := mem_factorSteps.mp hy
  exact ⟨.snoc t before operator after f, by simp [TermTail.text]⟩

theorem derives_term (hx : Derives .factor x) (hy : Derives .termTail y) : Derives .term (x ++ y) := by
  obtain ⟨f, rfl⟩ := hx
  obtain ⟨t, rfl⟩ := hy
  exact ⟨.mk f t, rfl⟩

theorem derives_exprTail_append (hx : Derives .exprTail x) (hy : y ∈ termSteps) : Derives .exprTail (x ++ y) := by
  obtain ⟨t, rfl⟩ := hx
  obtain ⟨before, operator, after, f, rfl⟩ := mem_termSteps.mp hy
  exact ⟨.snoc t before operator after f, by simp [ExprTail.text]⟩

theorem derives_expr (hx : Derives .term x) (hy : Derives .exprTail y) : Derives .expr (x ++ y) := by
  obtain ⟨t, rfl⟩ := hx
  obtain ⟨r, rfl⟩ := hy
  exact ⟨.mk t r, rfl⟩

end

theorem number_le_factor : Rule.number.language ≤ Rule.factor.language := by
  rintro _ ⟨n, rfl⟩
  exact ⟨.number n, rfl⟩

theorem factor_le_term : Rule.factor.language ≤ Rule.term.language := fun x hx => by
  have hterm := derives_term hx ⟨.nil, rfl⟩
  rwa [TermTail.text, List.append_nil] at hterm

theorem term_le_expr : Rule.term.language ≤ Rule.expr.language := fun x hx => by
  have hexpr := derives_expr hx ⟨.nil, rfl⟩
  rwa [ExprTail.text, List.append_nil] at hexpr

theorem Derivation.TermTail.text_mem : (t : TermTail) → t.text ∈ factorSteps∗
  | .nil => Language.nil_mem_kstar _
  | .snoc rest before operator after f => by
    rw [TermTail.text, List.append_assoc, List.append_assoc]
    exact mem_kstar_append rest.text_mem (mem_factorSteps.mpr ⟨before, operator, after, f, by simp⟩)

theorem Derivation.ExprTail.text_mem : (t : ExprTail) → t.text ∈ termSteps∗
  | .nil => Language.nil_mem_kstar _
  | .snoc rest before operator after t => by
    rw [ExprTail.text, List.append_assoc, List.append_assoc]
    exact mem_kstar_append rest.text_mem (mem_termSteps.mpr ⟨before, operator, after, t, by simp⟩)

theorem language_termTail : Rule.termTail.language = factorSteps∗ := by
  refine le_antisymm ?_ (kstar_le_of_append ⟨.nil, rfl⟩ fun _ hx _ hy => derives_termTail_append hx hy)
  rintro _ ⟨t, rfl⟩
  exact t.text_mem

theorem language_exprTail : Rule.exprTail.language = termSteps∗ := by
  refine le_antisymm ?_ (kstar_le_of_append ⟨.nil, rfl⟩ fun _ hx _ hy => derives_exprTail_append hx hy)
  rintro _ ⟨t, rfl⟩
  exact t.text_mem

/-! ### Texts of trees -/

/-- `P` passes from the parts of operands to operands, and `Q` to tails, whatever their operators are. -/
structure TreeClosed (P Q : List Char → Prop) : Prop where
  number : ∀ n : Numeral, P n.digits
  negated : ∀ f : Factor, P f.text → P (Factor.negated f).text
  parenthesized : ∀ before (e : Expr) after, P e.text → P (Factor.parenthesized before e after).text
  nil : Q []
  snoc : ∀ x before c after y, Q x → c ∈ operatorSymbols → P y → Q (x ++ (blanks before ++ c :: blanks after) ++ y)
  append : ∀ x y, P x → Q y → P (x ++ y)

section
variable {P Q : List Char → Prop} (h : TreeClosed P Q)
include h

mutual

theorem TreeClosed.factor : (f : Factor) → P f.text
  | .number n => h.number n
  | .negated f => h.negated f (TreeClosed.factor f)
  | .parenthesized before e after => h.parenthesized before e after (TreeClosed.expr e)

theorem TreeClosed.termTail : (t : TermTail) → Q t.text
  | .nil => h.nil
  | .snoc rest before operator after f => by
    rw [TermTail.text, List.append_assoc rest.text]
    exact h.snoc _ _ _ _ _ (TreeClosed.termTail rest) (ranked_factorOperators.symbol_mem operator) (TreeClosed.factor f)

theorem TreeClosed.term : (t : Term) → P t.text
  | .mk f rest => by
    rw [Term.text]
    exact h.append _ _ (TreeClosed.factor f) (TreeClosed.termTail rest)

theorem TreeClosed.exprTail : (t : ExprTail) → Q t.text
  | .nil => h.nil
  | .snoc rest before operator after t => by
    rw [ExprTail.text, List.append_assoc rest.text]
    exact h.snoc _ _ _ _ _ (TreeClosed.exprTail rest) (ranked_termOperators.symbol_mem operator) (TreeClosed.term t)

theorem TreeClosed.expr : (e : Expr) → P e.text
  | .mk t rest => by
    rw [Expr.text]
    exact h.append _ _ (TreeClosed.term t) (TreeClosed.exprTail rest)

end
end

/-! ### How words begin -/

theorem isDigit_ne_blank {c : Char} (h : c.isDigit = true) : c ≠ ' ' := by
  rintro rfl
  exact absurd h (by decide)

theorem Derivation.Numeral.digits_head (n : Numeral) : ∃ c x, n.digits = c :: x ∧ c.isDigit = true := by
  obtain ⟨c, x, hx⟩ := List.exists_cons_of_ne_nil n.nonempty
  have hdigits := n.all_digits
  rw [hx, List.all_cons, Bool.and_eq_true] at hdigits
  exact ⟨c, x, hx, hdigits.1⟩

/-- Something other than a space is first. -/
def Opens (x : List Char) : Prop := ∃ c y, x = c :: y ∧ c ≠ ' '

theorem treeClosed_opens : TreeClosed Opens fun _ => True where
  number n := by
    obtain ⟨c, x, hx, hc⟩ := n.digits_head
    exact ⟨c, x, hx, isDigit_ne_blank hc⟩
  negated f _ := ⟨'-', f.text, rfl, by decide⟩
  parenthesized before e after _ := ⟨'(', _, by rw [Factor.text]; rfl, by decide⟩
  nil := trivial
  snoc _ _ _ _ _ _ _ _ := trivial
  append _ y hx _ := by
    obtain ⟨c, x, rfl, hc⟩ := hx
    exact ⟨c, x ++ y, rfl, hc⟩

theorem Opens.head?_append_ne {x : List Char} (h : Opens x) (u : List Char) : (x ++ u).head? ≠ some ' ' := by
  obtain ⟨c, y, rfl, hc⟩ := h
  simpa using hc

theorem nil_notMem_of_opens {L : Language Char} (h : ∀ x ∈ L, Opens x) : [] ∉ L := by
  intro hnil
  obtain ⟨c, y, hcons, -⟩ := h [] hnil
  cases hcons

theorem nil_notMem_digit : [] ∉ Rule.digit.language := by
  rintro ⟨c, -, hc⟩
  cases hc

theorem nil_notMem_factor : [] ∉ Rule.factor.language :=
  nil_notMem_of_opens fun _ ⟨f, hf⟩ => hf ▸ treeClosed_opens.factor f

theorem nil_notMem_term : [] ∉ Rule.term.language :=
  nil_notMem_of_opens fun _ ⟨t, ht⟩ => ht ▸ treeClosed_opens.term t

theorem nil_notMem_expr : [] ∉ Rule.expr.language :=
  nil_notMem_of_opens fun _ ⟨e, he⟩ => he ▸ treeClosed_opens.expr e

theorem nil_notMem_steps {L M : Language Char} (hM : [] ∉ M) : [] ∉ steps L M := by
  intro h
  obtain ⟨before, s, -, after, y, hy, hnil⟩ := mem_steps.mp h
  obtain ⟨-, rfl⟩ := List.append_eq_nil_iff.mp hnil.symm
  exact hM hy

/-- Steps that follow each other begin with the operator of the first of them. -/
theorem Ranked.eq_nil_or_eq_of_mem_kstar (h : Ranked symbol apply operators) {M : Language Char} {x : List Char}
    (hx : x ∈ (steps (symbols operators) M)∗) : x = [] ∨ ∃ n operator v, x = blanks n ++ symbol operator :: v := by
  obtain ⟨words, rfl, hwords⟩ := Language.mem_kstar.mp hx
  cases words with
  | nil => exact Or.inl rfl
  | cons word words =>
    obtain ⟨before, _, hs, after, y, -, rfl⟩ := Arithmetic.mem_steps.mp (hwords word List.mem_cons_self)
    obtain ⟨operator, rfl⟩ := h.mem_symbols.mp hs
    exact Or.inr ⟨before, operator, blanks after ++ y ++ words.flatten, by simp⟩

/-! ### How words end -/

/-- A digit or a closing parenthesis is last. -/
def Closes (x : List Char) : Prop := ∃ y c, x = y ++ [c] ∧ (c.isDigit = true ∨ c = ')')

theorem Closes.append {y : List Char} (h : Closes y) (x : List Char) : Closes (x ++ y) := by
  obtain ⟨z, c, rfl, hc⟩ := h
  exact ⟨x ++ z, c, (List.append_assoc _ _ _).symm, hc⟩

theorem treeClosed_closes : TreeClosed Closes fun x => x = [] ∨ Closes x where
  number n := by
    refine ⟨n.digits.dropLast, n.digits.getLast n.nonempty, (List.dropLast_append_getLast n.nonempty).symm, Or.inl ?_⟩
    exact List.all_eq_true.mp n.all_digits _ (List.getLast_mem n.nonempty)
  negated _ hf := hf.append ['-']
  parenthesized _ _ _ _ := ⟨_, ')', rfl, Or.inr rfl⟩
  nil := Or.inl rfl
  snoc _ _ _ _ _ _ _ hy := Or.inr (hy.append _)
  append x _ hx hy := by
    rcases hy with rfl | hy
    · rwa [List.append_nil]
    · exact hy.append x

/-! ### What cannot be extended -/

/-- No word of the language is at the start of `u`. -/
def NoStart (L : Language Char) (u : List Char) : Prop := ∀ y ∈ L, ¬ y <+: u

theorem noStart_digit {u : List Char} :
    NoStart Rule.digit.language u ↔ ∀ c, u.head? = some c → c.isDigit = false := by
  constructor
  · intro h c hc
    obtain ⟨v, rfl⟩ := List.head?_eq_some_iff.mp hc
    rw [← Bool.not_eq_true]
    exact fun hdigit => h [c] ⟨c, hdigit, rfl⟩ ⟨v, rfl⟩
  · rintro h _ ⟨c, hc, rfl⟩ ⟨v, rfl⟩
    rw [h c rfl] at hc
    cases hc

/-- Where something stands after spaces that is no digit, no digit starts. -/
theorem noStart_digit_blanks {n : Nat} {c : Char} {v : List Char} (hc : c.isDigit = false) :
    NoStart Rule.digit.language (blanks n ++ c :: v) := by
  rw [noStart_digit]
  intro d hd
  cases n with
  | zero =>
    obtain rfl : c = d := by simpa [blanks] using hd
    exact hc
  | succ n =>
    obtain rfl : ' ' = d := by simpa [blanks_succ] using hd
    rfl

section
variable (h : Ranked symbol apply operators) {M : Language Char} {n : Nat} {c : Char} {v : List Char}
include h

/-- Nor does a step where something stands after spaces that is none of its symbols. -/
theorem Ranked.noStart (hc : c ≠ ' ') (hne : ∀ operator, symbol operator ≠ c) :
    NoStart (steps (symbols operators) M) (blanks n ++ c :: v) := by
  rintro y hy ⟨z, hz⟩
  obtain ⟨before, _, hs, after, x, -, rfl⟩ := Arithmetic.mem_steps.mp hy
  obtain ⟨operator, rfl⟩ := h.mem_symbols.mp hs
  have heq : blanks before ++ symbol operator :: (blanks after ++ x ++ z) = blanks n ++ c :: v := by
    rw [← hz]
    simp
  exact hne operator (blanks_append_cons_inj (h.symbol_ne_blank operator) hc heq).2.1

theorem Ranked.noStart_closing : NoStart (steps (symbols operators) M) (blanks n ++ ')' :: v) := by
  refine h.noStart (by decide) fun operator hclose => ?_
  have hmem := h.symbol_mem operator
  rw [hclose] at hmem
  exact absurd hmem (by decide)

end

theorem noStart_factorSteps (n : Nat) (operator : TermOperator) (v : List Char) :
    NoStart factorSteps (blanks n ++ operator.symbol :: v) :=
  ranked_factorOperators.noStart (ranked_termOperators.symbol_ne_blank operator) fun o => symbol_ne_symbol o operator

/-- No word of `M` at the start of `u` extends `x` within `L`. -/
def Unextended (L M : Language Char) (x u : List Char) : Prop := ∀ y ∈ M, y <+: u → x ++ y ∉ L

section
variable {L L' M : Language Char} {x z u : List Char}

theorem NoStart.unextended (h : NoStart M u) : Unextended L M x u := fun y hy hyu _ => h y hy hyu

theorem Unextended.noStart (h : Unextended L M x u) (hL : ∀ y ∈ M, x ++ y ∈ L) : NoStart M u :=
  fun y hy hyu => h y hy hyu (hL y hy)

theorem Unextended.anti (h : Unextended L M x u) (hL : L' ≤ L) : Unextended L' M x u :=
  fun y hy hyu hxy => h y hy hyu (hL hxy)

/-- What cannot be extended has no last part that could be extended. -/
theorem Unextended.part (h : Unextended L M (z ++ x) u) (hL : ∀ y, x ++ y ∈ L' → z ++ (x ++ y) ∈ L) :
    Unextended L' M x u := fun y hy hyu hxy => h y hy hyu (by rw [List.append_assoc]; exact hL y hxy)

section
variable (h : Ranked symbol apply operators) {N : Language Char} {t : List Char}
  (ht : t ∈ (steps (symbols operators) N)∗)
include h ht

/-- What stands before a tail is extended by nothing, unless the tail is empty: an operator follows. -/
theorem Ranked.unextended (hM : ∀ n operator v, NoStart M (blanks n ++ symbol operator :: v))
    (hnil : t = [] → Unextended L M x u) : Unextended L M x (t ++ u) := by
  rcases h.eq_nil_or_eq_of_mem_kstar ht with rfl | ⟨n, operator, v, rfl⟩
  · exact hnil rfl
  · rw [List.append_assoc, List.cons_append]
    exact (hM n operator _).unextended

theorem Ranked.unextended_digit (hnil : t = [] → Unextended L Rule.digit.language x u) :
    Unextended L Rule.digit.language x (t ++ u) :=
  h.unextended ht (fun _ operator _ => noStart_digit_blanks (h.isDigit_symbol operator)) hnil

end

end

/-! ### The longest beginning -/

/-- No beginning of `w` that is in the language is longer than `x`, which is one of them. -/
structure Longest (L : Language Char) (x w : List Char) : Prop where
  mem : x ∈ L
  isPrefix : x <+: w
  length_le : ∀ y ∈ L, y <+: w → y.length ≤ x.length

theorem Longest.unextended {L M : Language Char} {x u : List Char} (h : Longest L x (x ++ u)) (hM : [] ∉ M) :
    Unextended L M x u := by
  intro y hy hyu hxy
  have hlength := h.length_le (x ++ y) hxy ((List.prefix_append_right_inj x).mpr hyu)
  rw [List.length_append] at hlength
  have hnil : y = [] := List.length_eq_zero_iff.mp (by omega)
  exact hM (hnil ▸ hy)

theorem exists_longest {L : Language Char} {x w : List Char} (hx : x ∈ L) (hw : x <+: w) :
    ∃ y, Longest L y w := by
  classical
  let P (n : Nat) : Prop := ∃ y ∈ L, y <+: w ∧ y.length = n
  have hP : P (Nat.findGreatest P w.length) :=
    Nat.findGreatest_spec hw.length_le (⟨x, hx, hw, rfl⟩ : P x.length)
  obtain ⟨y, hy, hyw, hlength⟩ := hP
  refine ⟨y, hy, hyw, fun z hz hzw => ?_⟩
  rw [hlength]
  exact Nat.le_findGreatest hzw.length_le ⟨z, hz, hzw, rfl⟩

end Reckoner.Arithmetic
