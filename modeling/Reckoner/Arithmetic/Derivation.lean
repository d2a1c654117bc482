import Reckoner.Arithmetic.Rule
import Reckoner.Decimal.Reading

/-! Derivation trees of arithmetic, which say what the rules describe without a word on how a text is
    matched. A tree has a text, in which it may leave any number of spaces where the rules allow them, and a
    value, which takes the operators of one rank from left to right. A text is derivable from a rule when a
    tree of that rule has it, and viable when it can be continued to an expression. -/

namespace Reckoner.Arithmetic
namespace Derivation

/-- A run of decimal digits. -/
structure Numeral where
  digits : List Char
  nonempty : digits ≠ []
  all_digits : digits.all Char.isDigit = true

/-- The operators between factors. -/
inductive FactorOperator where
  | times | over
  deriving DecidableEq, Repr

/-- The operators between terms. -/
inductive TermOperator where
  | plus | minus
  deriving DecidableEq, Repr

mutual

inductive Factor where
  | number (n : Numeral)
  | negated (f : Factor)
  /-- An expression in parentheses, after `before` and followed by `after` spaces. -/
  | parenthesized (before : Nat) (e : Expr) (after : Nat)

/-- Operators with their right operands, the last one apart; `before` and `after` are the spaces around the
    operator. -/
inductive TermTail where
  | nil
  | snoc (rest : TermTail) (before : Nat) (operator : FactorOperator) (after : Nat) (operand : Factor)

inductive Term where
  | mk (first : Factor) (rest : TermTail)

/-- Operators with their right operands, the last one apart; `before` and `after` are the spaces around the
    operator. -/
inductive ExprTail where
  | nil
  | snoc (rest : ExprTail) (before : Nat) (operator : TermOperator) (after : Nat) (operand : Term)

inductive Expr where
  | mk (first : Term) (rest : ExprTail)

end

/-! ### Texts -/

/-- A run of `n` spaces. -/
def blanks (n : Nat) : List Char := List.replicate n ' '

def FactorOperator.symbol : FactorOperator → Char
  | .times => '*'
  | .over => '/'

def TermOperator.symbol : TermOperator → Char
  | .plus => '+'
  | .minus => '-'

mutual

def Factor.text : Factor → List Char
  | .number n => n.digits
  | .negated f => '-' :: f.text
  | .parenthesized before e after => '(' :: blanks before ++ e.text ++ blanks after ++ [')']

def TermTail.text : TermTail → List Char
  | .nil => []
  | .snoc rest before operator after operand =>
    rest.text ++ blanks before ++ operator.symbol :: blanks after ++ operand.text

def Term.text : Term → List Char
  | .mk first rest => first.text ++ rest.text

def ExprTail.text : ExprTail → List Char
  | .nil => []
  | .snoc rest before operator after operand =>
    rest.text ++ blanks before ++ operator.symbol :: blanks after ++ operand.text

def Expr.text : Expr → List Char
  | .mk first rest => first.text ++ rest.text

end

/-! ### Values -/

/-- The double nearest to the number that the digits spell. -/
def Numeral.value (n : Numeral) : Float := Binary.nearest (Decimal.value n.digits)

def FactorOperator.apply : FactorOperator → Float → Float → Float
  | .times, x, y => x * y
  | .over, x, y => x / y

def TermOperator.apply : TermOperator → Float → Float → Float
  | .plus, x, y => x + y
  | .minus, x, y => x - y

mutual

def Factor.value : Factor → Float
  | .number n => n.value
  | .negated f => -f.value
  | .parenthesized _ e _ => e.value

/-- What the operators make of the value of the first operand, the last operator last. -/
def TermTail.value : TermTail → Float → Float
  | .nil, x => x
  | .snoc rest _ operator _ operand, x => operator.apply (rest.value x) operand.value

def Term.value : Term → Float
  | .mk first rest => rest.value first.value

/-- What the operators make of the value of the first operand, the last operator last. -/
def ExprTail.value : ExprTail → Float → Float
  | .nil, x => x
  | .snoc rest _ operator _ operand, x => operator.apply (rest.value x) operand.value

def Expr.value : Expr → Float
  | .mk first rest => rest.value first.value

end

end Derivation

/-! ### Derivable and viable texts -/

/-- A tree of the rule has the text `s`. -/
def Derives : Rule → List Char → Prop
  | .digit, s => ∃ c, c.isDigit = true ∧ s = [c]
  | .spaces, s => ∃ n, s = Derivation.blanks n
  | .number, s => ∃ n : Derivation.Numeral, n.digits = s
  | .factor, s => ∃ f : Derivation.Factor, f.text = s
  | .termTail, s => ∃ t : Derivation.TermTail, t.text = s
  | .term, s => ∃ t : Derivation.Term, t.text = s
  | .exprTail, s => ∃ t : Derivation.ExprTail, t.text = s
  | .expr, s => ∃ e : Derivation.Expr, e.text = s

/-- Some expression begins with `s`. -/
def Viable (s : List Char) : Prop := ∃ u, Derives .expr (s ++ u)

end Reckoner.Arithmetic
