/-! The rules of arithmetic, by name.

    ```text
    digit    := '0' .. '9'
    spaces   := ' '*
    number   := digit+
    factor   := '(' spaces expr spaces ')' | '-' factor | number
    termTail := (spaces ('*' | '/') spaces factor)*
    term     := factor termTail
    exprTail := (spaces ('+' | '-') spaces term)*
    expr     := term exprTail
    ```

    Spaces stand only around binary operators and inside parentheses. -/

namespace Reckoner.Arithmetic

/-- The rules of arithmetic. A tail is what follows the first operand of a term or expression. -/
inductive Rule where
  | digit | spaces | number | factor | termTail | term | exprTail | expr
  deriving DecidableEq, Repr

end Reckoner.Arithmetic
