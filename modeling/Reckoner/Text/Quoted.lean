import Reckoner.Text.Extending
import Reckoner.Text.Unprintable

/-! Texts quoted for a message on one line. A quoted text stands between double quotes; a quote, a
    backslash and the common controls are escaped with a backslash, and a character that has no
    printed form of its own, or that would merge with the one before it, is written by its number. -/

namespace Reckoner.Text

/-- The number of `c` in hexadecimal, as in `\u{e9}`. -/
def numbered (c : Char) : List Char :=
  ['\\', 'u', '{'] ++ Nat.toDigits 16 c.toNat ++ ['}']

/-- The form of `c` between quotes. -/
def escape (c : Char) : List Char :=
  if c = '\x00' then ['\\', '0']
  else if c = '\t' then ['\\', 't']
  else if c = '\n' then ['\\', 'n']
  else if c = '\r' then ['\\', 'r']
  else if c = '"' then ['\\', '"']
  else if c = '\\' then ['\\', '\\']
  else if isExtending c || isUnprintable c then numbered c
  else [c]

/-- The text `t` between double quotes, on one line. -/
def quote (t : String) : String :=
  String.ofList ('"' :: t.toList.flatMap escape ++ ['"'])

end Reckoner.Text
