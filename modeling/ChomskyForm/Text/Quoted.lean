import ChomskyForm.Text.Printable

/-!
# Quoted texts

A text between double quotes. A backslash precedes a quote and a backslash, four control characters
have a letter or digit of their own, and any other character that is not shown is written by its
code point in hexadecimal digits.
-/

namespace ChomskyForm

def escape (c : Char) : List Char :=
  if c = '"' ∨ c = '\\' then ['\\', c]
  else if c = '\t' then ['\\', 't']
  else if c = '\n' then ['\\', 'n']
  else if c = '\r' then ['\\', 'r']
  else if c = '\x00' then ['\\', '0']
  else if isShown c then [c]
  else ['\\', 'u', '\x7b'] ++ Nat.toDigits 16 c.toNat ++ ['\x7d']

def quoted (text : List Char) : String := String.ofList ('"' :: text.flatMap escape ++ ['"'])

end ChomskyForm
