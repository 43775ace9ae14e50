import TreeLint.Text.Unprintable

/-!
# Quoted text

The written form of a text between double quotes. The quote, the backslash
and the common control characters have a short escape; every other character
without a printed form is written by its number in lower-case hexadecimal.
All other characters stand for themselves, so two texts have the same
written form only if they are equal.

Texts of tokens are written like this in dumps (specification, §15).
-/

namespace TreeLint.Text

/-- The digits of a code point in lower-case hexadecimal, without padding. -/
def hexDigits (n : Nat) : List Char :=
  Nat.toDigits 16 n

/-- The written form of one character inside double quotes. -/
def escapeChar (c : Char) : List Char :=
  if c = '"' then ['\\', '"']
  else if c = '\\' then ['\\', '\\']
  else if c = '\n' then ['\\', 'n']
  else if c = '\r' then ['\\', 'r']
  else if c = '\t' then ['\\', 't']
  else if c = Char.ofNat 0 then ['\\', '0']
  else if Unprintable.contains c.toNat then
    ['\\', 'u', '\x7b'] ++ hexDigits c.toNat ++ ['\x7d']
  else [c]

/-- A text between double quotes with every character in its written form. -/
def quoted (s : String) : String :=
  "\"" ++ String.ofList (s.toList.flatMap escapeChar) ++ "\""

end TreeLint.Text
