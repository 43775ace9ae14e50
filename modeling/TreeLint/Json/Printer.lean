import TreeLint.Json.Value

/-!
# Writing values

The compact written form: no blanks, members in the order of their names,
and only the quote, the backslash and control characters escaped in texts.

Settings in this form can be loaded again (specification, §12).
-/

namespace TreeLint.Json

/-- A hexadecimal digit in lower case. -/
def hexDigit (n : Nat) : Char :=
  (Nat.toDigits 16 (n % 16)).headD '0'

/-- The written form of one character of a text. -/
def writeChar (c : Char) : List Char :=
  if c = '"' then ['\\', '"']
  else if c = '\\' then ['\\', '\\']
  else if c = '\n' then ['\\', 'n']
  else if c = '\r' then ['\\', 'r']
  else if c = '\t' then ['\\', 't']
  else if c = Char.ofNat 8 then ['\\', 'b']
  else if c = Char.ofNat 12 then ['\\', 'f']
  else if c.toNat < 0x20 then
    ['\\', 'u', '0', '0', hexDigit (c.toNat / 16), hexDigit c.toNat]
  else [c]

def writeText (s : String) : String :=
  "\"" ++ String.ofList (s.toList.flatMap writeChar) ++ "\""

mutual

/-- The compact written form of a value. -/
def Value.write : Value → String
  | .null => "null"
  | .bool true => "true"
  | .bool false => "false"
  | .number n => n.render
  | .text s => writeText s
  | .array items => "[" ++ items.write ++ "]"
  | .object members => "\x7b" ++ members.write ++ "\x7d"

/-- Items with commas between them. -/
def Items.write : Items → String
  | .nil => ""
  | .cons v .nil => v.write
  | .cons v r => v.write ++ "," ++ r.write

/-- Members with commas between them. -/
def Members.write : Members → String
  | .nil => ""
  | .cons n v .nil => writeText n ++ ":" ++ v.write
  | .cons n v r => writeText n ++ ":" ++ v.write ++ "," ++ r.write

end

end TreeLint.Json
