import TreeLint.Json.Value

/-!
# Reading the data format

A text is read into a document as far as it makes sense, and the place where
it stops making sense is part of the document. So reading never fails, and
whoever takes a document apart from front to back meets the broken place
exactly if nothing before it was already unfit for the purpose.

A text value whose escapes name half of a character pair can be skipped but
has no content; its content is `none`. Likewise a number too large to be
one.

Settings can be given as a text in this format (specification, §6 and §12).
-/

namespace TreeLint.Json

mutual

/-- What a text says, as far as it makes sense. -/
inductive Document where
  | null
  | bool (b : Bool)
  | number (value : Option Number)
  | text (content : Option String)
  | array (items : Sequence)
  | object (members : Mapping)
  /-- No value can be read here. -/
  | broken

/-- The items of an array and how it ends. -/
inductive Sequence where
  | closed
  | broken
  | item (value : Document) (rest : Sequence)

/-- The members of an object and how it ends. -/
inductive Mapping where
  | closed
  | broken
  | member (name : Option String) (value : Document) (rest : Mapping)

end

instance : Inhabited Document := ⟨.broken⟩

/-! ## Characters -/

def isBlank (c : Char) : Bool := c == ' ' || c == '\n' || c == '\t' || c == '\r'

def skipBlanks (cs : List Char) : List Char := cs.dropWhile isBlank

/-- The value of a hexadecimal digit of either case. -/
def hexValue? (c : Char) : Option Nat :=
  if '0' ≤ c ∧ c ≤ '9' then some (c.toNat - '0'.toNat)
  else if 'a' ≤ c ∧ c ≤ 'f' then some (c.toNat - 'a'.toNat + 10)
  else if 'A' ≤ c ∧ c ≤ 'F' then some (c.toNat - 'A'.toNat + 10)
  else none

/-- The number that hexadecimal digits spell. -/
def hexNumber? (cs : List Char) : Option Nat :=
  cs.foldl (fun acc c => acc.bind fun n => (hexValue? c).map (16 * n + ·))
    (some 0)

/-- The first half of a character pair. -/
def isLeading (n : Nat) : Bool := decide (0xd800 ≤ n) && decide (n ≤ 0xdbff)

/-- The second half of a character pair. -/
def isTrailing (n : Nat) : Bool := decide (0xdc00 ≤ n) && decide (n ≤ 0xdfff)

/-- The character that two halves make. -/
def pairChar (lead trail : Nat) : Char :=
  Char.ofNat (0x10000 + (lead - 0xd800) * 0x400 + (trail - 0xdc00))

/-- The character after a backslash that stands for one character. -/
def shortEscape? : Char → Option Char
  | '"' => some '"'
  | '\\' => some '\\'
  | '/' => some '/'
  | 'b' => some (Char.ofNat 8)
  | 'f' => some (Char.ofNat 12)
  | 'n' => some '\n'
  | 'r' => some '\r'
  | 't' => some '\t'
  | _ => none

/-- A text read so far with one more character in front. -/
def pushChar (c : Char) (r : Option (List Char) × List Char) :
    Option (List Char) × List Char :=
  (r.1.map (c :: ·), r.2)

/-- A text read so far with half a character in front: it has no content. -/
def pushHalf (r : Option (List Char) × List Char) :
    Option (List Char) × List Char :=
  (none, r.2)

/-- A text read so far behind a first half that still waits for its second,
if there is one. -/
def settle (lead : Option Nat) (r : Option (List Char) × List Char) :
    Option (List Char) × List Char :=
  if lead.isSome then pushHalf r else r

/-- Read the inside of a text up to its closing quote: its content, if it
has one, and what follows. `lead` is the first half of a character pair that
was read just before. -/
def readText (lead : Option Nat) :
    List Char → Option (Option (List Char) × List Char)
  | [] => none
  | '"' :: rest => some (settle lead (some [], rest))
  | '\\' :: 'u' :: a :: b :: c :: d :: rest =>
    match hexNumber? [a, b, c, d] with
    | none => none
    | some n =>
      match lead with
      | some l =>
        if isTrailing n then (readText none rest).map (pushChar (pairChar l n))
        else (readText none rest).map pushHalf
      | none =>
        if isLeading n then readText (some n) rest
        else if isTrailing n then (readText none rest).map pushHalf
        else (readText none rest).map (pushChar (Char.ofNat n))
  | '\\' :: e :: rest =>
    match shortEscape? e with
    | some c => (readText none rest).map (settle lead ∘ pushChar c)
    | none => none
  | c :: rest =>
    if c = '\\' ∨ c.toNat < 0x20 then none
    else (readText none rest).map (settle lead ∘ pushChar c)

/-! ## Numbers -/

/-- Read the digits of an exponent: its value and what follows. -/
def readExponentDigits (negative : Bool) (cs : List Char) :
    Option (Int × List Char) :=
  let ds := cs.takeWhile Char.isDigit
  if ds.isEmpty then none
  else
    let e : Int := Literal.decimalNumber ds
    some (if negative then -e else e, cs.dropWhile Char.isDigit)

/-- Read an exponent after its letter: its value and what follows. -/
def readExponent : List Char → Option (Int × List Char)
  | '+' :: rest => readExponentDigits false rest
  | '-' :: rest => readExponentDigits true rest
  | rest => readExponentDigits false rest

/-- Read the exponent that may follow the digits of a number: nothing was
read if there is none. -/
def readScale (cs : List Char) : Option (Option Int × List Char) :=
  match cs with
  | [] => some (none, [])
  | c :: rest =>
    if c = 'e' ∨ c = 'E' then
      (readExponent rest).map fun (e, rest) => (some e, rest)
    else some (none, cs)

/-- Read what may follow the whole part of a number. -/
def readFraction (negative : Bool) (whole : List Char) (cs : List Char) :
    Option (Literal × List Char) :=
  match cs with
  | '.' :: rest =>
    let fraction := rest.takeWhile Char.isDigit
    if fraction.isEmpty then none
    else
      (readScale (rest.dropWhile Char.isDigit)).map fun (e, rest) =>
        (.ofDigits negative true whole fraction (e.getD 0), rest)
  | _ =>
    (readScale cs).map fun (e, rest) =>
      (.ofDigits negative e.isSome whole [] (e.getD 0), rest)

/-- Read a number after its sign: a whole part without a needless zero in
front, a fraction and an exponent. -/
def readMagnitude (negative : Bool) (cs : List Char) :
    Option (Literal × List Char) :=
  let whole := cs.takeWhile Char.isDigit
  if whole.isEmpty ∨ (whole.head? = some '0' ∧ 1 < whole.length) then none
  else readFraction negative whole (cs.dropWhile Char.isDigit)

/-- Read a number with its sign. -/
def readNumber : List Char → Option (Literal × List Char)
  | '-' :: rest => readMagnitude true rest
  | rest => readMagnitude false rest

/-! ## Values -/

mutual

/-- Read one value, after blanks, and what follows it. -/
def readValue : Nat → List Char → Document × List Char
  | 0, _ => (.broken, [])
  | fuel + 1, cs =>
    match skipBlanks cs with
    | 'n' :: 'u' :: 'l' :: 'l' :: rest => (.null, rest)
    | 't' :: 'r' :: 'u' :: 'e' :: rest => (.bool true, rest)
    | 'f' :: 'a' :: 'l' :: 's' :: 'e' :: rest => (.bool false, rest)
    | '"' :: rest =>
      match readText none rest with
      | some (content, rest) => (.text (content.map String.ofList), rest)
      | none => (.broken, [])
    | '[' :: rest =>
      let (items, rest) := readItems fuel true rest
      (.array items, rest)
    | '\x7b' :: rest =>
      let (members, rest) := readMembers fuel true rest
      (.object members, rest)
    | rest =>
      match readNumber rest with
      | some (literal, rest) => (.number literal.toNumber?, rest)
      | none => (.broken, [])

/-- Read the items of an array from where one starts, or from after one if
it is not the first. -/
def readItems : Nat → Bool → List Char → Sequence × List Char
  | 0, _, _ => (.broken, [])
  | fuel + 1, first, cs =>
    let item (cs : List Char) : Sequence × List Char :=
      let (value, rest) := readValue fuel cs
      let (items, rest) := readItems fuel false rest
      (.item value items, rest)
    match skipBlanks cs with
    | [] => (.broken, [])
    | ']' :: rest => (.closed, rest)
    | c :: rest =>
      if first then item (c :: rest)
      else if c = ',' then
        match skipBlanks rest with
        | ']' :: _ => (.broken, [])
        | rest => item rest
      else (.broken, [])

/-- Read the members of an object from where one starts, or from after one
if it is not the first. -/
def readMembers : Nat → Bool → List Char → Mapping × List Char
  | 0, _, _ => (.broken, [])
  | fuel + 1, first, cs =>
    let member (cs : List Char) : Mapping × List Char :=
      match cs with
      | '"' :: rest =>
        match readText none rest with
        | none => (.broken, [])
        | some (name, rest) =>
          match skipBlanks rest with
          | ':' :: rest =>
            let (value, rest) := readValue fuel rest
            let (members, rest) := readMembers fuel false rest
            (.member (name.map String.ofList) value members, rest)
          | _ => (.member (name.map String.ofList) .broken .broken, [])
      | _ => (.broken, [])
    match skipBlanks cs with
    | [] => (.broken, [])
    | '\x7d' :: rest => (.closed, rest)
    | c :: rest =>
      if first then member (c :: rest)
      else if c = ',' then
        match skipBlanks rest with
        | '\x7d' :: _ => (.broken, [])
        | rest => member rest
      else (.broken, [])

end

/-- What a text says, and whether nothing but blanks follows its value.
Every two steps of reading take at least one character, so the text's own
length bounds them. -/
def Document.read (text : String) : Document × Bool :=
  let cs := text.toList
  let (value, rest) := readValue (2 * cs.length + 2) cs
  (value, (skipBlanks rest).isEmpty)

/-! ## Skipping and taking whole values -/

mutual

/-- Whether a document can be skipped: it is broken nowhere. -/
def Document.isWhole : Document → Bool
  | .null | .bool _ | .number _ | .text _ => true
  | .array items => items.isWhole
  | .object members => members.isWhole
  | .broken => false

def Sequence.isWhole : Sequence → Bool
  | .closed => true
  | .broken => false
  | .item value rest => value.isWhole && rest.isWhole

def Mapping.isWhole : Mapping → Bool
  | .closed => true
  | .broken => false
  | .member _ value rest => value.isWhole && rest.isWhole

end

/-- How deep arrays and objects may nest. -/
def maxDepth : Nat := 127

mutual

/-- The value a document stands for inside `depth` arrays and objects; none
if it is broken, has a text without content or a number too large, or nests
too deeply. Of members of one name the last one counts. -/
def Document.value? (depth : Nat) : Document → Option Value
  | .null => some .null
  | .bool b => some (.bool b)
  | .number value => value.map .number
  | .text content => content.map .text
  | .array items =>
    if depth < maxDepth then (items.value? (depth + 1)).map .array else none
  | .object members =>
    if depth < maxDepth then (members.value? (depth + 1) .nil).map .object
    else none
  | .broken => none

def Sequence.value? (depth : Nat) : Sequence → Option Items
  | .closed => some .nil
  | .broken => none
  | .item value rest =>
    match value.value? depth, rest.value? depth with
    | some v, some r => some (.cons v r)
    | _, _ => none

def Mapping.value? (depth : Nat) (sofar : Members) : Mapping → Option Members
  | .closed => some sofar
  | .broken => none
  | .member (some name) value rest =>
    match value.value? depth with
    | some v => rest.value? depth (sofar.insert name v)
    | none => none
  | .member none _ _ => none

end

/-! ## Documents of values -/

mutual

/-- The document that a value's written form is read as. -/
def Value.document : Value → Document
  | .null => .null
  | .bool b => .bool b
  | .number n => .number (some n)
  | .text s => .text (some s)
  | .array items => .array items.document
  | .object members => .object members.document

def Items.document : Items → Sequence
  | .nil => .closed
  | .cons v r => .item v.document r.document

def Members.document : Members → Mapping
  | .nil => .closed
  | .cons n v r => .member (some n) v.document r.document

end

end TreeLint.Json
