import TreeLint.Settings.OfJson
import TreeLint.Text.Blank
import TreeLint.Yaml.Reader

/-!
# Settings from an indented document

In an indented document a scalar has no type of its own. Where a choice, a
size or a truth value is expected its text decides, quoted or not. Where any
value can stand, a quoted scalar is a text, and a plain one is nothing, a
truth value, a number or a text, whichever it reads as first. A key that is
given twice is refused wherever it stands, and so is anything that settings
cannot hold; no reason is kept.

Specification, §12: the same settings in the other format.
-/

namespace TreeLint.YamlSettings

open Json (Value)
open Yaml (Node Nodes Entries)

/-! ## Scalars -/

/-- The characters of a text without the white space around them. -/
def trimmed (s : String) : List Char :=
  ((s.toList.dropWhile Text.isBlank).reverse.dropWhile Text.isBlank).reverse

/-- A truth value in any of its spellings, whatever the case. -/
def boolOfText? (s : String) : Option Bool :=
  let word := String.ofList ((trimmed s).map Char.toLower)
  if word = "true" ∨ word = "yes" ∨ word = "y" ∨ word = "on" then some true
  else if word = "false" ∨ word = "no" ∨ word = "n" ∨ word = "off" then
    some false
  else none

/-- The digits of a base as a number, behind others that spell `sofar`. An
underscore may stand between two digits, so one is allowed if the character
before it was a `digit`. -/
def digitsFrom? (base : Nat) (sofar : Nat) (digit : Bool) :
    List Char → Option Nat
  | [] => if digit then some sofar else none
  | '_' :: cs => if digit then digitsFrom? base sofar false cs else none
  | c :: cs =>
    match Json.hexValue? c with
    | some v =>
      if v < base then digitsFrom? base (base * sofar + v) true cs else none
    | none => none

/-- The digits of a base as a number. -/
def digits? (base : Nat) (cs : List Char) : Option Nat :=
  digitsFrom? base 0 false cs

/-- A natural number with an optional mark of its base. -/
def natOfChars? : List Char → Option Nat
  | '0' :: 'x' :: cs => digits? 16 cs
  | '0' :: 'X' :: cs => digits? 16 cs
  | '0' :: 'o' :: cs => digits? 8 cs
  | '0' :: 'O' :: cs => digits? 8 cs
  | '0' :: 'b' :: cs => digits? 2 cs
  | '0' :: 'B' :: cs => digits? 2 cs
  | cs => digits? 10 cs

/-- A natural number with an optional plus sign. -/
def natOfText? (s : String) : Option Nat :=
  match trimmed s with
  | '+' :: cs => natOfChars? cs
  | cs => natOfChars? cs

/-- An integer. -/
def intOfText? (s : String) : Option Int :=
  match trimmed s with
  | '-' :: cs => (natOfChars? cs).map fun n => -(n : Int)
  | _ => (natOfText? s).map fun n => (n : Int)

/-- A decimal without its sign: digits with a point before, between or
behind them, and an exponent. -/
def decimalOfChars? (negative : Bool) (cs : List Char) : Option Json.Decimal :=
  let whole := cs.takeWhile Char.isDigit
  let rest := cs.dropWhile Char.isDigit
  let (fraction, rest) :=
    match rest with
    | '.' :: r => (r.takeWhile Char.isDigit, r.dropWhile Char.isDigit)
    | r => ([], r)
  let digits := whole ++ fraction
  if digits.isEmpty then none
  else
    match Json.readScale rest with
    | some (e, []) =>
      some ⟨negative, Json.Literal.decimalNumber digits,
        e.getD 0 - (fraction.length : Int)⟩
    | _ => none

/-- What a text that may have a fraction or an exponent reads as: a number,
or, where it has no finite value, the usual spelling of what it has. -/
def floatOfText? (s : String) : Option Value :=
  let cs := trimmed s
  let negative := cs.head? == some '-'
  let cs := match cs with
    | '+' :: r => r
    | '-' :: r => r
    | r => r
  let infinite : Value := .text (if negative then "-.inf" else ".inf")
  let word := String.ofList (cs.map Char.toLower)
  if word = "inf" ∨ word = ".inf" ∨ word = "infinity" then some infinite
  else if word = "nan" ∨ word = ".nan" then some (.text ".nan")
  else (decimalOfChars? negative cs).map fun d =>
    match d.rounded? with
    | some d => .number (.float d)
    | none => infinite

/-- What a plain scalar is where any value can stand. -/
def plainValue (s : String) : Value :=
  if Yaml.isNullText s then .null
  else match boolOfText? s with
    | some b => .bool b
    | none =>
      match (intOfText? s).filter fun i =>
          decide (-(Json.Number.negBound : Int) ≤ i ∧
            i < Json.Number.intBound) with
      | some i => .number (.int i)
      | none => (floatOfText? s).getD (.text s)

/-- The text of a scalar. -/
def scalarText? : Node → Option String
  | .scalar _ s => some s
  | _ => none

/-- The text of a key: nothing is no key. -/
def keyText? (n : Node) : Option String :=
  if n.isNull then none else scalarText? n

/-! ## Free-form values -/

mutual

/-- A free-form value. -/
def value? : Node → Option Value
  | .scalar true s => some (plainValue s)
  | .scalar false s => some (.text s)
  | .sequence items => (items? items).map .array
  | .mapping entries => (members? .nil entries).map .object

/-- The items of a free-form array. -/
def items? : Nodes → Option Json.Items
  | .nil => some .nil
  | .cons n r =>
    match value? n, items? r with
    | some v, some vs => some (.cons v vs)
    | _, _ => none

/-- The members of a free-form object. -/
def members? (sofar : Json.Members) : Entries → Option Json.Members
  | .nil => some sofar
  | .cons key n r =>
    match keyText? key, value? n with
    | some name, some v => members? (sofar.insert name v) r
    | _, _ => none

end

/-! ## Fields -/

/-- The entries of a mapping by their names, in order; a scalar that spells
nothing has none. -/
def entries? : Node → Option (List (String × Node))
  | .mapping entries => named entries
  | n => if n.isNull then some [] else none
where
  /-- Names with their nodes. -/
  named : Entries → Option (List (String × Node))
    | .nil => some []
    | .cons key n r =>
      match keyText? key, named r with
      | some name, some rest => some ((name, n) :: rest)
      | _, _ => none

/-- One of several choices: its name, or a mapping whose only entry has that
name and no value. -/
def choice? {α : Type} (ofName? : String → Option α) : Node → Option α
  | .scalar _ s => ofName? s
  | .mapping (.cons key n .nil) =>
    if n.isNull then (scalarText? key).bind ofName? else none
  | _ => none

/-- A size, given by the text of a scalar. -/
def size? (n : Node) : Option Nat :=
  ((scalarText? n).bind natOfText?).filter fun k =>
    decide (k < Json.Number.intBound)

/-- The longest line allowed. -/
def lineLength? (n : Node) : Option (Option Nat) :=
  if n.isNull then some none
  else match value? n with
    | some v => (SettingsReader.lineLengthOfValue v).toOption
    | none => none

/-- The options of a rule given as a mapping. -/
def options? : Option Node → Option (Option Value)
  | none => some none
  | some n => if n.isNull then some none else (value? n).map some

/-- What the settings say about one rule. Specification, §12. -/
def ruleSetting? : Node → Option RuleSetting
  | .sequence (.cons severity .nil) =>
    (choice? Severity.ofName? severity).map fun s => .detailed s none
  | .sequence (.cons severity (.cons options .nil)) =>
    match choice? Severity.ofName? severity, value? options with
    | some s, some v => some (.detailed s (some v))
    | _, _ => none
  | .sequence _ => none
  | .mapping entries =>
    match entries? (.mapping entries) with
    | none => none
    | some named =>
      match (named.lookup "severity").bind (choice? Severity.ofName?),
          options? (named.lookup "options") with
      | some s, some options => some (.detailed s options)
      | _, _ => none
  | n =>
    match value? n with
    | some (.text s) => (Severity.ofName? s).map .plain
    | some (.bool false) => some (.plain .off)
    | _ => none

/-- A map from names. -/
def nameMap? {α : Type} (read : Node → Option α) (n : Node) :
    Option (NameMap α) :=
  (entries? n).bind fun named =>
    (named.mapM fun (p : String × Node) => (read p.2).map fun a => (p.1, a)).map
      NameMap.ofList

/-- Read one field into settings. -/
def field? (s : Settings) (name : String) (n : Node) : Option Settings :=
  match name with
  | "code_style" =>
    (choice? CodeStyle.ofName? n).map ({ s with codeStyle := · })
  | "indent_style" =>
    (choice? IndentStyle.ofName? n).map ({ s with indentStyle := · })
  | "indent_size" => (size? n).map ({ s with indentSize := · })
  | "max_line_length" => (lineLength? n).map ({ s with maxLineLength := · })
  | "experimental" =>
    ((scalarText? n).bind boolOfText?).map ({ s with experimental := · })
  | "rules" => (nameMap? ruleSetting? n).map ({ s with rules := · })
  | "properties" => (nameMap? value? n).map ({ s with properties := · })
  | _ => none

/-- Settings from a node: a mapping of fields, each of which may be left out. -/
def ofNode? (n : Node) : Option Settings :=
  (entries? n).bind fun named => named.foldlM (fun s p => field? s p.1 p.2) {}

/-- Settings from a text. -/
def ofText? (text : String) : Option Settings :=
  if Text.allBlank text then some {}
  else ((Yaml.read? text).bind Node.resolve?).bind ofNode?

end TreeLint.YamlSettings
