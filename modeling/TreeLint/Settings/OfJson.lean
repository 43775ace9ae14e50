import TreeLint.Settings.Basic
import TreeLint.Settings.Fault

/-!
# Settings from a document

A document is taken apart from front to back, and the first thing that is
wrong decides the answer: a value that does not fit, or the place where the
text stops making sense. Settings are an object of named fields or an array
of the fields in order; whatever is left out keeps its default.

Specification, §12: a rule has one of three forms.
-/

namespace TreeLint.SettingsReader

open Json (Document Sequence Mapping Value)

/-- A reading with its possible fault. -/
abbrev Read (α : Type) := Except Fault α

def malformed {α : Type} : Read α := .error .malformed

def unfit {α : Type} (m : Mismatch) : Read α := .error (.unfit m)

/-- What a document is, at first sight; a broken one is nothing. -/
def found : Document → Read Found
  | .null => .ok .null
  | .bool b => .ok (.bool b)
  | .number (some n) => .ok (.number n)
  | .number none => malformed
  | .text (some s) => .ok (.text s)
  | .text none => malformed
  | .array _ => .ok .array
  | .object _ => .ok .object
  | .broken => malformed

/-- The answer for a document that is not of the expected type. -/
def wrongType {α : Type} (expected : String) (d : Document) : Read α :=
  match found d with
  | .ok f => unfit (.wrongType f expected)
  | .error e => .error e

/-- Step into an array or object that lies inside `depth` others. -/
def enter {α : Type} (depth : Nat) (inside : Nat → Read α) : Read α :=
  if depth < Json.maxDepth then inside (depth + 1) else malformed

/-- A free-form value. -/
def value (depth : Nat) (d : Document) : Read Value :=
  match d.value? depth with
  | some v => .ok v
  | none => malformed

def boolean : Document → Read Bool
  | .bool b => .ok b
  | d => wrongType "a boolean" d

/-- A size: an integer that is not negative. -/
def size (d : Document) : Read Nat :=
  match found d with
  | .ok (.number (.int i)) =>
    if i < 0 then unfit (.negativeSize i) else .ok i.toNat
  | .ok f => unfit (.wrongType f "usize")
  | .error e => .error e

/-- A name out of several. -/
def chosen {α : Type} (all : List α) (name : α → String)
    (s : String) : Read α :=
  match all.find? fun a => name a == s with
  | some a => .ok a
  | none => unfit (.unknownChoice s (all.map name))

/-- One of several choices: its name, or an object whose only member has
that name and no value. Anything else is malformed rather than unfit. -/
def choice {α : Type} (all : List α) (name : α → String)
    (depth : Nat) : Document → Read α
  | .text (some s) => chosen all name s
  | .object members =>
    enter depth fun _ =>
      match members with
      | .member (some s) unit rest =>
        match chosen all name s with
        | .error e => .error e
        | .ok a =>
          match unit with
          | .null =>
            match rest with
            | .closed => .ok a
            | _ => malformed
          | d => wrongType "unit" d
      | _ => malformed
  | _ => malformed

/-- A natural number in decimal digits, with an optional plus sign, below
the bound of sizes. -/
def sizeOfText? (s : String) : Option Nat :=
  let cs :=
    match s.toList with
    | '+' :: r => r
    | r => r
  if cs.isEmpty || !cs.all Char.isDigit then none
  else
    let n := Json.Literal.decimalNumber cs
    if n < Json.Number.intBound then some n else none

/-- A line length given as a text. -/
def lineLengthOfText (s : String) : Read (Option Nat) :=
  if s = "off" then .ok none
  else match sizeOfText? s with
    | some n => .ok (some n)
    | none => unfit (.lineLengthText s)

/-- A line length given as a value: a positive number, or nothing for no
limit. -/
def lineLengthOfValue : Value → Read (Option Nat)
  | .number (.int i) =>
    if i < Json.Number.negBound then .ok (if i ≤ 0 then none else some i.toNat)
    else unfit .lineLengthShape
  | .text s => lineLengthOfText s
  | .bool false => .ok none
  | .bool true => unfit .lineLengthTrue
  | _ => unfit .lineLengthShape

/-- The longest line allowed. -/
def lineLength (depth : Nat) : Document → Read (Option Nat)
  | .null => .ok none
  | d =>
    match value depth d with
    | .ok v => lineLengthOfValue v
    | .error e => .error e

/-- A rule given as an array: a severity and, at most, options. -/
def ruleOfSequence (depth : Nat) : Sequence → Read RuleSetting
  | .closed => unfit .emptyRuleArray
  | .broken => malformed
  | .item first rest =>
    match choice Severity.all Severity.name depth first with
    | .error e => .error e
    | .ok severity =>
      match rest with
      | .closed => .ok (.detailed severity none)
      | .broken => malformed
      | .item second rest =>
        match value depth second, rest with
        | .ok options, .closed => .ok (.detailed severity (some options))
        | _, _ => malformed

/-- What was read of a rule given as an object: its severity, and its
options if that member was seen. -/
structure Details where
  severity : Option Severity := none
  options : Option (Option Value) := none

/-- A rule given as an object. Members of other names are skipped. -/
def ruleOfMapping (depth : Nat) (sofar : Details) : Mapping → Read RuleSetting
  | .closed =>
    match sofar.severity with
    | some severity => .ok (.detailed severity sofar.options.join)
    | none => unfit (.missingField "severity")
  | .member (some name) d rest =>
    if name = "severity" then
      if sofar.severity.isSome then unfit (.duplicateField name)
      else match choice Severity.all Severity.name depth d with
        | .ok severity =>
          ruleOfMapping depth { sofar with severity := some severity } rest
        | .error e => .error e
    else if name = "options" then
      if sofar.options.isSome then unfit (.duplicateField name)
      else match d with
        | .null => ruleOfMapping depth { sofar with options := some none } rest
        | d =>
          match value depth d with
          | .ok options =>
            ruleOfMapping depth
              { sofar with options := some (some options) } rest
          | .error e => .error e
    else if d.isWhole then ruleOfMapping depth sofar rest
    else malformed
  | _ => malformed

/-- What the settings say about one rule. Specification, §12. -/
def ruleSetting (depth : Nat) : Document → Read RuleSetting
  | .text (some s) =>
    match Severity.ofName? s with
    | some severity => .ok (.plain severity)
    | none => unfit (.unknownSeverity s)
  | .bool false => .ok (.plain .off)
  | .bool true => unfit .ruleSetToTrue
  | .array items => enter depth fun depth => ruleOfSequence depth items
  | .object members => enter depth fun depth => ruleOfMapping depth {} members
  | d => wrongType ruleSettingShapes d

/-- The entries of a map; of equal names the last one counts. -/
def entries {α : Type} (read : Document → Read α) (sofar : NameMap α) :
    Mapping → Read (NameMap α)
  | .closed => .ok sofar
  | .member (some name) d rest =>
    match read d with
    | .ok a => entries read (NameMap.insert name a sofar) rest
    | .error e => .error e
  | _ => malformed

/-- A map from names. -/
def nameMap {α : Type} (read : Nat → Document → Read α) (depth : Nat) :
    Document → Read (NameMap α)
  | .object members => enter depth fun depth => entries (read depth) [] members
  | d => wrongType "a map" d

/-- Read one field into settings; none if there is no field of that name. -/
def field? (name : String) (depth : Nat) (s : Settings) (d : Document) :
    Option (Read Settings) :=
  match name with
  | "code_style" =>
    some ((choice CodeStyle.all CodeStyle.name depth d).map
      ({ s with codeStyle := · }))
  | "indent_style" =>
    some ((choice IndentStyle.all IndentStyle.name depth d).map
      ({ s with indentStyle := · }))
  | "indent_size" => some ((size d).map ({ s with indentSize := · }))
  | "max_line_length" =>
    some ((lineLength depth d).map ({ s with maxLineLength := · }))
  | "experimental" => some ((boolean d).map ({ s with experimental := · }))
  | "rules" => some ((nameMap ruleSetting depth d).map ({ s with rules := · }))
  | "properties" =>
    some ((nameMap value depth d).map ({ s with properties := · }))
  | _ => none

/-- Settings given as an object, with the fields seen so far. -/
def ofMapping (depth : Nat) (seen : List String) (s : Settings) :
    Mapping → Read Settings
  | .closed => .ok s
  | .member (some name) d rest =>
    match field? name depth s d with
    | none => unfit (.unknownField name)
    | some read =>
      if seen.contains name then unfit (.duplicateField name)
      else match read with
        | .ok s => ofMapping depth (name :: seen) s rest
        | .error e => .error e
  | _ => malformed

/-- Settings given as an array of the fields that are still to come. -/
def ofSequence (depth : Nat) : List String → Settings → Sequence → Read Settings
  | [], s, .closed => .ok s
  | [], _, _ => malformed
  | _ :: _, s, .closed => .ok s
  | _ :: _, _, .broken => malformed
  | name :: names, s, .item d rest =>
    match field? name depth s d with
    | some (.ok s) => ofSequence depth names s rest
    | some (.error e) => .error e
    | none => malformed

/-- Settings from a document. -/
def ofDocument : Document → Read Settings
  | .object members => enter 0 fun depth => ofMapping depth [] {} members
  | .array items =>
    enter 0 fun depth => ofSequence depth settingsFields {} items
  | d => wrongType "struct ConfigSnapshot" d

/-- Settings from what was read of a text: a document, and whether nothing
but blanks follows it, which is all that may follow settings. -/
def ofReading (reading : Document × Bool) : Read Settings :=
  match ofDocument reading.1 with
  | .ok s => if reading.2 then .ok s else malformed
  | .error e => .error e

end TreeLint.SettingsReader
