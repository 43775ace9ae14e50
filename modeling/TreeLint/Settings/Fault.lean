import TreeLint.Json.Document
import TreeLint.Text.Quoted

/-!
# Why settings cannot be read

A settings text is either malformed, or well formed up to a value that
settings cannot have there. The second kind is told apart by cause, and each
cause has one wording.

Specification, §12.
-/

namespace TreeLint

/-- What was found where something else was expected. -/
inductive Found where
  | null
  | bool (b : Bool)
  | number (n : Json.Number)
  | text (s : String)
  | array
  | object
deriving DecidableEq, Repr

def Found.describe : Found → String
  | .null => "null"
  | .bool true => "boolean \x60true\x60"
  | .bool false => "boolean \x60false\x60"
  | .number (.int i) => "integer \x60" ++ (Json.Number.int i).render ++ "\x60"
  | .number (.float d) => "floating point \x60" ++ d.render ++ "\x60"
  | .text s => "string " ++ Text.quoted s
  | .array => "sequence"
  | .object => "map"

/-- A value that settings cannot have. -/
inductive Mismatch where
  | unknownField (name : String)
  | duplicateField (name : String)
  | missingField (name : String)
  | unknownChoice (name : String) (choices : List String)
  | wrongType (found : Found) (expected : String)
  | negativeSize (value : Int)
  | emptyRuleArray
  | unknownSeverity (name : String)
  | ruleSetToTrue
  | lineLengthShape
  | lineLengthText (text : String)
  | lineLengthTrue
deriving DecidableEq, Repr

/-- The fields of settings in the order of the array form. -/
def settingsFields : List String :=
  ["code_style", "indent_style", "indent_size", "max_line_length",
    "experimental", "rules",
    "properties"]

/-- A name between grave accents. -/
def ticked (s : String) : String := "\x60" ++ s ++ "\x60"

/-- The names to choose from. -/
def renderChoices (choices : List String) : String :=
  match choices with
  | [a, b] => ticked a ++ " or " ++ ticked b
  | _ => "one of " ++ String.intercalate ", " (choices.map ticked)

/-- What a rule may be set to. -/
def ruleSettingShapes : String :=
  "a severity string ('off', 'warn', 'error'), an array [severity, options], " ++
    "or an object \x7b severity, options \x7d"

def Mismatch.message : Mismatch → String
  | .unknownField name =>
    "unknown field " ++ ticked name ++ ", expected " ++
      renderChoices settingsFields
  | .duplicateField name => "duplicate field " ++ ticked name
  | .missingField name => "missing field " ++ ticked name
  | .unknownChoice name choices =>
    "unknown variant " ++ ticked name ++ ", expected " ++ renderChoices choices
  | .wrongType found expected =>
    "invalid type: " ++ found.describe ++ ", expected " ++ expected
  | .negativeSize i =>
    "invalid value: " ++ (Found.number (.int i)).describe ++ ", expected usize"
  | .emptyRuleArray => "invalid length 0, expected array with severity"
  | .unknownSeverity name => "unknown severity: " ++ name
  | .ruleSetToTrue => "use 'warn' or 'error' to enable a rule"
  | .lineLengthShape => "data did not match any variant of untagged enum Raw"
  | .lineLengthText text => "invalid max_line_length: " ++ text
  | .lineLengthTrue => "max_line_length must be a number or 'off'"

/-- Why a settings text cannot be read. -/
inductive Fault where
  | malformed
  | unfit (mismatch : Mismatch)
deriving DecidableEq, Repr

end TreeLint
