import TreeLint.Settings.OfYaml

/-!
# Loading settings

The name of a settings file decides its format. Whatever was read is checked
before it is handed out: an indentation has at least one column, and every
rule that is mentioned has a valid identity.

Specification, §12.
-/

namespace TreeLint

/-! ## File names -/

/-- The components of a path between slashes; empty ones and single dots,
which name no place of their own, are left out. -/
def pathComponents (path : String) : List (List Char) :=
  let parts := (path.toList.splitOn '/').filter fun p => !p.isEmpty
  match parts with
  | [] => []
  | first :: rest =>
    let rest := rest.filter (· != ['.'])
    if first = ['.'] ∧ path.toList.head? = some '/' then rest else first :: rest

/-- The final component of a path; a step up or a lone dot is no file name. -/
def fileName? (path : String) : Option (List Char) :=
  (pathComponents path).getLast?.filter fun c => c != ['.', '.'] && c != ['.']

/-- What follows the last dot of a file name. A dot in front starts no
extension. -/
def extension? (name : List Char) : Option (List Char) :=
  let back := name.reverse
  if back.contains '.' then
    let stem := (back.dropWhile (· != '.')).drop 1
    if stem.isEmpty then none else some (back.takeWhile (· != '.')).reverse
  else none

/-- How a settings file is written. -/
inductive SettingsFormat where
  | yaml
  | json
  /-- YAML, or JSON for a text that is not acceptable YAML. -/
  | either
deriving DecidableEq, Repr

/-- The format of a settings file, by its name. Specification, §12. -/
def SettingsFormat.ofPath? (path : String) : Option SettingsFormat :=
  match fileName? path with
  | none => none
  | some name =>
    match (extension? name).map String.ofList with
    | some "yml" => some .yaml
    | some "yaml" => some .yaml
    | some "json" => some .json
    | some _ => none
    | none => if String.ofList name = ".lintkitrc" then some .either else none

/-! ## Errors -/

/-- Why a file could not be read. -/
inductive ReadFault where
  | missing
  | notText
deriving DecidableEq, Repr

def ReadFault.message : ReadFault → String
  | .missing => "No such file or directory (os error 2)"
  | .notText => "stream did not contain valid UTF-8"

/-- Why a settings file is not acceptable. -/
inductive Rejection where
  | yaml
  | json (fault : Fault)
  | noIndent
deriving DecidableEq, Repr

def Rejection.message : Rejection → String
  | .yaml => "YAML parse error"
  | .json .malformed => "JSON parse error"
  | .json (.unfit m) => "JSON parse error: " ++ m.message
  | .noIndent => "indent_size must be greater than zero"

/-- Why settings could not be loaded. -/
inductive LoadError where
  | unreadable (fault : ReadFault)
  | unsupportedFormat (path : String)
  | invalid (path : String) (reason : Rejection)
  | invalidRuleId (path : String) (rule : RuleId)
deriving DecidableEq, Repr

def LoadError.message : LoadError → String
  | .unreadable fault => "Failed to read config file: " ++ fault.message
  | .unsupportedFormat path => "Unsupported config format: " ++ path
  | .invalid path reason =>
    "Invalid config in " ++ path ++ ": " ++ reason.message
  | .invalidRuleId path rule =>
    "Invalid rule id '" ++ rule ++ "' in " ++ path ++
      ": expected '<rule-set>:<rule-name>'"

/-! ## Loading -/

namespace Settings

/-- Settings as one format, with a reader for each of the two notations. -/
def parseBy (yaml : String → Option Settings)
    (json : String → Json.Document × Bool) (format : SettingsFormat)
    (text : String) : Except Rejection Settings :=
  match format with
  | .yaml =>
    match yaml text with
    | some s => .ok s
    | none => .error .yaml
  | .json => (SettingsReader.ofReading (json text)).mapError Rejection.json
  | .either =>
    match yaml text with
    | some s => .ok s
    | none =>
      (SettingsReader.ofReading (json text)).mapError Rejection.json

/-- Settings as one format. -/
def parse : SettingsFormat → String → Except Rejection Settings :=
  parseBy YamlSettings.ofText? Json.Document.read

/-- Settings that can be worked with. Of several invalid identities the
least one is reported. Specification, §12. -/
def check (path : String) (s : Settings) : Except LoadError Settings :=
  if s.indentSize = 0 then .error (.invalid path .noIndent)
  else match (sortedNames (NameMap.names s.rules)).find? fun id =>
      !RuleId.isValid id with
    | some id => .error (.invalidRuleId path id)
    | none => .ok s

/-- Settings from the text of a file, with a parser for each format. -/
def loadBy (parser : SettingsFormat → String → Except Rejection Settings)
    (path : String) (text : String) :
    Except LoadError Settings :=
  match SettingsFormat.ofPath? path with
  | none => .error (.unsupportedFormat path)
  | some format =>
    match parser format text with
    | .error reason => .error (.invalid path reason)
    | .ok s => check path s

/-- Settings from the text of a file. -/
def load (path : String) (text : String) : Except LoadError Settings :=
  loadBy parse path text

/-- Settings from the bytes of a file; none means that there is no such file. -/
def loadFile (path : String) (bytes : Option ByteArray) :
    Except LoadError Settings :=
  match bytes with
  | none => .error (.unreadable .missing)
  | some bytes =>
    match String.fromUTF8? bytes with
    | some text => load path text
    | none => .error (.unreadable .notText)

end Settings

end TreeLint
