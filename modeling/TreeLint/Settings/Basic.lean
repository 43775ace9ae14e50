import TreeLint.Json.Value
import TreeLint.NameMap
import TreeLint.Rule.Id

/-!
# Settings of a file

One snapshot of the settings that apply to a file: its code style and
layout, which rules are turned off or given options, and free-form
properties for rules that read keys of their own. Finding and merging
settings files is somebody else's job.

Specification, §6 (the resolved snapshot) and §12 (its fields and defaults).
-/

namespace TreeLint

open Json (Value)

/-- The code style of a project. Some rules apply to one code style only. -/
inductive CodeStyle where
  | intellijIdea
  | androidStudio
  | ktlintOfficial
deriving DecidableEq, Repr

namespace CodeStyle

def all : List CodeStyle := [.intellijIdea, .androidStudio, .ktlintOfficial]

def name : CodeStyle → String
  | .intellijIdea => "intellij_idea"
  | .androidStudio => "android_studio"
  | .ktlintOfficial => "ktlint_official"

def ofName? (s : String) : Option CodeStyle := all.find? fun c => c.name == s

end CodeStyle

inductive IndentStyle where
  | space
  | tab
deriving DecidableEq, Repr

namespace IndentStyle

def all : List IndentStyle := [.space, .tab]

def name : IndentStyle → String
  | .space => "space"
  | .tab => "tab"

def ofName? (s : String) : Option IndentStyle := all.find? fun i => i.name == s

end IndentStyle

/-- How seriously a rule is taken. -/
inductive Severity where
  | off
  | warn
  | error
deriving DecidableEq, Repr

namespace Severity

def all : List Severity := [.off, .warn, .error]

def name : Severity → String
  | .off => "off"
  | .warn => "warn"
  | .error => "error"

def ofName? (s : String) : Option Severity := all.find? fun x => x.name == s

end Severity

/-- What the settings say about one rule: a severity alone, or a severity
with options. Specification, §12. -/
inductive RuleSetting where
  | plain (severity : Severity)
  | detailed (severity : Severity) (options : Option Value)
deriving DecidableEq

namespace RuleSetting

def severity : RuleSetting → Severity
  | .plain s => s
  | .detailed s _ => s

def options : RuleSetting → Option Value
  | .plain _ => none
  | .detailed _ o => o

/-- A severity alone is written as its name, anything else as an object. -/
def toValue : RuleSetting → Value
  | .plain s => .text s.name
  | .detailed s none => .object (.ofList [("severity", .text s.name)])
  | .detailed s (some o) =>
    .object (.ofList [("severity", .text s.name), ("options", o)])

end RuleSetting

/-- The settings that apply to one file. Specification, §12. -/
structure Settings where
  codeStyle : CodeStyle := .ktlintOfficial
  indentStyle : IndentStyle := .space
  indentSize : Nat := 4
  /-- No value means that lines may be arbitrarily long. -/
  maxLineLength : Option Nat := none
  /-- Whether rules marked experimental run. -/
  experimental : Bool := false
  rules : NameMap RuleSetting := []
  properties : NameMap Value := []
deriving DecidableEq

namespace Settings

/-- What the settings say about the severity of a rule; nothing if they do
not mention it. -/
def severity? (s : Settings) (rule : RuleId) : Option Severity :=
  (NameMap.find? rule s.rules).map RuleSetting.severity

def ruleOptions? (s : Settings) (rule : RuleId) : Option Value :=
  (NameMap.find? rule s.rules).bind RuleSetting.options

/-- Rules run unless they are turned off. Specification, §4.4. -/
def isDisabled (s : Settings) (rule : RuleId) : Bool :=
  s.severity? rule == some .off

def withRule (s : Settings) (rule : RuleId)
    (setting : RuleSetting) : Settings :=
  { s with rules := NameMap.insert rule setting s.rules }

def withProperty (s : Settings) (key : String) (value : Value) : Settings :=
  { s with properties := NameMap.insert key value s.properties }

/-! ## The written form -/

/-- The fields of settings with their values, as they are declared. An
unlimited line length and empty maps are left out. -/
def members (s : Settings) : List (String × Value) :=
  [("code_style", .text s.codeStyle.name),
    ("indent_style", .text s.indentStyle.name),
    ("indent_size", .ofNat s.indentSize)] ++
  (s.maxLineLength.map fun n => ("max_line_length", Value.ofNat n)).toList ++
  [("experimental", .bool s.experimental)] ++
  (if s.rules.isEmpty then []
    else [("rules",
      .object (.ofList (s.rules.map fun p => (p.1, p.2.toValue))))]) ++
  (if s.properties.isEmpty then []
    else [("properties", .object (.ofList s.properties))])

/-- Settings as a value. -/
def toValue (s : Settings) : Value := .object (.ofList s.members)

end Settings

end TreeLint
