import TreeLint.Settings.Basic

/-!
# What a rule sees of the settings

A rule declares the keys it reads. It sees the values of those keys, the
options given to it, and the code style; nothing else of the settings
reaches it. Four keys are built in and always mean the typed settings,
whatever the free-form properties say.

Specification, §4.2 and §12: a view has the declared keys and the options of
the rule itself.
-/

namespace TreeLint

open Json (Value)

/-- The name of a settings value that a rule can declare. -/
abbrev SettingsKey := String

namespace SettingsKey

def codeStyle : SettingsKey := "code_style"

def indentStyle : SettingsKey := "indent_style"

def indentSize : SettingsKey := "indent_size"

def maxLineLength : SettingsKey := "max_line_length"

end SettingsKey

/-- The value of a key in the settings. -/
def Settings.valueOf? (s : Settings) (key : SettingsKey) : Option Value :=
  if key = SettingsKey.codeStyle then some (.text s.codeStyle.name)
  else if key = SettingsKey.indentStyle then some (.text s.indentStyle.name)
  else if key = SettingsKey.indentSize then some (.ofNat s.indentSize)
  else if key = SettingsKey.maxLineLength then s.maxLineLength.map .ofNat
  else NameMap.find? key s.properties

/-- How code is indented. -/
structure Indentation where
  style : IndentStyle := .space
  size : Nat := 4
deriving DecidableEq, Repr

namespace Indentation

/-- One level of indentation. -/
def unit (i : Indentation) : String :=
  match i.style with
  | .space => String.ofList (List.replicate i.size ' ')
  | .tab => "\t"

/-- One level deeper than an indentation. -/
def childOf (i : Indentation) (indent : String) : String := indent ++ i.unit

end Indentation

/-- The slice of the settings that one rule sees. -/
structure SettingsView where
  rule : RuleId
  codeStyle : CodeStyle
  /-- The declared keys; a declared key may have no value. -/
  values : NameMap (Option Value)
  options : Option Value
deriving DecidableEq

/-- The view of a rule that declares some keys. Specification, §4.2. -/
def Settings.view (s : Settings) (rule : RuleId)
    (keys : List SettingsKey) : SettingsView :=
  { rule
    codeStyle := s.codeStyle
    values := NameMap.ofList (keys.map fun k => (k, s.valueOf? k))
    options := s.ruleOptions? rule }

namespace SettingsView

def isDeclared (v : SettingsView) (key : SettingsKey) : Bool :=
  NameMap.contains key v.values

/-- The value of a declared key; other keys have none. Specification, §12.
-/
def get? (v : SettingsView) (key : SettingsKey) : Option Value :=
  (NameMap.find? key v.values).join

/-- The size that a declared key holds. -/
def size? (v : SettingsView) (key : SettingsKey) : Option Nat :=
  (v.get? key).bind (Value.natBelow? Json.Number.intBound)

def text? (v : SettingsView) (key : SettingsKey) : Option String :=
  (v.get? key).bind Value.text?

/-- The indentation, four spaces for keys that are not declared. -/
def indentation (v : SettingsView) : Indentation :=
  { style :=
      if v.text? SettingsKey.indentStyle = some "tab" then .tab else .space
    size := (v.size? SettingsKey.indentSize).getD 4 }

/-- The longest line allowed; none if there is no limit or the key is not
declared. -/
def maxLineLength? (v : SettingsView) : Option Nat :=
  v.size? SettingsKey.maxLineLength

/-- One of the options given to the rule. -/
def option? (v : SettingsView) (name : String) : Option Value :=
  v.options.bind (Value.member? name)

end SettingsView

end TreeLint
