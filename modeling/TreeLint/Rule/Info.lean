import TreeLint.Settings.View
import TreeLint.Text.Quoted

/-!
# What a rule says about itself

Besides what it does, a rule has an identity, wishes about its place among
the other rules, the settings keys it reads, and conditions under which it
runs at all. Everything that decides which rules run and in which order is a
function of this.

Specification, §3 (modifiers), §4.1 (what they ask for) and §4.4 (which
rules are active).
-/

namespace TreeLint

/-- What a wish to run after another rule means while that rule does not
run. Either way there is then nothing to run after. -/
inductive RunAfterMode where
  | regardless
  | onlyIfActive
deriving DecidableEq, Repr

/-- A wish of a rule about its place. Specification, §3. -/
inductive Modifier where
  /-- Run after every rule that does not have this wish. -/
  | late
  /-- Run after the rule with this identity. -/
  | runAfter (target : RuleId) (mode : RunAfterMode)
deriving DecidableEq, Repr

/-- What a rule says about itself. Specification, §3. -/
structure RuleInfo where
  id : RuleId
  modifiers : List Modifier := []
  /-- The settings keys the rule reads. -/
  keys : List SettingsKey := []
  /-- The only code style the rule applies to, if there is one. -/
  codeStyle : Option CodeStyle := none
  experimental : Bool := false
deriving DecidableEq, Repr

namespace RuleInfo

/-! ## Building -/

/-- Wish to run late. Wishing twice is wishing once. -/
def runLate (r : RuleInfo) : RuleInfo :=
  if r.modifiers.contains .late then r
  else { r with modifiers := r.modifiers ++ [.late] }

/-- Wish to run after another rule. -/
def runAfter (r : RuleInfo) (target : RuleId)
    (mode : RunAfterMode) : RuleInfo :=
  { r with modifiers := r.modifiers ++ [.runAfter target mode] }

/-- Add one wish. -/
def wish (r : RuleInfo) : Modifier → RuleInfo
  | .late => r.runLate
  | .runAfter target mode => r.runAfter target mode

/-- Read a settings key. A key is declared once. -/
def useKey (r : RuleInfo) (key : SettingsKey) : RuleInfo :=
  if r.keys.contains key then r else { r with keys := r.keys ++ [key] }

/-! ## Reading -/

def isLate (r : RuleInfo) : Bool := r.modifiers.contains .late

/-- The rules this one wishes to run after. -/
def targets (r : RuleInfo) : List RuleId :=
  r.modifiers.filterMap fun
    | .late => none
    | .runAfter target _ => some target

/-- Whether a rule runs under some settings: it is not turned off, applies
to the code style, and is not held back as experimental. Specification,
§4.4. -/
def isActive (r : RuleInfo) (s : Settings) : Bool :=
  !s.isDisabled r.id && r.codeStyle.all (· == s.codeStyle) &&
    (!r.experimental || s.experimental)

/-! ## The written form -/

/-- An identity as it is shown inside a larger description. -/
def describeId (id : RuleId) : String := "RuleId(" ++ Text.quoted id ++ ")"

def describeMode : RunAfterMode → String
  | .regardless => "Regardless"
  | .onlyIfActive => "OnlyIfActive"

def describeModifier : Modifier → String
  | .late => "RunAsLateAsPossible"
  | .runAfter target mode =>
    "RunAfterRule \x7b rule_id: " ++ describeId target ++ ", mode: " ++
      describeMode mode ++ " \x7d"

def describeStyle : Option CodeStyle → String
  | none => "None"
  | some .intellijIdea => "Some(IntellijIdea)"
  | some .androidStudio => "Some(AndroidStudio)"
  | some .ktlintOfficial => "Some(KtlintOfficial)"

/-- Descriptions in brackets. -/
def describeList (items : List String) : String :=
  "[" ++ String.intercalate ", " items ++ "]"

/-- Everything a rule says about itself on one line. -/
def describe (r : RuleInfo) : String :=
  "RuleProvider \x7b rule_id: " ++ describeId r.id ++
    ", visitor_modifiers: " ++
      describeList (r.modifiers.map describeModifier) ++
    ", uses_config_keys: " ++
      describeList (r.keys.map fun k =>
        "ConfigKey \x7b name: " ++ Text.quoted k ++ " \x7d") ++
    ", required_code_style: " ++ describeStyle r.codeStyle ++
    ", experimental: " ++
      (if r.experimental then "true" else "false") ++ ", .. \x7d"

end RuleInfo

end TreeLint
