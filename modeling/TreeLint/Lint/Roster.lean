import TreeLint.Lint.Walk

/-!
# The rules of one visit

Before a file is visited a fresh instance of every rule is made and bound to
the settings. A rule that crashes while it is bound is left out and
reported; a rule that cannot be made stops everything.

Specification, §4.2: one fresh instance for each rule in the order, each
bound to its view of the settings before the walk begins.
-/

namespace TreeLint

/-- The violations and failures of one visit. -/
structure Outcome where
  /-- By offset, those of one offset in the order they were reported. -/
  violations : List Violation := []
  failures : List Failure := []
deriving DecidableEq, Repr

/-- The rules of a visit, ready to be called, and the failures so far. -/
structure Roster (σ : Type) where
  rules : List (ActiveRule σ) := []
  failures : List Failure := []

namespace Roster

/-- The rules that take part, in order. -/
def ids {σ : Type} (r : Roster σ) : List RuleId := r.rules.map ActiveRule.id

/-- A roster on one line. -/
def describe {σ : Type} (r : Roster σ) : String :=
  "FileVisitor \x7b rules: " ++
    RuleInfo.describeList (r.ids.map RuleInfo.describeId) ++
    ", failures: " ++
    RuleInfo.describeList (r.failures.map Failure.describe) ++ " \x7d"

end Roster

/-- A rule that cannot be made. -/
structure CreationError where
  rule : RuleId
  reason : String
deriving DecidableEq, Repr

/-- How many instances were asked for, by rule. -/
abbrev MadeCounts := NameMap Nat

/-- What getting a roster ready leaves behind. -/
structure Assembly (σ : Type) where
  made : MadeCounts
  notes : List Note := []
  /-- Whether a fragile instance was made. -/
  fragile : Bool := false
  roster : Except CreationError (Roster σ) := .ok {}

namespace Assembly

/-- A count one higher. -/
def count (id : RuleId) (made : MadeCounts) : MadeCounts :=
  NameMap.insert id ((NameMap.find? id made).getD 0 + 1) made

/-- Make and bind the rules of some providers, in order, after those of a
roster. If a fragile instance crashes while it is bound, getting rid of it
ends the work, and no rule is called at all. Specification, §4.2. -/
def build {σ : Type} (s : Settings) :
    List (Provider σ) → Roster σ → MadeCounts → List Note → Bool → Assembly σ
  | [], roster, made, notes, fragile =>
    { made, notes, fragile, roster := .ok roster }
  | p :: ps, roster, made, notes, fragile =>
    let number := (NameMap.find? p.id made).getD 0
    let made := count p.id made
    match p.create number with
    | .refused reason =>
      { made, notes, fragile, roster := .error ⟨p.id, reason⟩ }
    | .crashed reason =>
      { made, notes, fragile, roster := .error ⟨p.id, reason⟩ }
    | .made inst =>
      let binding := inst.bind (s.view p.id p.keys)
      let notes := notes ++ (inst.remarks ++ binding.remarks).map
        (Remark.note p.id)
      let fragile := fragile || inst.fragile
      match binding.visitor with
      | .ok visitor =>
        build s ps
          { roster with rules := roster.rules ++ [{ id := p.id, visitor }] }
          made notes fragile
      | .error reason =>
        let failures := roster.failures ++ [⟨p.id, 0, .beforeFirstNode, reason⟩]
        if inst.fragile then
          { made, notes, fragile, roster := .ok { failures } }
        else build s ps { roster with failures } made notes fragile

end Assembly

/-- What a visit leaves behind. -/
structure Visited where
  tree : Tree
  outcome : Outcome
  asked : List Asked
  notes : List Note
  calls : List Call

namespace Roster

/-- Visit a tree once. Without rules there is nothing to do. With no rules
there is nothing to walk for (specification, §4.2). -/
def visit {σ : Type} (fuel : Nat) (policy : Policy) (asked : List Asked)
    (r : Roster σ) (t : Tree) : Option Visited :=
  if r.rules.isEmpty then
    some
      { tree := t, outcome := { failures := r.failures }, asked,
        notes := [], calls := [] }
  else
    (Walk.run policy fuel
        { rules := r.rules, scene := { tree := t, asked } }).map fun w =>
      { tree := w.scene.tree
        outcome :=
          { violations := Violation.sort w.scene.violations
            failures := r.failures ++ w.scene.failures }
        asked := w.scene.asked
        notes := w.scene.notes
        calls := w.calls }

end Roster

end TreeLint
