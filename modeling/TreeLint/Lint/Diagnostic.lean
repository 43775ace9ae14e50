import TreeLint.Rule.Info
import TreeLint.Text.Position

/-!
# What a visit reports

A rule reports violations; a rule that breaks down is itself reported as a
failure. Both are plain records with one line of text each.

Specification, §3 (violations), §4.3 (their order, and failures of rules)
and §7 (what is reported about a failure).
-/

namespace TreeLint

/-- Something in a file that a rule objects to. Specification, §3. -/
structure Violation where
  /-- The byte offset in the text as it was when the violation was reported. -/
  offset : Nat
  position : Text.Position
  message : String
  rule : RuleId
  /-- Whether the rule knows how to correct it. -/
  fixable : Bool
  corrected : Bool
deriving DecidableEq, Repr

namespace Violation

def render (v : Violation) : String :=
  v.position.render ++ " " ++ v.message ++ " (" ++ v.rule ++ ")" ++
    (if v.corrected then " [corrected]" else "")

def uncorrect (v : Violation) : Violation := { v with corrected := false }

/-- Violations by offset, those of one offset in the order they were
reported. Specification, §4.3. -/
def sort (vs : List Violation) : List Violation :=
  vs.mergeSort fun a b => decide (a.offset ≤ b.offset)

/-- The violations from an index on no longer count as corrected. -/
def uncorrectFrom (start : Nat) (vs : List Violation) : List Violation :=
  vs.take start ++ (vs.drop start).map uncorrect

/-- The violation at an index no longer counts as corrected. -/
def uncorrectAt (index : Nat) (vs : List Violation) : List Violation :=
  vs.modify index uncorrect

end Violation

/-- When a rule is called. -/
inductive Phase where
  | beforeFirstNode
  | beforeChildren
  | afterChildren
  | afterLastNode
  /-- A correction could not be carried out. -/
  | autocorrect
deriving DecidableEq, Repr

namespace Phase

def name : Phase → String
  | .beforeFirstNode => "before_first_node"
  | .beforeChildren => "before_visit_child_nodes"
  | .afterChildren => "after_visit_child_nodes"
  | .afterLastNode => "after_last_node"
  | .autocorrect => "autocorrect"

def describe : Phase → String
  | .beforeFirstNode => "BeforeFirstNode"
  | .beforeChildren => "BeforeVisitChildNodes"
  | .afterChildren => "AfterVisitChildNodes"
  | .afterLastNode => "AfterLastNode"
  | .autocorrect => "Autocorrect"

end Phase

/-- A rule that broke down. What it had done in that call was taken back.
Specification, §4.3 and §7. -/
structure Failure where
  rule : RuleId
  /-- Where the node that was visited starts, or where the violation was. -/
  offset : Nat
  phase : Phase
  message : String
deriving DecidableEq, Repr

namespace Failure

def render (f : Failure) : String :=
  s!"rule '{f.rule}' failed in {f.phase.name} at offset {f.offset}: {f.message}"

/-- All parts of a failure on one line. -/
def describe (f : Failure) : String :=
  "RuleFailure \x7b rule_id: " ++ RuleInfo.describeId f.rule ++
    s!", offset: {f.offset}, phase: " ++
    f.phase.describe ++ ", message: " ++ Text.quoted f.message ++ " \x7d"

end Failure

/-- A line in the diary of a visit. -/
structure Note where
  rule : RuleId
  event : String
  /-- What the event was about, empty for the whole file. -/
  detail : String := ""
deriving DecidableEq, Repr

namespace Note

def render (n : Note) : String :=
  if n.detail.isEmpty then n.rule ++ " " ++ n.event
  else n.rule ++ " " ++ n.event ++ " " ++ n.detail

/-- How often a rule noted an event. -/
def countOf (rule : RuleId) (event : String) (notes : List Note) : Nat :=
  (notes.filter fun n => n.rule == rule && n.event == event).length

end Note

end TreeLint
