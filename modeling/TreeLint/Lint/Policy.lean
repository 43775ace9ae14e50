import TreeLint.Rule.Id
import TreeLint.Text.Position

/-!
# What may be corrected

A policy is asked once for every violation whether it may be corrected. It
may take into account what it was asked before; most policies look at the
rule and the offset only.

Specification, §4.3 (the one question for each report) and §6 (the policies
at hand).
-/

namespace TreeLint

/-- A question that a policy answered. -/
structure Asked where
  rule : RuleId
  offset : Nat
  answer : Bool
deriving DecidableEq, Repr

/-- What a policy says, or the text it breaks down with. -/
inductive Verdict where
  | answer (allowed : Bool)
  | crash (reason : String)
deriving DecidableEq, Repr

/-- An answer for every history of answered questions, rule and offset. -/
abbrev Policy := List Asked → RuleId → Nat → Verdict

namespace Policy

/-- A policy that looks at the rule and the offset only. -/
def ofTest (test : RuleId → Nat → Bool) : Policy :=
  fun _ rule offset => .answer (test rule offset)

/-- Correct everything. Specification, §6. -/
def all : Policy := ofTest fun _ _ => true

/-- Correct nothing. Specification, §6. -/
def none : Policy := ofTest fun _ _ => false

/-- Correct what lies in one of some ranges. Specification, §6. -/
def within (ranges : List Text.Range) : Policy :=
  ofTest fun _ offset => ranges.any fun r => r.contains offset

/-- Correct what lies in none of some ranges. Specification, §6. -/
def outside (ranges : List Text.Range) : Policy :=
  ofTest fun _ offset => !ranges.any fun r => r.contains offset

/-- Correct what one rule reports. -/
def onlyRule (id : RuleId) : Policy := ofTest fun rule _ => rule == id

/-- Correct the first `n` violations asked about. -/
def first (n : Nat) : Policy :=
  fun asked _ _ => .answer (decide (asked.length < n))

/-- Break down at the first question. -/
def broken (reason : String) : Policy := fun _ _ _ => .crash reason

end Policy

end TreeLint
