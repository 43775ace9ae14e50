/-!
# Rule identities

A rule is named by the rule set it belongs to and its own name, with a colon
between them. Both parts are non-empty words over lower-case letters, digits
and the hyphen. Identities that break this rule can be written down and
compared, but no registry accepts them.

Specification, §3.
-/

namespace TreeLint

/-- The identity of a rule. Identities compare character by character. -/
abbrev RuleId := String

namespace RuleId

/-- The parts around the first colon. -/
def split? (id : RuleId) : Option (List Char × List Char) :=
  match id.toList.dropWhile (· != ':') with
  | [] => none
  | _ :: after => some (id.toList.takeWhile (· != ':'), after)

/-- The rule set: what stands before the colon. -/
def ruleSet (id : RuleId) : String :=
  match split? id with
  | some (before, _) => String.ofList before
  | none => ""

/-- The rule's own name: what stands after the colon, or everything if there
is none. -/
def name (id : RuleId) : String :=
  match split? id with
  | some (_, after) => String.ofList after
  | none => id

def isWordChar (c : Char) : Bool :=
  (decide ('a' ≤ c) && decide (c ≤ 'z')) || c.isDigit || c == '-'

def isWord (cs : List Char) : Bool := !cs.isEmpty && cs.all isWordChar

/-- Whether an identity is a rule set and a name. Specification, §3. -/
def isValid (id : RuleId) : Bool :=
  match split? id with
  | some (before, after) => isWord before && isWord after
  | none => false

/-- What is said about an identity that is not valid. -/
def invalidMessage (id : RuleId) : String :=
  s!"invalid rule id '{id}': expected '<rule-set>:<rule-name>'"

end RuleId

end TreeLint
