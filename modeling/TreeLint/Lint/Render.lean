import TreeLint.Lint.Engine

/-!
# Reports as text

Violations and failures one to a line, numbered from one.

Listings for tests and hosts (specification, §6 and §15).
-/

namespace TreeLint.Report

/-- Numbered lines, or a text for when there are none. -/
def numbered (blank : String) (lines : List String) : String :=
  if lines.isEmpty then blank
  else String.intercalate "\n" (lines.mapIdx fun i line => s!"[{i + 1}] {line}")

def violations (vs : List Violation) : String :=
  numbered "(no violations)" (vs.map Violation.render)

def failures (fs : List Failure) : String :=
  numbered "(no failures)" (fs.map Failure.render)

/-- The violations without positions. -/
def messages (vs : List Violation) : String :=
  numbered "(no violations)" (vs.map Violation.message)

/-- The line between two parts of a report. -/
def divider : String := "\n--\n"

/-- The violations, and the failures if there are any. -/
def outcome (o : Outcome) : String :=
  if o.failures.isEmpty then violations o.violations
  else violations o.violations ++ divider ++ failures o.failures

/-- The violations and the new text. -/
def formatted (f : Formatted) : String :=
  violations f.violations ++ divider ++ f.text.getD "(unchanged)"

end TreeLint.Report
