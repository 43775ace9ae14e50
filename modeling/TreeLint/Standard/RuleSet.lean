import TreeLint.Standard.BlankLine
import TreeLint.Standard.ChainWrapping
import TreeLint.Standard.ParameterSpacing

/-!
# The standard rule set

Specification, §13: three rules.
-/

namespace TreeLint.Standard

/-- The rules of the standard rule set. -/
def providers {σ : Type} [Inhabited σ] : List (Provider σ) :=
  [BlankLine.provider, ChainWrapping.provider, ParameterSpacing.provider]

end TreeLint.Standard
