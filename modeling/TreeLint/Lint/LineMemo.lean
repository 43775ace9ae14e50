import TreeLint.Tree.Basic

/-!
# Remembered line starts

Finding the line of an offset needs the places of all line breaks. They are
worked out once per revision of the tree and kept until the tree changes.

Specification, §4.3: line and column of a violation are those in the live
tree.
-/

namespace TreeLint

/-- The line table of a tree at some revision, if one was needed so far. -/
structure LineMemo where
  entry : Option (Nat × Text.LineTable) := none

namespace LineMemo

/-- The line table of a tree: the remembered one if the tree is still at its
revision. -/
def table (m : LineMemo) (t : Tree) : Text.LineTable :=
  match m.entry with
  | some (revision, table) =>
    if revision = t.revision then table else t.lineTable
  | none => t.lineTable

/-- The line and column of an offset, and the memo to go on with. -/
def position (m : LineMemo) (t : Tree) (offset : Nat) :
    LineMemo × Text.Position :=
  let table := m.table t
  ({ entry := some (t.revision, table) }, table.position offset)

end LineMemo

end TreeLint
