import TreeLint.Text.Quoted
import TreeLint.Tree.Basic

/-!
# Tree dumps

One line per node of the file's tree in pre-order: two spaces per level, the
name of the kind, and for a token its quoted text.

Specification, §15.
-/

namespace TreeLint

/-- The lines of a forest at a depth, each with its line break. -/
def Forest.dump (depth : Nat) : Forest → String
  | .nil => ""
  | .token _ k s r =>
    String.ofList (List.replicate (2 * depth) ' ') ++ k.name ++ " " ++
      Text.quoted s ++ "\n" ++ r.dump depth
  | .node _ k c r =>
    String.ofList (List.replicate (2 * depth) ' ') ++ k.name ++ "\n" ++
      c.dump (depth + 1) ++ r.dump depth

/-- The dump of the file's tree. -/
def Tree.dump (t : Tree) : String := (t.subtree Tree.root).dump 0

/-- A token by its quoted text, any other node by the name of its kind. -/
def Tree.describe (t : Tree) (n : NodeId) : String :=
  match t.tokenText? n with
  | some text => Text.quoted text
  | none => (t.kind? n).elim "" Kind.name

end TreeLint
