import TreeLint.Forest.Basic

/-!
# Changing a forest

The four changes every edit is made of: taking a tree out, putting a tree
under a node, putting a tree among the outermost ones, and changing the text
of a token. Outermost trees are kept in the order of their roots, so that
taking a tree out and putting it back gives the forest there was before.

These are the journaled changes in place of the specification (§3 and §4.3).
-/

namespace TreeLint.Forest

/-- Take out the tree rooted at a node. -/
def remove (n : NodeId) : Forest → Forest
  | .nil => .nil
  | .token i k s r => if i = n then r else .token i k s (r.remove n)
  | .node i k c r => if i = n then r else .node i k (c.remove n) (r.remove n)

/-- Put a tree before the one at an index, or last if there are not that
many. -/
def insertAt (tree : Forest) : Nat → Forest → Forest
  | 0, f => tree.append f
  | _ + 1, .nil => tree
  | index + 1, .token i k s r => .token i k s (insertAt tree index r)
  | index + 1, .node i k c r => .node i k c (insertAt tree index r)

/-- Put a tree among the children of a node, at an index. -/
def insertUnder (parent : NodeId) (index : Nat)
    (tree : Forest) : Forest → Forest
  | .nil => .nil
  | .token i k s r => .token i k s (insertUnder parent index tree r)
  | .node i k c r =>
    if i = parent then .node i k (insertAt tree index c) r
    else .node i k (insertUnder parent index tree c)
      (insertUnder parent index tree r)

/-- Put a tree among the outermost ones, before the first whose root came
later. -/
def place (root : NodeId) (tree : Forest) : Forest → Forest
  | .nil => tree
  | .token i k s r =>
    if root < i then tree.append (.token i k s r)
    else .token i k s (place root tree r)
  | .node i k c r =>
    if root < i then tree.append (.node i k c r)
    else .node i k c (place root tree r)

/-- Change the text of a token. -/
def setText (n : NodeId) (text : String) : Forest → Forest
  | .nil => .nil
  | .token i k s r =>
    if i = n then .token i k text r else .token i k s (r.setText n text)
  | .node i k c r => .node i k (c.setText n text) (r.setText n text)

end TreeLint.Forest
