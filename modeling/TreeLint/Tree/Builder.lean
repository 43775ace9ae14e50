import TreeLint.Tree.Edit

/-!
# Building a tree from events

A parser reports nodes as it opens and closes them and tokens as it reads
them. Nodes that are left open and surplus closings are both fine: the root
is never closed.

Specification, §6: the interface to the parser.
-/

namespace TreeLint

/-- What a parser reports. -/
inductive BuildEvent where
  | start (kind : Kind)
  | token (kind : Kind) (text : String)
  | finish
deriving DecidableEq, Repr

/-- A white space token. -/
def BuildEvent.space (text : String) : BuildEvent := .token .whitespace text

/-- A tree under construction, and the open nodes below the root, innermost
first. -/
structure Builder where
  tree : Tree
  opened : List NodeId := []

namespace Builder

/-- The innermost open node. -/
def current (b : Builder) : NodeId := b.opened.headD Tree.root

/-- Add a tree, whose root has the next free identity, as the last child of
the innermost open node. -/
def attach (b : Builder) (tree : Forest) : Tree :=
  { b.tree with
    forest := Forest.insertUnder b.current (b.tree.children b.current).length
      tree b.tree.forest
    count := b.tree.count + 1 }

def step (b : Builder) : BuildEvent → Builder
  | .start kind =>
    { tree := b.attach (.node b.tree.count kind .nil .nil),
      opened := b.tree.count :: b.opened }
  | .token kind text =>
    { b with tree := b.attach (.token b.tree.count kind text .nil) }
  | .finish => { b with opened := b.opened.drop 1 }

end Builder

/-- The tree that a sequence of events describes. Specification, §6. -/
def Tree.build (rootKind : Kind) (events : List BuildEvent) : Tree :=
  (events.foldl Builder.step { tree := Tree.empty rootKind : Builder }).tree

end TreeLint
