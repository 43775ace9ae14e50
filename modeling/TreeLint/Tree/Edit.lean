import TreeLint.Tree.Basic

/-!
# Edits and transactions

An edit answers with the tree it leaves behind and, if it could not be done,
why. While a transaction is open every change is entered in the journal in
the form of its own undoing, and `Tree.rollback` takes the entries back,
latest first, down to where a checkpoint was made. Transactions nest, and
the journal is empty whenever none is open.

Specification, §3 (journaled edits in place) and §4.3 (transactions around
corrections and calls).
-/

namespace TreeLint

/-- Why an edit could not be done. -/
inductive EditError where
  | leafHasNoChildren (node : NodeId)
  | notALeaf (node : NodeId)
  | alreadyAttached (node : NodeId)
  | noParent (node : NodeId)
  | indexOutOfBounds (parent : NodeId) (index length : Nat)
  | wouldCreateCycle (parent child : NodeId)
  /-- No node with this identity was ever created. -/
  | unknownNode (node : NodeId)
deriving DecidableEq, Repr

def EditError.message : EditError → String
  | .leafHasNoChildren n =>
    s!"node {NodeId.label n} is a token and cannot have children"
  | .notALeaf n => s!"node {NodeId.label n} is not a token"
  | .alreadyAttached n =>
    s!"node {NodeId.label n} is already attached to a parent"
  | .noParent n => s!"node {NodeId.label n} has no parent"
  | .indexOutOfBounds p i l =>
    s!"index {i} is out of bounds for node {NodeId.label p} with {l} children"
  | .wouldCreateCycle p c =>
    s!"attaching {NodeId.label c} under {NodeId.label p} would make the node its own ancestor"
  | .unknownNode n => s!"node {NodeId.label n} does not exist"

/-- The tree after an edit, and why the edit failed if it did. -/
structure Edited where
  tree : Tree
  failure : Option EditError := none
deriving DecidableEq, Repr

/-- Go on with the tree of an edit unless it failed. -/
def Edited.andThen (e : Edited) (next : Tree → Edited) : Edited :=
  match e.failure with
  | some _ => e
  | none => next e.tree

namespace Tree

/-! ## The changes themselves -/

/-- Take the tree of `n` from its parent and keep it as an outermost tree. -/
def cut (t : Tree) (n : NodeId) : Tree :=
  { t with
    forest := Forest.place n (t.subtree n) (t.forest.remove n)
    revision := t.revision + 1 }

/-- Put the outermost tree of `child` at an index among the children of
`parent`. -/
def graft (t : Tree) (parent : NodeId) (index : Nat) (child : NodeId) : Tree :=
  { t with
    forest := Forest.insertUnder parent index (t.subtree child)
      (t.forest.remove child)
    revision := t.revision + 1 }

/-- Change the text of a token. -/
def retext (t : Tree) (leaf : NodeId) (text : String) : Tree :=
  { t with forest := t.forest.setText leaf text, revision := t.revision + 1 }

/-! ## Transactions -/

/-- Enter a change in the journal if a transaction is open. -/
def record (t : Tree) (undo : Undo) : Tree :=
  if t.journal.marks.isEmpty then t
  else
    { t with
      journal := { t.journal with entries := undo :: t.journal.entries } }

def inTransaction (t : Tree) : Bool := !t.journal.marks.isEmpty

/-- The checkpoint that opening a transaction now would give. -/
def checkpoint (t : Tree) : Checkpoint :=
  ⟨t.journal.marks.length, t.journal.entries.length⟩

/-- Open a transaction. Specification, §4.3. -/
def begin (t : Tree) : Tree :=
  { t with
    journal :=
      { t.journal with marks := t.journal.entries.length :: t.journal.marks } }

/-- Close every transaction opened at or inside a checkpoint. With no
transaction left there is nothing to take back. -/
def close (t : Tree) (c : Checkpoint) : Tree :=
  let marks := t.journal.marks.drop (t.journal.marks.length - c.depth)
  { t with
    journal :=
      { marks, entries := if marks.isEmpty then [] else t.journal.entries } }

/-- Keep every change made since a checkpoint. -/
def commit (t : Tree) (c : Checkpoint) : Tree := t.close c

/-- Take back one change. -/
def undo (t : Tree) : Undo → Tree
  | .attached parent index =>
    match (t.children parent)[index]? with
    | some child => t.cut child
    | none => t
  | .detached parent index child => t.graft parent index child
  | .retexted leaf previous => t.retext leaf previous

/-- Take back journal entries, latest first, as long as there are more than
`mark`. -/
def unwind (mark : Nat) : List Undo → Tree → Tree
  | [], t => { t with journal := { t.journal with entries := [] } }
  | entry :: entries, t =>
    if mark ≤ entries.length then unwind mark entries (t.undo entry)
    else { t with journal := { t.journal with entries := entry :: entries } }

/-- Take back every change made since a checkpoint. Specification, §4.3. -/
def rollback (t : Tree) (c : Checkpoint) : Tree :=
  (unwind c.mark t.journal.entries t).close c

/-! ## Creating nodes -/

/-- A new token, detached. Its identity is the count of the tree before. -/
def newToken (t : Tree) (kind : Kind) (text : String) : Tree :=
  { t with
    forest := t.forest.append (.token t.count kind text .nil),
    count := t.count + 1 }

/-- A new composite node without children, detached. Its identity is the
count of the tree before. -/
def newNode (t : Tree) (kind : Kind) : Tree :=
  { t with
    forest := t.forest.append (.node t.count kind .nil .nil),
    count := t.count + 1 }

/-! ## Edits -/

/-- Attach a detached node at an index among the children of `parent`. -/
def insertChild (t : Tree) (parent : NodeId) (index : Nat)
    (child : NodeId) : Edited :=
  if !t.contains parent then ⟨t, some (.unknownNode parent)⟩
  else if !t.contains child then ⟨t, some (.unknownNode child)⟩
  else if t.isLeaf parent then ⟨t, some (.leafHasNoChildren parent)⟩
  else if (t.parent? child).isSome || child == root then
    ⟨t, some (.alreadyAttached child)⟩
  else if parent == child || (t.ancestors parent).contains child then
    ⟨t, some (.wouldCreateCycle parent child)⟩
  else if (t.children parent).length < index then
    ⟨t, some (.indexOutOfBounds parent index (t.children parent).length)⟩
  else ⟨(t.graft parent index child).record (.attached parent index), none⟩

/-- Attach a detached node as the last child of `parent`. -/
def appendChild (t : Tree) (parent child : NodeId) : Edited :=
  t.insertChild parent (t.children parent).length child

/-- Attach a detached node directly before `anchor`. -/
def insertBefore (t : Tree) (anchor new : NodeId) : Edited :=
  match t.parent? anchor, t.childIndex? anchor with
  | some parent, some index => t.insertChild parent index new
  | _, _ => ⟨t, some (.noParent anchor)⟩

/-- Attach a detached node directly after `anchor`. -/
def insertAfter (t : Tree) (anchor new : NodeId) : Edited :=
  match t.parent? anchor, t.childIndex? anchor with
  | some parent, some index => t.insertChild parent (index + 1) new
  | _, _ => ⟨t, some (.noParent anchor)⟩

/-- Take a node with everything below it from its parent. It can be attached
elsewhere. -/
def detach (t : Tree) (n : NodeId) : Edited :=
  match t.parent? n, t.childIndex? n with
  | some parent, some index =>
    ⟨(t.cut n).record (.detached parent index n), none⟩
  | _, _ => ⟨t, some (.noParent n)⟩

/-- Put `new` in the place of `old`, which is detached. -/
def replace (t : Tree) (old new : NodeId) : Edited :=
  (t.insertBefore old new).andThen fun t => t.detach old

/-- Move a node directly after `anchor`. -/
def moveAfter (t : Tree) (n anchor : NodeId) : Edited :=
  (t.detach n).andThen fun t => t.insertAfter anchor n

/-- Move a node directly before `anchor`. -/
def moveBefore (t : Tree) (n anchor : NodeId) : Edited :=
  (t.detach n).andThen fun t => t.insertBefore anchor n

/-- Change the text of a token. -/
def replaceText (t : Tree) (leaf : NodeId) (text : String) : Edited :=
  match t.tokenText? leaf with
  | some previous =>
    ⟨(t.retext leaf text).record (.retexted leaf previous), none⟩
  | none => ⟨t, some (.notALeaf leaf)⟩

/-- Make `text` the white space at a gap. The gap is given by the token next
to it, which is given the text, or removed for an empty text, if it is white
space; otherwise a new white space token is attached by `attach`. -/
def fillGap (t : Tree) (neighbour : Option NodeId) (text : String)
    (attach : Tree → NodeId → Edited) : Edited :=
  match neighbour.filter fun leaf => t.hasKind leaf .whitespace with
  | some space =>
    if text.isEmpty then t.detach space else t.replaceText space text
  | none =>
    if text.isEmpty then ⟨t, none⟩
    else attach (t.newToken .whitespace text) t.count

/-- Make `text` the white space directly before a node. -/
def spaceBefore (t : Tree) (n : NodeId) (text : String) : Edited :=
  t.fillGap (t.prevLeaf? n) text fun t space => t.insertBefore n space

/-- Make `text` the white space directly after a node. -/
def spaceAfter (t : Tree) (n : NodeId) (text : String) : Edited :=
  t.fillGap (t.nextLeaf? n) text fun t space => t.insertAfter n space

end Tree

end TreeLint
