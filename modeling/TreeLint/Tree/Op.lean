import TreeLint.Tree.Edit

/-!
# Tree operations as data

Everything that can be done to a tree, as one type, with the answer each
operation gives. Programs that edit a tree (`TreeLint.Lint.Hook`) are built
from these, and a run of operations is a list of them.

Specification, §3.
-/

namespace TreeLint

/-- An operation on a tree. -/
inductive Op where
  | newToken (kind : Kind) (text : String)
  | newNode (kind : Kind)
  | insertChild (parent : NodeId) (index : Nat) (child : NodeId)
  | appendChild (parent child : NodeId)
  | insertBefore (anchor new : NodeId)
  | insertAfter (anchor new : NodeId)
  | detach (node : NodeId)
  | replace (old new : NodeId)
  | moveAfter (node anchor : NodeId)
  | moveBefore (node anchor : NodeId)
  | replaceText (leaf : NodeId) (text : String)
  | spaceBefore (node : NodeId) (text : String)
  | spaceAfter (node : NodeId) (text : String)
  | begin
  | commit (checkpoint : Checkpoint)
  | rollback (checkpoint : Checkpoint)
deriving DecidableEq, Repr

/-- The answer of an operation. -/
inductive Reply where
  | done
  | created (node : NodeId)
  | opened (checkpoint : Checkpoint)
  | failed (error : EditError)
deriving DecidableEq, Repr

/-- The answer of an edit. -/
def Edited.reply (e : Edited) : Reply :=
  match e.failure with
  | some error => .failed error
  | none => .done

namespace Op

/-- The edit an operation stands for; creating nodes and transactions are
none. -/
def edit? (t : Tree) : Op → Option Edited
  | .insertChild parent index child => some (t.insertChild parent index child)
  | .appendChild parent child => some (t.appendChild parent child)
  | .insertBefore anchor new => some (t.insertBefore anchor new)
  | .insertAfter anchor new => some (t.insertAfter anchor new)
  | .detach node => some (t.detach node)
  | .replace old new => some (t.replace old new)
  | .moveAfter node anchor => some (t.moveAfter node anchor)
  | .moveBefore node anchor => some (t.moveBefore node anchor)
  | .replaceText leaf text => some (t.replaceText leaf text)
  | .spaceBefore node text => some (t.spaceBefore node text)
  | .spaceAfter node text => some (t.spaceAfter node text)
  | _ => none

/-- Carry out an operation. -/
def apply (t : Tree) : Op → Tree × Reply
  | .newToken kind text => (t.newToken kind text, .created t.count)
  | .newNode kind => (t.newNode kind, .created t.count)
  | .begin => (t.begin, .opened t.checkpoint)
  | .commit c => (t.commit c, .done)
  | .rollback c => (t.rollback c, .done)
  | op =>
    match op.edit? t with
    | some edited => (edited.tree, edited.reply)
    | none => (t, .done)

/-- Carry out operations one after the other, whatever they answer. -/
def run (t : Tree) : List Op → Tree
  | [] => t
  | op :: ops => run (op.apply t).1 ops

end Op

end TreeLint
