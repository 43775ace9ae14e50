import TreeLint.Script.Edit

/-!
# A workbench for trees

Edits carried out one after the other on a tree, each with its answer. A
number names any node that was part of the file's tree before one of the
edits, or was created by name.

Specification, §15.
-/

namespace TreeLint.Script

/-- A tree with what is remembered of the edits so far. -/
structure Workbench where
  tree : Tree
  memory : Memory := {}
  /-- The nodes that numbers can name. -/
  known : List NodeId := []

/-- The answer of an edit on the workbench. -/
inductive WorkReply where
  | done
  | created (node : NodeId)
  /-- The number of the transaction. -/
  | opened (checkpoint : Nat)
  | failed (error : EditError)
  | crashed (reason : String)
deriving DecidableEq, Repr

namespace Workbench

/-- Get to know the nodes of the file's tree. -/
def look (b : Workbench) : Workbench :=
  { b with
    known := b.known ++ (b.tree.descendants Tree.root).filter fun n =>
    !b.known.contains n }

def places (b : Workbench) : Places := { knows := fun n => b.known.contains n }

/-- The node a reference names. -/
def resolve (b : Workbench) (r : Reference) : Except String NodeId :=
  r.resolve b.places b.memory b.tree

/-- Get to know a node that was created. -/
def learn (b : Workbench) (reply : Reply) : Workbench :=
  match reply with
  | .created n => { b with known := b.known ++ [n] }
  | _ => b

/-- What an operation answers, given how many transactions were opened
before. -/
def answer (opened : Nat) : Reply → WorkReply
  | .done => .done
  | .created n => .created n
  | .opened _ => .opened opened
  | .failed error => .failed error

/-- Carry out an edit. -/
def edit (b : Workbench) (e : Edit) : Workbench × WorkReply :=
  match e.plan b.places b.memory b.tree with
  | .error reason => (b, .crashed reason)
  | .ok op =>
    let (tree, reply) := op.apply b.tree
    let b' := { b with tree, memory := e.remember reply b.memory }
    (b'.learn reply, answer b.memory.checkpoints.length reply)

end Workbench

end TreeLint.Script
