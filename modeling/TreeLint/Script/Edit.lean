import TreeLint.Lint.Hook

/-!
# Scripted edits

Edits of a tree as a person would write them down: nodes are named by number
or by a path from a known place, and new nodes can be given names to refer
to them later.

They are the edits that scripted rules make (specification, §15).
-/

namespace TreeLint.Script

/-! ## Naming nodes -/

/-- One step of a path. -/
inductive Move where
  | parent
  | next
  | prev
  | first
  | last
  | nextLeaf
  | prevLeaf
  | child (index : Nat)
deriving DecidableEq, Repr

namespace Move

def ofWord? : String → Option Move
  | "parent" => some .parent
  | "next" => some .next
  | "prev" => some .prev
  | "first" => some .first
  | "last" => some .last
  | "next_leaf" => some .nextLeaf
  | "prev_leaf" => some .prevLeaf
  | word =>
    if word.toList.all Char.isDigit then word.toNat?.map .child else none

/-- Where a step leads. -/
def follow? (t : Tree) (n : NodeId) : Move → Option NodeId
  | .parent => t.parent? n
  | .next => t.nextSibling? n
  | .prev => t.prevSibling? n
  | .first => t.firstChild? n
  | .last => t.lastChild? n
  | .nextLeaf => t.nextLeaf? n
  | .prevLeaf => t.prevLeaf? n
  | .child index => (t.children n)[index]?

end Move

/-- A way to name a node: its number, or a path as it is written. -/
inductive Reference where
  | number (n : Nat)
  | path (text : String)
deriving DecidableEq, Repr

def Reference.render : Reference → String
  | .number n => toString n
  | .path text => text

/-- What a script remembers: the nodes it named, latest first, and the
transactions it opened, in order. -/
structure Memory where
  names : List (String × NodeId) := []
  checkpoints : List Checkpoint := []
  /-- How often each hook fired. -/
  fired : List Nat := []
deriving DecidableEq, Repr, Inhabited

/-- Where references start from. -/
structure Places where
  /-- The visited node, if there is one. -/
  self : Option NodeId := none
  /-- Whether a number names a node. -/
  knows : NodeId → Bool

/-- The node a path starts from. -/
def startOf? (places : Places) (m : Memory) (word : String) : Option NodeId :=
  if word = "self" then places.self
  else if word = "root" then some Tree.root
  else m.names.lookup word

/-- The node a reference names. -/
def Reference.resolve? (places : Places) (m : Memory) (t : Tree) :
    Reference → Option NodeId
  | .number n => if places.knows n then some n else none
  | .path text =>
    match text.splitOn "." with
    | [] => none
    | word :: words =>
      match startOf? places m word, words.mapM Move.ofWord? with
      | some start, some moves => moves.foldlM (Move.follow? t) start
      | _, _ => none

/-- The node a reference names, or what is said if there is none. -/
def Reference.resolve (places : Places) (m : Memory) (t : Tree)
    (r : Reference) : Except String NodeId :=
  match r.resolve? places m t with
  | some n => .ok n
  | none => .error ("missing node: " ++ r.render)

/-! ## Edits -/

/-- A scripted edit. -/
inductive Edit where
  | leaf (kind : Kind) (text : String) (name : Option String)
  | node (kind : Kind) (name : Option String)
  | insertChild (parent : Reference) (index : Nat) (child : Reference)
  | appendChild (parent child : Reference)
  | insertBefore (anchor new : Reference)
  | insertAfter (anchor new : Reference)
  | detach (node : Reference)
  | replace (old new : Reference)
  | moveAfter (node anchor : Reference)
  | moveBefore (node anchor : Reference)
  | replaceText (leaf : Reference) (text : String)
  | spaceBefore (node : Reference) (text : String)
  | spaceAfter (node : Reference) (text : String)
  | begin
  | commit (checkpoint : Nat)
  | rollback (checkpoint : Nat)
  | crash (reason : String)
deriving DecidableEq, Repr

namespace Edit

/-- A transaction by its number, or what is said if fewer were opened. -/
def checkpointAt (m : Memory) (k : Nat) : Except String Checkpoint :=
  match m.checkpoints[k]? with
  | some c => .ok c
  | none =>
    .error
      s!"index out of bounds: the len is {m.checkpoints.length} but the index is {k}"

/-- The operation an edit stands for, or what it crashes with. References
are resolved from left to right. -/
def plan (places : Places) (m : Memory) (t : Tree) (e : Edit) :
    Except String Op :=
  let find := Reference.resolve places m t
  match e with
  | .leaf kind text _ => .ok (.newToken kind text)
  | .node kind _ => .ok (.newNode kind)
  | .insertChild parent index child =>
    do return .insertChild (← find parent) index (← find child)
  | .appendChild parent child =>
    do return .appendChild (← find parent) (← find child)
  | .insertBefore anchor new =>
    do return .insertBefore (← find anchor) (← find new)
  | .insertAfter anchor new =>
    do return .insertAfter (← find anchor) (← find new)
  | .detach n => do return .detach (← find n)
  | .replace old new => do return .replace (← find old) (← find new)
  | .moveAfter n anchor => do return .moveAfter (← find n) (← find anchor)
  | .moveBefore n anchor => do return .moveBefore (← find n) (← find anchor)
  | .replaceText n text => do return .replaceText (← find n) text
  | .spaceBefore n text => do return .spaceBefore (← find n) text
  | .spaceAfter n text => do return .spaceAfter (← find n) text
  | .begin => .ok .begin
  | .commit k => do return .commit (← checkpointAt m k)
  | .rollback k => do return .rollback (← checkpointAt m k)
  | .crash reason => .error reason

/-- The name an edit gives to the node it creates. -/
def name? : Edit → Option String
  | .leaf _ _ name => name
  | .node _ name => name
  | _ => none

/-- What is remembered of an answer. A name given twice means the later node. -/
def remember (e : Edit) (reply : Reply) (m : Memory) : Memory :=
  match reply with
  | .created n =>
    match e.name? with
    | some name => { m with names := (name, n) :: m.names }
    | none => m
  | .opened c => { m with checkpoints := m.checkpoints ++ [c] }
  | _ => m

/-- Edits as a correction, which ends at the first that fails. -/
def fixes (self : Option NodeId) : List Edit → Memory → Fix Memory
  | [], m => .finish m none
  | e :: es, m =>
    .inspect fun t =>
      match e.plan { self, knows := t.contains } m t with
      | .error reason => .crash reason
      | .ok op =>
        .perform op fun
          | .failed error => .finish m (some error)
          | reply => fixes self es (e.remember reply m)

/-- Edits as part of a hook, which crashes at the first that fails. -/
def hook (self : Option NodeId) : List Edit → Memory → Hook Memory
  | [], m => .finish m
  | e :: es, m =>
    .inspect fun t =>
      match e.plan { self, knows := t.contains } m t with
      | .error reason => .crash reason
      | .ok op =>
        .perform op fun
          | .failed error => .crash error.message
          | reply => hook self es (e.remember reply m)

end Edit

end TreeLint.Script
