import TreeLint.Rule.Provider

/-!
# Walking a tree

Rules are called over the live tree: for a node first every rule before its
children, then its children are visited, then every rule after them. Since
rules change the tree while it is walked, the children to visit are looked
up anew after every visit. Nodes that were visited are not visited again
wherever they move, and nodes that turn up behind the child just visited are
left alone, while those that turn up ahead are visited.

Each call is a transaction. If a rule crashes, what it did in that call is
taken back, the violations it reported in it do not count as corrected, and
the rule is not called again.

A rule can keep adding nodes ahead of the walk for ever, so the walk is
given fuel. It answers nothing if the fuel runs out; the amount has no other
influence.

Specification, §4.3.
-/

namespace TreeLint

/-- A rule taking part in a walk. -/
structure ActiveRule (σ : Type) where
  id : RuleId
  visitor : Visitor σ
  /-- A rule that crashed is not called again. -/
  failed : Bool := false

/-- A call of a rule. -/
structure Call where
  rule : RuleId
  phase : Phase
  /-- The visited node; none after the last one. -/
  node : Option NodeId
deriving DecidableEq, Repr

/-- The state of a walk. -/
structure Walk (σ : Type) where
  rules : List (ActiveRule σ)
  scene : Scene
  /-- The calls made so far, in order. -/
  calls : List Call := []

namespace ActiveRule

/-- The program a rule runs in a call. -/
def hook {σ : Type} (r : ActiveRule σ) (phase : Phase)
    (node : Option NodeId) : Hook σ :=
  match phase, node with
  | .beforeChildren, some n => r.visitor.before n r.visitor.memory
  | .afterChildren, some n => r.visitor.after n r.visitor.memory
  | _, _ => r.visitor.last r.visitor.memory

/-- Take back a call that crashed. Specification, §4.3. -/
def recover (s : Scene) (checkpoint : Checkpoint) (reported : Nat)
    (rule : RuleId) (phase : Phase) (node : Option NodeId)
    (reason : String) : Scene :=
  let tree := s.tree.rollback checkpoint
  { s with
    tree
    violations := Violation.uncorrectFrom reported s.violations
    failures := s.failures ++
      [⟨rule, node.elim 0 tree.startOffset, phase, reason⟩] }

/-- Call a rule that did not crash before. Specification, §4.3. -/
def invoke {σ : Type} (policy : Policy) (phase : Phase) (node : Option NodeId)
    (r : ActiveRule σ) (s : Scene) : ActiveRule σ × Scene :=
  let checkpoint := s.tree.checkpoint
  match (r.hook phase node).run policy r.id { s with tree := s.tree.begin } with
  | (after, .finished memory) =>
    ({ r with visitor := { r.visitor with memory } },
      { after with tree := after.tree.commit checkpoint })
  | (after, .crashed reason) =>
    ({ r with failed := true },
      recover after checkpoint s.violations.length r.id phase node reason)

end ActiveRule

/-- Call rules one after the other as long as `goOn` holds of the tree. -/
def callEach {σ : Type} (policy : Policy) (phase : Phase) (node : Option NodeId)
    (goOn : Tree → Bool) :
    List (ActiveRule σ) → Scene → List (ActiveRule σ) × Scene × List Call
  | [], s => ([], s, [])
  | r :: rs, s =>
    if !goOn s.tree then (r :: rs, s, [])
    else if r.failed then
      let (rest, s, calls) := callEach policy phase node goOn rs s
      (r :: rest, s, calls)
    else
      let (r, s) := r.invoke policy phase node s
      let (rest, s, calls) := callEach policy phase node goOn rs s
      (r :: rest, s, ⟨r.id, phase, node⟩ :: calls)

namespace Walk

def tree {σ : Type} (w : Walk σ) : Tree := w.scene.tree

/-- Call every rule for a node, until one detaches it. Specification, §4.3.
-/
def dispatch {σ : Type} (policy : Policy) (phase : Phase) (n : NodeId)
    (w : Walk σ) : Walk σ :=
  let (rules, scene, calls) :=
    callEach policy phase (some n) (fun t => t.isAttached n) w.rules w.scene
  { rules, scene, calls := w.calls ++ calls }

/-- Call every rule at the end. -/
def finish {σ : Type} (policy : Policy) (w : Walk σ) : Walk σ :=
  let (rules, scene, calls) :=
    callEach policy .afterLastNode none (fun _ => true) w.rules w.scene
  { rules, scene, calls := w.calls ++ calls }

end Walk

/-- How far the children of a node were dealt with. Specification, §4.3. -/
structure Progress where
  /-- The children visited, in order. -/
  visited : List NodeId := []
  /-- Nodes that turned up behind the walk. -/
  skipped : List NodeId := []
deriving DecidableEq, Repr

namespace Progress

/-- Whether a node needs no visit any more. -/
def passed (p : Progress) (n : NodeId) : Bool :=
  p.visited.contains n || p.skipped.contains n

/-- The first child still to be visited. -/
def next? (p : Progress) (children : List NodeId) : Option NodeId :=
  children.find? fun c => !p.passed c

/-- How many of the children after a visit lie behind the walk: those before
the visited child or, if it is no longer a child of its parent, those before
the first one that was there and is still to be visited. -/
def behind (p : Progress) (child : NodeId) (still : Bool)
    (before after : List NodeId) : Nat :=
  if still then after.findIdx (· == child)
  else after.findIdx fun c => before.contains c && !p.passed c

/-- Deal with the nodes that turned up during the visit of a child. -/
def catchUp (p : Progress) (child : NodeId) (still : Bool)
    (before after : List NodeId) : Progress :=
  let turnedUp := (after.take (p.behind child still before after)).filter
    fun c => !before.contains c
  { p with skipped := p.skipped ++ turnedUp }

end Progress

mutual

/-- Visit a node and everything below it. -/
def Walk.visit {σ : Type} (policy : Policy) :
    Nat → NodeId → Walk σ → Option (Walk σ)
  | 0, _, _ => none
  | fuel + 1, n, w =>
    match Walk.visitChildren policy fuel n {}
        (w.dispatch policy .beforeChildren n) with
    | none => none
    | some (w, _) => some (w.dispatch policy .afterChildren n)

/-- Visit the children of a node that are still to be visited. -/
def Walk.visitChildren {σ : Type} (policy : Policy) :
    Nat → NodeId → Progress → Walk σ → Option (Walk σ × Progress)
  | 0, _, _, _ => none
  | fuel + 1, n, p, w =>
    if !w.tree.isAttached n then some (w, p)
    else match p.next? (w.tree.children n) with
      | none => some (w, p)
      | some child =>
        match Walk.visit policy fuel child w with
        | none => none
        | some after =>
          let p := { p with visited := p.visited ++ [child] }
          if !after.tree.isAttached n then some (after, p)
          else
            let still := after.tree.parent? child == some n
            Walk.visitChildren policy fuel n
              (p.catchUp child still (w.tree.children n)
                (after.tree.children n)) after

end

/-- Walk the whole tree, then call every rule once more. Specification,
§4.3. -/
def Walk.run {σ : Type} (policy : Policy) (fuel : Nat)
    (w : Walk σ) : Option (Walk σ) :=
  (Walk.visit policy fuel Tree.root w).map (Walk.finish policy)

end TreeLint
