import TreeLint.Kind

/-!
# Ordered forests of labelled nodes

A forest is a sequence of trees. Each node has an identity and a kind; a
token also carries text and has no children, a composite node has a forest
of children and no text of its own. Children and later siblings are both
forests, so every recursion in this library that follows the shape of a
document is structural.

The text of a forest is the text of its tokens in document order. `ids`
lists the nodes in pre-order and `tokens` the tokens in document order.

The specification (§3) speaks of an arena of nodes addressed by identities.
A forest holds the same nodes by shape instead of by links;
`TreeLint.Proofs.Tree.Arena` ties the two together.
-/

namespace TreeLint

/-- The identity of a node: the number of nodes that were created before it. -/
abbrev NodeId := Nat

/-- How an identity is shown in messages. -/
def NodeId.label (n : NodeId) : String := s!"#{n}"

/-- A token: a leaf of the document with its text. -/
structure Token where
  id : NodeId
  kind : Kind
  text : String
deriving DecidableEq, Repr

/-- A sequence of trees with identities on their nodes. -/
inductive Forest where
  | nil
  | token (id : NodeId) (kind : Kind) (text : String) (rest : Forest)
  | node (id : NodeId) (kind : Kind) (children rest : Forest)
deriving DecidableEq, Repr, Inhabited

namespace Forest

/-- One forest after another. -/
def append : Forest → Forest → Forest
  | .nil, g => g
  | .token i k s r, g => .token i k s (r.append g)
  | .node i k c r, g => .node i k c (r.append g)

/-- All nodes in pre-order: a node before its children, children in order. -/
def ids : Forest → List NodeId
  | .nil => []
  | .token i _ _ r => i :: r.ids
  | .node i _ c r => i :: (c.ids ++ r.ids)

/-- The roots of the trees in order. -/
def roots : Forest → List NodeId
  | .nil => []
  | .token i _ _ r => i :: r.roots
  | .node i _ _ r => i :: r.roots

/-- The tokens in document order. -/
def tokens : Forest → List Token
  | .nil => []
  | .token i k s r => ⟨i, k, s⟩ :: r.tokens
  | .node _ _ c r => c.tokens ++ r.tokens

/-- The text of all tokens, one after the other. -/
def text : Forest → String
  | .nil => ""
  | .token _ _ s r => s ++ r.text
  | .node _ _ c r => c.text ++ r.text

/-- The length of the text in bytes. -/
def byteLength : Forest → Nat
  | .nil => 0
  | .token _ _ s r => s.utf8ByteSize + r.byteLength
  | .node _ _ c r => c.byteLength + r.byteLength

/-- Whether a node occurs anywhere in the forest. -/
def contains (n : NodeId) : Forest → Bool
  | .nil => false
  | .token i _ _ r => i == n || r.contains n
  | .node i _ c r => i == n || c.contains n || r.contains n

/-- The tree rooted at a node, alone. -/
def subtree? (n : NodeId) : Forest → Option Forest
  | .nil => none
  | .token i k s r => if i = n then some (.token i k s .nil) else r.subtree? n
  | .node i k c r =>
    if i = n then some (.node i k c .nil) else (c.subtree? n).or (r.subtree? n)

/-- The outermost tree that holds a node, alone. -/
def component? (n : NodeId) : Forest → Option Forest
  | .nil => none
  | .token i k s r => if i = n then some (.token i k s .nil) else r.component? n
  | .node i k c r =>
    if i = n ∨ c.contains n = true then some (.node i k c .nil)
    else r.component? n

/-- The kind of the first tree's root. -/
def rootKind? : Forest → Option Kind
  | .nil => none
  | .token _ k _ _ => some k
  | .node _ k _ _ => some k

/-- The text of the first tree's root, if that is a token. -/
def rootText? : Forest → Option String
  | .token _ _ s _ => some s
  | _ => none

/-- The children of the first tree's root. -/
def rootChildren : Forest → Forest
  | .node _ _ c _ => c
  | _ => .nil

end Forest

end TreeLint
