import TreeLint.Forest.Basic

/-!
# Finding one's way in a forest

Where a node stands: the nodes above it, the tokens before and after it in
document order, and the offset of its first byte. All of these are answers
about one tree; a caller with several trees first picks the one that holds
the node (`Forest.component?`).

Specification, §3: a tree supports navigation.
-/

namespace TreeLint.Forest

/-- The nodes above a node, nearest first. -/
def ancestors? (n : NodeId) : Forest → Option (List NodeId)
  | .nil => none
  | .token i _ _ r => if i = n then some [] else r.ancestors? n
  | .node i _ c r =>
    if i = n then some []
    else match c.ancestors? n with
      | some above => some (above ++ [i])
      | none => r.ancestors? n

/-- The tokens after the tree rooted at a node, in document order. -/
def tokensAfter? (n : NodeId) : Forest → Option (List Token)
  | .nil => none
  | .token i _ _ r => if i = n then some r.tokens else r.tokensAfter? n
  | .node i _ c r =>
    if i = n then some r.tokens
    else match c.tokensAfter? n with
      | some after => some (after ++ r.tokens)
      | none => r.tokensAfter? n

/-- The tokens before a node, nearest first. -/
def tokensBefore? (n : NodeId) : Forest → Option (List Token)
  | .nil => none
  | .token i k s r =>
    if i = n then some [] else (r.tokensBefore? n).map (· ++ [⟨i, k, s⟩])
  | .node i _ c r =>
    if i = n then some []
    else match c.tokensBefore? n with
      | some before => some before
      | none => (r.tokensBefore? n).map (· ++ c.tokens.reverse)

/-- The number of bytes of text before a node. -/
def offset? (n : NodeId) : Forest → Option Nat
  | .nil => none
  | .token i _ s r =>
    if i = n then some 0 else (r.offset? n).map (s.utf8ByteSize + ·)
  | .node i _ c r =>
    if i = n then some 0
    else match c.offset? n with
      | some offset => some offset
      | none => (r.offset? n).map (c.byteLength + ·)

end TreeLint.Forest
