import TreeLint.Forest.Edit
import TreeLint.Forest.Navigation
import TreeLint.Text.Blank
import TreeLint.Text.Position

/-!
# Syntax trees

The tree of one file, together with everything that was ever detached from
it. All nodes live in one forest: the tree of the file is the one rooted at
node 0, and every other outermost tree is detached. A node never goes away,
so an identity that was handed out keeps meaning the same node.

This module has the state, the journal of changes, and the questions one can
ask; the edits are in `TreeLint.Tree.Edit`.

Specification, §3 and §9: an arena of nodes with stable identities.
-/

namespace TreeLint

/-- How to take back one change of the forest. -/
inductive Undo where
  /-- A tree was put at `index` among the children of `parent`. -/
  | attached (parent : NodeId) (index : Nat)
  /-- The tree of `child` was taken from `index` among the children of
  `parent`. -/
  | detached (parent : NodeId) (index : Nat) (child : NodeId)
  /-- The text of `leaf` was `previous`. -/
  | retexted (leaf : NodeId) (previous : String)
deriving DecidableEq, Repr

/-- The changes that can still be taken back, latest first, and for every
open transaction how many changes there were when it was opened, innermost
first. -/
structure Journal where
  entries : List Undo := []
  marks : List Nat := []
deriving DecidableEq, Repr

/-- Where a transaction was opened: how many were open, and how many changes
were recorded. -/
structure Checkpoint where
  depth : Nat
  mark : Nat
deriving DecidableEq, Repr

/-- The tree of a file with its detached parts. Specification, §3. -/
structure Tree where
  forest : Forest
  /-- How many nodes were ever created. -/
  count : Nat
  journal : Journal := {}
  /-- Goes up with every change of structure or text, taking a change back
  included. -/
  revision : Nat := 0
deriving DecidableEq, Repr

namespace Tree

/-- The root of the file. -/
def root : NodeId := 0

/-- A tree with nothing but a root. -/
def empty (kind : Kind) : Tree :=
  { forest := .node root kind .nil .nil, count := 1 }

/-! ## Labels -/

def contains (t : Tree) (n : NodeId) : Bool := t.forest.contains n

/-- The tree rooted at a node, alone; empty for an identity that was never
handed out. -/
def subtree (t : Tree) (n : NodeId) : Forest := (t.forest.subtree? n).getD .nil

/-- The outermost tree that holds a node, alone. -/
def component (t : Tree) (n : NodeId) : Forest :=
  (t.forest.component? n).getD .nil

def kind? (t : Tree) (n : NodeId) : Option Kind := (t.subtree n).rootKind?

def hasKind (t : Tree) (n : NodeId) (k : Kind) : Bool := t.kind? n == some k

/-- Whether the kind of a node satisfies a test. -/
def kindIs (t : Tree) (n : NodeId) (p : Kind → Bool) : Bool := (t.kind? n).any p

/-- The text of a token; composite nodes have none of their own. -/
def tokenText? (t : Tree) (n : NodeId) : Option String :=
  (t.subtree n).rootText?

def isLeaf (t : Tree) (n : NodeId) : Bool := (t.tokenText? n).isSome

/-! ## Text -/

/-- The text covered by a node. -/
def text (t : Tree) (n : NodeId) : String := (t.subtree n).text

/-- The length in bytes of the text covered by a node. -/
def textLength (t : Tree) (n : NodeId) : Nat := (t.subtree n).byteLength

/-- The text of the file. -/
def toText (t : Tree) : String := t.text root

/-- The byte offset at which a node starts, counted from the start of the
outermost tree that holds it. -/
def startOffset (t : Tree) (n : NodeId) : Nat :=
  ((t.component n).offset? n).getD 0

def lineTable (t : Tree) : Text.LineTable := Text.LineTable.ofText t.toText

/-- The line and column of a byte offset in the text of the file. -/
def position (t : Tree) (offset : Nat) : Text.Position :=
  t.lineTable.position offset

/-! ## Structure -/

def children (t : Tree) (n : NodeId) : List NodeId :=
  (t.subtree n).rootChildren.roots

/-- The nodes above a node, nearest first. -/
def ancestors (t : Tree) (n : NodeId) : List NodeId :=
  (t.forest.ancestors? n).getD []

def parent? (t : Tree) (n : NodeId) : Option NodeId := (t.ancestors n).head?

/-- Whether a node belongs to the tree of the file. -/
def isAttached (t : Tree) (n : NodeId) : Bool :=
  n == root || (t.ancestors n).contains root

/-- A node and everything below it, in pre-order. -/
def descendants (t : Tree) (n : NodeId) : List NodeId := (t.subtree n).ids

def firstChild? (t : Tree) (n : NodeId) : Option NodeId := (t.children n).head?

def lastChild? (t : Tree) (n : NodeId) : Option NodeId :=
  (t.children n).getLast?

/-- The first child of a given kind. -/
def childOfKind? (t : Tree) (n : NodeId) (k : Kind) : Option NodeId :=
  (t.children n).find? fun c => t.hasKind c k

/-! ## Siblings -/

/-- The children of the parent of a node; none for the root of an outermost
tree. -/
def siblings (t : Tree) (n : NodeId) : List NodeId :=
  match t.parent? n with
  | some p => t.children p
  | none => []

/-- The place of a node among the children of its parent. -/
def childIndex? (t : Tree) (n : NodeId) : Option Nat := (t.siblings n).idxOf? n

/-- The siblings after a node, nearest first. -/
def siblingsAfter (t : Tree) (n : NodeId) : List NodeId :=
  ((t.siblings n).dropWhile (· != n)).drop 1

/-- The siblings before a node, nearest first. -/
def siblingsBefore (t : Tree) (n : NodeId) : List NodeId :=
  ((t.siblings n).takeWhile (· != n)).reverse

def nextSibling? (t : Tree) (n : NodeId) : Option NodeId :=
  (t.siblingsAfter n).head?

def prevSibling? (t : Tree) (n : NodeId) : Option NodeId :=
  (t.siblingsBefore n).head?

/-- The next sibling that is neither white space nor a comment. -/
def nextCodeSibling? (t : Tree) (n : NodeId) : Option NodeId :=
  (t.siblingsAfter n).find? fun s => !t.kindIs s Kind.isTrivia

/-- The previous sibling that is neither white space nor a comment. -/
def prevCodeSibling? (t : Tree) (n : NodeId) : Option NodeId :=
  (t.siblingsBefore n).find? fun s => !t.kindIs s Kind.isTrivia

/-! ## Leaves in document order -/

/-- The leaves of the subtree of a node. -/
def leaves (t : Tree) (n : NodeId) : List NodeId :=
  (t.subtree n).tokens.map Token.id

def firstLeaf? (t : Tree) (n : NodeId) : Option NodeId := (t.leaves n).head?

def lastLeaf? (t : Tree) (n : NodeId) : Option NodeId := (t.leaves n).getLast?

/-- The tokens after a node and everything below it, in document order. -/
def tokensAfter (t : Tree) (n : NodeId) : List Token :=
  ((t.component n).tokensAfter? n).getD []

/-- The tokens before a node, nearest first. -/
def tokensBefore (t : Tree) (n : NodeId) : List Token :=
  ((t.component n).tokensBefore? n).getD []

def nextLeaf? (t : Tree) (n : NodeId) : Option NodeId :=
  (t.tokensAfter n).head?.map Token.id

def prevLeaf? (t : Tree) (n : NodeId) : Option NodeId :=
  (t.tokensBefore n).head?.map Token.id

/-- A comment, or anything nested inside one. -/
def inComment (t : Tree) (n : NodeId) : Bool :=
  t.kindIs n Kind.isComment || (t.ancestors n).any fun a =>
    t.kindIs a Kind.isComment

/-- A token of code: neither white space nor part of a comment. -/
def isCodeToken (t : Tree) (token : Token) : Bool :=
  !t.inComment token.id && token.kind != .whitespace

def nextCodeLeaf? (t : Tree) (n : NodeId) : Option NodeId :=
  ((t.tokensAfter n).find? t.isCodeToken).map Token.id

def prevCodeLeaf? (t : Tree) (n : NodeId) : Option NodeId :=
  ((t.tokensBefore n).find? t.isCodeToken).map Token.id

/-! ## White space -/

/-- Whether a text has a line break. -/
def hasBreak (s : String) : Bool := s.toList.contains '\n'

/-- A white space token with a line break in it. -/
def isBreak (t : Tree) (n : NodeId) : Bool :=
  t.hasKind n .whitespace && (t.tokenText? n).any hasBreak

/-- A white space token without a line break. -/
def isInlineSpace (t : Tree) (n : NodeId) : Bool :=
  t.hasKind n .whitespace && (t.tokenText? n).any fun s => !hasBreak s

/-- What follows the last line break, if there is one. -/
def afterLastBreak? (cs : List Char) : Option (List Char) :=
  if cs.contains '\n' then some (cs.reverse.takeWhile (· != '\n')).reverse
  else none

/-- The indentation of the line that the next token after `before` starts
on, by the tokens before it, nearest first: what follows the last line break
if it stands in white space, and the white space right after it if it stands
in another token. -/
def lineIndent : List Token → List Char
  | [] => []
  | token :: before =>
    match afterLastBreak? token.text.toList with
    | some tail =>
      if token.kind = .whitespace then tail else tail.takeWhile Text.isBlank
    | none => lineIndent before

/-- A line break followed by the indentation of the line a node starts on.
On the first line there is no indentation to speak of. -/
def indent (t : Tree) (n : NodeId) : String :=
  String.ofList ('\n' :: lineIndent (t.tokensBefore n))

end Tree

end TreeLint
