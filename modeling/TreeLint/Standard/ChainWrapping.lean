import TreeLint.Rule.Provider

/-!
# Wrapping chains

A line that is broken at a call operator or an elvis operator is broken
before it; a line that is broken at another binary operator is broken after
it. Spread operators and signs in front of a number may start a line.

Specification, §13.
-/

namespace TreeLint.Standard.ChainWrapping

def info : RuleInfo :=
  { id := "standard:chain-wrapping",
    keys := [SettingsKey.indentSize, SettingsKey.indentStyle] }

/-- Operators that belong to the start of the next line. Specification, §13.
-/
def opensLine (k : Kind) : Bool := k == .dot || k == .safeAccess || k == .elvis

/-- Operators that belong to the end of the line before. Specification, §13.
-/
def closesLine (k : Kind) : Bool :=
  k == .times || k == .divide || k == .percent || k == .logicalAnd ||
    k == .logicalOr || k == .plus || k == .minus

/-- An elvis operator that something follows on its line. -/
def isElvisBeforeComment (t : Tree) (n : NodeId) : Bool :=
  t.hasKind n .elvis && (t.nextLeaf? n).any fun next =>
    t.isInlineSpace next || t.inComment next

/-- An asterisk that spreads an array into arguments. -/
def isSpread (t : Tree) (n : NodeId) : Bool :=
  t.hasKind n .times &&
    (t.prevCodeLeaf? n).any fun prev =>
      t.kindIs prev fun k =>
        k == .leftParen || k == .comma || k == .leftBrace ||
          k == .elseKeyword || k.isOperation

/-- A plus or minus that is a sign. -/
def isSign (t : Tree) (n : NodeId) : Bool :=
  t.kindIs n (fun k => k == .plus || k == .minus) &&
    ((t.parent? n).bind t.parent?).any fun grandparent =>
      t.hasKind grandparent .prefixExpr

/-! ## Operators that open a line -/

/-- The line break that follows an operator which belongs behind it. -/
def breakAfter? (t : Tree) (n : NodeId) : Option NodeId :=
  ((t.nextCodeLeaf? n).bind t.prevLeaf?).filter fun newline =>
    t.isBreak newline && !isElvisBeforeComment t n

/-- How an operator gets to the start of the next line. -/
def openLine (indentation : Indentation) (t : Tree)
    (n newline : NodeId) : List Op :=
  if t.hasKind n .elvis then
    [.spaceBefore n (indentation.childOf (t.indent n)), .spaceAfter n " "]
  else [.moveAfter n newline]

/-! ## Operators that close a line -/

/-- The line break in front of an operator which belongs before it. -/
def breakBefore? (t : Tree) (n : NodeId) : Option NodeId :=
  if isSpread t n || isSign t n then none else (t.prevLeaf? n).filter t.isBreak

/-- The white space that is left over once the operator has moved. If there
is a line break on both sides the one in front goes, so that the indentation
of the next line stays. -/
def obsolete? (t : Tree) (n newline : NodeId) : Option NodeId :=
  match t.nextLeaf? n with
  | none => none
  | some next =>
    if t.isBreak next then some newline
    else if t.isInlineSpace next then some next else none

/-- How the operator of a binary expression gets in front of the white space
before it. -/
def moveOperation (t : Tree) (operation : NodeId) : List Op :=
  let anchor := ((t.prevCodeSibling? operation).bind t.nextSibling?).filter
    (· != operation)
  (anchor.map fun a => Op.moveBefore operation a).toList ++
    [.spaceBefore operation " "]

/-- How a bare operator gets behind the code before a line break. -/
def moveOperator (t : Tree) (n newline : NodeId) : List Op :=
  match t.prevCodeLeaf? newline with
  | some insertion => [.moveAfter n insertion, .spaceAfter insertion " "]
  | none => []

/-- How an operator gets to the end of the line before. -/
def closeLine (t : Tree) (n newline : NodeId) : List Op :=
  (match (t.parent? n).filter fun p => t.hasKind p .operationReference with
    | some operation => moveOperation t operation
    | none => moveOperator t n newline) ++
  ((obsolete? t n newline).map Op.detach).toList

/-! ## The rule -/

def before {σ : Type} (indentation : Indentation) (n : NodeId)
    (memory : σ) : Hook σ :=
  .inspect fun t =>
    if t.inComment n then .finish memory
    else if t.kindIs n opensLine then
      match breakAfter? t n with
      | none => .finish memory
      | some newline =>
        .correct (t.startOffset n)
          ("Line must not end with \"" ++ t.text n ++ "\"")
          (openLine indentation t n newline) memory
    else if t.kindIs n closesLine then
      match breakBefore? t n with
      | none => .finish memory
      | some newline =>
        .correct (t.startOffset n)
          ("Line must not begin with \"" ++ t.text n ++ "\"")
          (closeLine t n newline) memory
    else .finish memory

def provider {σ : Type} [Inhabited σ] : Provider σ :=
  .ofVisitor info fun view =>
    { memory := default, before := before view.indentation }

end TreeLint.Standard.ChainWrapping
