import TreeLint.Rule.Provider

/-!
# A blank line before declarations

A declaration is separated from the code before it by a blank line. Exempt
are the first declaration of a class body, a block or a lambda body, a
property after a property, local properties, and the places where a
declaration is used as an expression.

Specification, §13.
-/

namespace TreeLint.Standard.BlankLine

def info : RuleInfo :=
  { id := "standard:blank-line-before-declaration",
    codeStyle := some .ktlintOfficial }

/-- Properties and their accessors. -/
def isPropertyPart (k : Kind) : Bool := k == .property || k == .propertyAccessor

/-- The first code after the opening brace of a class body or block. -/
def isFirstAfterBrace (t : Tree) (n : NodeId) : Bool :=
  match t.parent? n with
  | none => false
  | some p =>
    t.kindIs p (fun k => k == .classBody || k == .block) &&
      (t.childOfKind? p .leftBrace).bind t.nextCodeSibling? == some n

/-- The first code of the block of a lambda. -/
def isFirstInLambda (t : Tree) (n : NodeId) : Bool :=
  match t.parent? n with
  | none => false
  | some block =>
    t.hasKind block .block &&
      (t.parent? block).any (fun p => t.hasKind p .functionLiteral) &&
      (t.children block).find? (fun c => !t.kindIs c Kind.isTrivia) == some n

/-- A property right after a property, or after something that belongs to
one. -/
def followsProperty (t : Tree) (n : NodeId) : Bool :=
  t.kindIs n isPropertyPart &&
    (t.prevCodeSibling? n).any fun prev =>
      t.kindIs prev isPropertyPart || (t.parent? prev).any fun p =>
        t.kindIs p isPropertyPart

/-- Whether the parent of a node has a kind. -/
def parentIs (t : Tree) (n : NodeId) (k : Kind) : Bool :=
  (t.parent? n).any fun p => t.hasKind p k

/-- A function that stands for a value: after an equals sign or a return, or
as an argument. -/
def isFunctionValue (t : Tree) (n : NodeId) : Bool :=
  t.hasKind n .function &&
    (((t.prevCodeSibling? n).any fun prev =>
        t.kindIs prev fun k => k == .equals || k == .returnKeyword) ||
      parentIs t n .argument)

/-- Whether a declaration needs no blank line. Specification, §13. -/
def isExempt (t : Tree) (n : NodeId) : Bool :=
  isFirstAfterBrace t n || isFirstInLambda t n || followsProperty t n ||
    (t.kindIs n isPropertyPart && parentIs t n .block) ||
    (t.hasKind n .property && parentIs t n .whenExpr) ||
    isFunctionValue t n ||
    (t.hasKind n .objectDecl && parentIs t n .objectLiteral)

/-- Whether the text before a node already has a blank line, or there is
none. -/
def isSeparated (t : Tree) (n : NodeId) : Bool :=
  match (t.prevLeaf? n).bind t.tokenText? with
  | none => true
  | some text => text.toList.take 2 == ['\n', '\n']

/-- Whether a node is a declaration that lacks its blank line. -/
def lacksBlankLine (t : Tree) (n : NodeId) : Bool :=
  t.kindIs n Kind.isDeclaration && !isExempt t n && !isSeparated t n

def before {σ : Type} (n : NodeId) (memory : σ) : Hook σ :=
  .inspect fun t =>
    if lacksBlankLine t n then
      .correct (t.startOffset n) "Expected a blank line for this declaration"
        [.spaceBefore n ("\n" ++ t.indent n)] memory
    else .finish memory

def provider {σ : Type} [Inhabited σ] : Provider σ :=
  .ofVisitor info fun _ => { memory := default, before }

end TreeLint.Standard.BlankLine
