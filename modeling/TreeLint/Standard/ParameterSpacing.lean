import TreeLint.Rule.Provider

/-!
# Spacing of parameter lists

An empty parameter list has no white space. On one line there is none next
to the parentheses, none before a comma or colon, and a single space after a
comma, after a colon and between modifiers. A type may stand on the next
line if it has annotations or would not fit after its colon.

Each step looks at the tree as the steps before it left it.

Specification, §13.
-/

namespace TreeLint.Standard.ParameterSpacing

def info : RuleInfo :=
  { id := "standard:parameter-list-spacing",
    keys := [SettingsKey.maxLineLength] }

def isSingleSpace (t : Tree) (n : NodeId) : Bool := t.tokenText? n == some " "

/-! ## Corrections -/

def removeSpace {σ : Type} (t : Tree) (space : NodeId) (memory : σ) : Hook σ :=
  .correct (t.startOffset space) "Unexpected whitespace" [.detach space] memory

def makeSingle {σ : Type} (t : Tree) (space : NodeId) (memory : σ) : Hook σ :=
  .correct (t.startOffset space) "Expected a single space"
    [.replaceText space " "] memory

def addSpaceAfter {σ : Type} (t : Tree) (token : NodeId)
    (memory : σ) : Hook σ :=
  .correct (t.startOffset token)
    ("Whitespace after '" ++ t.text token ++ "' is missing")
    [.spaceAfter token " "] memory

/-! ## The width of a line -/

/-- The kinds and widths of tokens up to the first line break. -/
def widthsOnLine : List Token → List (Kind × Nat)
  | [] => []
  | token :: rest =>
    if Tree.hasBreak token.text then
      [(token.kind, (token.text.toList.takeWhile (· != '\n')).length)]
    else (token.kind, token.text.length) :: widthsOnLine rest

/-- Leave out a comment at the end of a line, and the white space before it;
widths come last first. -/
def dropComment : List (Kind × Nat) → List (Kind × Nat)
  | (.lineComment, _) :: (.whitespace, _) :: rest => rest
  | (.lineComment, _) :: rest => rest
  | widths => widths

/-- The width of the line that some tokens begin, without a comment at its
end. -/
def lineWidth (tokens : List Token) : Nat :=
  let widths := (widthsOnLine tokens).reverse.dropWhile fun w =>
    w.1 == .whitespace && w.2 == 0
  ((dropComment widths).map Prod.snd).foldr (· + ·) 0

/-- The width of the last line of the text before a node. -/
def widthBefore (t : Tree) (n : NodeId) : Nat :=
  let text := (t.tokensBefore n).reverse.flatMap fun token => token.text.toList
  (text.reverse.takeWhile (· != '\n')).length

/-- Whether the type behind a line break would fit on the line before it,
with one space between. Specification, §13. -/
def typeFits (limit : Option Nat) (t : Tree) (space : NodeId) : Bool :=
  match limit, (t.nextCodeSibling? space).filter fun next =>
      t.hasKind next .typeReference with
  | some limit, some type =>
    if (t.leaves type).isEmpty then true
    else
      decide (widthBefore t space + 1 +
        lineWidth ((t.subtree type).tokens ++ t.tokensAfter type) ≤ limit)
  | _, _ => true

/-! ## Modifiers -/

/-- The modifier in front of some white space. -/
def modifierBefore? (t : Tree) (space : NodeId) : Option NodeId :=
  match t.prevCodeSibling? space with
  | none => none
  | some prev =>
    if t.hasKind prev .modifierList then t.lastChild? prev else some prev

/-- An annotation may stand on a line of its own. -/
def endsAnnotationLine (t : Tree) (space : NodeId) : Bool :=
  t.isBreak space && (modifierBefore? t space).any fun m =>
    t.hasKind m .annotationEntry

def visitModifierSpace {σ : Type} (space : NodeId) (memory : σ) : Hook σ :=
  .inspect fun t =>
    if endsAnnotationLine t space || isSingleSpace t space then .finish memory
    else makeSingle t space memory

/-- The white space after each modifier of a parameter. -/
def modifierSpaces (t : Tree) (parameter : NodeId) : List NodeId :=
  match t.childOfKind? parameter .modifierList with
  | none => []
  | some modifiers =>
    (t.children modifiers).filter (fun c => t.hasKind c .whitespace) ++
      ((t.nextSibling? modifiers).filter fun next =>
        t.hasKind next .whitespace).toList

/-! ## Parameters -/

/-- Whether the type of a parameter has annotations. -/
def hasAnnotatedType (t : Tree) (parameter : NodeId) : Bool :=
  ((t.childOfKind? parameter .typeReference).bind fun type =>
    t.childOfKind? type .modifierList).isSome

/-- No white space before the colon. -/
def visitBeforeColon {σ : Type} (colon : NodeId) (memory : σ) : Hook σ :=
  .inspect fun t =>
    match (t.prevLeaf? colon).filter fun leaf => t.hasKind leaf .whitespace with
    | some space => removeSpace t space memory
    | none => .finish memory

/-- A single space after the colon, or a line break that is needed. -/
def visitAfterColon {σ : Type} (limit : Option Nat) (parameter colon : NodeId)
    (memory : σ) : Hook σ :=
  .inspect fun t =>
    match (t.nextLeaf? colon).filter fun leaf => t.hasKind leaf .whitespace with
    | none => addSpaceAfter t colon memory
    | some space =>
      if (t.isBreak space &&
            (hasAnnotatedType t parameter || !typeFits limit t space)) ||
          isSingleSpace t space then .finish memory
      else makeSingle t space memory

/-- Both sides of the colon, if there is one. -/
def visitColon {σ : Type} (limit : Option Nat) (parameter : NodeId)
    (memory : σ) : Hook σ :=
  .inspect fun t =>
    match t.childOfKind? parameter .colon with
    | none => .finish memory
    | some colon =>
      (visitBeforeColon colon memory).andThen
        (visitAfterColon limit parameter colon)

def visitParameter {σ : Type} (limit : Option Nat) (parameter : NodeId)
    (memory : σ) : Hook σ :=
  .inspect fun t =>
    (Hook.each visitModifierSpace (modifierSpaces t parameter) memory).andThen
      (visitColon limit parameter)

/-! ## Lists -/

/-- What is known of a list while its children are visited. -/
structure Layout where
  /-- The number of parameters. -/
  total : Nat
  noComments : Bool
deriving DecidableEq, Repr

/-- White space in a list after `seen` parameters. A comment keeps the white
space in front of it. -/
def visitSpace {σ : Type} (layout : Layout) (seen : Nat) (space : NodeId)
    (memory : σ) : Hook σ :=
  .inspect fun t =>
    if layout.total = 0 ∧ layout.noComments = true then
      removeSpace t space memory
    else if (seen = 0 ∨ seen = layout.total) ∧ t.isBreak space = false then
      if layout.noComments then removeSpace t space memory else .finish memory
    else if (t.nextCodeSibling? space).any fun next =>
        t.hasKind next .comma then
      removeSpace t space memory
    else if !t.isBreak space && !isSingleSpace t space then
      makeSingle t space memory
    else .finish memory

/-- A comma is followed by white space or the closing parenthesis. -/
def visitComma {σ : Type} (comma : NodeId) (memory : σ) : Hook σ :=
  .inspect fun t =>
    if (t.nextLeaf? comma).any fun next => !t.kindIs next fun k =>
        k == .whitespace || k == .rightParen then
      addSpaceAfter t comma memory
    else .finish memory

/-- Visit the children of a list as they were in `t`, with `seen` parameters
before them. -/
def visitList {σ : Type} (limit : Option Nat) (t : Tree) (layout : Layout) :
    Nat → List NodeId → σ → Hook σ
  | _, [], memory => .finish memory
  | seen, c :: cs, memory =>
    if t.hasKind c .whitespace then
      (visitSpace layout seen c memory).andThen
        (visitList limit t layout seen cs)
    else if t.hasKind c .comma then
      (visitComma c memory).andThen (visitList limit t layout seen cs)
    else if t.hasKind c .parameter then
      (visitParameter limit c memory).andThen
        (visitList limit t layout (seen + 1) cs)
    else visitList limit t layout seen cs memory

def layout (t : Tree) (list : NodeId) : Layout :=
  { total := ((t.children list).filter fun c => t.hasKind c .parameter).length
    noComments := (t.children list).all fun c => !t.inComment c }

def before {σ : Type} (limit : Option Nat) (n : NodeId) (memory : σ) : Hook σ :=
  .inspect fun t =>
    if t.hasKind n .parameterList then
      visitList limit t (layout t n) 0 (t.children n) memory
    else .finish memory

def provider {σ : Type} [Inhabited σ] : Provider σ :=
  .ofVisitor info fun view =>
    { memory := default, before := before view.maxLineLength? }

end TreeLint.Standard.ParameterSpacing
