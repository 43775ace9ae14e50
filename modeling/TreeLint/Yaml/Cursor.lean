/-!
# Places in an indented text

Columns count characters, a tab too. Line breaks have one form, whatever
they were written as.

Used to load settings (specification, §12).
-/

namespace TreeLint.Yaml

/-- The characters of a text with every line break in one form, without a
mark of byte order in front, up to a character that ends it early. -/
def charsOf (text : String) : List Char :=
  let cs := match text.toList with
    | c :: r => if c = Char.ofNat 0xfeff then r else c :: r
    | [] => []
  breaks (cs.takeWhile (· != Char.ofNat 0))
where
  /-- Write every line break as one character. -/
  breaks : List Char → List Char
    | [] => []
    | '\r' :: '\n' :: r => '\n' :: breaks r
    | '\r' :: r => '\n' :: breaks r
    | c :: r => c :: breaks r

/-- What is left of a text, and where it starts: its line, its column, how
many characters stand before it, and whether only blanks of these stand on
its line. -/
structure Cursor where
  rest : List Char
  line : Nat := 0
  column : Nat := 0
  offset : Nat := 0
  fresh : Bool := true

def isSpace (c : Char) : Bool := c == ' ' || c == '\t'

/-- Brackets and the comma between them. -/
def isFlowMark (c : Char) : Bool :=
  c == ',' || c == '[' || c == ']' || c == '\x7b' || c == '\x7d'

/-- Whether a line or the text ends here. -/
def atLineEnd : List Char → Bool
  | [] => true
  | c :: _ => c == '\n'

/-- Whether a blank stands here, or a line or the text ends. -/
def atBlank : List Char → Bool
  | [] => true
  | c :: _ => isSpace c || c == '\n'

def atFlowMark : List Char → Bool
  | [] => false
  | c :: _ => isFlowMark c

/-- Whether three characters that start or end a document stand here. -/
def atMark (mark : Char) : List Char → Bool
  | a :: b :: c :: r => a == mark && b == mark && c == mark && atBlank r
  | _ => false

def atDocumentMark (cs : List Char) : Bool := atMark '-' cs || atMark '.' cs

namespace Cursor

/-- Go past one character. -/
def next (cur : Cursor) : Cursor :=
  match cur.rest with
  | [] => cur
  | '\n' :: r => { rest := r, line := cur.line + 1, offset := cur.offset + 1 }
  | c :: r =>
    { cur with
      rest := r, column := cur.column + 1, offset := cur.offset + 1,
      fresh := cur.fresh && isSpace c }

/-- Go past some characters. -/
def skip : Nat → Cursor → Cursor
  | 0, cur => cur
  | n + 1, cur => skip n cur.next

/-- Go past the characters in front that have a property. -/
def skipWhile (p : Char → Bool) (cur : Cursor) : Cursor :=
  cur.skip (cur.rest.takeWhile p).length

/-- Go to the end of the line. -/
def skipLine (cur : Cursor) : Cursor := cur.skipWhile (· != '\n')

/-- Go past the blanks after something that was read, and past a comment,
which has to stand apart from it. -/
def skipBlanks? (cur : Cursor) : Option Cursor :=
  let past := cur.skipWhile isSpace
  match past.rest with
  | '#' :: _ => if past.offset = cur.offset then none else some past.skipLine
  | _ => some past

/-- Go past the blanks of a line whose indentation has a tab in it: nothing
else may stand there. -/
def skipTabbed? (cur : Cursor) : Option Cursor :=
  match cur.skipBlanks? with
  | some past => if atLineEnd past.rest then some past else none
  | none => none

/-- Go past blanks, comments and line breaks, and say whether there was a
break. A line whose indentation, up to the column `margin`, has a tab in it
has to be empty. -/
def toContent? (margin : Int) (cur : Cursor) : Option (Cursor × Bool) :=
  go (cur.rest.length + 1) false cur
where
  /-- Every step takes a character. -/
  go : Nat → Bool → Cursor → Option (Cursor × Bool)
    | 0, _, _ => none
    | fuel + 1, broke, cur =>
      match cur.rest with
      | '\t' :: _ =>
        if cur.fresh ∧ (cur.column : Int) < margin then
          match cur.skipTabbed? with
          | some cur => go fuel broke cur
          | none => none
        else go fuel broke cur.next
      | ' ' :: _ => go fuel broke cur.next
      | '\n' :: _ => go fuel true cur.next
      | '#' :: _ => go fuel broke cur.skipLine
      | _ => some (cur, broke)

end Cursor

end TreeLint.Yaml
