import TreeLint.Json.Document
import TreeLint.Yaml.Cursor

/-!
# Scalars

A scalar may go over several lines. The blanks around a line break are not
part of it, one line break in it stands for a space, and of several in a row
all but the first are kept.

A plain scalar ends before a colon with a blank behind it, before a comment
and, inside brackets, before a bracket or a comma; outside brackets also
before a line that starts left of its margin. A scalar in single quotes
knows one escape, the doubled quote. One in double quotes knows escapes by
letter and by number, and a backslash before a line break, which then stands
for nothing.

Used to load settings (specification, §12).
-/

namespace TreeLint.Yaml

/-! ## Gaps -/

/-- What stands between two words of a scalar: blanks, or line breaks. -/
structure Gap where
  blanks : List Char := []
  breaks : Nat := 0

/-- What a gap stands for. -/
def Gap.text (g : Gap) : List Char :=
  if g.breaks = 0 then g.blanks
  else if g.breaks = 1 then [' ']
  else List.replicate (g.breaks - 1) '\n'

/-- Go past empty lines and the indentation of the first other one, and
count the line breaks on the way. A tab left of the margin is refused; with
`lenient`, only if its line is not empty. -/
def skipIndentation? (lenient : Bool) (margin : Int) :
    Nat → Nat → Cursor → Option (Nat × Cursor)
  | 0, _, _ => none
  | fuel + 1, breaks, cur =>
    match cur.rest with
    | ' ' :: _ => skipIndentation? lenient margin fuel breaks cur.next
    | '\t' :: _ =>
      if (cur.column : Int) < margin then
        if lenient then
          match cur.skipTabbed? with
          | some cur => skipIndentation? lenient margin fuel breaks cur
          | none => none
        else none
      else skipIndentation? lenient margin fuel breaks cur.next
    | '\n' :: _ => skipIndentation? lenient margin fuel (breaks + 1) cur.next
    | _ => some (breaks, cur)

/-- Read a gap. -/
def readGap? (lenient : Bool) (margin : Int) (cur : Cursor) :
    Option (Gap × Cursor) :=
  let past := cur.skipWhile isSpace
  match past.rest with
  | '\n' :: _ =>
    (skipIndentation? lenient margin (past.rest.length + 1) 0 past).map
      fun (breaks, cur) => ({ breaks }, cur)
  | _ => some ({ blanks := cur.rest.takeWhile isSpace }, past)

/-! ## Plain scalars -/

/-- Whether a plain scalar ends before a character, by what follows that. -/
def endsPlain (flow : Bool) (c : Char) (rest : List Char) : Bool :=
  (c == ':' && (atBlank rest || (flow && atFlowMark rest))) ||
    (flow && isFlowMark c)

/-- The characters up to a blank or the end of a plain scalar. -/
def plainWord (flow : Bool) : List Char → List Char
  | [] => []
  | c :: r =>
    if isSpace c || c == '\n' || endsPlain flow c r then []
    else c :: plainWord flow r

/-- Whether a plain scalar is over before the next word. -/
def plainIsOver (cur : Cursor) : Bool :=
  match cur.rest with
  | '#' :: _ => true
  | cs => cur.column == 0 && atDocumentMark cs

/-- Whether a dash stands alone before a bracket or a comma. -/
def atLoneDash : List Char → Bool
  | '-' :: r => atFlowMark r
  | _ => false

/-- Read the words of a plain scalar from where one may start: its text and
where it ends, which is past the gap that follows it. -/
def plainFrom? (flow : Bool) (margin : Int) :
    Nat → List Char → Gap → Cursor → Option (List Char × Cursor)
  | 0, _, _, _ => none
  | fuel + 1, text, gap, cur =>
    if plainIsOver cur then some (text, cur)
    else if flow && atLoneDash cur.rest then none
    else
      let word := plainWord flow cur.rest
      let text := if word.isEmpty then text else text ++ gap.text ++ word
      let past := cur.skip word.length
      if !atBlank past.rest || past.rest.isEmpty then some (text, past)
      else
        match readGap? true margin past with
        | none => none
        | some (gap, cur) =>
          if !flow && decide ((cur.column : Int) < margin) then some (text, cur)
          else plainFrom? flow margin fuel text gap cur

/-- Read a plain scalar. Inside brackets it may not start left of its margin. -/
def readPlain? (flow : Bool) (margin : Int) (cur : Cursor) :
    Option (String × Cursor) :=
  if flow && decide ((cur.column : Int) < margin) then none
  else
    match plainFrom? flow margin (cur.rest.length + 1) [] {} cur with
    | some (c :: cs, cur) => some (String.ofList (c :: cs), cur)
    | _ => none

/-! ## Quoted scalars -/

/-- The character that a backslash and a letter stand for. -/
def letterEscape? : Char → Option Char
  | '0' => some (Char.ofNat 0)
  | 'a' => some (Char.ofNat 7)
  | 'e' => some (Char.ofNat 27)
  | 'v' => some (Char.ofNat 11)
  | '\t' => some '\t'
  | ' ' => some ' '
  | '_' => some (Char.ofNat 0xa0)
  | 'N' => some (Char.ofNat 0x85)
  | 'L' => some (Char.ofNat 0x2028)
  | 'P' => some (Char.ofNat 0x2029)
  | c => Json.shortEscape? c

/-- Read a number of hexadecimal digits. -/
def hexDigits? (count : Nat) (cs : List Char) : Option (Nat × List Char) :=
  if cs.length < count then none
  else (Json.hexNumber? (cs.take count)).map fun n => (n, cs.drop count)

/-- Read the digits of an escape by number. -/
def numberEscape? (count : Nat) (cs : List Char) : Option (Char × List Char) :=
  match hexDigits? count cs with
  | some (n, rest) => if n.isValidChar then some (Char.ofNat n, rest) else none
  | none => none

/-- Read what follows a backslash. The halves of a character pair are two
escapes in a row. -/
def readEscape? : List Char → Option (Char × List Char)
  | [] => none
  | 'x' :: r => numberEscape? 2 r
  | 'U' :: r => numberEscape? 8 r
  | 'u' :: r =>
    match hexDigits? 4 r with
    | some (lead, '\\' :: 'u' :: s) =>
      if Json.isLeading lead then
        match hexDigits? 4 s with
        | some (trail, s) =>
          if Json.isTrailing trail then some (Json.pairChar lead trail, s)
          else none
        | none => none
      else numberEscape? 4 r
    | _ => numberEscape? 4 r
  | c :: r => (letterEscape? c).map fun e => (e, r)

/-- The kinds of quotes. -/
inductive Quotes where
  | single
  | double
deriving DecidableEq

/-- Whether the closing quote stands here. -/
def Quotes.close (q : Quotes) : List Char → Bool
  | '\'' :: r => q == .single && r.head? != some '\''
  | '"' :: _ => q == .double
  | _ => false

/-- Read the characters of a quoted scalar up to a blank, a line break,
escaped or not, or the closing quote, and what follows them. -/
def quotedWord? (q : Quotes) : Nat → List Char → Option (List Char × List Char)
  | 0, _ => none
  | fuel + 1, cs =>
    if atBlank cs || q.close cs then some ([], cs)
    else
      let read : Option (Char × List Char) :=
        match q, cs with
        | .single, '\'' :: _ :: r => some ('\'', r)
        | .double, '\\' :: r => readEscape? r
        | _, c :: r => some (c, r)
        | _, [] => none
      match q, cs with
      | .double, '\\' :: '\n' :: _ => some ([], cs)
      | _, _ =>
        match read with
        | none => none
        | some (c, rest) =>
          (quotedWord? q fuel rest).map fun (word, rest) => (c :: word, rest)

/-- Read a quoted scalar from behind its opening quote, or from a later
word: its text, and what follows the closing quote. Every line of it but the
first has to start right of the indentation. -/
def quotedFrom? (q : Quotes) (indent : Int) :
    Nat → List Char → Cursor → Option (List Char × Cursor)
  | 0, _, _ => none
  | fuel + 1, text, cur =>
    if (cur.column == 0 && atDocumentMark cur.rest) || cur.rest.isEmpty ||
        decide ((cur.column : Int) ≤ indent) then none
    else
      match quotedWord? q (cur.rest.length + 1) cur.rest with
      | none => none
      | some (word, rest) =>
        let past := cur.skip (cur.rest.length - rest.length)
        let text := text ++ word
        if q.close rest then some (text, past.next)
        else
          match rest with
          | '\\' :: _ =>
            match skipIndentation? false indent (rest.length + 1) 0
                (past.skip 2) with
            | none => none
            | some (breaks, cur) =>
              quotedFrom? q indent fuel (text ++ List.replicate breaks '\n') cur
          | _ =>
            match readGap? false indent past with
            | none => none
            | some (gap, cur) =>
              quotedFrom? q indent fuel (text ++ gap.text) cur

/-- Read a quoted scalar from its opening quote, and the blanks behind it. A
line end has to follow, or a colon if the scalar is on one line, or inside
brackets any colon, comma or closing bracket. -/
def readQuoted? (q : Quotes) (flow : Bool) (indent : Int) (cur : Cursor) :
    Option (String × Cursor) :=
  match quotedFrom? q indent (cur.rest.length + 1) [] cur.next with
  | none => none
  | some (text, past) =>
    match past.skipBlanks? with
    | none => none
    | some past =>
      let fits :=
        match past.rest with
        | ':' :: _ => flow || cur.line == past.line
        | c :: _ => c == '\n' || (flow && (c == ',' || c == ']' || c == '\x7d'))
        | [] => true
      if fits then some (String.ofList text, past) else none

end TreeLint.Yaml
