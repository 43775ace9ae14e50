import TreeLint.Yaml.Scalar

/-!
# Tokens of an indented text

Indentation becomes tokens here: a block collection starts where a key or a
dash stands further right than the one around it, and ends before a line
that starts further left. A key shows itself only by the colon behind it, so
the places where one may have started are remembered, one for each level of
brackets, until it is clear that no colon will follow: outside brackets a
key has to be on the line of its colon and at most `maxKeyLength` characters
before it.

The list of tokens ends with `finish`, or with `broken` at a place where the
text does not make sense. The reader of the list gets no token of which it
is still open whether it starts a key, so `broken` stands before such a
token if the text breaks while that is open.

Used to load settings (specification, §12).
-/

namespace TreeLint.Yaml

inductive Token where
  | scalar (plain : Bool) (text : String)
  | key
  | value
  | blockSequence
  | blockMapping
  | blockEntry
  | blockEnd
  | flowSequence
  | flowSequenceEnd
  | flowMapping
  | flowMappingEnd
  | flowEntry
  | documentStart
  | documentEnd
  | finish
  | broken
deriving DecidableEq, Repr

/-- A place where a key may have started: how many tokens stand before it,
where it is, and whether a line of a mapping starts there, which has to be a
key. -/
structure KeyPlace where
  index : Nat
  line : Nat
  column : Nat
  offset : Nat
  required : Bool

/-- A level of indentation: the column of the level around it, and whether
it belongs to a block collection. The other ones, a column further right,
are for what follows a colon or a dash. -/
structure Level where
  outer : Int
  block : Bool

/-- An open bracket. In square ones an entry may be a pair of a key and a
value, a mapping of its own. -/
structure Bracket where
  square : Bool
  paired : Bool := false
  /-- Where a key may have started around the bracket. -/
  outer : Option KeyPlace

/-- A text that is being cut into tokens. -/
structure Lexer where
  cursor : Cursor
  /-- The column of the innermost level of indentation. -/
  indent : Int := -1
  levels : List Level := []
  /-- The open brackets, the innermost first. -/
  brackets : List Bracket := []
  /-- Where a key may have started inside the innermost bracket. -/
  candidate : Option KeyPlace := none
  /-- Whether a key may start next. -/
  keyAllowed : Bool := true
  /-- Where a colon belongs to the key just before it even if no blank
  follows. -/
  adjacent : Option Nat := none
  tokens : Array Token := #[]
  finished : Bool := false

/-- The longest distance between the start of a key and its colon outside
brackets. -/
def maxKeyLength : Nat := 1024

/-- How many brackets may be open. -/
def maxBrackets : Nat := 255

namespace Lexer

def inFlow (l : Lexer) : Bool := !l.brackets.isEmpty

def emit (t : Token) (l : Lexer) : Lexer := { l with tokens := l.tokens.push t }

def insert (index : Nat) (t : Token) (l : Lexer) : Lexer :=
  { l with tokens := l.tokens.insertIdxIfInBounds index t }

/-! ## Indentation -/

/-- Drop the innermost level if it belongs to no block collection. -/
def dropSoftLevel (l : Lexer) : Lexer :=
  match l.levels with
  | ⟨outer, false⟩ :: rest => { l with indent := outer, levels := rest }
  | _ => l

/-- Start a block collection at a column, if that is further right than the
one around it. Its first token goes to the given place. -/
def openBlock (column : Nat) (start : Token) (index : Nat)
    (l : Lexer) : Lexer :=
  if l.inFlow then l
  else
    let l := if l.indent ≤ column then l.dropSoftLevel else l
    if l.indent < column then
      insert index start
        { l with levels := ⟨l.indent, true⟩ :: l.levels, indent := column }
    else l

/-- Start a level one column further right that belongs to no block
collection, inside one that does. -/
def openSoftLevel (l : Lexer) : Lexer :=
  match l.levels with
  | ⟨_, true⟩ :: _ =>
    if l.inFlow then l
    else
      { l with
        levels := ⟨l.indent, false⟩ :: l.levels, indent := l.indent + 1 }
  | _ => l

/-- Drop the levels that belong to no block collection. -/
def dropSoftLevels (l : Lexer) : Lexer :=
  let (levels, indent) := go l.levels l.indent
  { l with levels, indent }
where
  /-- The levels that are left and their column. -/
  go : List Level → Int → List Level × Int
    | ⟨outer, false⟩ :: rest, _ => go rest outer
    | levels, indent => (levels, indent)

/-- End the levels that lie right of a column. -/
def closeBlocks (column : Int) (l : Lexer) : Lexer :=
  if l.inFlow then l
  else
    let (levels, indent, tokens) := go l.levels l.indent l.tokens
    { l with levels, indent, tokens }
where
  /-- The levels that are left, their column and the tokens. -/
  go : List Level → Int → Array Token → List Level × Int × Array Token
    | [], indent, tokens => ([], indent, tokens)
    | level :: rest, indent, tokens =>
      if column < indent then
        go rest level.outer
          (if level.block then tokens.push .blockEnd else tokens)
      else (level :: rest, indent, tokens)

/-! ## Keys -/

/-- Remember that a key may start here. -/
def offerKey (l : Lexer) : Lexer :=
  if l.keyAllowed then
    let required :=
      !l.inFlow && l.indent == (l.cursor.column : Int) &&
        (l.levels.head?.any fun level => level.block)
    { l with
      candidate := some
        { index := l.tokens.size, line := l.cursor.line,
          column := l.cursor.column,
          offset := l.cursor.offset, required } }
  else l

/-- Forget where a key may have started. -/
def withdrawKey? (l : Lexer) : Option Lexer :=
  if l.candidate.any (·.required) then none
  else some { l with candidate := none }

/-- Whether the colon of a key can no longer follow. -/
def isStale (l : Lexer) (k : KeyPlace) : Bool :=
  !l.inFlow &&
    (decide (k.line < l.cursor.line) ||
      decide (k.offset + maxKeyLength < l.cursor.offset))

/-- Forget where a key may have started if its colon can no longer follow. -/
def dropStaleKey? (l : Lexer) : Option Lexer :=
  if l.candidate.any l.isStale then l.withdrawKey? else some l

/-! ## Tokens -/

/-- Go to the next token. Outside brackets a line break allows a key. -/
def toContent? (l : Lexer) : Option Lexer :=
  let margin := if l.levels.isEmpty then -1 else l.indent
  (l.cursor.toContent? margin).map fun (cursor, broke) =>
    { l with cursor, keyAllowed := l.keyAllowed || (broke && !l.inFlow) }

/-- An opening bracket. It may itself start a key. -/
def openBracket? (square : Bool) (l : Lexer) : Option Lexer :=
  let l := l.offerKey.openSoftLevel
  if maxBrackets ≤ l.brackets.length then none
  else
    l.cursor.next.skipBlanks?.map fun cursor =>
      emit (if square then .flowSequence else .flowMapping)
        { l with
          cursor, brackets := { square, outer := l.candidate } :: l.brackets,
          candidate := none
          keyAllowed := true }

/-- End the pair that an entry in square brackets may be. -/
def endPair (l : Lexer) : Lexer :=
  match l.brackets with
  | b :: rest =>
    if b.paired then
      emit .flowMappingEnd
        { l with brackets := { b with paired := false } :: rest }
    else l
  | [] => l

/-- A closing bracket. -/
def closeBracket? (square : Bool) (l : Lexer) : Option Lexer :=
  let l := if square then l.endPair else l
  match l.brackets with
  | [] => none
  | b :: brackets =>
    l.cursor.next.skipBlanks?.map fun cursor =>
      emit (if square then .flowSequenceEnd else .flowMappingEnd)
        { l with
          cursor, brackets, candidate := b.outer, keyAllowed := false
          adjacent := if brackets.isEmpty then l.adjacent
            else some cursor.offset }

/-- A comma. -/
def comma? (l : Lexer) : Option Lexer :=
  match l.withdrawKey? with
  | none => none
  | some l =>
    let l := l.endPair
    l.cursor.next.skipBlanks?.map fun cursor =>
      emit .flowEntry { l with cursor, keyAllowed := true }

/-- Start a pair in square brackets, if there is none: its first token goes
to the given place. -/
def startPair (index : Nat) (l : Lexer) : Lexer :=
  match l.brackets with
  | b :: rest =>
    if b.square && !b.paired then
      insert index .flowMapping
        { l with brackets := { b with paired := true } :: rest }
    else l
  | [] => l

/-- Whether a colon here would make the entry of square brackets a pair. -/
def startsPair (l : Lexer) : Bool :=
  match l.brackets with
  | b :: _ => b.square && !b.paired
  | [] => false

/-- A dash before an entry of a block sequence. -/
def dash? (l : Lexer) : Option Lexer :=
  if l.inFlow || !l.keyAllowed then none
  else
    let column := l.cursor.column
    let behind := l.cursor.next
    let tabbed := (behind.rest.takeWhile isSpace).contains '\t'
    match behind.skipBlanks? with
    | none => none
    | some cursor =>
      let again := match cursor.rest with
        | '-' :: r => atBlank r
        | _ => false
      if tabbed && again then none
      else
        let l := openBlock column .blockSequence l.tokens.size { l with cursor }
        let l :=
          if cursor.rest.head? == some '\n' || atFlowMark cursor.rest then
            l.openSoftLevel
          else l
        l.withdrawKey?.map fun l =>
          emit .blockEntry { l with keyAllowed := true }

/-- A question mark before a key that may be anything. -/
def question? (l : Lexer) : Option Lexer :=
  if !l.inFlow && !l.keyAllowed then none
  else
    let l := if l.inFlow then l.startPair l.tokens.size
      else l.openBlock l.cursor.column .blockMapping l.tokens.size
    let behind := l.cursor.next
    match behind.rest, l.withdrawKey? with
    | c :: _, some l =>
      if c == '\t' then none
      else
        let cursor := behind.skipWhile (· == ' ')
        if cursor.rest.head? == some '\t' then none
        else some (emit .key { l with cursor, keyAllowed := !l.inFlow })
    | _, _ => none

/-- Go past the blanks behind a colon if they start with a tab. A word may
follow only if there is a space among them. -/
def skipTabs? (cur : Cursor) : Option Cursor :=
  if cur.rest.head? != some '\t' then some cur
  else
    let spaced := (cur.rest.takeWhile isSpace).contains ' '
    match cur.skipBlanks? with
    | none => none
    | some past =>
      let word := past.rest.head?.any fun c =>
        c.isAlphanum || c == '_' || c == '-'
      if word && !spaced then none else some past

/-- A colon before a value. If a key may have started before it, that is one
now; otherwise the key is empty, or was marked as one before. -/
def colon? (l : Lexer) : Option Lexer :=
  match skipTabs? l.cursor.next with
  | none => none
  | some cursor =>
    match l.candidate with
    | some k =>
      if l.startsPair && decide (k.line < l.cursor.line) then none
      else
        let l := (l.insert k.index .key).startPair k.index
        let l := (l.openBlock k.column .blockMapping k.index).openSoftLevel
        some (emit .value
          { l with cursor, candidate := none, keyAllowed := false })
    | none =>
      if !l.inFlow && !l.keyAllowed then none
      else
        let l := l.startPair l.tokens.size
        let l :=
          (l.openBlock l.cursor.column .blockMapping
            l.tokens.size).openSoftLevel
        some (emit .value { l with cursor, keyAllowed := !l.inFlow })

/-- A colon inside brackets without a blank behind it. An opening bracket
may follow only if the key was quoted or itself in brackets. -/
def tightColon? (behind : List Char) (l : Lexer) : Option Lexer :=
  let opens := behind.head? == some '[' || behind.head? == some '\x7b'
  if opens && l.adjacent != some l.cursor.offset then none else l.colon?

/-- A quoted scalar. -/
def quoted? (q : Quotes) (l : Lexer) : Option Lexer :=
  let l := { l.offerKey with keyAllowed := false }
  match readQuoted? q l.inFlow l.indent l.cursor with
  | none => none
  | some (text, cursor) =>
    (toContent? { l with cursor }).map fun l =>
      emit (.scalar false text) { l with adjacent := some l.cursor.offset }

/-- A plain scalar. -/
def plain? (l : Lexer) : Option Lexer :=
  let l := dropSoftLevels { l.offerKey with keyAllowed := false }
  (readPlain? l.inFlow (l.indent + 1) l.cursor).map fun (text, cursor) =>
    emit (.scalar true text) { l with cursor, keyAllowed := cursor.fresh }

/-- The start or the end of a document. Nothing may follow an end on its
line. -/
def documentMark? (t : Token) (l : Lexer) : Option Lexer :=
  match (l.closeBlocks (-1)).withdrawKey? with
  | none => none
  | some l =>
    let behind := l.cursor.skip 3
    if t == .documentStart then
      some (emit t { l with cursor := behind, keyAllowed := false })
    else
      match behind.skipTabbed? with
      | none => none
      | some cursor => some (emit t { l with cursor, keyAllowed := false })

/-- The end of the text. -/
def finish? (l : Lexer) : Option Lexer :=
  if l.candidate.any (·.required) ||
      l.brackets.any (fun b => b.outer.any (·.required)) then none
  else some (emit .finish { l.closeBlocks (-1) with finished := true })

/-- Read the token that starts with a character, by what follows that.
Anchors, tags, block scalars and directives are refused. -/
def token? (c : Char) (behind : List Char) (l : Lexer) : Option Lexer :=
  if c = '[' then l.openBracket? true
  else if c = '\x7b' then l.openBracket? false
  else if c = ']' then l.closeBracket? true
  else if c = '\x7d' then l.closeBracket? false
  else if c = ',' then l.comma?
  else if c = '-' ∧ atBlank behind then l.dash?
  else if c = '?' ∧ atBlank behind then l.question?
  else if c = ':' ∧ atBlank behind then l.colon?
  else if c = ':' ∧ l.inFlow ∧
      (atFlowMark behind ∨ l.adjacent = some l.cursor.offset) then
    l.tightColon? behind
  else if c = '\'' then l.quoted? .single
  else if c = '"' then l.quoted? .double
  else if c = '*' ∨ c = '&' ∨ c = '!' ∨ c = '%' ∨ c = '@' ∨ c = '\x60' then none
  else if (c = '|' ∨ c = '>') ∧ !l.inFlow then none
  else l.plain?

/-- Read the next token, and the ends of collections before it. Inside
brackets it may not stand left of the indentation, unless it is a comma or
closes a bracket. -/
def step? (l : Lexer) : Option Lexer :=
  match l.toContent?.bind dropStaleKey? with
  | none => none
  | some l =>
    let l := l.closeBlocks l.cursor.column
    match l.cursor.rest with
    | [] => l.finish?
    | c :: behind =>
      if l.cursor.column = 0 ∧ c = '%' then none
      else if l.cursor.column = 0 ∧ atMark '-' l.cursor.rest then
        l.documentMark? .documentStart
      else if l.cursor.column = 0 ∧ atMark '.' l.cursor.rest then
        l.documentMark? .documentEnd
      else if (l.cursor.column : Int) < l.indent ∧
          ¬ (c = ']' ∨ c = '\x7d' ∨ c = ',') then none
      else l.token? c behind

/-- The tokens of which it is clear whether they start a key. -/
def settled (l : Lexer) : List Token :=
  let undecided := (l.candidate.filter fun k => !l.isStale k) ::
    l.brackets.map (·.outer)
  let bound := (undecided.filterMap fun k => k.map (·.index)).foldl min
    l.tokens.size
  l.tokens.toList.take bound

/-- Cut the whole text into tokens. Every step takes a character or is the
last one. -/
def run : Nat → Lexer → List Token
  | 0, l => l.settled ++ [.broken]
  | fuel + 1, l =>
    if l.finished then l.tokens.toList
    else
      match l.step? with
      | some l => run fuel l
      | none => l.settled ++ [.broken]

end Lexer

/-- The tokens of a text. -/
def Token.all (text : String) : List Token :=
  let cs := charsOf text
  Lexer.run (cs.length + 2) { cursor := { rest := cs } }

end TreeLint.Yaml
