/-!
# Positions in a text

Offsets count bytes of UTF-8. A `Range` is a half-open interval of offsets;
a `Position` is what a reader sees, with lines and columns counted from one
and columns counted in characters. A `LineTable` holds a text together with
the offsets at which its lines start and answers which line and column an
offset falls on.

Offsets, lines and columns of violations (specification, §3).
-/

namespace TreeLint.Text

/-- An interval of byte offsets, the start included and the end left out. -/
structure Range where
  start : Nat
  stop : Nat
deriving DecidableEq, Repr

namespace Range

/-- The empty interval at an offset. -/
def point (offset : Nat) : Range := ⟨offset, offset⟩

/-- The number of bytes covered; an interval that ends before it starts has
none. -/
def length? (r : Range) : Option Nat :=
  if r.start ≤ r.stop then some (r.stop - r.start) else none

def isEmpty (r : Range) : Bool := r.start == r.stop

/-- Whether an offset lies inside. An empty interval still contains its own
start. -/
def contains (r : Range) (offset : Nat) : Bool :=
  if r.isEmpty then offset == r.start
  else decide (r.start ≤ offset) && decide (offset < r.stop)

def render (r : Range) : String := s!"{r.start}..{r.stop}"

end Range

/-- A line and a column, both counted from one. -/
structure Position where
  line : Nat
  column : Nat
deriving DecidableEq, Repr

namespace Position

/-- Positions compare by line first and by column within a line. -/
def le (a b : Position) : Bool :=
  decide (a.line < b.line) || (a.line == b.line && decide (a.column ≤ b.column))

def render (p : Position) : String := s!"{p.line}:{p.column}"

end Position

/-- The number of bytes a list of characters takes up. -/
def byteLength : List Char → Nat
  | [] => 0
  | c :: cs => c.utf8Size + byteLength cs

/-- The offsets just after each line break, for characters that begin at
`offset`. -/
def breaksFrom (offset : Nat) : List Char → List Nat
  | [] => []
  | c :: cs =>
    let next := offset + c.utf8Size
    if c = '\n' then next :: breaksFrom next cs else breaksFrom next cs

/-- Drop the characters that begin before `target`, the first of them
beginning at `offset`. -/
def dropToOffset (target offset : Nat) : List Char → List Char
  | [] => []
  | c :: cs =>
    if offset < target then dropToOffset target (offset + c.utf8Size) cs
    else c :: cs

/-- How many characters begin before `target`, the first of them beginning
at `offset`. -/
def countBefore (target offset : Nat) : List Char → Nat
  | [] => 0
  | c :: cs =>
    if offset < target then 1 + countBefore target (offset + c.utf8Size) cs
    else 0

/-- A text and the offsets at which its lines start, the first line included. -/
structure LineTable where
  chars : List Char
  starts : List Nat

namespace LineTable

def ofText (text : String) : LineTable :=
  ⟨text.toList, 0 :: breaksFrom 0 text.toList⟩

/-- The number of lines. An empty text has one. -/
def lineCount (table : LineTable) : Nat := table.starts.length

/-- The line and column of an offset. An offset past the end is read as the
end. The line is the last one that starts at or before the offset, and the
column counts the characters of that line that begin before it. -/
def position (table : LineTable) (offset : Nat) : Position :=
  let target := min offset (byteLength table.chars)
  let passed := table.starts.takeWhile (fun s => decide (s ≤ target))
  let lineStart := passed.getLastD 0
  let rest := dropToOffset lineStart 0 table.chars
  ⟨passed.length, countBefore target lineStart rest + 1⟩

end LineTable

end TreeLint.Text
