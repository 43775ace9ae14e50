/-!
# White space

The characters that count as white space when the indentation of a line is
measured and when a text is tested for being empty. The class is larger than
the four characters of `Char.isWhitespace`.

Indentation is measured for the standard rules (specification, §13).
-/

namespace TreeLint.Text

/-- White space: the control characters from tab to carriage return, the
next-line character, and every space or line separator of the character
standard. -/
def isBlank (c : Char) : Bool :=
  let n := c.toNat
  (decide (0x09 ≤ n) && decide (n ≤ 0x0d)) || n == 0x20 || n == 0x85 || n ==
    0xa0 || n == 0x1680 ||
    (decide (0x2000 ≤ n) && decide (n ≤ 0x200a)) || n == 0x2028 || n ==
      0x2029 || n == 0x202f ||
    n == 0x205f || n == 0x3000

/-- A text of white space only, the empty text included. -/
def allBlank (s : String) : Bool :=
  s.toList.all isBlank

end TreeLint.Text
