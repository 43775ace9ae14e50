/-!
# Numbers of the data format

Integers between -2^63 and 2^64 - 1 are kept exactly. Every other number is
brought to a binary floating point value of double precision and kept as the
shortest decimal that rounds to that value, so a number has one form here
however many digits it was written with. All arithmetic is exact, in natural
numbers, and a double is what an exact result is rounded to.

There are two ways to a double. `Decimal.rounded?` takes the one nearest to
a decimal. `Literal.toNumber?` takes the leading digits that fit a word,
rounds them, and multiplies or divides them by a rounded power of ten, so
that it may miss the nearest double by a little.

Numbers occur in the options of rules and in free-form properties
(specification, §12).
-/

namespace TreeLint.Json

/-- A decimal: `digits` times ten to the power `exponent`, with a sign that
zero has too. -/
structure Decimal where
  negative : Bool
  digits : Nat
  exponent : Int
deriving DecidableEq, Repr

/-- A positive binary floating point value: `mantissa` times two to the
power `exponent`. -/
structure Binary where
  mantissa : Nat
  exponent : Int
deriving DecidableEq, Repr

/-- Divide and round to the nearest natural number, a half to the even
neighbour. -/
def roundDiv (num den : Nat) : Nat :=
  let q := num / den
  let twice := 2 * (num % den)
  if twice < den then q
  else if den < twice then q + 1
  else if q % 2 = 0 then q else q + 1

/-- Ten, or two, to an integer power as a fraction. -/
def powFraction (base : Nat) (e : Int) : Nat × Nat :=
  (Nat.pow base e.toNat, Nat.pow base (-e).toNat)

namespace Binary

/-- The smallest exponent of a double. -/
def minExponent : Int := -1074

/-- The largest exponent of a double. -/
def maxExponent : Int := 971

/-- The exponent with which a fraction has a mantissa of 53 bits, or the
smallest there is. -/
def exponentFor (num den : Nat) : Int :=
  let guess : Int := (num.log2 : Int) - (den.log2 : Int) - 52
  let (p, n) := powFraction 2 guess
  let e := if num * n < Nat.pow 2 52 * (den * p) then guess - 1 else guess
  max e minExponent

/-- The double nearest to a positive fraction; none if it is too large.
Rounds to a mantissa of zero if it is too small. -/
def nearest? (num den : Nat) : Option Binary :=
  let e := exponentFor num den
  let (p, n) := powFraction 2 e
  let m := roundDiv (num * n) (den * p)
  let b : Binary := if m = Nat.pow 2 53 then ⟨Nat.pow 2 52, e + 1⟩ else ⟨m, e⟩
  if maxExponent < b.exponent then none else some b

/-- The double nearest to a product; none if it is too large. -/
def mul? (a b : Binary) : Option Binary :=
  let (p, n) := powFraction 2 (a.exponent + b.exponent)
  nearest? (a.mantissa * b.mantissa * p) n

/-- The double nearest to a quotient; none if it is too large. -/
def div? (a b : Binary) : Option Binary :=
  let (p, n) := powFraction 2 (a.exponent - b.exponent)
  nearest? (a.mantissa * p) (b.mantissa * n)

/-- The double nearest to a power of ten. -/
def tenTo? (n : Nat) : Option Binary := nearest? (Nat.pow 10 n) 1

/-- The largest power of ten among the doubles. -/
def maxPower : Nat := 308

/-- Multiply by a power of ten, or divide by one, in as few rounded steps as
the powers of ten among the doubles allow. None if the result, or the power
to multiply with, is too large. -/
def scale? (b : Binary) (e : Int) : Option Binary :=
  if b.mantissa = 0 then some b
  else if (maxPower : Int) < e then none
  else if 0 ≤ e then (tenTo? e.toNat).bind b.mul?
  else if -(maxPower : Int) ≤ e then (tenTo? (-e).toNat).bind b.div?
  else ((tenTo? maxPower).bind b.div?).bind fun b => b.scale? (e + maxPower)
termination_by (-e).toNat
decreasing_by simp only [maxPower] at *; omega

/-- The number of decimal digits of a natural number. -/
def digitCount (n : Nat) : Nat := (Nat.toDigits 10 n).length

/-- The position of the first digit of a fraction below one: the least
number of places by which the point has to move right for the fraction to
reach one. -/
def leadingPlaces (num den : Nat) : Nat → Nat
  | 0 => 0
  | fuel + 1 => if den ≤ num then 0 else 1 + leadingPlaces (num * 10) den fuel

/-- The power of ten of the first digit of a positive fraction. -/
def decimalExponent (num den : Nat) : Int :=
  if den ≤ num then (digitCount (num / den) : Int) - 1
  else -(leadingPlaces num den 400 : Int)

/-- The numbers with `places` digits around a value, and whether each lies
among the reals that round to the value: the nearer one that does, if any.
The value, and the ends of the interval of those reals, are numerators over
the common denominator `den`; the ends count if `closed`. -/
def candidate? (low value high den : Nat) (closed : Bool)
    (unit : Int) : Option Nat :=
  let (p, n) := powFraction 10 unit
  let floor := (value * n) / (den * p)
  let inside (c : Nat) : Bool :=
    let x := c * p * den
    (decide (low * n < x) && decide (x < high * n)) ||
      (closed && (x == low * n || x == high * n))
  let below := inside floor
  let above := inside (floor + 1)
  if below && above then
    let down := value * n - floor * p * den
    let up := (floor + 1) * p * den - value * n
    if down < up then some floor
    else if up < down then some (floor + 1)
    else some (if floor % 2 = 0 then floor else floor + 1)
  else if below then some floor
  else if above then some (floor + 1)
  else none

/-- The first grid of decimals, from coarse to fine, that has a number
rounding to the value. -/
def shortestFrom (low value high den : Nat) (closed : Bool) (top : Int) :
    Nat → Nat → Nat × Int
  | _, 0 => (0, 0)
  | places, fuel + 1 =>
    let unit := top - (places : Int)
    match candidate? low value high den closed unit with
    | some c => (c, unit)
    | none => shortestFrom low value high den closed top (places + 1) fuel

/-- The shortest decimal that rounds to a double, as digits and a power of
ten. -/
def shortest (b : Binary) : Nat × Int :=
  let (p, n) := powFraction 2 b.exponent
  let step :=
    if b.mantissa = Nat.pow 2 52 ∧ minExponent < b.exponent then 1 else 2
  let value := 4 * b.mantissa * p
  let den := 4 * n
  shortestFrom ((4 * b.mantissa - step) * p) value ((4 * b.mantissa + 2) * p)
    den (b.mantissa % 2 == 0) (decimalExponent value den) 0 18

end Binary

/-- Drop the zeros at the end of the digits of a decimal. -/
def stripZeros : Nat → Nat → Int → Nat × Int
  | 0, digits, exponent => (digits, exponent)
  | fuel + 1, digits, exponent =>
    if digits ≠ 0 ∧ digits % 10 = 0 then
      stripZeros fuel (digits / 10) (exponent + 1)
    else (digits, exponent)

namespace Decimal

/-- The shortest decimal that rounds to a double with a sign. -/
def ofBinary (negative : Bool) (b : Binary) : Decimal :=
  if b.mantissa = 0 then ⟨negative, 0, 0⟩
  else
    let (digits, exponent) := b.shortest
    let (digits, exponent) := stripZeros 400 digits exponent
    ⟨negative, digits, exponent⟩

/-- The shortest decimal that rounds to the same double; none if the number
is too large for one. -/
def rounded? (d : Decimal) : Option Decimal :=
  let zero : Decimal := ⟨d.negative, 0, 0⟩
  let size := (Binary.digitCount d.digits : Int) + d.exponent
  if d.digits = 0 ∨ size < -400 then some zero
  else if 400 < size then none
  else
    let (p, n) := powFraction 10 d.exponent
    (Binary.nearest? (d.digits * p) n).map (ofBinary d.negative)

/-- The exponent of a number in scientific notation, always with its sign. -/
def renderExponent (e : Int) : List Char :=
  (if e < 0 then '-' else '+') :: Nat.toDigits 10 e.natAbs

/-- A decimal with its point: positional between 10^-5 and 10^16, scientific
elsewhere. -/
def render (d : Decimal) : String :=
  let ds := Nat.toDigits 10 d.digits
  let point := (ds.length : Int) + d.exponent
  let body : List Char :=
    if d.digits = 0 then ['0', '.', '0']
    else if 0 ≤ d.exponent ∧ point ≤ 16 then
      ds ++ List.replicate d.exponent.toNat '0' ++ ['.', '0']
    else if 0 < point ∧ point ≤ 16 then
      ds.take point.toNat ++ ['.'] ++ ds.drop point.toNat
    else if -5 < point ∧ point ≤ 0 then
      ['0', '.'] ++ List.replicate (-point).toNat '0' ++ ds
    else if ds.length = 1 then ds ++ ['e'] ++ renderExponent (point - 1)
    else ds.take 1 ++ ['.'] ++ ds.drop 1 ++ ['e'] ++ renderExponent (point - 1)
  String.ofList ((if d.negative then ['-'] else []) ++ body)

end Decimal

/-- A number as the library keeps it. -/
inductive Number where
  | int (value : Int)
  | float (value : Decimal)
deriving DecidableEq, Repr

namespace Number

/-- Integers end below this bound. -/
def intBound : Nat := Nat.pow 2 64

/-- Negative integers end at this bound. -/
def negBound : Nat := Nat.pow 2 63

def render : Number → String
  | .int i =>
    (if i < 0 then "-" else "") ++ String.ofList (Nat.toDigits 10 i.natAbs)
  | .float d => d.render

end Number

/-- A number as it was written: the digits of it that count, as one natural
number, times a power of ten. -/
structure Literal where
  negative : Bool
  /-- Whether the number has a fraction or an exponent. -/
  scientific : Bool := false
  digits : Nat
  exponent : Int := 0
deriving DecidableEq, Repr

namespace Literal

/-- The number that decimal digits spell. -/
def decimalNumber (cs : List Char) : Nat :=
  cs.foldl (fun n c => 10 * n + (c.toNat - '0'.toNat)) 0

/-- Append decimal digits to a number as long as it stays below the bound of
integers: the number, and the digits that are left. -/
def appendDigits : Nat → List Char → Nat × List Char
  | n, [] => (n, [])
  | n, c :: cs =>
    let m := 10 * n + (c.toNat - '0'.toNat)
    if m < Number.intBound then appendDigits m cs else (n, c :: cs)

/-- The literal of a number's digits before the point, behind it and its
exponent. Digits before the point that do not fit count as zeros, those
behind it not at all. -/
def ofDigits (negative scientific : Bool) (whole fraction : List Char)
    (e : Int) : Literal :=
  let (digits, excess) := appendDigits 0 whole
  let (digits, dropped) := appendDigits digits fraction
  { negative, scientific, digits
    exponent := e + excess.length - (fraction.length - dropped.length : Nat) }

/-- The number a literal stands for; none if it is too large to be one.
Integers that fit are kept exactly, but a negative zero is no integer. -/
def toNumber? (l : Literal) : Option Number :=
  let integral := !l.scientific && decide (l.exponent = 0)
  if integral && !l.negative then some (.int l.digits)
  else if integral && decide (0 < l.digits) &&
      decide (l.digits ≤ Number.negBound) then
    some (.int (-(l.digits : Int)))
  else
    ((Binary.nearest? l.digits 1).bind (·.scale? l.exponent)).map fun b =>
      .float (.ofBinary l.negative b)

end Literal

end TreeLint.Json
