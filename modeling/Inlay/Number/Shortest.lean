import Inlay.Number.Decimal

/-!
# The shortest decimal of a number

A double is written with the fewest digits that read back to it, and with those
of that length that lie nearest to its value.  The search goes through the grids
of one digit, two digits and so on, and tries on each grid the two neighbours of
the value; all comparisons are between naturals.
-/

namespace Inlay
namespace Decimal

/-- The power of ten of the leading digit of the positive quotient `num / den`. -/
def leadingPlace (num den : Nat) : Int :=
  if den ≤ num then (digitCount (num / den) : Int) - 1
  else -(digitCount ((den + num - 1) / num - 1) : Int)

/-- The value of a number with the reals that round to it, as numerators over
one denominator: lower end, value, upper end, denominator, and whether the ends
belong. -/
structure Interval where
  low : Nat
  value : Nat
  high : Nat
  den : Nat
  closed : Bool

/-- The interval of `significand · 2 ^ exponent`.  Below the first significand of
a binade the neighbours are half as far. -/
def interval (significand : Nat) (exponent : Int) : Interval :=
  let atEdge := significand = Number.significandLimit / 2 ∧ Number.leastExponent < exponent
  let low := 4 * significand - (if atEdge then 1 else 2)
  let up := Nat.pow 2 (exponent - 2).toNat
  { low := low * up, value := 4 * significand * up, high := (4 * significand + 2) * up,
    den := Nat.pow 2 (2 - exponent).toNat, closed := significand % 2 == 0 }

/-- `d · 10 ^ place` reads back to the number of the interval. -/
def Interval.holds (i : Interval) (d : Nat) (place : Int) : Bool :=
  let scaledDigits := d * Nat.pow 10 place.toNat * i.den
  let one := Nat.pow 10 (-place).toNat
  if i.closed then i.low * one ≤ scaledDigits && scaledDigits ≤ i.high * one
  else i.low * one < scaledDigits && scaledDigits < i.high * one

/-- The neighbour of the value on the grid of `10 ^ place` that reads back; of
two, the nearer one, and the upper one on a tie. -/
def Interval.onGrid? (i : Interval) (place : Int) : Option Nat :=
  let num := i.value * Nat.pow 10 (-place).toNat
  let den := i.den * Nat.pow 10 place.toNat
  let below := num / den
  let rest := num % den
  let lower := i.holds below place
  let upper := rest != 0 && i.holds (below + 1) place
  if lower && (!upper || 2 * rest < den) then some below
  else if upper then some (below + 1) else none

/-- Search the grids of `count` digits and more, `fuel` of them. -/
def Interval.search (i : Interval) (top : Int) : Nat → Nat → Decimal
  | count, 0 =>
    let place := top - (count : Int)
    { digits := i.value * Nat.pow 10 (-place).toNat / (i.den * Nat.pow 10 place.toNat)
      exponent := place }
  | count, fuel + 1 =>
    let place := top - (count : Int)
    match i.onGrid? place with
    | some d => { digits := d, exponent := place }
    | none => i.search top (count + 1) fuel

/-- The shortest decimal that reads back to the positive number
`significand · 2 ^ exponent`.  The search starts one place above the leading
digit, because the value may lie just below a power of ten that reads back to
it.  Seventeen digits always suffice. -/
def shortest (significand : Nat) (exponent : Int) : Decimal :=
  let i := interval significand exponent
  i.search (leadingPlace i.value i.den + 1) 0 18

/-- A decimal written out in full, without a power of ten. -/
def positional (d : Decimal) : String :=
  let ds := Nat.toDigits 10 d.digits
  if 0 ≤ d.exponent then String.ofList (ds ++ List.replicate d.exponent.toNat '0')
  else
    let places := (-d.exponent).toNat
    let padded := List.replicate (places + 1 - ds.length) '0' ++ ds
    String.ofList (padded.take (padded.length - places) ++ '.' ::
      padded.drop (padded.length - places))

end Decimal

namespace Number

/-- Whole numbers of fewer than sixteen digits are written as integers. -/
def wholeLimit : Nat := Nat.pow 10 15

/-- The minus in front of a negative value. -/
def signText (negative : Bool) : String := if negative then "-" else ""

/-- How a number literal is written: a whole number below `wholeLimit` as an
integer, where both zeros are `0`; any other with its shortest digits, written
out in full. -/
def text (x : Number) : String :=
  match x with
  | .nan => "NaN"
  | .infinite negative => signText negative ++ "inf"
  | .finite negative s e =>
    match x.whole? with
    | some n =>
      if n = 0 then "0"
      else if n < wholeLimit then signText negative ++ toString n
      else signText negative ++ (Decimal.shortest s e).positional
    | none => signText negative ++ (Decimal.shortest s e).positional

end Number
end Inlay
