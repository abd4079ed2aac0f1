import Inlay.Number.Binary64

/-!
# Reading decimal text

The written form of a number is an optional sign and then digits with at most
one point and an optional power of ten, or one of the words `inf`, `infinity`
and `nan` in any case.  At least one digit stands before or behind the point.
The text denotes the nearest double.
-/

namespace Inlay

/-- An unsigned decimal: `digits · 10 ^ exponent`. -/
structure Decimal where
  digits : Nat
  exponent : Int
  deriving DecidableEq, Inhabited

namespace Decimal

def digitValue (c : Char) : Nat := c.toNat - '0'.toNat

/-- The number that a run of digits writes. -/
def ofDigits (cs : List Char) : Nat := cs.foldl (fun n c => n * 10 + digitValue c) 0

/-- The number of digits that writing `n` takes. -/
def digitCount (n : Nat) : Nat := (Nat.toDigits 10 n).length

/-- The double nearest to the decimal.  Decimals far outside the range of
doubles are decided by the place of their leading digit. -/
def toNumber (negative : Bool) (d : Decimal) : Number :=
  let top := (digitCount d.digits : Int) + d.exponent
  if d.digits = 0 ∨ top < -400 then Number.zero negative
  else if 400 < top then .infinite negative
  else if 0 ≤ d.exponent then Number.ofRatio negative (d.digits * Nat.pow 10 d.exponent.toNat) 1
  else Number.ofRatio negative d.digits (Nat.pow 10 (-d.exponent).toNat)

/-- A sign at the front: whether it is a minus, and the rest. -/
def takeSign : List Char → Bool × List Char
  | '-' :: cs => (true, cs)
  | '+' :: cs => (false, cs)
  | cs => (false, cs)

/-- The power of ten behind the digits: none, or `e` with a signed number of at
least one digit, up to the end of the text. -/
def readExponent? : List Char → Option Int
  | [] => some 0
  | c :: cs =>
    if c == 'e' || c == 'E' then
      let (negative, ds) := takeSign cs
      if ds.isEmpty || !ds.all Char.isDigit then none
      else some (if negative then -(ofDigits ds : Int) else ofDigits ds)
    else none

/-- An unsigned decimal, up to the end of the text. -/
def read? (cs : List Char) : Option Decimal :=
  let whole := cs.takeWhile Char.isDigit
  let rest := cs.dropWhile Char.isDigit
  let (fraction, rest) :=
    match rest with
    | '.' :: r => (r.takeWhile Char.isDigit, r.dropWhile Char.isDigit)
    | r => ([], r)
  if whole.isEmpty && fraction.isEmpty then none
  else (readExponent? rest).map fun e =>
    { digits := ofDigits (whole ++ fraction), exponent := e - (fraction.length : Int) }

end Decimal

/-- ASCII letters in lower case, for the words that are numbers. -/
def Number.lowerWord (cs : List Char) : String := String.ofList (cs.map Char.toLower)

/-- The number that a text writes, if it writes one. -/
def Number.read? (text : String) : Option Number :=
  let (negative, body) := Decimal.takeSign text.toList
  let word := Number.lowerWord body
  if word == "nan" then some .nan
  else if word == "inf" || word == "infinity" then some (.infinite negative)
  else (Decimal.read? body).map (Decimal.toNumber negative)

end Inlay
