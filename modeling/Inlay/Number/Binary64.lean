/-!
# Binary64 numbers

A number literal is a double-precision value, held exactly: a sign, a
significand and a power of two, or one of the values that are not finite.  No
operation of the machine is involved, so equality and rounding can be reasoned
about in exact arithmetic.
-/

namespace Inlay

/-- A double-precision number.

A finite value is `± significand · 2 ^ exponent`.  `Number.ofRatio` writes it with
the significand of 53 bits that the format prescribes, or with the least
exponent, so that two finite values other than the zeros are the same number
exactly when they are the same term. -/
inductive Number where
  | nan
  | infinite (negative : Bool)
  | finite (negative : Bool) (significand : Nat) (exponent : Int)
  deriving DecidableEq, Inhabited

namespace Number

/-- The power of two that scales the smallest significands. -/
def leastExponent : Int := -1074

/-- The power of two that scales the largest significands. -/
def greatestExponent : Int := 971

/-- The first significand of 54 bits. -/
def significandLimit : Nat := Nat.pow 2 53

def zero (negative : Bool) : Number := .finite negative 0 leastExponent

/-- Equality as numbers compare: not-a-number differs from itself, and the two
zeros are equal. -/
def same : Number → Number → Bool
  | .finite n s e, .finite n' s' e' =>
    (s == 0 && s' == 0) || (n == n' && s == s' && e == e')
  | .infinite n, .infinite n' => n == n'
  | _, _ => false

/-- The quotient rounded to the nearest integer, to the even one on a tie. -/
def roundQuotient (num den : Nat) : Nat :=
  let q := num / den
  let r := num % den
  if den < 2 * r || (2 * r == den && q % 2 == 1) then q + 1 else q

/-- `num / den` scaled by `2 ^ (-shift)`, as a quotient of naturals. -/
def scaled (num den : Nat) (shift : Int) : Nat × Nat :=
  if 0 ≤ shift then (num, den * Nat.pow 2 shift.toNat) else (num * Nat.pow 2 (-shift).toNat, den)

/-- The power of two at or below the positive quotient `num / den`. -/
def binaryExponent (num den : Nat) : Int :=
  let guess : Int := (num.log2 : Int) - (den.log2 : Int)
  let (n, d) := scaled num den guess
  if d ≤ n then guess else guess - 1

/-- The double nearest to `num / den`, the one with an even significand on a
tie.  A quotient past the greatest double rounds to infinity. -/
def ofRatio (negative : Bool) (num den : Nat) : Number :=
  if num = 0 ∨ den = 0 then zero negative
  else
    let exponent := max (binaryExponent num den - 52) leastExponent
    let (n, d) := scaled num den exponent
    let rounded := roundQuotient n d
    let (significand, exponent) :=
      if rounded = significandLimit then (significandLimit / 2, exponent + 1)
      else (rounded, exponent)
    if greatestExponent < exponent then .infinite negative
    else .finite negative significand exponent

/-- The value of a finite number that is a whole number, without its sign. -/
def whole? : Number → Option Nat
  | .finite _ s e =>
    if 0 ≤ e then some (s * Nat.pow 2 e.toNat)
    else if s % Nat.pow 2 (-e).toNat = 0 then some (s / Nat.pow 2 (-e).toNat) else none
  | _ => none

def isNegative : Number → Bool
  | .finite n _ _ => n
  | .infinite n => n
  | .nan => false

theorem same_self_iff (x : Number) : x.same x = true ↔ x ≠ .nan := by
  cases x <;> simp [same]

theorem same_comm (x y : Number) : x.same y = y.same x := by
  rw [Bool.eq_iff_iff]
  cases x <;> cases y <;> simp [same]
  · exact eq_comm
  · constructor <;> rintro (⟨h, h'⟩ | ⟨⟨h, h'⟩, h''⟩)
    · exact .inl ⟨h', h⟩
    · exact .inr ⟨⟨h.symm, h'.symm⟩, h''.symm⟩
    · exact .inl ⟨h', h⟩
    · exact .inr ⟨⟨h.symm, h'.symm⟩, h''.symm⟩

end Number
end Inlay
