/-!
# Binary floating point

A binary64 number is a significand of at most 53 bits times a power of two, an infinity, or no number.
A decimal is rounded to the nearest such number, a tie to the one with the even significand.
-/

namespace Gherkin

inductive Binary64 where
  /-- The number `± significand · 2 ^ exponent`. -/
  | finite (negative : Bool) (significand : Nat) (exponent : Int)
  | infinite (negative : Bool)
  | nan
deriving DecidableEq, Repr

namespace Binary64

/-- A power of two, or `1` for a negative exponent. -/
def two (exponent : Int) : Nat := Nat.pow 2 exponent.toNat

def ten (exponent : Int) : Nat := Nat.pow 10 exponent.toNat

def minExponent : Int := -1074

def maxExponent : Int := 971

def zero (negative : Bool) : Binary64 := .finite negative 0 minExponent

/-- `n / d` to the nearest natural number, a tie to the even one. -/
def roundDiv (n d : Nat) : Nat :=
  let q := n / d
  let twice := 2 * (n % d)
  if twice < d then q
  else if d < twice then q + 1
  else if q % 2 = 0 then q else q + 1

def log2Div (n d : Nat) : Int :=
  let guess : Int := n.log2 - d.log2
  if d * two guess ≤ n * two (-guess) then guess else guess - 1

def ofRatio (negative : Bool) (n d : Nat) : Binary64 :=
  if n = 0 then zero negative
  else
    let exponent := max (log2Div n d - 52) minExponent
    let rounded := roundDiv (n * two (-exponent)) (d * two exponent)
    let (significand, exponent) :=
      if rounded = two 53 then (two 52, exponent + 1) else (rounded, exponent)
    if maxExponent < exponent then .infinite negative
    else if significand = 0 then zero negative
    else .finite negative significand exponent

/-- A decimal whose digits stand wholly above this place is infinite. -/
def maxPlace : Int := 400

/-- A decimal whose digits stand wholly below this place is zero. -/
def minPlace : Int := -400

def ofDecimal (negative : Bool) (digits : Nat) (exponent : Int) : Binary64 :=
  let place : Int := exponent + (Nat.toDigits 10 digits).length
  if digits = 0 || place < minPlace then zero negative
  else if maxPlace < place then .infinite negative
  else ofRatio negative (digits * ten exponent) (ten (-exponent))

end Binary64

end Gherkin
