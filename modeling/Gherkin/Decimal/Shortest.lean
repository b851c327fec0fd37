import Gherkin.Decimal.Binary64

/-!
# The shortest decimals

A binary64 number is written with the fewest digits that are read back as the same number, and of
those digits the nearest to it.  They are written by place, never with an exponent, and a whole number
without a point.
-/

namespace Gherkin

namespace Decimal

open Binary64

/-- A positive number and the ends of the interval of reals that are rounded to it, all three in the
unit `1 / scale`. -/
structure Interval where
  number : Nat
  low : Nat
  high : Nat
  scale : Nat
  /-- Whether the ends themselves are rounded to the number. -/
  closed : Bool

/-- The interval of `significand · 2 ^ exponent`.  Below a power of two the numbers are twice as
close. -/
def Interval.of (significand : Nat) (exponent : Int) : Interval :=
  let unit := two exponent
  let below := if significand = two 52 && minExponent < exponent then 1 else 2
  { number := 4 * significand * unit
    low := (4 * significand - below) * unit
    high := (4 * significand + 2) * unit
    scale := 4 * two (-exponent)
    closed := significand % 2 = 0 }

def Interval.holds (i : Interval) (n : Nat) (place : Int) : Bool :=
  let x := n * ten place * i.scale
  let widen := ten (-place)
  if i.closed then i.low * widen ≤ x && x ≤ i.high * widen
  else i.low * widen < x && x < i.high * widen

/-- The number of digits before the point, or less the number of zeros just after it. -/
def Interval.magnitude (i : Interval) : Int :=
  if i.scale ≤ i.number then (Nat.toDigits 10 (i.number / i.scale)).length
  else
    let zeros := (Nat.toDigits 10 (i.scale / i.number)).length
    if i.number * ten (zeros - 1) = i.scale then 2 - zeros else 1 - zeros

/-- Of the two neighbours of the number among the multiples of `10 ^ place` the one in the interval;
of two the nearer, and of two equally near the greater. -/
def Interval.nearest? (i : Interval) (place : Int) : Option Nat :=
  let n := i.number * ten (-place)
  let d := i.scale * ten place
  let below := n / d
  match i.holds below place, i.holds (below + 1) place with
  | true, true => some (if 2 * (n % d) < d then below else below + 1)
  | true, false => some below
  | false, true => some (below + 1)
  | false, false => none

/-- The fewest digits in the interval, `more` counting how many may be tried beyond `count`, and the
place of the last of them. -/
def Interval.shortest (i : Interval) (magnitude : Int) (count : Nat) : Nat → Nat × Int
  | 0 => (i.number / i.scale, 0)
  | more + 1 =>
    let place := magnitude - count
    match i.nearest? place with
    | some n => (n, place)
    | none => i.shortest magnitude (count + 1) more

def positional (digits : Nat) (place : Int) : List Char :=
  let written := Nat.toDigits 10 digits
  if 0 ≤ place then written ++ List.replicate place.toNat '0'
  else
    let decimals := (-place).toNat
    let padded := List.replicate (decimals + 1 - written.length) '0' ++ written
    let whole := padded.take (padded.length - decimals)
    let fraction := (padded.drop (padded.length - decimals)).reverse.dropWhile (· = '0')
    if fraction.isEmpty then whole else whole ++ '.' :: fraction.reverse

def maxDigits : Nat := 17

end Decimal

def Binary64.render : Binary64 → String
  | .nan => "NaN"
  | .infinite negative => if negative then "-inf" else "inf"
  | .finite negative significand exponent =>
    let digits :=
      if significand = 0 then ['0']
      else
        let i := Decimal.Interval.of significand exponent
        let (digits, place) := i.shortest i.magnitude 1 Decimal.maxDigits
        Decimal.positional digits place
    String.ofList (if negative then '-' :: digits else digits)

end Gherkin
