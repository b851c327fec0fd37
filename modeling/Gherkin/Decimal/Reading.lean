import Gherkin.Decimal.Binary64

/-!
# Reading numbers

Whole numbers and decimals as they are written with ASCII digits.  Other digits, and anything left
over, make the text no number.
-/

namespace Gherkin.Decimal

def value (digits : List Char) : Nat :=
  digits.foldl (fun n c => 10 * n + (c.toNat - '0'.toNat)) 0

def nat? (cs : List Char) : Option Nat :=
  if cs.isEmpty || !cs.all Char.isDigit then none else some (value cs)

def sign : List Char → Bool × List Char
  | '-' :: cs => (true, cs)
  | '+' :: cs => (false, cs)
  | cs => (false, cs)

def int? (cs : List Char) : Option Int :=
  let (negative, cs) := sign cs
  (nat? cs).map fun n => if negative then -(n : Int) else n

/-- The digits of a decimal without its sign: their value and the exponent of the last of them. -/
def unsigned? (cs : List Char) : Option (Nat × Int) :=
  let whole := cs.takeWhile Char.isDigit
  let rest := cs.dropWhile Char.isDigit
  let (fraction, rest) := match rest with
    | '.' :: rest => (rest.takeWhile Char.isDigit, rest.dropWhile Char.isDigit)
    | rest => ([], rest)
  let shift : Int := -fraction.length
  if whole.isEmpty && fraction.isEmpty then none
  else match rest with
    | [] => some (value (whole ++ fraction), shift)
    | e :: rest =>
      if e = 'e' || e = 'E' then (int? rest).map fun n => (value (whole ++ fraction), n + shift)
      else none

def binary64? (cs : List Char) : Option Binary64 :=
  let (negative, cs) := sign cs
  match String.ofList (cs.map Char.toLower) with
  | "inf" | "infinity" => some (.infinite negative)
  | "nan" => some .nan
  | _ => (unsigned? cs).map fun (digits, exponent) => .ofDecimal negative digits exponent

end Gherkin.Decimal
