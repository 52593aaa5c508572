namespace ConfidentialTx.Text

/-- A positive number `num / den` and the ends of the interval of those that round to it, over the
same denominator. The ends belong to it when `closed`. -/
structure Rounding where
  num : Nat
  low : Nat
  high : Nat
  den : Nat
  closed : Bool

namespace Rounding

/-- For `mantissa * 2 ^ exponent`; below the least mantissa of a binade the numbers are denser. -/
def ofBinary (mantissa : Nat) (exponent : Int) (isLeast : Bool) : Rounding :=
  let up := (exponent - 2).toNat
  { num := (4 * mantissa) <<< up
    low := (4 * mantissa - if isLeast then 1 else 2) <<< up
    high := (4 * mantissa + 2) <<< up
    den := 1 <<< (2 - exponent).toNat
    closed := mantissa % 2 = 0 }

def leastMantissa : Nat := 1 <<< 52

def ofBits (bits : Nat) : Rounding :=
  let fraction := bits % leastMantissa
  let binade := bits / leastMantissa
  if binade = 0 then ofBinary fraction (-1074) false
  else ofBinary (leastMantissa + fraction) (Int.ofNat binade - 1075) (fraction = 0 ∧ 1 < binade)

def admits (r : Rounding) (c : Nat) (unit : Int) : Bool :=
  let v := c * r.den * Nat.pow 10 unit.toNat
  let scale := Nat.pow 10 (-unit).toNat
  if r.closed then r.low * scale ≤ v && v ≤ r.high * scale
  else r.low * scale < v && v < r.high * scale

/-- The multiple of `10 ^ unit` that rounds to the number: of the two around it, the nearer. -/
def onGrid? (r : Rounding) (unit : Int) : Option Nat :=
  let num := r.num * Nat.pow 10 (-unit).toNat
  let den := r.den * Nat.pow 10 unit.toNat
  let c := num / den
  let upper := den < 2 * (num % den) || (den = 2 * (num % den) && c % 2 = 1)
  match r.admits c unit && c ≠ 0, r.admits (c + 1) unit with
  | true, true => some (if upper then c + 1 else c)
  | true, false => some c
  | false, true => some (c + 1)
  | false, false => none

def shortestFrom (r : Rounding) : Nat → Int → Nat × Int
  | 0, unit => ((r.onGrid? unit).getD 0, unit)
  | count + 1, unit =>
    match r.onGrid? unit with
    | some c => (c, unit)
    | none => shortestFrom r count (unit - 1)

def shortest (r : Rounding) : Nat × Int :=
  shortestFrom r 700 310

end Rounding

/-- The numeral written out, with a point and at least one digit on both sides of it. -/
def positional (digits : List Char) (unit : Int) : List Char :=
  let whole := digits ++ List.replicate unit.toNat '0'
  let places := (-unit).toNat
  let padded := List.replicate (places + 1 - whole.length) '0' ++ whole
  let split := padded.length - places
  let decimals := if places = 0 then ['0'] else padded.drop split
  padded.take split ++ '.' :: decimals

/-- The numeral with one digit in front of the point, which is left out after a single digit. -/
def scientific (digits : List Char) (exponent : Int) : List Char :=
  let decimals := if digits.length = 1 then [] else '.' :: digits.drop 1
  let sign := if exponent < 0 then '-' else '+'
  digits.take 1 ++ decimals ++ 'e' :: sign :: Nat.toDigits 10 exponent.natAbs

def showDecimal (c : Nat) (unit : Int) : List Char :=
  let digits := Nat.toDigits 10 c
  let exponent := unit + digits.length - 1
  if -5 ≤ exponent ∧ exponent < 16 then positional digits unit else scientific digits exponent

def signBit : Nat := 1 <<< 63

def showFloat (x : Float) : String :=
  if x.isNaN then "NaN"
  else
    let bits := x.toBits.toNat
    let magnitude := bits % signBit
    let text :=
      if x.isInf then ['i', 'n', 'f']
      else if magnitude = 0 then ['0', '.', '0']
      else
        let (c, unit) := (Rounding.ofBits magnitude).shortest
        showDecimal c unit
    String.ofList (if signBit ≤ bits then '-' :: text else text)

end ConfidentialTx.Text
