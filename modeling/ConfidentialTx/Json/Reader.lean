import ConfidentialTx.Json

namespace ConfidentialTx.Json

def skipBlank (cs : List Char) : List Char :=
  cs.dropWhile fun c ↦ c = ' ' || c = '\n' || c = '\t' || c = '\r'

def hexDigit? (c : Char) : Option Nat :=
  if c.isDigit then some (c.toNat - 48)
  else if 'a' ≤ c ∧ c ≤ 'f' then some (c.toNat - 87)
  else if 'A' ≤ c ∧ c ≤ 'F' then some (c.toNat - 55)
  else none

def hexUnit? (a b c d : Char) : Option Nat := do
  return 4096 * (← hexDigit? a) + 256 * (← hexDigit? b) + 16 * (← hexDigit? c) + (← hexDigit? d)

def shortEscape? : Char → Option Char
  | '"' => some '"'
  | '\\' => some '\\'
  | '/' => some '/'
  | 'b' => some '\x08'
  | 'f' => some '\x0c'
  | 'n' => some '\n'
  | 'r' => some '\r'
  | 't' => some '\t'
  | _ => none

/-- Reads up to the closing quote. The code units so far are listed with the latest first. -/
def readUnits (units : List Nat) : List Char → Option (List Nat × List Char)
  | [] => none
  | '"' :: rest => some (units.reverse, rest)
  | '\\' :: 'u' :: a :: b :: c :: d :: rest =>
    match hexUnit? a b c d with
    | some unit => readUnits (unit :: units) rest
    | none => none
  | '\\' :: e :: rest =>
    match shortEscape? e with
    | some c => readUnits (c.toNat :: units) rest
    | none => none
  | c :: rest => if c.toNat < 0x20 then none else readUnits (c.toNat :: units) rest

def isHalf (unit : Nat) : Bool :=
  0xd800 ≤ unit ∧ unit < 0xe000

/-- Joins the two halves of characters beyond the basic plane. A half on its own is refused. -/
def joinUnits (done : List Char) : List Nat → Option (List Char)
  | [] => some done.reverse
  | [unit] => if isHalf unit then none else some (Char.ofNat unit :: done).reverse
  | high :: low :: rest =>
    if 0xd800 ≤ high ∧ high < 0xdc00 ∧ 0xdc00 ≤ low ∧ low < 0xe000 then
      joinUnits (Char.ofNat (0x10000 + (high - 0xd800) * 0x400 + (low - 0xdc00)) :: done) rest
    else if isHalf high then none
    else joinUnits (Char.ofNat high :: done) (low :: rest)

def readText (cs : List Char) : Option (String × List Char) := do
  let (units, rest) ← readUnits [] cs
  return (String.ofList (← joinUnits [] units), rest)

def decimal (ds : List Char) : Nat :=
  ds.foldl (fun n d ↦ 10 * n + (d.toNat - 48)) 0

/-- Appends digits to a number as long as it fits into 64 bits; the others are left. -/
def leadingDigits : Nat → List Char → Nat × List Char
  | n, [] => (n, [])
  | n, d :: ds =>
    let next := 10 * n + (d.toNat - 48)
    if next < UInt64.size then leadingDigits next ds else (n, d :: ds)

def powerOfTen (n : Nat) : Float :=
  Float.ofScientific 1 false (min n 308)

/-- The number with these digits in front of the point and after it, times `10 ^ exponent`. The
leading digits and the power are rounded before one is multiplied or divided by the other. Numbers
that are too large are refused. -/
def makeFloat (isNegative : Bool) (whole fraction : List Char) (exponent : Int) : Option Float :=
  let (leading, leftWhole) := leadingDigits 0 whole
  let (leading, leftFraction) := leadingDigits leading fraction
  let exponent := exponent + leftWhole.length + leftFraction.length - fraction.length
  let n := exponent.natAbs
  let x := leading.toUInt64.toFloat
  let x := if 0 ≤ exponent then x * powerOfTen n else x / powerOfTen n / powerOfTen (n - 308)
  if 308 < exponent ∧ leading ≠ 0 ∨ x.isInf then none else some (if isNegative then -x else x)

def ofInteger (isNegative : Bool) (digits : List Char) : Option Json :=
  let n := decimal digits
  if isNegative then
    if n ≠ 0 ∧ n ≤ UInt64.size / 2 then some (.negative (-n))
    else (makeFloat true digits [] 0).map .float
  else if n < UInt64.size then some (.natural n)
  else (makeFloat false digits [] 0).map .float

def takeDigits (cs : List Char) : Option (List Char × List Char) :=
  let (ds, rest) := cs.span Char.isDigit
  if ds = [] then none else some (ds, rest)

def takeWhole : List Char → Option (List Char × List Char)
  | '0' :: rest => if rest.head?.any Char.isDigit then none else some (['0'], rest)
  | rest => takeDigits rest

def takeFraction : List Char → Option (List Char × List Char)
  | '.' :: rest => takeDigits rest
  | rest => some ([], rest)

def takeExponent : List Char → Option (Option Int × List Char)
  | c :: rest =>
    if c = 'e' ∨ c = 'E' then
      match rest with
      | '-' :: rest => (takeDigits rest).map fun (ds, rest) ↦ (some (-decimal ds), rest)
      | '+' :: rest => (takeDigits rest).map fun (ds, rest) ↦ (some (decimal ds), rest)
      | rest => (takeDigits rest).map fun (ds, rest) ↦ (some (decimal ds), rest)
    else some (none, c :: rest)
  | [] => some (none, [])

def readNumber (cs : List Char) : Option (Json × List Char) := do
  let isNegative := cs.head? = some '-'
  let (whole, rest) ← takeWhole (if isNegative then cs.drop 1 else cs)
  let (fraction, rest) ← takeFraction rest
  let (exponent, rest) ← takeExponent rest
  if fraction = [] ∧ exponent = none then
    return (← ofInteger isNegative whole, rest)
  else
    return (.float (← makeFloat isNegative whole fraction (exponent.getD 0)), rest)

def expect (word : List Char) (value : Json) (cs : List Char) : Option (Json × List Char) :=
  if cs.take word.length = word then some (value, cs.drop word.length) else none

mutual

/-- Reads a value; the nesting and the number of items of a list or object are at most `limit`. -/
def readValue : Nat → List Char → Option (Json × List Char)
  | 0, _ => none
  | limit + 1, cs =>
    match skipBlank cs with
    | '"' :: rest => (readText rest).map fun (s, rest) ↦ (.text s, rest)
    | '[' :: rest =>
      match skipBlank rest with
      | ']' :: rest => some (.list [], rest)
      | rest => (readItems limit [] rest).map fun (items, rest) ↦ (.list items, rest)
    | '\x7b' :: rest =>
      match skipBlank rest with
      | '\x7d' :: rest => some (.object [], rest)
      | rest => (readFields limit [] rest).map fun (fields, rest) ↦ (.object fields, rest)
    | 't' :: rest => expect ['r', 'u', 'e'] (.bool true) rest
    | 'f' :: rest => expect ['a', 'l', 's', 'e'] (.bool false) rest
    | 'n' :: rest => expect ['u', 'l', 'l'] .null rest
    | rest => readNumber rest

def readItems : Nat → List Json → List Char → Option (List Json × List Char)
  | 0, _, _ => none
  | limit + 1, done, cs =>
    match readValue limit cs with
    | none => none
    | some (item, rest) =>
      match skipBlank rest with
      | ',' :: rest => readItems limit (item :: done) rest
      | ']' :: rest => some ((item :: done).reverse, rest)
      | _ => none

/-- Reads the fields after those in `done`. Of two fields of one name the later counts, so that it
stands in front. -/
def readFields : Nat → List (String × Json) → List Char → Option (List (String × Json) × List Char)
  | 0, _, _ => none
  | limit + 1, done, cs =>
    match skipBlank cs with
    | '"' :: rest =>
      match readText rest with
      | none => none
      | some (name, rest) =>
        match skipBlank rest with
        | ':' :: rest =>
          match readValue limit rest with
          | none => none
          | some (value, rest) =>
            match skipBlank rest with
            | ',' :: rest => readFields limit ((name, value) :: done) rest
            | '\x7d' :: rest => some ((name, value) :: done, rest)
            | _ => none
        | _ => none
    | _ => none

end

/-- Reads a text that holds one value and nothing else. How deep it is nested is not limited. -/
def ofText (s : String) : Option Json :=
  let cs := s.toList
  match readValue (cs.length + 1) cs with
  | some (value, rest) => if skipBlank rest = [] then some value else none
  | none => none

end ConfidentialTx.Json
