import EditableLisp.Json.Library
import EditableLisp.Number.Numeral
import EditableLisp.Number.Shortest

/-!
# Numbers in JSON

A whole number of 64 bits is read as an integer. Any other JSON number is read with a 64-bit significand: digits
beyond it are dropped, and the significand is then multiplied or divided by one power of ten in double arithmetic, so
the last digit may differ from the nearest double. A number beyond the doubles is refused; one below them is zero.

A double is written in the fewest digits that read back: positionally from `10 ^ -5` up to `10 ^ 16`, else with an
exponent.
-/

namespace EditableLisp.Json

/-! ## Reading -/

/-- The largest significand. -/
def significandMax : Nat := Number.twoTo 64 - 1

/-- The largest exponent. -/
def exponentMax : Int := Number.twoTo 31 - 1

/-- The smallest exponent. -/
def exponentMin : Int := -Number.twoTo 31

/-- Adds digits to a significand as long as they fit, and counts those that are left. -/
def gather (significand : Nat) : List Char → Nat × Nat
  | [] => (significand, 0)
  | c :: cs =>
    let next := significand * 10 + (c.toNat - 48)
    if significandMax < next then (significand, cs.length + 1) else gather next cs

/-- A power of ten as a double. -/
def powerOfTen (n : Nat) : Float := Float.ofScientific 1 false n

/-- `x * 10 ^ exponent`, one power of ten at a time; `none` beyond the doubles. -/
def scale (x : Float) (exponent : Int) : Nat → Option Float
  | 0 => some x
  | fuel + 1 =>
    if exponent.natAbs ≤ 308 then
      if 0 ≤ exponent then
        let y := x * powerOfTen exponent.natAbs
        if y.isInf then none else some y
      else some (x / powerOfTen exponent.natAbs)
    else if x == 0 then some x
    else if 0 ≤ exponent then none
    else scale (x / powerOfTen 308) (exponent + 308) fuel

/-- An exponent part: its sign and digits, if there is one; `none` when malformed. -/
def exponentPart? : List Char → Option (Option (Bool × Nat))
  | [] => some none
  | c :: cs =>
    if c == 'e' || c == 'E' then
      let (negative, digits) := Number.takeSign cs
      if digits.isEmpty || !digits.all Char.isDigit then none
      else some (some (negative, Number.natOfDigits digits))
    else none

/-- The digits of a fraction, if there is one, and what follows; `none` when malformed. -/
def fractionPart? : List Char → Option (List Char × List Char)
  | '.' :: cs =>
    let digits := cs.takeWhile Char.isDigit
    if digits.isEmpty then none else some (digits, cs.dropWhile Char.isDigit)
  | cs => some ([], cs)

/-- The double of a significand and exponents. -/
def assemble (significand : Nat) (exponent : Int) : Option (Bool × Nat) → Option Float
  | none => scale significand.toUInt64.toFloat exponent 10
  | some (negative, n) =>
    if exponentMax < n then
      if significand = 0 || negative then some 0 else none
    else
      let total := if negative then exponent - n else exponent + n
      scale significand.toUInt64.toFloat (max exponentMin (min exponentMax total)) 10

/-- Reads a number without a sign. -/
def unsigned? (cs : List Char) : Option Float := do
  let whole := cs.takeWhile Char.isDigit
  if whole.isEmpty || (whole.length > 1 && whole.head? == some '0') then none
  let (fraction, rest) ← fractionPart? (cs.dropWhile Char.isDigit)
  let exponent ← exponentPart? rest
  let (significand, dropped) := gather 0 whole
  let (significand, left) := gather significand fraction
  assemble significand (dropped - (fraction.length - left : Nat)) exponent

/-- Reads a number. -/
def number? : List Char → Option Number
  | '-' :: cs => (unsigned? cs).map fun x => -Number.ofFloat x
  | cs => (unsigned? cs).map Number.ofFloat

/-- A whole number without a sign. -/
def natural? (cs : List Char) : Option Nat :=
  if cs.isEmpty || !cs.all Char.isDigit || (cs.length > 1 && cs.head? == some '0') then none
  else some (Number.natOfDigits cs)

/-- Reads a number as an integer of 64 bits; a negative zero is none. -/
def integer? : List Char → Option Int
  | '-' :: cs => do
    let n ← natural? cs
    if n = 0 || Number.twoTo 63 < n then none else some (-n)
  | cs => do
    let n ← natural? cs
    if significandMax < n then none else some n

/-! ## Writing -/

/-- The exponents of the first digit of numbers that are written positionally. -/
def isPositional (d : Number.Decimal) : Bool := -5 ≤ d.leading && d.leading < 16

/-- The text of the absolute value of a number. -/
def magnitudeText (quanta : Nat) : String :=
  let d := Number.shortest quanta
  if isPositional d then d.positional ++ (if 0 ≤ d.exponent then ".0" else "") else d.scientific

/-- Writes a double; one that is infinite or not a number has no digits and becomes `null`. -/
def floatText (x : Number) : String :=
  match x.exact with
  | .nan => "null"
  | .infinite _ => "null"
  | .finite negative quanta => (if negative then "-" else "") ++ magnitudeText quanta

end EditableLisp.Json
