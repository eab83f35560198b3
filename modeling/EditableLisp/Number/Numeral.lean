import EditableLisp.Number.Basic

/-!
# Numerals in source text

A numeral (what `looks_numeric` lets through and is read as a number) is an optional sign, decimal digits with at most one point among or around them, and an
optional exponent; at least one digit stands before the exponent. It denotes the nearest double, which
is infinite for large numerals and zero for small ones.
-/

namespace EditableLisp.Number

/-- The decimal number `(-1) ^ negative * digits * 10 ^ exponent`. -/
structure Numeral where
  negative : Bool
  digits : Nat
  exponent : Int
deriving DecidableEq, Repr

/-- The number that a list of decimal digits denotes. -/
def natOfDigits (cs : List Char) : Nat := cs.foldl (fun n c => n * 10 + (c.toNat - 48)) 0

/-- Takes a sign off the front; `true` for a minus. -/
def takeSign : List Char → Bool × List Char
  | '-' :: cs => (true, cs)
  | '+' :: cs => (false, cs)
  | cs => (false, cs)

/-- The exponent part of a numeral: nothing, or `e` with a sign and at least one digit. -/
def exponentOf? : List Char → Option Int
  | [] => some 0
  | c :: cs =>
    if c == 'e' || c == 'E' then
      let (negative, rest) := takeSign cs
      let digits := rest.takeWhile Char.isDigit
      if digits.isEmpty || !(rest.dropWhile Char.isDigit).isEmpty then none
      else some (if negative then -(natOfDigits digits : Int) else natOfDigits digits)
    else none

/-- The digits after the point, if there is one, and what follows. -/
def takeFraction : List Char → List Char × List Char
  | '.' :: cs => (cs.takeWhile Char.isDigit, cs.dropWhile Char.isDigit)
  | cs => ([], cs)

/-- Reads a numeral. -/
def Numeral.ofChars? (cs : List Char) : Option Numeral :=
  let (negative, unsigned) := takeSign cs
  let whole := unsigned.takeWhile Char.isDigit
  let (fraction, rest) := takeFraction (unsigned.dropWhile Char.isDigit)
  let digits := whole ++ fraction
  if digits.isEmpty then none
  else do
    let exponent ← exponentOf? rest
    pure ⟨negative, natOfDigits digits, exponent - fraction.length⟩

/-- The double nearest to `digits * 10 ^ exponent`. Beyond 400 digits before the point it is infinite,
and beyond 400 zeros after the point it is zero, whatever the digits are. -/
def nearest (digits : Nat) (exponent : Int) : Float :=
  if digits = 0 then 0
  else
    let size := exponent + (Nat.toDigits 10 digits).length
    if 400 < size then 1 / 0
    else if size < -400 then 0
    else if 0 ≤ exponent then Float.ofScientific digits false exponent.toNat
    else Float.ofScientific digits true (-exponent).toNat

/-- The double that a numeral denotes. -/
def Numeral.toNumber (n : Numeral) : Number :=
  let x := ofFloat (nearest n.digits n.exponent)
  if n.negative then -x else x

/-- Reads the text of a number. -/
def ofString? (text : String) : Option Number := (Numeral.ofChars? text.toList).map Numeral.toNumber

/-- A text starts like a numeral: a digit, or a point or sign that leads to a digit. -/
def looksNumeric : List Char → Bool
  | '-' :: '.' :: c :: _ => c.isDigit
  | '+' :: '.' :: c :: _ => c.isDigit
  | '-' :: c :: _ => c.isDigit
  | '+' :: c :: _ => c.isDigit
  | '.' :: c :: _ => c.isDigit
  | c :: _ => c.isDigit
  | [] => false

end EditableLisp.Number
