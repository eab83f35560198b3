/-!
# The exact value of a double

Every finite double is a whole number of the smallest positive double, `2 ^ -1074`. `Exact.ofBits`
reads that number (its *quanta*) off the bits, and `Exact.bitsOfQuanta` writes it back, so that rounding,
remainders and truncation become arithmetic on natural numbers.
-/

namespace EditableLisp.Number

/-! ## Powers -/

/-- Two to the power `n`. -/
def twoTo (n : Nat) : Nat := Nat.pow 2 n

/-- Ten to the power `n`. -/
def tenTo (n : Nat) : Nat := Nat.pow 10 n

/-! ## Exact values -/

/-- What a double stands for. A finite one is `quanta * 2 ^ -1074`, negated when `negative`. -/
inductive Exact where
  | nan
  | infinite (negative : Bool)
  | finite (negative : Bool) (quanta : Nat)
deriving DecidableEq, Repr

/-- One is `2 ^ 1074` quanta. -/
def quantaPerUnit : Nat := twoTo 1074

/-- The doubles end below `2 ^ 1024`; what would round to that is infinite. -/
def quantaEnd : Nat := twoTo (1024 + 1074)

/-- Half the distance of the two largest doubles. Less than that does not take the largest one to
infinity. -/
def quantaOverflow : Nat := twoTo (970 + 1074)

namespace Exact

/-- The quanta of a finite double with exponent field `exponent` and fraction field `fraction`. -/
def quantaOfFields (exponent fraction : Nat) : Nat :=
  if exponent = 0 then fraction else (twoTo 52 + fraction) * twoTo (exponent - 1)

/-- Reads the sign, exponent and fraction fields of the bits. -/
def ofBits (bits : Nat) : Exact :=
  let negative := bits / twoTo 63 % 2 == 1
  let exponent := bits / twoTo 52 % twoTo 11
  let fraction := bits % twoTo 52
  if exponent = 2047 then
    if fraction = 0 then .infinite negative else .nan
  else .finite negative (quantaOfFields exponent fraction)

/-- The position of the lowest bit that a double of this size can hold. -/
def lowestBit (quanta : Nat) : Nat := quanta.log2 - 52

/-- The bits of a finite double, for quanta that a double can hold. -/
def bitsOfQuanta (negative : Bool) (quanta : Nat) : Nat :=
  let e := lowestBit quanta
  (if negative then twoTo 63 else 0) + (e * twoTo 52 + quanta / twoTo e)

end Exact

/-! ## Rounding -/

/-- `numerator / denominator` rounded to the nearest whole number, a half going to the even
neighbour. -/
def roundHalfEven (numerator denominator : Nat) : Nat :=
  let q := numerator / denominator
  let twice := 2 * (numerator % denominator)
  if twice < denominator then q
  else if denominator < twice then q + 1
  else q + q % 2

end EditableLisp.Number
