import EditableLisp.Number.Basic

/-!
# Numbers in print

A printed number has at most four decimals (`format_number`). `fourPlaces` is the nearest multiple of `10 ^ -4` to the
exact value, a half going to the even neighbour, and `format` writes it without superfluous zeros,
without a bare point and without a sign on zero.
-/

namespace EditableLisp.Number

/-- The nearest whole number of ten-thousandths. -/
def fourPlaces (quanta : Nat) : Nat := roundHalfEven (quanta * tenTo 4) quantaPerUnit

/-- `n` in decimal with leading zeros up to `width` digits. -/
def padded (width n : Nat) : List Char :=
  let digits := (toString n).toList
  List.replicate (width - digits.length) '0' ++ digits

/-- A list of characters without the zeros at its end. -/
def trimZeros (cs : List Char) : List Char := (cs.reverse.dropWhile (· == '0')).reverse

/-- The decimal numeral of `m` ten-thousandths. -/
def fixedText (negative : Bool) (m : Nat) : String :=
  let sign := if negative && m != 0 then "-" else ""
  let fraction := trimZeros (padded 4 (m % tenTo 4))
  let tail := if fraction.isEmpty then "" else String.ofList ('.' :: fraction)
  sign ++ toString (m / tenTo 4) ++ tail

/-- The text of a number in print. -/
def format (x : Number) : String :=
  match x.exact with
  | .nan => "NaN"
  | .infinite negative => if negative then "-Infinity" else "Infinity"
  | .finite negative quanta => fixedText negative (fourPlaces quanta)

example : format 3.25 = "3.25" ∧ format (-0.0) = "0" ∧ format 100 = "100" := by decide +kernel
example : format (0.1 + 0.2) = "0.3" ∧ format (-0.00001) = "0" := by decide +kernel

end EditableLisp.Number
