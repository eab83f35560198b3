import EditableLisp.Number.Basic

/-!
# The shortest decimal that reads back

`shortest` gives the decimal with the fewest digits that rounds to a given finite double; of several
with that many digits it gives the nearest to the exact value, and the one with an even last digit at
equal distance. The search looks at the two neighbours of the exact value on the decimal grids of 1, 2,
… 17 digits: if any point of a grid rounds to the double, so does one of these two.
-/

namespace EditableLisp.Number

/-- The number `digits * 10 ^ exponent`. -/
structure Decimal where
  digits : Nat
  exponent : Int
deriving DecidableEq, Repr

/-- The reals that round to a double, in quarters of a quantum; the ends belong to it when the
significand is even. -/
structure Rounding where
  low : Nat
  exact : Nat
  high : Nat
  closed : Bool

/-- The reals that round to the double with these quanta. -/
def Rounding.ofQuanta (quanta : Nat) : Rounding :=
  let spacing := twoTo (Exact.lowestBit quanta)
  let narrow := 1 < spacing && quanta == twoTo 52 * spacing
  { low := 4 * quanta - (if narrow then spacing else 2 * spacing)
    exact := 4 * quanta
    high := 4 * quanta + 2 * spacing
    closed := quanta / spacing % 2 == 0 }

/-- `c * 10 ^ k` and `quarters` brought to one scale. -/
def onOneScale (c : Nat) (k : Int) (quarters : Nat) : Nat × Nat :=
  (c * (4 * quantaPerUnit) * tenTo k.toNat, quarters * tenTo (-k).toNat)

/-- `c * 10 ^ k` rounds to the double. -/
def Rounding.holds (r : Rounding) (c : Nat) (k : Int) : Bool :=
  let (below, low) := onOneScale c k r.low
  let (above, high) := onOneScale c k r.high
  if r.closed then low ≤ below && above ≤ high else low < below && above < high

/-- The distance of `c * 10 ^ k` from the exact value, in a unit that depends on `k` only. -/
def Rounding.distance (r : Rounding) (c : Nat) (k : Int) : Nat :=
  let (a, b) := onOneScale c k r.exact
  (a - b) + (b - a)

/-- The number of decimal digits of `n`, at least one. -/
def digitCount (n : Nat) : Nat := (Nat.toDigits 10 n).length

/-- The least `j` from `start` on with `10 ^ j` times the quanta at least one. -/
def leadingZeros (quanta : Nat) (start : Nat) : Nat → Nat
  | 0 => start
  | fuel + 1 =>
    if quantaPerUnit ≤ quanta then start else leadingZeros (quanta * 10) (start + 1) fuel

/-- The exponent of the first digit of a positive number. -/
def leadingExponent (quanta : Nat) : Int :=
  let whole := quanta / quantaPerUnit
  if whole = 0 then -(leadingZeros quanta 0 400 : Int) else (digitCount whole : Int) - 1

/-- The better of the two neighbours `c` and `c + 1` on the grid `10 ^ k`, if one rounds to the
double. -/
def Rounding.onGrid (r : Rounding) (c : Nat) (k : Int) : Option Decimal :=
  match r.holds c k && c != 0, r.holds (c + 1) k with
  | false, false => none
  | true, false => some ⟨c, k⟩
  | false, true => some ⟨c + 1, k⟩
  | true, true =>
    let below := r.distance c k
    let above := r.distance (c + 1) k
    if below < above || (below == above && c % 2 == 0) then some ⟨c, k⟩ else some ⟨c + 1, k⟩

/-- The whole part of the exact value on the grid `10 ^ k`. -/
def Rounding.floorOn (r : Rounding) (k : Int) : Nat :=
  let (unit, scaled) := onOneScale 1 k r.exact
  scaled / unit

/-- Tries the grids from `k` downwards. -/
def Rounding.search (r : Rounding) (k : Int) : Nat → Decimal
  | 0 => ⟨r.floorOn k, k⟩
  | fuel + 1 =>
    match r.onGrid (r.floorOn k) k with
    | some d => d
    | none => r.search (k - 1) fuel

/-- A decimal without the zeros at the end of its digits. -/
def Decimal.trim (d : Decimal) : Nat → Decimal
  | 0 => d
  | fuel + 1 =>
    if d.digits % 10 = 0 && d.digits != 0 then
      Decimal.trim ⟨d.digits / 10, d.exponent + 1⟩ fuel
    else d

/-- The shortest decimal that rounds to the double with these quanta; zero for none. -/
def shortest (quanta : Nat) : Decimal :=
  if quanta = 0 then ⟨0, 0⟩
  else
    let r := Rounding.ofQuanta quanta
    (r.search (leadingExponent quanta) 17).trim 20

/-- A decimal without an exponent: digits, and a point with digits after it only for a fraction. -/
def Decimal.positional (d : Decimal) : String :=
  let digits := (toString d.digits).toList
  if 0 ≤ d.exponent then String.ofList (digits ++ List.replicate d.exponent.toNat '0')
  else
    let places := (-d.exponent).toNat
    let all := List.replicate (places + 1 - digits.length) '0' ++ digits
    String.ofList (all.take (all.length - places) ++ '.' :: all.drop (all.length - places))

/-- The exponent of a decimal's first digit. -/
def Decimal.leading (d : Decimal) : Int := d.exponent + (digitCount d.digits : Int) - 1

/-- A decimal with one digit before the point and a signed exponent. -/
def Decimal.scientific (d : Decimal) : String :=
  let digits := (toString d.digits).toList
  let fraction := digits.drop 1
  let point := if fraction.isEmpty then "" else String.ofList ('.' :: fraction)
  let sign := if d.leading < 0 then "e-" else "e+"
  String.ofList (digits.take 1) ++ point ++ sign ++ toString d.leading.natAbs

/-- A number in full, without exponent, in the fewest digits that read back. -/
def inFull (x : Number) : String :=
  match x.exact with
  | .nan => "NaN"
  | .infinite negative => if negative then "-inf" else "inf"
  | .finite negative quanta => (if negative then "-" else "") ++ (shortest quanta).positional

example : shortest 1 = ⟨5, -324⟩ := by decide +kernel
example : inFull 0.1 = "0.1" ∧ inFull (-0.0) = "-0" ∧ inFull 1e21 = "1000000000000000000000" := by
  decide +kernel

end EditableLisp.Number
