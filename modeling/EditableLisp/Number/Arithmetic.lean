import EditableLisp.Number.Basic

/-!
# Arithmetic on numbers

Truncation to a whole number, the exact remainder, powers, the angle of a point, the choice of the smaller
and the larger number, the total order of numbers, and arithmetic sequences: the numbers behind `modulo`, `pow`,
`atan2`, `extreme`, `sort` and `range_of`.
-/

namespace EditableLisp.Number

/-- The largest and the smallest index that a number can stand for. -/
def indexMax : Int := twoTo 63 - 1

/-- See `indexMax`. -/
def indexMin : Int := -twoTo 63

/-- The whole part of a number as an index; beyond the range of indices the nearest one, and zero for
a number that is not one. -/
def toIndex (x : Number) : Int :=
  match x.exact with
  | .nan => 0
  | .infinite negative => if negative then indexMin else indexMax
  | .finite negative quanta =>
    let whole : Int := (quanta / quantaPerUnit : Nat)
    if negative then max indexMin (-whole) else min indexMax whole

/-- The largest count that a number can stand for. -/
def countMax : Nat := twoTo 64 - 1

/-- The whole part of a number as a count; negative numbers count as zero. -/
def toCount (x : Number) : Nat :=
  match x.exact with
  | .nan => 0
  | .infinite negative => if negative then 0 else countMax
  | .finite negative quanta => if negative then 0 else min countMax (quanta / quantaPerUnit)

/-- The remainder of the division of `x` by `y` with the quotient cut to a whole number; it is exact
and has the sign of `x`. -/
def remainder (x y : Number) : Number :=
  match x.exact, y.exact with
  | .nan, _ => x
  | _, .nan => y
  | .finite negative a, .finite _ b => if b = 0 then nan else ofQuanta negative (a % b)
  | .finite .., .infinite _ => x
  | .infinite _, _ => nan

/-- The remainder with the sign of `y`. -/
def modulo (x y : Number) : Number := remainder (remainder x y + y) y

/-- A number is odd. -/
def isOdd (x : Number) : Bool :=
  match x.exact with
  | .finite _ quanta => quanta % quantaPerUnit == 0 && quanta / quantaPerUnit % 2 == 1
  | _ => false

/-- A power. Anything to the power zero is one and so is one to any power, NaN included; an odd power
of NaN has no sign. -/
def power (x y : Number) : Number :=
  if x.equal 1 || y.equal 0 then 1
  else if x.isNaN && y.isOdd then x.abs
  else combine Float.pow x y

/-- The angle of the point `(x, y)` as seen from the origin. The coordinate `x` comes first where both are
NaN, though it is the second argument. -/
def angle (y x : Number) : Number := combine (fun x y => Float.atan2 y x) x y

/-- The smaller of two numbers, the second of equal ones; NaN is passed over for the other one. -/
def smaller (x y : Number) : Number := if y.isNaN || x.lt y then x else y

/-- The larger of two numbers, the second of equal ones; NaN is passed over for the other one. -/
def larger (x y : Number) : Number := if y.isNaN || y.lt x then x else y

/-- A key for the total order of numbers: negative NaN, the negative numbers, `-0`, `0`, the positive
numbers, positive NaN. -/
def orderKey (x : Number) : Int :=
  let bits := x.bits.toNat
  if bits < twoTo 63 then bits else indexMax - bits

/-- The quanta between two finite numbers, given by sign and size. -/
def distance (negative : Bool) (a : Nat) (negative' : Bool) (b : Nat) : Nat :=
  if negative == negative' then (a - b) + (b - a) else a + b

/-- An upper bound of the steps that terms take over a distance: each addition moves a term by at least
half a step. -/
def stepBound (distance step : Nat) : Nat := 2 * (distance / max step 1) + 3

/-- An upper bound of the steps from `start` to `stop`, which is zero if there is no end. Terms on the way
to infinity come to a halt at a finite number unless the step takes the largest one to infinity. -/
def termBound (start stop step : Number) : Nat :=
  match start.exact, stop.exact, step.exact with
  | .finite n a, .finite n' b, .finite _ s => stepBound (distance n a n' b) s
  | .finite n a, .infinite n', .finite _ s =>
    if s < quantaOverflow then 0 else stepBound (distance n a n' quantaEnd) s
  | _, _, _ => 3

/-- The terms from `x` on, `next` apart, as long as `more` holds; `none` when a term does not move
on. -/
def terms (next : Number → Number) (more : Number → Bool) (x : Number) (done : Array Number) :
    Nat → Option (Array Number)
  | 0 => none
  | fuel + 1 => if more x then terms next more (next x) (done.push x) fuel else some done

/-- The numbers from `start` up or down to `stop`, which is left out. The sign of `step` does not
matter and a step of zero counts as one. `none` for a sequence without end. -/
def range? (start stop step : Number) : Option (Array Number) :=
  let step := if step.equal 0 then 1 else step.abs
  let bound := termBound start stop step
  if start.le stop then terms (· + step) (fun x => x.lt stop) start #[] bound
  else terms (· - step) (fun x => stop.lt x) start #[] bound

example : power nan 0 = 1 ∧ power nan 3 = -nan ∧ modulo (-1) 3 = 2 ∧ larger 0 (-0) = -0 := by
  decide +kernel
example : angle nan (-nan) = -nan ∧ angle (-nan) nan = nan ∧ angle nan 1 = nan := by decide +kernel
example : nan.orderKey < (-1 / 0 : Number).orderKey ∧ (1 / 0 : Number).orderKey < (-nan).orderKey := by
  decide +kernel
example : range? 1 (1 / 0) 1e308 = some #[1, 1e308] ∧ range? 0 (1 / 0) 1 = none := by decide +kernel

end EditableLisp.Number
