import EditableLisp.Builtin.Argument
import EditableLisp.Number.Arithmetic
import EditableLisp.Number.Seeded

/-!
# Built-in functions on numbers

Arithmetic (`add`, `sub`, `mul`, `div`, `modulo`), comparisons (`compare`), the elementary functions (`pow`, `atan2`,
`extreme`) and numbers fixed by a seed (`rnd`, `seed_of`). The four operations take any number of arguments from left
to right.
-/

namespace EditableLisp

/-- The operation on two numbers. -/
def Arithmetic.apply : Arithmetic → Number → Number → Number
  | .add, x, y => x + y
  | .subtract, x, y => x - y
  | .multiply, x, y => x * y
  | .divide, x, y => x / y

/-- The comparison of two numbers. -/
def Comparison.holds : Comparison → Number → Number → Bool
  | .less, x, y => x.lt y
  | .lessEqual, x, y => x.le y
  | .greater, x, y => y.lt x
  | .greaterEqual, x, y => y.le x

/-- The function of one number. -/
def Unary.apply : Unary → Number → Number
  | .abs, x => x.abs
  | .floor, x => x.map Float.floor
  | .ceil, x => x.map Float.ceil
  | .round, x => x.map Float.round
  | .sqrt, x => x.map Float.sqrt
  | .sin, x => x.map Float.sin
  | .cos, x => x.map Float.cos
  | .tan, x => x.map Float.tan

namespace Numeric

/-- Applies an operation to two values. -/
def operate (op : Arithmetic) (a b : Value) : Act Value :=
  match a, b with
  | .num x, .num y => pure (.num (op.apply x y))
  | a, b => do
    let left ← print a
    fail (.operands op left (← print b))

/-- Applies an operation from left to right. -/
def fold (op : Arithmetic) (acc : Value) : List Value → Act Value
  | [] => pure acc
  | v :: rest => do
    let acc ← operate op acc v
    fold op acc rest

/-- The negative of a value. -/
def negate : Value → Act Value
  | .num x => pure (.num (-x))
  | v => do fail (.negated (← print v))

/-- The difference of the first value and the others; one value alone is negated. -/
def difference : List Value → Act Value
  | [] => pure (.num 0)
  | [v] => negate v
  | v :: rest => fold .subtract v rest

/-- The quotient of the first value and the others; one value alone is inverted. -/
def quotient : List Value → Act Value
  | [] => pure (.num 1)
  | [v] => operate .divide (.num 1) v
  | v :: rest => fold .divide v rest

/-- Compares two values. -/
def compare (c : Comparison) (a b : Value) : Act Value :=
  match a, b with
  | .num x, .num y => pure (.bool (c.holds x y))
  | a, b => do
    let left ← print a
    fail (.incomparable c left (← print b))

/-- A function of two numbers. -/
def ofTwo (f : Number → Number → Number) (a b : Value) : Act Value := do
  let x ← Argument.number a
  return .num (f x (← Argument.number b))

/-- Picks a number among values, from left to right. -/
def extreme (pick : Number → Number → Number) (acc : Number) : List Value → Act Value
  | [] => pure (.num acc)
  | v :: rest => do
    let x ← Argument.number v
    extreme pick (pick acc x) rest

/-- The smallest or largest of at least one number. -/
def extremeOf (name : String) (pick : Number → Number → Number) : List Value → Act Value
  | [] => Argument.wrongArity name []
  | v :: rest => do
    let x ← Argument.number v
    extreme pick x rest

/-- The seed that a value stands for: the bits of a number, or a hash of the readable text. -/
def seed : Value → Change UInt64
  | .num x => return x.bits
  | v => do return Number.Seeded.ofText (← print v)

/-- The random number that a value fixes. -/
def random [Number.Generator] (v : Value) : Act Value := do return .num (Number.Generator.unit (← seed v))

end Numeric

end EditableLisp
