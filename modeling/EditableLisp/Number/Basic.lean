import EditableLisp.Number.Exact

/-!
# Numbers

A number is a double, given by its 64 bits. So one that is not a number (NaN) has a sign like any other,
which sorting and seeding show. Negation and the absolute value change the sign bit alone, also of NaN;
every other operation hands NaN on as it is, and gives the negative one where it has no result. Negating
twice changes nothing (`negate_negate`).
-/

namespace EditableLisp

/-- A double. -/
structure Number where
  bits : UInt64
deriving DecidableEq, Repr, Inhabited

namespace Number

/-! ## Doubles as bits -/

/-- The bit of the sign. -/
def signBit : UInt64 := 0x8000000000000000

/-- The bits of infinity. -/
def infinityBits : UInt64 := 0x7FF0000000000000

/-- What an operation without a result gives. -/
def nan : Number := ⟨0xFFF8000000000000⟩

/-- The number of a double that was computed from doubles other than NaN. -/
def ofFloat (x : Float) : Number := if x.isNaN then nan else ⟨x.toBits⟩

/-- A number as a double that can be computed with. -/
def toFloat (x : Number) : Float := Float.ofBits x.bits

/-- The number of a count. -/
def ofNat (n : Nat) : Number := ofFloat (Float.ofNat n)

/-- The number with the given sign and quanta, for quanta that a double can hold. -/
def ofQuanta (negative : Bool) (quanta : Nat) : Number :=
  ⟨UInt64.ofNat (Exact.bitsOfQuanta negative quanta)⟩

/-- The exact value of a number. -/
def exact (x : Number) : Exact := Exact.ofBits x.bits.toNat

instance (n : Nat) : OfNat Number n := ⟨ofNat n⟩

instance : OfScientific Number := ⟨fun digits below places => ofFloat (Float.ofScientific digits below places)⟩

/-! ## The sign -/

/-- A number with the other sign. -/
def negate (x : Number) : Number := ⟨x.bits ^^^ signBit⟩

/-- A number without its sign. -/
def abs (x : Number) : Number := ⟨x.bits &&& ~~~signBit⟩

instance : Neg Number := ⟨negate⟩

/-- The number nearest to an integer of 64 bits. -/
def ofInt : Int → Number
  | .ofNat n => ofFloat n.toUInt64.toFloat
  | .negSucc n => -ofFloat (n + 1).toUInt64.toFloat

/-- Negating twice changes nothing. -/
theorem negate_negate (x : Number) : x.negate.negate = x := by
  rw [negate, negate, UInt64.xor_assoc, UInt64.xor_self, UInt64.xor_zero]

/-- Without its sign, NaN is beyond infinity. -/
def isNaN (x : Number) : Bool := infinityBits < x.abs.bits

/-! ## Operations -/

/-- The value of a function at a number. -/
def map (f : Float → Float) (x : Number) : Number := if x.isNaN then x else ofFloat (f x.toFloat)

/-- The value of a function at two numbers; of two NaN the first is handed on. -/
def combine (f : Float → Float → Float) (x y : Number) : Number :=
  if x.isNaN then x else if y.isNaN then y else ofFloat (f x.toFloat y.toFloat)

instance : Add Number := ⟨combine Float.add⟩

instance : Sub Number := ⟨combine Float.sub⟩

instance : Mul Number := ⟨combine Float.mul⟩

instance : Div Number := ⟨combine Float.div⟩

/-! ## Comparisons -/

/-- A number is below another one; NaN is neither below nor above anything. -/
def lt (x y : Number) : Bool := x.toFloat < y.toFloat

/-- A number is at most another one. -/
def le (x y : Number) : Bool := x.toFloat ≤ y.toFloat

/-- Two numbers are equal; the zeros are, and NaN is equal to nothing. -/
def equal (x y : Number) : Bool := x.toFloat == y.toFloat

example : nan.isNaN ∧ (-nan).isNaN ∧ !(1 / 0 : Number).isNaN := by decide +kernel
example : (0 / 0 : Number) = nan ∧ (-1 : Number) * -nan = -nan ∧ nan.abs = -nan := by decide +kernel

end Number

end EditableLisp
