import EditableLisp.Environment
import EditableLisp.Printer
import EditableLisp.Value.Entries

/-!
# Arguments of built-in functions

What a built-in function demands of its arguments (`arity`, `items_of`, `as_number`, `as_str`, `as_map`, `as_atom`,
`as_name`). A demand that is not met fails and shows the argument.
-/

namespace EditableLisp

namespace Argument

/-- Too few or too many arguments. -/
def wrongArity {α : Type} (name : String) (args : List Value) : Act α :=
  fail (.arity name args.length)

/-- A function of one argument. -/
def one {α : Type} (name : String) (f : Value → Act α) : List Value → Act α
  | [v] => f v
  | args => wrongArity name args

/-- A function of two arguments. -/
def two {α : Type} (name : String) (f : Value → Value → Act α) : List Value → Act α
  | [v, w] => f v w
  | args => wrongArity name args

/-- A function of two arguments and one that may be left out. -/
def twoOrThree {α : Type} (name : String) (f : Value → Value → Option Value → Act α) :
    List Value → Act α
  | [v, w] => f v w none
  | [v, w, x] => f v w (some x)
  | args => wrongArity name args

/-- A function of at least one argument. -/
def oneOrMore {α : Type} (name : String) (f : Value → List Value → Act α) : List Value → Act α
  | v :: rest => f v rest
  | [] => wrongArity name []

/-- An argument that does not meet a demand. -/
def unmet {α : Type} (demand : Demand) (v : Value) : Act α := do
  fail (.expected demand (← print v))

/-- A number. -/
def number : Value → Act Number
  | .num x => pure x
  | v => unmet .number v

/-- A number that may be left out. -/
def number? : Option Value → Act (Option Number)
  | some v => do return some (← number v)
  | none => pure none

/-- A string. -/
def string : Value → Act String
  | .text s => pure s
  | v => unmet .string v

/-- The elements of a list or vector. -/
def sequence : Value → Act (List Value)
  | .seq _ _ items => pure items
  | v => unmet .sequence v

/-- The entries of a map. -/
def mapping : Value → Act Entries
  | .map _ entries => pure entries
  | v => unmet .map v

/-- The cell of an atom. -/
def cell : Value → Act AtomId
  | .atom id => pure id
  | v => unmet .atom v

/-- The elements of a list or vector; `nil` has none. -/
def items : Value → Act (List Value)
  | .nil => pure []
  | .seq _ _ items => pure items
  | v => do fail (.notItems (← print v))

/-- The text of a string, keyword or symbol. -/
def nameFor (function : String) (v : Value) : Act String := do
  match v.name? with
  | some name => pure name
  | none => fail (.notNamed function (← print v))

/-- A key of a map. -/
def key (v : Value) : Act Key := do
  match v.key? with
  | some k => pure k
  | none => fail (.badKey (← print v))

/-- The entries made of keys and values in turn, after those that are done. -/
def pairs (done : Array (Key × Value)) : List Value → Act Entries
  | k :: v :: rest => do
    let k ← key k
    pairs (done.push (k, v)) rest
  | _ => pure done.toList

end Argument

end EditableLisp
