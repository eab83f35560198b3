import EditableLisp.Json.Text
import EditableLisp.World

/-!
# JSON from values

Lists and vectors become arrays, maps objects, keywords strings with a colon in front, symbols strings, and an atom
what its content becomes (`Serialize`). A number is handed over as an integer when it is one below `9 * 10 ^ 15`. A
value that holds a function has no JSON form. The text is made by a JSON library (`to_json_string`).
-/

namespace EditableLisp.Json

/-- The name of a member. -/
def keyText : Key → String
  | .keyword k => ":" ++ k.name
  | .text s => s

/-- A number as a tree: an integer if it is a small one. -/
def numberTree (x : Number) : Tree :=
  match x.exact with
  | .finite negative quanta =>
    if quanta % Number.quantaPerUnit = 0 && quanta < integerLimit * Number.quantaPerUnit then
      let n : Nat := quanta / Number.quantaPerUnit
      .int (if negative then -n else n)
    else .num x
  | _ => .num x

mutual

/-- A value as a tree, given the trees of atoms. -/
def tree (atomTree : AtomId → Option Tree) : Value → Option Tree
  | .nil => some .null
  | .bool b => some (.bool b)
  | .num x => some (numberTree x)
  | .text s => some (.str s)
  | .keyword k => some (.str (":" ++ k.name))
  | .symbol _ name => some (.str name)
  | .seq _ _ items => (trees atomTree items).map .arr
  | .map _ entries => (members atomTree entries).map .obj
  | .builtin .. => none
  | .closure .. => none
  | .atom id => atomTree id

/-- Values as trees. -/
def trees (atomTree : AtomId → Option Tree) : List Value → Option (List Tree)
  | [] => some []
  | v :: rest => do
    let t ← tree atomTree v
    let ts ← trees atomTree rest
    return t :: ts

/-- Entries as members. -/
def members (atomTree : AtomId → Option Tree) : List (Key × Value) → Option (List (String × Tree))
  | [] => some []
  | (k, v) :: rest => do
    let t ← tree atomTree v
    let ts ← members atomTree rest
    return (keyText k, t) :: ts

end

/-- An atom's content as a tree, through at most so many atoms. -/
def contentTree (w : World) : Nat → AtomId → Option Tree
  | 0, _ => none
  | depth + 1, id => tree (contentTree w depth) (w.content id)

end EditableLisp.Json

namespace EditableLisp

/-- A value as a tree. -/
def World.tree? (w : World) (v : Value) : Option Json.Tree := Json.tree (Json.contentTree w w.atoms.size) v

variable [Json.Library]

/-- The JSON text of a number. -/
def Json.numberText (x : Number) : String := Library.write (numberTree x)

/-- The JSON form of a value. -/
def World.json? (w : World) (v : Value) : Option String := (w.tree? v).map Json.Library.write

/-- Writes a value as JSON. -/
def encodeJson (v : Value) : Act String := do
  match (← get).json? v with
  | some text => pure text
  | none => fail .functionInJson

end EditableLisp
