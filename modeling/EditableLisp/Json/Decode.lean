import EditableLisp.Json.Text
import EditableLisp.Value.Entries
import EditableLisp.World

/-!
# Values from JSON

Arrays become vectors and objects maps, in which a later member takes the place of an earlier one of the
same name (`ValueSeed`). A string that begins with a colon and has more to it stands for a keyword
(`text_value`). A JSON library reads the text (`from_json_str`). Keywords are interned as far as it was read, also if
it cannot be read to its end.
-/

namespace EditableLisp.Json

/-- The name of the keyword that a string stands for. -/
def keywordName? (s : String) : Option String :=
  match s.toList with
  | ':' :: c :: cs => some (String.ofList (c :: cs))
  | _ => none

/-- The key that a member's name stands for. -/
def toKey (s : String) : Change Key :=
  match keywordName? s with
  | some name => do return .keyword (← intern name)
  | none => return .text s

mutual

/-- The value of a tree. -/
def Tree.toValue : Tree → Change Value
  | .null => return .nil
  | .bool b => return .bool b
  | .int n => return .num (.ofInt n)
  | .num x => return .num x
  | .str s => do return (← toKey s).toValue
  | .arr items => do newVector (← Tree.toValues #[] items)
  | .obj members => do newMap (Entries.ofPairs (← Tree.toPairs #[] members))

/-- The values of trees, after those that are done. -/
def Tree.toValues (done : Array Value) : List Tree → Change (List Value)
  | [] => return done.toList
  | t :: rest => do
    let v ← t.toValue
    Tree.toValues (done.push v) rest

/-- The pairs of members, after those that are done. -/
def Tree.toPairs (done : Array (Key × Value)) : List (String × Tree) → Change Entries
  | [] => return done.toList
  | (name, t) :: rest => do
    let v ← t.toValue
    let k ← toKey name
    Tree.toPairs (done.push (k, v)) rest

end

end EditableLisp.Json

namespace EditableLisp

/-- Reads a JSON text. -/
def decodeJson [Json.Library] (text : String) : Act Value := do
  let reading := Json.Library.read text
  internAll (reading.strings.filterMap Json.keywordName?)
  match reading.tree with
  | some tree => tree.toValue
  | none => fail .invalidJson

end EditableLisp
