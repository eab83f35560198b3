import EditableLisp.Value.Entries

/-!
# Equality of values

Two values are equal when they have the same structure: lists and vectors compare by their elements
alone, maps by name whatever the order, symbols by name, numbers as numbers. Keywords, functions and
atoms are equal only to themselves. This is the `eq` of `Value` and of `Map`. There the value of the other map stands
first when entries are compared; as the names in a map differ, the order of the two does not matter
(`Value.equal_comm`), and the recursion here follows the first map.
-/

namespace EditableLisp.Value

mutual

/-- Two values are equal. -/
def equal : Value → Value → Bool
  | nil, nil => true
  | bool a, bool b => a == b
  | num a, num b => a.equal b
  | text a, text b => a == b
  | keyword a, keyword b => a.id == b.id
  | symbol _ a, symbol _ b => a == b
  | seq _ _ as, seq _ _ bs => equalItems as bs
  | map _ as, map _ bs => as.length == bs.length && equalEntries as bs
  | builtin a .., builtin b .. => a == b
  | closure a .., closure b .. => a == b
  | atom a, atom b => a == b
  | _, _ => false

/-- Two lists of values are equal element by element. -/
def equalItems : List Value → List Value → Bool
  | [], [] => true
  | a :: as, b :: bs => equal a b && equalItems as bs
  | _, _ => false

/-- Every entry has an equal one of the same name among `others`. -/
def equalEntries : List (Key × Value) → Entries → Bool
  | [], _ => true
  | (k, v) :: rest, others =>
    (match others.find? (fun e => e.1.name == k.name) with
      | some e => equal v e.2
      | none => false) && equalEntries rest others

end

end EditableLisp.Value
