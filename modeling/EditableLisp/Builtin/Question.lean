import EditableLisp.Value.Basic

/-!
# Questions about kinds

What the predicates of the language answer (`type_of`, `is_empty`, and one test for each `Type`).
-/

namespace EditableLisp

/-- A value is of the kind that a question asks for. -/
def Question.holds (q : Question) (v : Value) : Bool :=
  match q with
  | .nil => v.kind == .nil
  | .truth => (v matches .bool true)
  | .falsity => (v matches .bool false)
  | .boolean => v.kind == .boolean
  | .number => v.kind == .number
  | .string => v.kind == .string
  | .keyword => v.kind == .keyword
  | .symbol => v.kind == .symbol
  | .function => v.kind == .function
  | .expander => v.kind == .expander
  | .list => v.kind == .list
  | .vector => v.kind == .vector
  | .map => v.kind == .map
  | .sequential => v.kind == .list || v.kind == .vector
  | .atom => v.kind == .atom

end EditableLisp
