import EditableLisp.Number.Basic

/-!
# JSON libraries

Values are written as JSON and read back by way of a library, which is a parameter (`Library`). A value hands it a
`Tree`, which is written as a text; from a text it hands over what it reads (`Reading`), also as far as it got before
it failed. `Lawful` is what is asked of it: the documented round trip of strings, integers, `null`, booleans, arrays
and objects. The library that runs is `Json.standard`.
-/

namespace EditableLisp.Json

/-- What a value hands to a library, and what a library hands over. Integers have 64 bits; the members of an object
are in order. -/
inductive Tree where
  | null
  | bool (b : Bool)
  | int (n : Int)
  | num (x : Number)
  | str (s : String)
  | arr (items : List Tree)
  | obj (members : List (String × Tree))
deriving Inhabited

/-- What is read from a text: the tree, if the whole text is one, and in order the strings that were handed over up to
its end or to where it fails. The name of a member counts when its value was handed over. -/
structure Reading where
  strings : List String
  tree : Option Tree
deriving Inhabited

/-- A JSON library. -/
class Library where
  /-- The text of a tree. -/
  write : Tree → String
  /-- What is read from a text. -/
  read : String → Reading

/-- The most arrays and objects inside each other. -/
def depthMax : Nat := 127

/-- Integers of an absolute value below this one are written as integers. -/
def integerLimit : Nat := 9 * Number.tenTo 15

namespace Tree

mutual

/-- The strings of a tree in the order in which they are handed over. -/
def strings : Tree → List String
  | .str s => [s]
  | .arr items => stringsEach items
  | .obj members => memberStrings members
  | _ => []

/-- The strings of trees. -/
def stringsEach : List Tree → List String
  | [] => []
  | t :: rest => t.strings ++ stringsEach rest

/-- The strings of members. -/
def memberStrings : List (String × Tree) → List String
  | [] => []
  | (name, t) :: rest => t.strings ++ name :: memberStrings rest

end

mutual

/-- A tree with `null` in place of the numbers that are not finite. -/
def settled : Tree → Tree
  | .num x =>
    match x.exact with
    | .finite .. => .num x
    | _ => .null
  | .arr items => .arr (settledEach items)
  | .obj members => .obj (settledMembers members)
  | t => t

/-- Trees with `null` in place of the numbers that are not finite. -/
def settledEach : List Tree → List Tree
  | [] => []
  | t :: rest => t.settled :: settledEach rest

/-- Members with `null` in place of the numbers that are not finite. -/
def settledMembers : List (String × Tree) → List (String × Tree)
  | [] => []
  | (name, t) :: rest => (name, t.settled) :: settledMembers rest

end

/-- A tree of integers below the limit, strings, `null` and booleans, at most so many arrays and objects deep. -/
inductive Plain : Nat → Tree → Prop where
  | null {n : Nat} : Plain n .null
  | bool {n : Nat} (b : Bool) : Plain n (.bool b)
  | int {n : Nat} {i : Int} (small : i.natAbs < integerLimit) : Plain n (.int i)
  | str {n : Nat} (s : String) : Plain n (.str s)
  | arr {n : Nat} {items : List Tree} (each : ∀ t ∈ items, Plain n t) : Plain (n + 1) (.arr items)
  | obj {n : Nat} {members : List (String × Tree)} (each : ∀ m ∈ members, Plain n m.2) : Plain (n + 1) (.obj members)

end Tree

/-- What a JSON library is relied on for. -/
structure Lawful [Library] : Prop where
  /-- A number that is not finite is written as `null`. -/
  write_settled : ∀ t : Tree, Library.write t.settled = Library.write t
  /-- What was written is read back, and its strings are handed over in order. -/
  read_write : ∀ t : Tree, t.Plain depthMax → Library.read (Library.write t) = ⟨t.strings, some t⟩

end EditableLisp.Json
