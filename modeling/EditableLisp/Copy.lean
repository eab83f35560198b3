import EditableLisp.Printer

/-!
# Deep copies

A deep copy (`deep_clone`) has the structure of a value in new nodes and new atoms. A collection keeps its layout and
its printed text; what it was evaluated or expanded to stays with the old node. Keywords and functions are not copied.

Atoms are followed as many times as there are atoms, which is enough unless an atom holds itself. The copy of one that
does never ends; here it is cut off, so what is said of such atoms says nothing about the program.
-/

namespace EditableLisp

/-- A new node with the layout and the printed text of another. -/
def copyNode (node : Node) (count : Nat) : Change Node :=
  modifyGet fun w =>
    let copy : Node := ⟨w.nextId, node.style, w.gaps? node count, node.spellings⟩
    let w := { w with nextId := w.nextId + 1 }
    match w.texts.get? node.id with
    | some text => (copy, { w with texts := w.texts.set copy.id text })
    | none => (copy, w)

mutual

/-- A deep copy of a value, given that of atoms. -/
def copyWith (copyAtom : AtomId → Change Value) : Value → Change Value
  | .symbol _ name => newSymbol name
  | .seq shape node items => do
    let vs ← copyItems copyAtom #[] items
    return .seq shape (← copyNode node items.length) vs
  | .map node entries => do
    let es ← copyEntries copyAtom #[] entries
    return .map (← copyNode node (2 * entries.length)) es
  | .atom id => copyAtom id
  | v => return v

/-- Deep copies of values, after those that are done. -/
def copyItems (copyAtom : AtomId → Change Value) (done : Array Value) :
    List Value → Change (List Value)
  | [] => return done.toList
  | v :: rest => do
    let v' ← copyWith copyAtom v
    copyItems copyAtom (done.push v') rest

/-- Deep copies of the values of entries, after those that are done. -/
def copyEntries (copyAtom : AtomId → Change Value) (done : Array (Key × Value)) :
    List (Key × Value) → Change (List (Key × Value))
  | [] => return done.toList
  | (k, v) :: rest => do
    let v' ← copyWith copyAtom v
    copyEntries copyAtom (done.push (k, v')) rest

end

/-- A new atom with a deep copy of an atom's content, through at most so many atoms. -/
def copyAtom : Nat → AtomId → Change Value
  | 0, id => return .atom id
  | depth + 1, id => do newAtom (← copyWith (copyAtom depth) ((← get).content id))

/-- A deep copy of a value. -/
def deepCopy (v : Value) : Change Value := do copyWith (copyAtom (← get).atoms.size) v

/-- So many deep copies of a value. -/
def deepCopies (v : Value) (done : Array Value) : Nat → Change (List Value)
  | 0 => return done.toList
  | n + 1 => do
    let v' ← deepCopy v
    deepCopies v (done.push v') n

end EditableLisp
