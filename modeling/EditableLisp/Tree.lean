import EditableLisp.Printer
import EditableLisp.Value.Entries

/-!
# Program trees

A `Tree` numbers the nodes below a value in pre-order and knows the parent and the children of each. The
children of a map are its keys and values in turn. A node is found by its number, by its *path* of child
indices from the root, or by its identity (`child`, `at_path`, `find`).

`Tree.replace` (`replace`, `with_child`) puts a value in place of a node. The collections on the way to the root are made anew with
the layout of the old ones; everything else is shared with the old tree.
-/

namespace EditableLisp

/-! ## Replacing an element -/

/-- A new node with the layout of another, in which the element at `index` has no spelling. -/
def relayout (node : Node) (count index : Nat) : Change Node :=
  modifyGet fun w =>
    (⟨w.nextId, node.style, w.gaps? node count, node.spellings.map fun s => s.set index none⟩,
      { w with nextId := w.nextId + 1 })

/-- The key that a value puts in the place of a key among others; it must not have the name of one. -/
def replacementKey (others : List String) (v : Value) : Act Key := do
  match v.key? with
  | none => fail (.badKey (← print v))
  | some key => if others.contains key.name then fail (.duplicateKey (← print v)) else return key

/-- A copy of a collection with another child at an index. -/
def Value.replaceChild (owner : Value) (index : Nat) (child : Value) : Act Value := do
  match owner with
  | .seq shape node items =>
    if items.length ≤ index then fail (.elementRange index items.length)
    else return .seq shape (← relayout node items.length index) (items.set index child)
  | .map node entries =>
    let i := index / 2
    match entries[i]? with
    | none => fail (.entryRange index entries.length)
    | some (key, value) =>
      let entry ←
        if index % 2 = 0 then do
          pure (← replacementKey (Entries.names (entries.eraseIdx i)) child, value)
        else pure (key, child)
      return .map (← relayout node (2 * entries.length) index) (entries.set i entry)
  | owner => fail (.childless (← print owner))

/-! ## The index -/

/-- The place of a node in its parent. -/
structure Place where
  owner : Nat
  index : Nat
deriving DecidableEq, Repr

/-- A node of a tree with its place and the numbers of its children. -/
structure TreeNode where
  value : Value
  place : Option Place
  children : List Nat
deriving Inhabited

/-- The nodes below a value in pre-order. -/
structure Tree where
  nodes : Array TreeNode

namespace Tree

mutual

/-- Adds a value and what is below it; the result begins with the number of the value. -/
def index (place : Option Place) (nodes : Array TreeNode) (v : Value) : Nat × Array TreeNode :=
  let id := nodes.size
  match v with
  | .seq shape node items =>
    let (children, nodes) := indexItems id 0 #[] (nodes.push ⟨.seq shape node items, place, []⟩) items
    (id, nodes.modify id fun n => { n with children := children })
  | .map node entries =>
    let (children, nodes) := indexEntries id 0 #[] (nodes.push ⟨.map node entries, place, []⟩) entries
    (id, nodes.modify id fun n => { n with children := children })
  | v => (id, nodes.push ⟨v, place, []⟩)

/-- Adds the elements of a sequence, after those whose numbers are `done`. -/
def indexItems (owner i : Nat) (done : Array Nat) (nodes : Array TreeNode) :
    List Value → List Nat × Array TreeNode
  | [] => (done.toList, nodes)
  | v :: rest =>
    let (id, nodes) := index (some ⟨owner, i⟩) nodes v
    indexItems owner (i + 1) (done.push id) nodes rest

/-- Adds the keys and values of a map, after those whose numbers are `done`. -/
def indexEntries (owner i : Nat) (done : Array Nat) (nodes : Array TreeNode) :
    List (Key × Value) → List Nat × Array TreeNode
  | [] => (done.toList, nodes)
  | (k, v) :: rest =>
    let keyId := nodes.size
    let (id, nodes) := index (some ⟨owner, i + 1⟩) (nodes.push ⟨k.toValue, some ⟨owner, i⟩, []⟩) v
    indexEntries owner (i + 2) ((done.push keyId).push id) nodes rest

end

/-- The tree of a value. -/
def ofValue (v : Value) : Tree := ⟨(index none #[] v).2⟩

/-- The number of nodes. -/
def size (t : Tree) : Nat := t.nodes.size

/-- The value of a node. -/
def value? (t : Tree) (id : Nat) : Option Value := (t.nodes[id]?).map TreeNode.value

/-- The value of the whole tree. -/
def root (t : Tree) : Value := (t.value? 0).getD .nil

/-- The place of a node; the root has none. -/
def place? (t : Tree) (id : Nat) : Option Place := (t.nodes[id]?).bind TreeNode.place

/-- The collection that holds a node. -/
def enclosing? (t : Tree) (id : Nat) : Option Nat := (t.place? id).map Place.owner

/-- The child of a node at an index. -/
def child? (t : Tree) (id i : Nat) : Option Nat := (t.nodes[id]?).bind fun n => n.children[i]?

/-! ## Paths -/

/-- The path to a node, followed by `below`. -/
def pathThrough (t : Tree) (id : Nat) (below : List Nat) : List Nat :=
  match t.place? id with
  | some p => if p.owner < id then t.pathThrough p.owner (p.index :: below) else below
  | none => below
termination_by id

/-- The child indices that lead from the root to a node. -/
def path (t : Tree) (id : Nat) : List Nat := t.pathThrough id []

/-- The node that a path leads to from a node. -/
def follow? (t : Tree) (id : Nat) : List Nat → Option Nat
  | [] => some id
  | i :: rest =>
    match t.child? id i with
    | some id => t.follow? id rest
    | none => none

/-- The node that a path leads to from the root. -/
def atPath? (t : Tree) (path : List Nat) : Option Nat := t.follow? 0 path

/-- The first node that is identical to a value. -/
def find? (t : Tree) (v : Value) : Option Nat := t.nodes.findIdx? fun n => n.value.identical v

/-! ## Editing -/

/-- Puts a value in place of a node in its parent, and so on up to the root; the result is the new value
of the root. -/
def rebuild (t : Tree) (id : Nat) (v : Value) : Act Value :=
  match t.place? id with
  | some p =>
    if p.owner < id then do
      let owner ← ((t.value? p.owner).getD .nil).replaceChild p.index v
      t.rebuild p.owner owner
    else pure v
  | none => pure v
termination_by id

/-- The tree with a value in place of a node, and the number of that value. -/
def replace (t : Tree) (id : Nat) (v : Value) : Act (Tree × Nat) := do
  if t.size ≤ id then fail (.nodeRange id t.size)
  else
    let new := ofValue (← t.rebuild id v)
    match new.atPath? (t.path id) with
    | some newId => return (new, newId)
    | none => fail (.nodeRange id t.size)

end Tree

end EditableLisp
