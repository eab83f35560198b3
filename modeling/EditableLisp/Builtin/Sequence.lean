import EditableLisp.Builtin.Argument
import EditableLisp.Copy
import EditableLisp.Number.Arithmetic
import EditableLisp.Number.Shortest
import EditableLisp.Value.Equality

/-!
# Built-in functions on sequences

Selecting (`nth`, `first`, `rest`, `last`, `butlast`), slicing (`slice_bounds`, `slice`), searching (`index_of`,
`last_index_of`), growing (`cons`, `conj`, `concat`), sorting, grouping (`partition`) and making (`range`, `repeat`)
lists and vectors. An index counts from the end when it is negative. Slicing at a position and cutting into groups lose nothing
(`slice_append_slice`, `flatten_groups`).
-/

namespace EditableLisp.Sequence

/-! ## Positions -/

/-- A position in a sequence of `length` elements: one that is negative counts from the end, and one
outside goes to the nearest end. -/
def clamp (length : Nat) (i : Number) : Nat :=
  let index := i.toIndex
  let index := if index < 0 then length + index else index
  (max 0 (min index length)).toNat

/-- The bounds of a slice; the second is not before the first and not beyond the end. -/
def sliceBounds (length : Nat) (start : Number) (stop : Option Number) : Nat × Nat :=
  let start := clamp length start
  let stop := match stop with
    | some stop => clamp length stop
    | none => length
  (start, max stop start)

/-- The elements between two positions. -/
def slice {α : Type} (bounds : Nat × Nat) (items : List α) : List α :=
  (items.drop bounds.1).take (bounds.2 - bounds.1)

/-- A position is never beyond the end. -/
theorem clamp_le (length : Nat) (i : Number) : clamp length i ≤ length := by
  simp only [clamp]
  omega

/-- The elements before a position and those from it on are all elements. -/
theorem slice_append_slice {α : Type} (items : List α) (i : Nat) :
    slice (0, i) items ++ slice (i, items.length) items = items := by
  have hd : (items.drop i).take (items.length - i) = items.drop i :=
    List.take_of_length_le (Nat.le_of_eq List.length_drop)
  rw [slice, slice, hd]
  exact List.take_append_drop i items

/-- The elements of a collection from one number to another. -/
def sliceOf (collection start : Value) (stop : Option Value) : Act Value := do
  let items ← Argument.items collection
  let start ← Argument.number start
  let stop ← Argument.number? stop
  newVector (slice (sliceBounds items.length start stop) items)

/-- The element at an index. -/
def nth (collection index : Value) : Act Value := do
  let items ← Argument.sequence collection
  let i := (← Argument.number index).toIndex
  let position := if i < 0 then items.length + i else i
  if position < 0 then fail (.nthRange i items.length)
  else
    match items[position.toNat]? with
    | some v => pure v
    | none => fail (.nthRange i items.length)

/-! ## Searching -/

/-- The position of the first element equal to a value, from `i` on. -/
def indexFrom (v : Value) (i : Nat) : List Value → Option Nat
  | [] => none
  | x :: rest => if x.equal v then some i else indexFrom v (i + 1) rest

/-- The position of the last element equal to a value: the last one found from `i` on, else `last`. -/
def lastIndexFrom (v : Value) (last : Option Nat) (i : Nat) : List Value → Option Nat
  | [] => last
  | x :: rest => lastIndexFrom v (if x.equal v then some i else last) (i + 1) rest

/-- A position as a number; `-1` for none. -/
def positionValue : Option Nat → Value
  | some i => .num (Number.ofNat i)
  | none => .num (-1)

/-! ## Growing -/

/-- Adds values to a list at the front, one after the other, or to a vector at the back. -/
def grow (collection : Value) (vs : List Value) : Act Value := do
  match collection with
  | .seq .list _ items => newList (vs.reverse ++ items)
  | .seq .vector _ items => newVector (items ++ vs)
  | v => fail (.notGrowable (← print v))

/-- The elements of some collections in a row. -/
def flatten (done : Array Value) : List Value → Act (List Value)
  | [] => pure done.toList
  | v :: rest => do
    let items ← Argument.items v
    flatten (done ++ items) rest

/-! ## Sorting and grouping -/

/-- The number of a value. -/
def number? : Value → Option Number
  | .num x => some x
  | _ => none

/-- The text of a string or keyword. -/
def text? : Value → Option String
  | .text s => some s
  | .keyword k => some k.name
  | _ => none

/-- Numbers in ascending order, or strings and keywords in the order of their texts; equal ones stay in
their order. `none` for anything else. -/
def sort? (items : List Value) : Option (List Value) :=
  if items.all fun v => (number? v).isSome then
    some (items.mergeSort fun a b =>
      ((number? a).map Number.orderKey).getD 0 ≤ ((number? b).map Number.orderKey).getD 0)
  else if items.all fun v => (text? v).isSome then
    some (items.mergeSort fun a b => (text? a).getD "" ≤ (text? b).getD "")
  else none

/-- The elements of a collection in order. -/
def sort (collection : Value) : Act Value := do
  match sort? (← Argument.items collection) with
  | some items => newVector items
  | none => fail .unsortable

/-- A list cut into groups of `size + 1`, the last of which may be shorter: the groups that are done,
the group in progress, last first, and the number of elements that it lacks. -/
def groupsFrom {α : Type} (size : Nat) (done : Array (List α)) (group : List α) (lack : Nat) :
    List α → List (List α)
  | [] => if group.isEmpty then done.toList else (done.push group.reverse).toList
  | a :: rest =>
    match lack with
    | 0 => groupsFrom size (done.push (a :: group).reverse) [] size rest
    | lack + 1 => groupsFrom size done (a :: group) lack rest

/-- A list cut into groups of `size`, the last of which may be shorter. -/
def groups {α : Type} (size : Nat) (items : List α) : List (List α) :=
  groupsFrom (size - 1) #[] [] (size - 1) items

/-- Groups in progress hold the elements in order. -/
theorem flatten_groupsFrom {α : Type} (size : Nat) (items : List α) (done : Array (List α))
    (group : List α) (lack : Nat) :
    (groupsFrom size done group lack items).flatten =
      done.toList.flatten ++ group.reverse ++ items := by
  induction items generalizing done group lack with
  | nil =>
    rw [groupsFrom]
    split
    · rename_i h
      rw [List.isEmpty_iff] at h
      subst h
      simp
    · simp
  | cons a rest ih =>
    cases lack with
    | zero => rw [groupsFrom, ih]; simp
    | succ lack => rw [groupsFrom, ih]; simp

/-- No element is lost and none is doubled when a list is cut into groups. -/
theorem flatten_groups {α : Type} (size : Nat) (items : List α) :
    (groups size items).flatten = items := by
  rw [groups, flatten_groupsFrom]
  rfl

/-- New vectors, after those that are done. -/
def newVectors (done : Array Value) : List (List Value) → Change (List Value)
  | [] => return done.toList
  | items :: rest => do
    let v ← newVector items
    newVectors (done.push v) rest

/-- Groups of a size that is at least one. A size that is not a number is neither below one nor a size,
and the act ends. -/
def partition (size : Value) (collection : Value) : Act Value := do
  let n ← Argument.number size
  let items ← Argument.items collection
  if n.lt 1 then fail (.groupSize n.inFull)
  else if n.toCount = 0 then throw .crash
  else newVector (← newVectors #[] (groups n.toCount items))

/-! ## Making sequences -/

/-- The numbers from `start` to `stop`. -/
def rangeOf (start stop step : Number) : Act Value := do
  match Number.range? start stop step with
  | some terms => newVector (terms.map Value.num).toList
  | none => throw .exhausted

/-- The numbers up to an end, from a start, or in steps. -/
def range : List Value → Act Value
  | [stop] => do rangeOf 0 (← Argument.number stop) 1
  | [start, stop] => do
    let start ← Argument.number start
    rangeOf start (← Argument.number stop) 1
  | [start, stop, step] => do
    let start ← Argument.number start
    let stop ← Argument.number stop
    rangeOf start stop (← Argument.number step)
  | args => Argument.wrongArity "range" args

/-- So many deep copies of a value. -/
def replicate (v n : Value) : Act Value := do
  let n ← Argument.number n
  newVector (← deepCopies v #[] n.toCount)

/-! ## Other collections -/

/-- The pairs of a map as vectors. -/
def entryVectors (entries : List (Key × Value)) : Change (List Value) :=
  newVectors #[] (entries.map fun (k, v) => [k.toValue, v])

/-- The elements of a sequence, the characters of a string, or the pairs of a map; `nil` for anything
else. -/
def ofAny : Value → Change Value
  | .seq _ _ items => newVector items
  | .text s => newVector (s.toList.map fun c => .text (String.singleton c))
  | .map _ entries => do newVector (← entryVectors entries)
  | _ => return .nil

/-- The size of a collection. -/
def count? : Value → Option Nat
  | .nil => some 0
  | .seq _ _ items => some items.length
  | .map _ entries => some entries.length
  | .text s => some s.length
  | _ => none

/-- The size of a collection, for a built-in function. -/
def size (name : String) (v : Value) : Act Nat := do
  match count? v with
  | some n => pure n
  | none => fail (.notCollection name (← print v))

end EditableLisp.Sequence
