import EditableLisp.Builtin.Argument

/-!
# Built-in functions on maps and metadata

Looking up, adding and removing entries (`hash_map`, `get`, `assoc`, `dissoc`, `keys`, `vals`, `entries`, `contains`,
`merge`). Every function makes a new map and leaves its arguments alone. Metadata belongs to functions only (`meta`,
`with_meta`).
-/

namespace EditableLisp

namespace Mapping

/-- The value under a key; anything but a map has none. -/
def get? (m k : Value) : Option Value :=
  match m with
  | .map _ entries => Entries.get? entries k
  | _ => none

/-- The map of keys and values in turn. -/
def ofArguments (args : List Value) : Act Value :=
  if args.length % 2 = 1 then fail (.oddEntries args.length)
  else do newMap (Entries.ofPairs (← Argument.pairs #[] args))

/-- A map, or the empty one for `nil`, with keys and values in turn put into it. -/
def assoc : List Value → Act Value
  | m :: kvs =>
    if kvs.length % 2 = 1 then fail .assocShape
    else
      match m with
      | .nil => do newMap (Entries.ofPairs (← Argument.pairs #[] kvs))
      | m => do
        let entries ← Argument.mapping m
        newMap (Entries.putAll entries (← Argument.pairs #[] kvs))
  | [] => fail .assocShape

/-- A map without some keys. -/
def dissoc (m : Value) (ks : List Value) : Act Value := do
  let names := ks.filterMap fun k => k.key?.map Key.name
  newMap (Entries.without (← Argument.mapping m) names)

/-- The entries of some maps in a row, after those that are done; `nil` has none. -/
def gather (done : Array (Key × Value)) : List Value → Act Entries
  | [] => pure done.toList
  | .nil :: rest => gather done rest
  | m :: rest => do
    let entries ← Argument.mapping m
    gather (done ++ entries) rest

/-- One map of the entries of some maps; the later ones win. -/
def merge (ms : List Value) : Act Value := do newMap (Entries.ofPairs (← gather #[] ms))

end Mapping

/-- The metadata of a function; anything else has none. -/
def Value.metadata : Value → Value
  | .builtin _ _ data => data
  | .closure _ _ _ _ _ data => data
  | _ => .nil

/-- A new function with other metadata. -/
def Value.withMetadata (f data : Value) : Act Value :=
  match f with
  | .builtin _ code _ => do return .builtin (← freshId) code data
  | .closure _ kind params body env _ => do return .closure (← freshId) kind params body env data
  | v => do fail (.notDescribed (← print v))

end EditableLisp
