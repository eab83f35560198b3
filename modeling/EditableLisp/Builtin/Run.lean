import EditableLisp.Builtin.Numeric
import EditableLisp.Builtin.Sequence
import EditableLisp.Builtin.Question
import EditableLisp.Builtin.Mapping
import EditableLisp.Builtin.Textual
import EditableLisp.Builtin.Expander
import EditableLisp.Files
import EditableLisp.Json.Decode
import EditableLisp.Json.Encode

/-!
# Running built-in functions

`Builtin.run` gives the outcome of a built-in function on its arguments (the `call` of a `Native`). Most outcomes are
values. A function that calls other functions (`map`, `map_indexed`, `keep`, `filter`, `remove`, `apply`, `swap`) asks
for a call and leaves a `Job`, which says how to go on with the result, where a `CallContext` runs the machine inside
itself.
-/

namespace EditableLisp

/-- What a built-in function still has to do when a call that it asked for returns. -/
inductive Job where
  /-- Calls `f` on each of the rest, with its position if there is one, and collects the results. -/
  | collect (f : Value) (index : Option Nat) (rest : List Value) (done : Array Value)
  /-- Keeps `current` if the result is true or false as `wanted`, then goes on with the rest. -/
  | keep (f : Value) (wanted : Bool) (current : Value) (rest : List Value) (done : Array Value)
  /-- Hands the result on. -/
  | pass
  /-- Puts the result into an atom. -/
  | store (id : AtomId)

/-- What a built-in function comes to: a value, or a call and what to do with its result. -/
inductive Outcome where
  | value (v : Value)
  | call (job : Job) (f : Value) (args : List Value)

/-! ## Calls of other functions -/

/-- The arguments of a call in a collection. -/
def Job.arguments (index : Option Nat) (v : Value) : List Value :=
  match index with
  | some i => [.num (Number.ofNat i), v]
  | none => [v]

/-- Goes on collecting results. -/
def Job.collectNext (f : Value) (index : Option Nat) (done : Array Value) :
    List Value → Change Outcome
  | [] => do return .value (← newVector done.toList)
  | v :: rest => return .call (.collect f (index.map (· + 1)) rest done) f (Job.arguments index v)

/-- Goes on keeping elements. -/
def Job.keepNext (f : Value) (wanted : Bool) (done : Array Value) : List Value → Change Outcome
  | [] => do return .value (← newVector done.toList)
  | v :: rest => return .call (.keep f wanted v rest done) f [v]

/-- Goes on with the result of a call. -/
def Job.resume (job : Job) (result : Value) : Change Outcome :=
  match job with
  | .collect f index rest done => collectNext f index (done.push result) rest
  | .keep f wanted current rest done =>
    keepNext f wanted (if result.isTruthy == wanted then done.push current else done) rest
  | .pass => return .value result
  | .store id => do
    setContent id result
    return .value result

/-! ## All functions -/

/-- The value of a function that calls no other. -/
def Builtin.evaluate (b : Builtin) : List Value → Act Value :=
  match b with
  | .typeName => Argument.one b.name fun v => do return .keyword (← intern v.kind.name)
  | .question q => Argument.one b.name fun v => return .bool (q.holds v)
  | .isEmpty => Argument.one b.name fun v => do return .bool ((← Sequence.size b.name v) == 0)
  | .keyword => Argument.one b.name Textual.keyword
  | .symbol => Argument.one b.name fun v => do newSymbol (← Argument.nameFor b.name v)
  | .list => fun args => newList args
  | .vector => fun args => newVector args
  | .vec => Argument.one b.name fun v => do newVector (← Argument.items v)
  | .hashMap => Mapping.ofArguments
  | .atom => Argument.one b.name fun v => newAtom v
  | .equal => Argument.two b.name fun v w => return .bool (v.equal w)
  | .notEqual => Argument.two b.name fun v w => return .bool (!v.equal w)
  | .compare c => Argument.two b.name (Numeric.compare c)
  | .add => Numeric.fold .add (.num 0)
  | .subtract => Numeric.difference
  | .multiply => Numeric.fold .multiply (.num 1)
  | .divide => Numeric.quotient
  | .modulo => Argument.two b.name (Numeric.ofTwo Number.modulo)
  | .nth => Argument.two b.name Sequence.nth
  | .first => Argument.one b.name fun v => do return (← Argument.items v).headD .nil
  | .rest => Argument.one b.name fun v => do newVector (← Argument.items v).tail
  | .last => Argument.one b.name fun v => do return (← Argument.items v).getLastD .nil
  | .butlast => Argument.one b.name fun v => do newVector (← Argument.items v).dropLast
  | .count => Argument.one b.name fun v => do return .num (Number.ofNat (← Sequence.size b.name v))
  | .slice => Argument.twoOrThree b.name Sequence.sliceOf
  | .cons => Argument.two b.name fun v coll => do newList (v :: (← Argument.items coll))
  | .conj => Argument.oneOrMore b.name Sequence.grow
  | .concat => fun args => do newVector (← Sequence.flatten #[] args)
  | .reverse => Argument.one b.name fun v => do newVector (← Argument.items v).reverse
  | .range => Sequence.range
  | .indexOf => Argument.two b.name fun coll v => do
    return Sequence.positionValue (Sequence.indexFrom v 0 (← Argument.items coll))
  | .lastIndexOf => Argument.two b.name fun coll v => do
    return Sequence.positionValue (Sequence.lastIndexFrom v none 0 (← Argument.items coll))
  | .seq => Argument.one b.name fun v => Sequence.ofAny v
  | .lst => Argument.one b.name fun v => do newList (← Argument.items v)
  | .sort => Argument.one b.name Sequence.sort
  | .partition => Argument.two b.name Sequence.partition
  | .replicate => Argument.two b.name Sequence.replicate
  | .metadata => Argument.one b.name fun v => return v.metadata
  | .withMetadata => Argument.two b.name fun f data => f.withMetadata data
  | .get => Argument.twoOrThree b.name fun m k missing =>
    return (Mapping.get? m k).getD (missing.getD .nil)
  | .assoc => Mapping.assoc
  | .dissoc => Argument.oneOrMore b.name Mapping.dissoc
  | .keys => Argument.one b.name fun m => do
    newVector ((← Argument.mapping m).map fun e => e.1.toValue)
  | .vals => Argument.one b.name fun m => do newVector ((← Argument.mapping m).map Prod.snd)
  | .entries => Argument.one b.name fun m => do
    newVector (← Sequence.entryVectors (← Argument.mapping m))
  | .contains => Argument.two b.name fun m k => do
    return .bool (Entries.get? (← Argument.mapping m) k).isSome
  | .merge => Mapping.merge
  | .str => fun args => do return .text (String.join (← printEachPlain args))
  | .prStr => fun args => do return .text (" ".intercalate (← printEach args))
  | .subs => Argument.twoOrThree b.name Textual.substring
  | .join => Textual.join
  | .println => fun args => do
    printLine (" ".intercalate (← printEachPlain args))
    return .nil
  | .prn => fun args => do
    printLine (" ".intercalate (← printEach args))
    return .nil
  | .deref => Argument.one b.name fun a => do
    readContent (← Argument.cell a)
  | .reset => Argument.two b.name fun a v => do
    setContent (← Argument.cell a) v
    return v
  | .throw => Argument.one b.name fun v => do fail (.thrown (← printPlain v))
  | .readString => Argument.one b.name Textual.read
  | .when => Expander.when
  | .cond => Expander.cond
  | .threadFirst => Expander.threadFirst
  | .unary u => Argument.one b.name fun v => do return .num (u.apply (← Argument.number v))
  | .pow => Argument.two b.name (Numeric.ofTwo Number.power)
  | .atan2 => Argument.two b.name (Numeric.ofTwo Number.angle)
  | .min => Numeric.extremeOf b.name Number.smaller
  | .max => Numeric.extremeOf b.name Number.larger
  | .rnd => Argument.one b.name Numeric.random
  | .slurp => Argument.one b.name fun path => do
    let path ← Argument.string path
    return .text (← within b.name (readFile path))
  | .spit => Argument.two b.name fun path content => do
    let path ← Argument.string path
    let content ← printPlain content
    within b.name (writeFile path content)
    return .nil
  | .jsonStringify => Argument.one b.name fun v => do return .text (← within b.name (encodeJson v))
  | .jsonParse => Argument.one b.name fun s => do
    let s ← Argument.string s
    within b.name (decodeJson s)
  | .map => Argument.wrongArity b.name
  | .mapIndexed => Argument.wrongArity b.name
  | .filter => Argument.wrongArity b.name
  | .remove => Argument.wrongArity b.name
  | .apply => Argument.wrongArity b.name
  | .swap => Argument.wrongArity b.name

/-- Asks for the call of a function on some values and the elements of the last one. -/
def Job.spread (name : String) : List Value → Act Outcome
  | f :: arg :: args => do
    let more ← Argument.items ((arg :: args).getLastD .nil)
    return .call .pass f ((arg :: args).dropLast ++ more)
  | args => Argument.wrongArity name args

/-- Asks for the call of a function on the content of an atom and some values. -/
def Job.swap (name : String) : List Value → Act Outcome
  | a :: f :: extra => do
    let id ← Argument.cell a
    return .call (.store id) f ((← readContent id) :: extra)
  | args => Argument.wrongArity name args

/-- The outcome of a function. -/
def Builtin.run (b : Builtin) (args : List Value) : Act Outcome :=
  match b with
  | .map => Argument.two b.name
    (fun f coll => do Job.collectNext f none #[] (← Argument.items coll)) args
  | .mapIndexed => Argument.two b.name
    (fun f coll => do Job.collectNext f (some 0) #[] (← Argument.items coll)) args
  | .filter => Argument.two b.name
    (fun f coll => do Job.keepNext f true #[] (← Argument.items coll)) args
  | .remove => Argument.two b.name
    (fun f coll => do Job.keepNext f false #[] (← Argument.items coll)) args
  | .apply => Job.spread b.name args
  | .swap => Job.swap b.name args
  | b => do return .value (← b.evaluate args)

end EditableLisp
