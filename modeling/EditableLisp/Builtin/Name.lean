/-!
# The names of the built-in functions

`Builtin` lists the functions that every full interpreter starts with, and `Builtin.name` the symbol that
each is bound to (`register`). The three of `Builtin.expanders` take forms and return a form (`register_macros`); all
others take values.
-/

namespace EditableLisp

/-- The questions about the kind of a value. -/
inductive Question where
  | nil | truth | falsity | boolean | number | string | keyword | symbol | function | expander | list
  | vector | map | sequential | atom
deriving DecidableEq, Repr

/-- The comparisons of numbers. -/
inductive Comparison where
  | less | lessEqual | greater | greaterEqual
deriving DecidableEq, Repr

/-- The functions of one number. -/
inductive Unary where
  | abs | floor | ceil | round | sqrt | sin | cos | tan
deriving DecidableEq, Repr

/-- The functions built into the language. -/
inductive Builtin where
  | typeName | question (q : Question) | isEmpty
  | keyword | symbol | list | vector | vec | hashMap | atom
  | equal | notEqual | compare (c : Comparison)
  | add | subtract | multiply | divide | modulo
  | nth | first | rest | last | butlast | count | slice | cons | conj | concat | reverse | range
  | map | mapIndexed | filter | remove | apply
  | indexOf | lastIndexOf | seq | lst | sort | partition | replicate
  | metadata | withMetadata
  | get | assoc | dissoc | keys | vals | entries | contains | merge
  | str | prStr | subs | join | println | prn
  | deref | reset | swap | throw | readString
  | when | cond | threadFirst
  | unary (u : Unary) | pow | atan2 | min | max | rnd
  | slurp | spit | jsonStringify | jsonParse
deriving DecidableEq, Repr

/-- The symbol of a question. -/
def Question.name : Question → String
  | .nil => "nil?"
  | .truth => "true?"
  | .falsity => "false?"
  | .boolean => "boolean?"
  | .number => "number?"
  | .string => "string?"
  | .keyword => "keyword?"
  | .symbol => "symbol?"
  | .function => "fn?"
  | .expander => "macro?"
  | .list => "list?"
  | .vector => "vector?"
  | .map => "map?"
  | .sequential => "sequential?"
  | .atom => "atom?"

/-- The symbol of a comparison. -/
def Comparison.name : Comparison → String
  | .less => "<"
  | .lessEqual => "<="
  | .greater => ">"
  | .greaterEqual => ">="

/-- The symbol of a function of one number. -/
def Unary.name : Unary → String
  | .abs => "abs"
  | .floor => "floor"
  | .ceil => "ceil"
  | .round => "round"
  | .sqrt => "sqrt"
  | .sin => "sin"
  | .cos => "cos"
  | .tan => "tan"

namespace Builtin

/-- The symbol that a built-in function is bound to. -/
def name : Builtin → String
  | typeName => "type"
  | question q => q.name
  | isEmpty => "empty?"
  | keyword => "keyword"
  | symbol => "symbol"
  | list => "list"
  | vector => "vector"
  | vec => "vec"
  | hashMap => "hash-map"
  | atom => "atom"
  | equal => "="
  | notEqual => "!="
  | compare c => c.name
  | add => "+"
  | subtract => "-"
  | multiply => "*"
  | divide => "/"
  | modulo => "mod"
  | nth => "nth"
  | first => "first"
  | rest => "rest"
  | last => "last"
  | butlast => "butlast"
  | count => "count"
  | slice => "slice"
  | cons => "cons"
  | conj => "conj"
  | concat => "concat"
  | reverse => "reverse"
  | range => "range"
  | map => "map"
  | mapIndexed => "map-indexed"
  | filter => "filter"
  | remove => "remove"
  | apply => "apply"
  | indexOf => "index-of"
  | lastIndexOf => "last-index-of"
  | seq => "seq"
  | lst => "lst"
  | sort => "sort"
  | partition => "partition"
  | replicate => "repeat"
  | metadata => "meta"
  | withMetadata => "with-meta"
  | get => "get"
  | assoc => "assoc"
  | dissoc => "dissoc"
  | keys => "keys"
  | vals => "vals"
  | entries => "entries"
  | contains => "contains?"
  | merge => "merge"
  | str => "str"
  | prStr => "pr-str"
  | subs => "subs"
  | join => "join"
  | println => "println"
  | prn => "prn"
  | deref => "deref"
  | reset => "reset!"
  | swap => "swap!"
  | throw => "throw"
  | readString => "read-string"
  | when => "when"
  | cond => "cond"
  | threadFirst => "->"
  | unary u => u.name
  | pow => "pow"
  | atan2 => "atan2"
  | min => "min"
  | max => "max"
  | rnd => "rnd"
  | slurp => "slurp"
  | spit => "spit"
  | jsonStringify => "json-stringify"
  | jsonParse => "json-parse"

/-- The functions that take values. -/
def functions : List Builtin :=
  [typeName, question .nil, question .truth, question .falsity, question .boolean, question .number,
    question .string, question .keyword, question .symbol, question .function, question .expander,
    question .list, question .vector, question .map, question .sequential, question .atom, isEmpty,
    keyword, symbol, list, vector, vec, hashMap, atom, equal, notEqual, compare .less,
    compare .lessEqual, compare .greater, compare .greaterEqual, add, subtract, multiply, divide,
    modulo, nth, first, rest, last, butlast, count, slice, cons, conj, concat, reverse, range, map,
    mapIndexed, filter, remove, apply, indexOf, lastIndexOf, seq, lst, sort, partition, replicate,
    metadata, withMetadata, get, assoc, dissoc, keys, vals, entries, contains, merge, str, prStr, subs,
    join, println, prn, deref, reset, swap, throw, readString, unary .abs, unary .floor, unary .ceil,
    unary .round, unary .sqrt, pow, unary .sin, unary .cos, unary .tan, atan2, min, max, rnd, slurp,
    spit, jsonStringify, jsonParse]

/-- The functions that take forms and return a form. -/
def expanders : List Builtin := [when, cond, threadFirst]

/-- A built-in function takes forms and returns a form. -/
def isExpander (b : Builtin) : Bool := expanders.contains b

/-- No two built-in functions share a name. -/
theorem nodup_names : ((functions ++ expanders).map name).Nodup := by decide +kernel

end Builtin

end EditableLisp
