import EditableLisp.Proofs.Library

/-!
# All built-in functions keep the world ok

`Builtin.keeps_evaluate` says of every function that calls no other that it comes to a known value, and
`Builtin.keeps_run` of every function that it comes to a known value or to a call of known values.
-/

namespace EditableLisp

open Registry

variable {R : Registry}

/-! ## Values from JSON -/

namespace Json

theorem keeps_toKey (s : String) : Keeps R (liftM (toKey s)) KnownKey := by
  unfold toKey
  split
  · rw [lift_bind]
    exact Keeps.bind (keeps_intern _) fun R' k _ hk => Keeps.pure hk.1
  · exact Keeps.pure trivial

mutual

theorem keeps_toValue {R : Registry} (t : Tree) : Keeps R (liftM t.toValue) Known := by
  match t with
  | .null | .bool _ | .int _ | .num _ =>
    unfold Tree.toValue
    exact Keeps.pure trivial
  | .str s =>
    unfold Tree.toValue
    rw [lift_bind]
    exact Keeps.bind (keeps_toKey s) fun R' k _ hk => Keeps.pure (known_toValue hk)
  | .arr items =>
    unfold Tree.toValue
    rw [lift_bind]
    exact Keeps.bind (keeps_toValues items #[] allKnown_nil) fun R' vs _ hvs => keeps_newVector hvs
  | .obj members =>
    unfold Tree.toValue
    rw [lift_bind]
    exact Keeps.bind (keeps_toPairs members #[] nofun) fun R' es _ hes => keeps_newMap_ofPairs hes

theorem keeps_toValues {R : Registry} (trees : List Tree) (done : Array Value)
    (hd : R.AllKnown done.toList) : Keeps R (liftM (Tree.toValues done trees)) AllKnown := by
  match trees with
  | [] =>
    unfold Tree.toValues
    exact Keeps.pure hd
  | t :: rest =>
    unfold Tree.toValues
    rw [lift_bind]
    refine Keeps.bind (keeps_toValue t) fun R' v hle hv => ?_
    exact keeps_toValues rest _ (allKnown_push (hd.mono hle) hv)

theorem keeps_toPairs {R : Registry} (members : List (String × Tree)) (done : Array (Key × Value))
    (hd : R.EntriesKnown done.toList) : Keeps R (liftM (Tree.toPairs done members)) EntriesKnown := by
  match members with
  | [] =>
    unfold Tree.toPairs
    exact Keeps.pure hd
  | (name, t) :: rest =>
    unfold Tree.toPairs
    rw [lift_bind]
    refine Keeps.bind (keeps_toValue t) fun R₁ v hle hv => ?_
    rw [lift_bind]
    refine Keeps.bind (keeps_toKey name) fun R₂ k hle' hk => ?_
    exact keeps_toPairs rest _ (entriesKnown_push ((hd.mono hle).mono hle') hk (hv.mono hle'))

end

end Json

theorem keeps_decodeJson [Json.Library] (text : String) : Keeps R (decodeJson text) Known := by
  unfold decodeJson
  refine Keeps.bind (keeps_internAll _) fun R' _ _ _ => ?_
  split
  · exact Json.keeps_toValue _
  · exact Keeps.fail _

theorem steady_encodeJson [Json.Library] (v : Value) : Steady R (encodeJson v) fun _ => True := by
  refine Steady.bind steady_get fun w _ => ?_
  split
  · exact Steady.pure trivial
  · exact Steady.fail _

/-- A steady act keeps the world ok whatever is asked of the larger registry. -/
theorem Steady.keepsTrue {α : Type} {act : Act α} {P : α → Prop} (h : Steady R act P) :
    Keeps R act fun _ _ => True := h.keeps fun _ _ => trivial

/-! ## Functions that call no other -/

section evaluate

open Argument

/-- **A function that calls no other comes from known arguments to a known value.** -/
theorem Builtin.keeps_evaluate (b : Builtin) {args : List Value} (ha : R.AllKnown args) :
    Keeps R (b.evaluate args) Known := by
  cases b with
  | typeName =>
    exact keeps_one ha fun v _ => Keeps.bind (keeps_intern _) fun R' k _ hk => Keeps.pure hk.1
  | question q => exact keeps_one ha fun v _ => Keeps.pure trivial
  | isEmpty =>
    exact keeps_one ha fun v hv => (Sequence.steady_size hv _).bind_keeps fun _ _ => Keeps.pure trivial
  | keyword => exact keeps_one ha fun v hv => Textual.keeps_keyword hv
  | symbol =>
    exact keeps_one ha fun v hv => (steady_nameFor hv _).bind_keeps fun name _ => keeps_newSymbol name
  | list => exact keeps_newList ha
  | vector => exact keeps_newVector ha
  | vec =>
    exact keeps_one ha fun v hv => (steady_items hv).bind_keeps fun items hi => keeps_newVector hi
  | hashMap => exact Mapping.keeps_ofArguments ha
  | atom => exact keeps_one ha fun v hv => (steady_newAtom hv).keeps fun _ h => h
  | equal => exact keeps_two ha fun v w _ _ => Keeps.pure trivial
  | notEqual => exact keeps_two ha fun v w _ _ => Keeps.pure trivial
  | compare c =>
    exact keeps_two ha fun v w hv hw => (Numeric.steady_compare hv hw c).keeps fun _ h => h
  | add => exact (Numeric.steady_fold (a := .num 0) trivial ha _).keeps fun _ h => h
  | subtract => exact (Numeric.steady_difference ha).keeps fun _ h => h
  | multiply => exact (Numeric.steady_fold (a := .num 1) trivial ha _).keeps fun _ h => h
  | divide => exact (Numeric.steady_quotient ha).keeps fun _ h => h
  | modulo | pow | atan2 =>
    exact keeps_two ha fun v w hv hw => (Numeric.steady_ofTwo hv hw _).keeps fun _ h => h
  | nth => exact keeps_two ha fun v w hv hw => Sequence.keeps_nth hv hw
  | first =>
    refine keeps_one ha fun v hv => (steady_items hv).bind_keeps fun items hi => Keeps.pure ?_
    cases items with
    | nil => trivial
    | cons x rest => exact hi x List.mem_cons_self
  | rest =>
    refine keeps_one ha fun v hv => (steady_items hv).bind_keeps fun items hi => keeps_newVector ?_
    exact fun x hx => hi x (List.mem_of_mem_tail hx)
  | last =>
    refine keeps_one ha fun v hv => (steady_items hv).bind_keeps fun items hi => Keeps.pure ?_
    rw [List.getLastD_eq_getLast?]
    cases hl : items.getLast? with
    | none => trivial
    | some x => exact hi x (List.mem_of_getLast? hl)
  | butlast =>
    refine keeps_one ha fun v hv => (steady_items hv).bind_keeps fun items hi => keeps_newVector ?_
    exact hi.of_subset (List.dropLast_subset _)
  | count =>
    exact keeps_one ha fun v hv => (Sequence.steady_size hv _).bind_keeps fun _ _ => Keeps.pure trivial
  | slice => exact keeps_twoOrThree ha fun v w x hv hw hx => Sequence.keeps_sliceOf hv hw hx
  | cons =>
    refine keeps_two ha fun v coll hv hc => (steady_items hc).bind_keeps fun items hi => ?_
    exact keeps_newList (allKnown_cons.mpr ⟨hv, hi⟩)
  | conj => exact keeps_oneOrMore ha fun v rest hv hr => Sequence.keeps_grow hv hr
  | concat =>
    exact (Sequence.steady_flatten ha _ allKnown_nil).bind_keeps fun items hi => keeps_newVector hi
  | reverse =>
    refine keeps_one ha fun v hv => (steady_items hv).bind_keeps fun items hi => keeps_newVector ?_
    exact fun x hx => hi x (List.mem_reverse.mp hx)
  | range => exact Sequence.keeps_range ha
  | indexOf | lastIndexOf =>
    refine keeps_two ha fun coll v hc _ => (steady_items hc).bind_keeps fun items _ => Keeps.pure ?_
    exact Sequence.known_positionValue _
  | seq => exact keeps_one ha fun v hv => Sequence.keeps_ofAny hv
  | lst =>
    exact keeps_one ha fun v hv => (steady_items hv).bind_keeps fun items hi => keeps_newList hi
  | sort => exact keeps_one ha fun v hv => Sequence.keeps_sort hv
  | partition => exact keeps_two ha fun v w hv hw => Sequence.keeps_partition hv hw
  | replicate => exact keeps_two ha fun v w hv hw => Sequence.keeps_replicate hv hw
  | metadata =>
    refine keeps_one ha fun v hv => Keeps.of_ok fun w hw => Keeps.pure ?_
    exact hw.known_metadata hv
  | withMetadata => exact keeps_two ha fun f data hf hd => keeps_withMetadata hf hd
  | get =>
    unfold Builtin.evaluate
    refine keeps_twoOrThree ha fun m k missing hm _ hmissing => ?_
    refine Keeps.of_ok fun w hw => Keeps.pure ?_
    cases hg : Mapping.get? m k with
    | some v => exact Mapping.known_get? hw hm hg
    | none =>
      cases missing with
      | none => trivial
      | some v => exact hmissing v rfl
  | assoc => exact Mapping.keeps_assoc ha
  | dissoc => exact keeps_oneOrMore ha fun m ks hm _ => Mapping.keeps_dissoc hm
  | keys =>
    refine keeps_one ha fun m hm => (steady_mapping hm).bind_keeps fun entries he => keeps_newVector ?_
    intro v hv
    obtain ⟨e, hmem, rfl⟩ := List.mem_map.mp hv
    exact known_toValue (he.2 e hmem).1
  | vals =>
    refine keeps_one ha fun m hm => (steady_mapping hm).bind_keeps fun entries he => keeps_newVector ?_
    intro v hv
    obtain ⟨e, hmem, rfl⟩ := List.mem_map.mp hv
    exact (he.2 e hmem).2
  | entries =>
    refine keeps_one ha fun m hm => (steady_mapping hm).bind_keeps fun entries he => ?_
    exact Keeps.bind (Sequence.keeps_entryVectors he.2) fun R' vs _ hvs => keeps_newVector hvs
  | contains =>
    exact keeps_two ha fun m k hm _ => (steady_mapping hm).bind_keeps fun _ _ => Keeps.pure trivial
  | merge => exact Mapping.keeps_merge ha
  | str => exact (steady_printEachPlain ha).bind_keeps fun _ _ => Keeps.pure trivial
  | prStr => exact (steady_printEach ha).bind_keeps fun _ _ => Keeps.pure trivial
  | subs =>
    exact keeps_twoOrThree ha fun v w x hv hw hx => (Textual.steady_substring hv hw hx).keeps fun _ h => h
  | join => exact (Textual.steady_join ha).keeps fun _ h => h
  | println =>
    refine (steady_printEachPlain ha).bind_keeps fun _ _ => ?_
    exact (steady_printLine _).bind_keeps fun _ _ => Keeps.pure trivial
  | prn =>
    refine (steady_printEach ha).bind_keeps fun _ _ => ?_
    exact (steady_printLine _).bind_keeps fun _ _ => Keeps.pure trivial
  | deref =>
    refine keeps_one ha fun a h => (steady_cell h).bind_keeps fun id _ => ?_
    exact (steady_readContent id).keeps fun _ h => h
  | reset =>
    refine keeps_two ha fun a v h hv => (steady_cell h).bind_keeps fun id _ => ?_
    exact (steady_setContent hv).bind_keeps fun _ _ => Keeps.pure hv
  | throw =>
    exact keeps_one ha fun v hv => (steady_printPlain hv).bind_keeps fun _ _ => Keeps.fail _
  | readString => exact keeps_one ha fun v hv => Textual.keeps_read hv
  | when => exact Expander.keeps_when ha
  | cond => exact Expander.keeps_cond ha
  | threadFirst => exact Expander.keeps_threadFirst ha
  | unary u =>
    exact keeps_one ha fun v hv => (steady_number hv).bind_keeps fun _ _ => Keeps.pure trivial
  | min | max => exact (Numeric.steady_extremeOf ha _ _).keeps fun _ h => h
  | rnd =>
    exact keeps_one ha fun v hv => (Numeric.steady_seed hv).bind_keeps fun _ _ => Keeps.pure trivial
  | slurp =>
    refine keeps_one ha fun v hv => (steady_string hv).bind_keeps fun path _ => ?_
    exact Keeps.bind ((steady_readFile path).keepsTrue.within _) fun _ _ _ _ => Keeps.pure trivial
  | spit =>
    refine keeps_two ha fun v w hv hw => (steady_string hv).bind_keeps fun path _ => ?_
    refine (steady_printPlain hw).bind_keeps fun content _ => ?_
    exact Keeps.bind ((steady_writeFile path content).keepsTrue.within _) fun _ _ _ _ => Keeps.pure trivial
  | jsonStringify =>
    refine keeps_one ha fun v _ => ?_
    exact Keeps.bind ((steady_encodeJson v).keepsTrue.within _) fun _ _ _ _ => Keeps.pure trivial
  | jsonParse =>
    refine keeps_one ha fun v hv => (steady_string hv).bind_keeps fun text _ => ?_
    exact (keeps_decodeJson text).within _
  | map | mapIndexed | filter | remove | apply | swap => exact keeps_wrongArity _ _

end evaluate

/-! ## Functions that call others -/

/-- What a built-in function still has to do holds known values. -/
def Registry.JobKnown (R : Registry) : Job → Prop
  | .collect f _ rest done => R.Known f ∧ R.AllKnown rest ∧ R.AllKnown done.toList
  | .keep f _ current rest done =>
    R.Known f ∧ R.Known current ∧ R.AllKnown rest ∧ R.AllKnown done.toList
  | .pass => True
  | .store _ => True

/-- A known value, or a call of known values. -/
def Registry.OutcomeKnown (R : Registry) : Outcome → Prop
  | .value v => R.Known v
  | .call job f args => R.JobKnown job ∧ R.Known f ∧ R.AllKnown args

theorem Registry.JobKnown.mono {R R' : Registry} {job : Job} (h : R.JobKnown job) (hle : R ≤ R') :
    R'.JobKnown job := by
  cases job with
  | collect => exact ⟨h.1.mono hle, h.2.1.mono hle, h.2.2.mono hle⟩
  | keep => exact ⟨h.1.mono hle, h.2.1.mono hle, h.2.2.1.mono hle, h.2.2.2.mono hle⟩
  | pass => trivial
  | store => trivial

namespace Job

theorem known_arguments {v : Value} (hv : R.Known v) (index : Option Nat) :
    R.AllKnown (arguments index v) := by
  unfold arguments
  split
  · exact List.forall_mem_cons.mpr ⟨trivial, List.forall_mem_singleton.mpr hv⟩
  · exact List.forall_mem_singleton.mpr hv

theorem keeps_collectNext {f : Value} {rest : List Value} {done : Array Value} (hf : R.Known f)
    (hd : R.AllKnown done.toList) (hr : R.AllKnown rest) (index : Option Nat) :
    Keeps R (liftM (collectNext f index done rest)) OutcomeKnown := by
  unfold collectNext
  split
  · rw [lift_bind]
    exact Keeps.bind (keeps_newVector hd) fun R' v _ hv => Keeps.pure hv
  · obtain ⟨hv, hrest⟩ := allKnown_cons.mp hr
    exact Keeps.pure ⟨⟨hf, hrest, hd⟩, hf, known_arguments hv index⟩

theorem keeps_keepNext {f : Value} {rest : List Value} {done : Array Value} (hf : R.Known f)
    (hd : R.AllKnown done.toList) (hr : R.AllKnown rest) (wanted : Bool) :
    Keeps R (liftM (keepNext f wanted done rest)) OutcomeKnown := by
  unfold keepNext
  split
  · rw [lift_bind]
    exact Keeps.bind (keeps_newVector hd) fun R' v _ hv => Keeps.pure hv
  · obtain ⟨hv, hrest⟩ := allKnown_cons.mp hr
    exact Keeps.pure ⟨⟨hf, hv, hrest, hd⟩, hf, List.forall_mem_singleton.mpr hv⟩

theorem keeps_resume {job : Job} {result : Value} (hj : R.JobKnown job) (hv : R.Known result) :
    Keeps R (liftM (job.resume result)) OutcomeKnown := by
  unfold resume
  cases job with
  | collect f index rest done => exact keeps_collectNext hj.1 (allKnown_push hj.2.2 hv) hj.2.1 index
  | keep f wanted current rest done =>
    refine keeps_keepNext hj.1 ?_ hj.2.2.1 wanted
    split
    · exact allKnown_push hj.2.2.2 hj.2.1
    · exact hj.2.2.2
  | pass => exact Keeps.pure hv
  | store id =>
    dsimp only
    rw [lift_bind]
    exact (steady_setContent hv).bind_keeps fun _ _ => Keeps.pure hv

theorem keeps_spread {args : List Value} (ha : R.AllKnown args) (name : String) :
    Keeps R (spread name args) OutcomeKnown := by
  unfold spread
  split
  · rename_i f arg args
    obtain ⟨hf, hargs⟩ := allKnown_cons.mp ha
    have hlast : R.Known ((arg :: args).getLastD .nil) := by
      rw [List.getLastD_cons]
      exact hargs _ (List.getLastD_mem_cons ..)
    refine (Argument.steady_items hlast).bind_keeps fun more hmore => ?_
    exact Keeps.pure ⟨trivial, hf,
      allKnown_append.mpr ⟨hargs.of_subset (List.dropLast_subset _), hmore⟩⟩
  · exact Argument.keeps_wrongArity _ _

theorem keeps_swap {args : List Value} (ha : R.AllKnown args) (name : String) :
    Keeps R (swap name args) OutcomeKnown := by
  unfold swap
  split
  · obtain ⟨hatom, hargs⟩ := allKnown_cons.mp ha
    obtain ⟨hf, hextra⟩ := allKnown_cons.mp hargs
    refine (Argument.steady_cell hatom).bind_keeps fun id _ => ?_
    refine (steady_readContent id).bind_keeps fun content hc => ?_
    exact Keeps.pure ⟨trivial, hf, allKnown_cons.mpr ⟨hc, hextra⟩⟩
  · exact Argument.keeps_wrongArity _ _

end Job

/-- **A function comes from known arguments to a known value or to a call of known values.** -/
theorem Builtin.keeps_run (b : Builtin) {args : List Value} (ha : R.AllKnown args) :
    Keeps R (b.run args) OutcomeKnown := by
  unfold Builtin.run
  split
  · exact Argument.keeps_two ha fun f coll hf hc => (Argument.steady_items hc).bind_keeps
      fun items hi => Job.keeps_collectNext hf allKnown_nil hi _
  · exact Argument.keeps_two ha fun f coll hf hc => (Argument.steady_items hc).bind_keeps
      fun items hi => Job.keeps_collectNext hf allKnown_nil hi _
  · exact Argument.keeps_two ha fun f coll hf hc => (Argument.steady_items hc).bind_keeps
      fun items hi => Job.keeps_keepNext hf allKnown_nil hi _
  · exact Argument.keeps_two ha fun f coll hf hc => (Argument.steady_items hc).bind_keeps
      fun items hi => Job.keeps_keepNext hf allKnown_nil hi _
  · exact Job.keeps_spread ha _
  · exact Job.keeps_swap ha _
  · exact Keeps.bind (keeps_evaluate _ ha) fun R' v _ hv => Keeps.pure hv

end EditableLisp
