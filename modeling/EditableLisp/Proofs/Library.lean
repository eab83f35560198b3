import EditableLisp.Builtin.Run
import EditableLisp.Proofs.Arguments
import EditableLisp.Proofs.Copying
import EditableLisp.Proofs.Reading

/-!
# Built-in functions keep the world ok

One rule for each operation that the built-in functions are made of. `Builtin.keeps_evaluate` and
`Builtin.keeps_run` say of all functions that from known arguments they come to a known value or to a call
of known values.
-/

namespace EditableLisp

open Registry

variable {R : Registry}

/-! ## Entries -/

theorem Registry.EntriesKnown.put {entries : Entries} (h : R.EntriesKnown entries) {k : Key} {v : Value}
    (hk : R.KnownKey k) (hv : R.Known v) : R.EntriesKnown (Entries.put k v entries) := by
  induction entries with
  | nil => exact List.forall_mem_singleton.mpr ⟨hk, hv⟩
  | cons e rest ih =>
    obtain ⟨he, hrest⟩ := List.forall_mem_cons.mp h
    unfold Entries.put
    split
    · exact List.forall_mem_cons.mpr ⟨⟨hk, hv⟩, hrest⟩
    · exact List.forall_mem_cons.mpr ⟨he, ih hrest⟩

theorem Registry.EntriesKnown.putAll {entries pairs : Entries} (h : R.EntriesKnown entries)
    (hp : R.EntriesKnown pairs) : R.EntriesKnown (Entries.putAll entries pairs) := by
  unfold Entries.putAll
  induction pairs generalizing entries with
  | nil => exact h
  | cons p rest ih =>
    obtain ⟨hfirst, hrest⟩ := List.forall_mem_cons.mp hp
    exact ih (h.put hfirst.1 hfirst.2) hrest

/-- A map of known pairs is known. -/
theorem keeps_newMap_ofPairs {pairs : Entries} (h : R.EntriesKnown pairs) :
    Keeps R (liftM (newMap (Entries.ofPairs pairs))) Known :=
  keeps_newMap (Entries.nodup_names_ofPairs pairs) (EntriesKnown.putAll nofun h)

theorem known_byName? {entries : Entries} (h : R.EntriesKnown entries) {name : String} {v : Value}
    (hv : entries.byName? name = some v) : R.Known v := by
  obtain ⟨e, he, rfl⟩ := Option.map_eq_some_iff.mp hv
  exact (h e (List.mem_of_find?_eq_some he)).2

theorem known_get? {entries : Entries} (h : R.EntriesKnown entries) {key v : Value}
    (hv : Entries.get? entries key = some v) : R.Known v := by
  unfold Entries.get? at hv
  split at hv
  · split at hv
    · rename_i e he
      cases hv
      exact (h e (List.mem_of_find?_eq_some he)).2
    · exact known_byName? h hv
  · exact known_byName? h hv
  · cases hv

/-! ## Sequences -/

namespace Sequence

theorem keeps_newVectors {lists : List (List Value)} (h : ∀ items ∈ lists, R.AllKnown items)
    (done : Array Value) (hd : R.AllKnown done.toList) :
    Keeps R (liftM (newVectors done lists)) AllKnown := by
  induction lists generalizing R done with
  | nil => exact Keeps.pure hd
  | cons items rest ih =>
    obtain ⟨hitems, hrest⟩ := List.forall_mem_cons.mp h
    unfold newVectors
    rw [lift_bind]
    refine Keeps.bind (keeps_newVector hitems) fun R' v hle hv => ?_
    exact ih (fun l hl => (hrest l hl).mono hle) _ (allKnown_push (hd.mono hle) hv)

theorem keeps_entryVectors {entries : Entries} (h : R.EntriesKnown entries) :
    Keeps R (liftM (entryVectors entries)) AllKnown := by
  refine keeps_newVectors (fun items hi => ?_) _ allKnown_nil
  obtain ⟨e, he, rfl⟩ := List.mem_map.mp hi
  have hkey := known_toValue (h e he).1
  exact allKnown_cons.mpr ⟨hkey, allKnown_cons.mpr ⟨(h e he).2, allKnown_nil⟩⟩

theorem keeps_ofAny {v : Value} (hv : R.Known v) : Keeps R (liftM (ofAny v)) Known := by
  refine Keeps.of_ok fun w hw => ?_
  have hparts := hw.partsKnown hv
  unfold ofAny
  split
  · exact keeps_newVector hparts
  · refine keeps_newVector fun v hm => ?_
    obtain ⟨c, -, rfl⟩ := List.mem_map.mp hm
    trivial
  · rw [lift_bind]
    exact Keeps.bind (keeps_entryVectors hparts.2) fun R' vs _ hvs => keeps_newVector hvs
  · exact Keeps.pure trivial

theorem steady_size {v : Value} (hv : R.Known v) (name : String) :
    Steady R (size name v) fun _ => True := by
  unfold size
  split
  · exact Steady.pure trivial
  · exact Argument.steady_failWith hv _

/-- The elements between two positions are among all elements. -/
theorem slice_subset {α : Type} (bounds : Nat × Nat) (items : List α) : slice bounds items ⊆ items :=
  fun _ h => List.mem_of_mem_drop (List.mem_of_mem_take h)

theorem keeps_sliceOf {collection start : Value} {stop : Option Value} (hc : R.Known collection)
    (hstart : R.Known start) (hstop : ∀ v, stop = some v → R.Known v) :
    Keeps R (sliceOf collection start stop) Known := by
  refine Steady.bind_keeps (Argument.steady_items hc) fun items hitems => ?_
  refine Steady.bind_keeps (Argument.steady_number hstart) fun start _ => ?_
  refine Steady.bind_keeps (Argument.steady_number? hstop) fun stop _ => ?_
  exact keeps_newVector (hitems.of_subset (slice_subset _ _))

theorem keeps_nth {collection index : Value} (hc : R.Known collection) (hi : R.Known index) :
    Keeps R (nth collection index) Known := by
  refine Steady.bind_keeps (Argument.steady_sequence hc) fun items hitems => ?_
  refine Steady.bind_keeps (Argument.steady_number hi) fun i _ => ?_
  dsimp only
  generalize (if i.toIndex < 0 then (items.length : Int) + i.toIndex else i.toIndex) = position
  split
  · exact Keeps.fail _
  · split
    · rename_i v hv
      exact Keeps.pure (hitems v (List.mem_of_getElem? hv))
    · exact Keeps.fail _

theorem keeps_grow {collection : Value} {vs : List Value} (hc : R.Known collection)
    (hv : R.AllKnown vs) : Keeps R (grow collection vs) Known := by
  refine Keeps.of_ok fun w hw => ?_
  have hparts := hw.partsKnown hc
  unfold grow
  split
  · refine keeps_newList (allKnown_append.mpr ⟨fun v hm => hv v (List.mem_reverse.mp hm), hparts⟩)
  · exact keeps_newVector (allKnown_append.mpr ⟨hparts, hv⟩)
  · exact (Argument.steady_failWith (P := fun _ => False) hc _).keeps nofun

theorem steady_flatten {vs : List Value} (hv : R.AllKnown vs) (done : Array Value)
    (hd : R.AllKnown done.toList) : Steady R (flatten done vs) R.AllKnown := by
  induction vs generalizing done with
  | nil => exact Steady.pure hd
  | cons v rest ih =>
    obtain ⟨hfirst, hrest⟩ := allKnown_cons.mp hv
    unfold flatten
    refine Steady.bind (Argument.steady_items hfirst) fun items hitems => ?_
    exact ih hrest _ (allKnown_append_array hd hitems)

/-- Sorting loses and adds nothing. -/
theorem mem_of_sort? {items sorted : List Value} (h : sort? items = some sorted) : sorted ⊆ items := by
  unfold sort? at h
  split at h
  · cases h
    exact fun v hv => List.mem_mergeSort.mp hv
  · split at h
    · cases h
      exact fun v hv => List.mem_mergeSort.mp hv
    · cases h

theorem keeps_sort {collection : Value} (hc : R.Known collection) : Keeps R (sort collection) Known := by
  refine Steady.bind_keeps (Argument.steady_items hc) fun items hitems => ?_
  split
  · rename_i sorted hs
    exact keeps_newVector (hitems.of_subset (mem_of_sort? hs))
  · exact Keeps.fail _

/-- The elements of groups are among all elements. -/
theorem subset_of_mem_groups {α : Type} {size : Nat} {items group : List α}
    (h : group ∈ groups size items) : group ⊆ items := by
  intro a ha
  rw [← flatten_groups size items]
  exact List.mem_flatten.mpr ⟨group, h, ha⟩

theorem keeps_partition {size collection : Value} (hs : R.Known size) (hc : R.Known collection) :
    Keeps R (partition size collection) Known := by
  refine Steady.bind_keeps (Argument.steady_number hs) fun n _ => ?_
  refine Steady.bind_keeps (Argument.steady_items hc) fun items hitems => ?_
  split
  · exact Keeps.fail _
  · split
    · exact Keeps.throw _
    · have hgroups : ∀ group ∈ groups n.toCount items, R.AllKnown group :=
        fun group hg => hitems.of_subset (subset_of_mem_groups hg)
      exact Keeps.bind (keeps_newVectors hgroups _ allKnown_nil) fun R' vs _ hvs => keeps_newVector hvs

theorem keeps_rangeOf (start stop step : Number) : Keeps R (rangeOf start stop step) Known := by
  unfold rangeOf
  split
  · refine keeps_newVector fun v hv => ?_
    rename_i terms _
    rw [Array.toList_map] at hv
    obtain ⟨x, -, rfl⟩ := List.mem_map.mp hv
    trivial
  · exact Keeps.throw _

theorem keeps_range {args : List Value} (ha : R.AllKnown args) : Keeps R (range args) Known := by
  unfold range
  split
  · obtain ⟨hstop, -⟩ := allKnown_cons.mp ha
    exact Steady.bind_keeps (Argument.steady_number hstop) fun _ _ => keeps_rangeOf _ _ _
  · obtain ⟨hstart, hrest⟩ := allKnown_cons.mp ha
    refine Steady.bind_keeps (Argument.steady_number hstart) fun _ _ => ?_
    refine Steady.bind_keeps (Argument.steady_number (allKnown_cons.mp hrest).1) fun _ _ => ?_
    exact keeps_rangeOf _ _ _
  · obtain ⟨hstart, hrest⟩ := allKnown_cons.mp ha
    obtain ⟨hstop, hrest⟩ := allKnown_cons.mp hrest
    refine Steady.bind_keeps (Argument.steady_number hstart) fun _ _ => ?_
    refine Steady.bind_keeps (Argument.steady_number hstop) fun _ _ => ?_
    refine Steady.bind_keeps (Argument.steady_number (allKnown_cons.mp hrest).1) fun _ _ => ?_
    exact keeps_rangeOf _ _ _
  · exact Argument.keeps_wrongArity _ _

theorem keeps_replicate {v n : Value} (hv : R.Known v) (hn : R.Known n) :
    Keeps R (replicate v n) Known := by
  refine Steady.bind_keeps (Argument.steady_number hn) fun n _ => ?_
  exact Keeps.bind (keeps_deepCopies hv _ _ allKnown_nil) fun R' vs _ hvs => keeps_newVector hvs

theorem known_positionValue (position : Option Nat) : R.Known (positionValue position) := by
  cases position <;> trivial

end Sequence

/-! ## Maps and metadata -/

namespace Mapping

theorem known_get? {m k v : Value} {w : World} (hw : R.Ok w) (hm : R.Known m) (hv : get? m k = some v) :
    R.Known v := by
  have hparts := hw.partsKnown hm
  unfold get? at hv
  split at hv
  · exact EditableLisp.known_get? hparts.2 hv
  · cases hv

theorem keeps_ofArguments {args : List Value} (ha : R.AllKnown args) :
    Keeps R (ofArguments args) Known := by
  unfold ofArguments
  split
  · exact Keeps.fail _
  · exact Steady.bind_keeps (Argument.steady_pairs ha _ (List.forall_mem_nil _)) fun _ hp => keeps_newMap_ofPairs hp

theorem keeps_assoc {args : List Value} (ha : R.AllKnown args) : Keeps R (assoc args) Known := by
  unfold assoc
  split
  · obtain ⟨hm, hkvs⟩ := allKnown_cons.mp ha
    split
    · exact Keeps.fail _
    · split
      · exact Steady.bind_keeps (Argument.steady_pairs hkvs _ (List.forall_mem_nil _)) fun _ hp => keeps_newMap_ofPairs hp
      · refine Steady.bind_keeps (Argument.steady_mapping hm) fun entries he => ?_
        refine Steady.bind_keeps (Argument.steady_pairs hkvs _ (List.forall_mem_nil _)) fun pairs hp => ?_
        exact keeps_newMap (Entries.nodup_names_putAll he.1) (he.2.putAll hp)
  · exact Keeps.fail _

theorem keeps_dissoc {m : Value} {ks : List Value} (hm : R.Known m) : Keeps R (dissoc m ks) Known := by
  refine Steady.bind_keeps (Argument.steady_mapping hm) fun entries he => ?_
  refine keeps_newMap ?_ fun e hm => he.2 e (Entries.mem_without.mp hm).1
  exact he.1.sublist (List.filter_sublist.map _)

theorem steady_gather {ms : List Value} (hm : R.AllKnown ms) (done : Array (Key × Value))
    (hd : R.EntriesKnown done.toList) : Steady R (gather done ms) R.EntriesKnown := by
  induction ms generalizing done with
  | nil => exact Steady.pure hd
  | cons m rest ih =>
    obtain ⟨hfirst, hrest⟩ := allKnown_cons.mp hm
    have add : Steady R (Argument.mapping m >>= fun entries => gather (done ++ entries) rest)
        R.EntriesKnown := by
      refine Steady.bind (Argument.steady_mapping hfirst) fun entries he => ih hrest _ ?_
      rw [Array.toList_appendList]
      exact List.forall_mem_append.mpr ⟨hd, he.2⟩
    cases m with
    | nil => exact ih hrest _ hd
    | _ => exact add

theorem keeps_merge {ms : List Value} (hm : R.AllKnown ms) : Keeps R (merge ms) Known :=
  Steady.bind_keeps (steady_gather hm _ (List.forall_mem_nil _)) fun _ hp => keeps_newMap_ofPairs hp

end Mapping

theorem Registry.Ok.known_metadata {w : World} (hw : R.Ok w) {v : Value} (hv : R.Known v) :
    R.Known v.metadata := by
  have hparts := hw.partsKnown hv
  cases v with
  | builtin => exact hparts
  | closure => exact hparts.2.2.2.1
  | _ => trivial

theorem keeps_withMetadata {f data : Value} (hf : R.Known f) (hd : R.Known data) :
    Keeps R (f.withMetadata data) Known := by
  refine Keeps.of_ok fun w hw => ?_
  have hparts := hw.partsKnown hf
  unfold Value.withMetadata
  split
  · rename_i code _
    exact Keeps.bind (keeps_freshId (k := fun id => .builtin id code data) (fun _ => hd)
      fun _ => Value.isLaidOut_of_node?_eq_none rfl) fun R' id _ h => Keeps.pure h
  · rename_i kind params body env _
    exact Keeps.bind (keeps_freshId (k := fun id => .closure id kind params body env data)
      (fun _ => ⟨hparts.1, hparts.2.1, hparts.2.2.1, hd, hparts.2.2.2.2⟩) fun _ => Value.isLaidOut_of_node?_eq_none rfl)
      fun R' id _ h => Keeps.pure h
  · exact (Argument.steady_failWith (P := fun _ => False) hf _).keeps nofun

/-! ## Numbers -/

namespace Numeric

theorem steady_operate {a b : Value} (ha : R.Known a) (hb : R.Known b) (op : Arithmetic) :
    Steady R (operate op a b) R.Known := by
  unfold operate
  split
  · exact Steady.pure trivial
  · exact Steady.bind (steady_print ha) fun _ _ => Argument.steady_failWith hb _

theorem steady_fold {a : Value} {vs : List Value} (ha : R.Known a) (hv : R.AllKnown vs)
    (op : Arithmetic) : Steady R (fold op a vs) R.Known := by
  induction vs generalizing a with
  | nil => exact Steady.pure ha
  | cons v rest ih =>
    obtain ⟨hfirst, hrest⟩ := allKnown_cons.mp hv
    exact Steady.bind (steady_operate ha hfirst op) fun acc hacc => ih hacc hrest

theorem steady_difference {vs : List Value} (hv : R.AllKnown vs) : Steady R (difference vs) R.Known := by
  unfold difference
  split
  · exact Steady.pure trivial
  · obtain ⟨hfirst, -⟩ := allKnown_cons.mp hv
    unfold negate
    split
    · exact Steady.pure trivial
    · exact Argument.steady_failWith hfirst _
  · exact steady_fold (allKnown_cons.mp hv).1 (allKnown_cons.mp hv).2 _

theorem steady_quotient {vs : List Value} (hv : R.AllKnown vs) : Steady R (quotient vs) R.Known := by
  unfold quotient
  split
  · exact Steady.pure trivial
  · exact steady_operate (a := .num 1) trivial (allKnown_cons.mp hv).1 _
  · exact steady_fold (allKnown_cons.mp hv).1 (allKnown_cons.mp hv).2 _

theorem steady_compare {a b : Value} (ha : R.Known a) (hb : R.Known b) (c : Comparison) :
    Steady R (compare c a b) R.Known := by
  unfold compare
  split
  · exact Steady.pure trivial
  · exact Steady.bind (steady_print ha) fun _ _ => Argument.steady_failWith hb _

theorem steady_ofTwo {a b : Value} (ha : R.Known a) (hb : R.Known b) (f : Number → Number → Number) :
    Steady R (ofTwo f a b) R.Known :=
  Steady.bind (Argument.steady_number ha) fun _ _ =>
    Steady.bind (Argument.steady_number hb) fun _ _ => Steady.pure trivial

theorem steady_extreme {vs : List Value} (hv : R.AllKnown vs) (pick : Number → Number → Number)
    (acc : Number) : Steady R (extreme pick acc vs) R.Known := by
  induction vs generalizing acc with
  | nil => exact Steady.pure trivial
  | cons v rest ih =>
    obtain ⟨hfirst, hrest⟩ := allKnown_cons.mp hv
    exact Steady.bind (Argument.steady_number hfirst) fun x _ => ih hrest _

theorem steady_extremeOf {vs : List Value} (hv : R.AllKnown vs) (name : String)
    (pick : Number → Number → Number) : Steady R (extremeOf name pick vs) R.Known := by
  unfold extremeOf
  split
  · exact Steady.fail _
  · obtain ⟨hfirst, hrest⟩ := allKnown_cons.mp hv
    exact Steady.bind (Argument.steady_number hfirst) fun x _ => steady_extreme hrest pick x

theorem steady_seed {v : Value} (hv : R.Known v) : Steady R (liftM (seed v)) fun _ => True := by
  unfold seed
  split
  · exact Steady.pure trivial
  · rw [lift_bind]
    exact Steady.bind (steady_print hv) fun _ _ => Steady.pure trivial

end Numeric

/-! ## Texts -/

namespace Textual

theorem keeps_keyword {v : Value} (hv : R.Known v) : Keeps R (keyword v) Known := by
  unfold keyword
  split
  · exact Keeps.pure hv
  · refine Steady.bind_keeps (Argument.steady_nameFor hv _) fun name _ => ?_
    exact Keeps.bind (keeps_intern name) fun R' k _ hk => Keeps.pure hk.1

theorem steady_substring {s start : Value} {stop : Option Value} (hs : R.Known s) (hstart : R.Known start)
    (hstop : ∀ v, stop = some v → R.Known v) : Steady R (substring s start stop) R.Known := by
  refine Steady.bind (Argument.steady_string hs) fun _ _ => ?_
  refine Steady.bind (Argument.steady_number hstart) fun _ _ => ?_
  exact Steady.bind (Argument.steady_number? hstop) fun _ _ => Steady.pure trivial

theorem steady_join {args : List Value} (ha : R.AllKnown args) : Steady R (join args) R.Known := by
  unfold join
  split
  · refine Steady.bind (Argument.steady_items (allKnown_cons.mp ha).1) fun items hitems => ?_
    exact Steady.bind (steady_printEachPlain hitems) fun _ _ => Steady.pure trivial
  · obtain ⟨hseparator, hrest⟩ := allKnown_cons.mp ha
    refine Steady.bind (steady_printPlain hseparator) fun _ _ => ?_
    refine Steady.bind (Argument.steady_items (allKnown_cons.mp hrest).1) fun items hitems => ?_
    exact Steady.bind (steady_printEachPlain hitems) fun _ _ => Steady.pure trivial
  · exact Steady.fail _

theorem keeps_read {s : Value} (hs : R.Known s) : Keeps R (read s) Known := by
  refine Steady.bind_keeps (Argument.steady_string hs) fun src _ => ?_
  refine Keeps.bind (keeps_readForm src) fun R' r _ hr => ?_
  split
  · exact Keeps.pure (hr _ rfl).1
  · exact Keeps.fail _

end Textual

/-! ## Expanders -/

namespace Expander

theorem keeps_when {args : List Value} (ha : R.AllKnown args) : Keeps R (when args) Known := by
  unfold when
  split
  · obtain ⟨htest, hbody⟩ := allKnown_cons.mp ha
    refine Keeps.bind (keeps_newSymbol _) fun R₁ head hle hhead => ?_
    refine Keeps.bind (keeps_newList (allKnown_cons.mpr ⟨hhead, hbody.mono hle⟩)) fun R₂ block hle' hb => ?_
    refine Keeps.bind (keeps_newSymbol _) fun R₃ cond hle'' hcond => ?_
    refine keeps_newList (allKnown_cons.mpr ⟨hcond, allKnown_cons.mpr ⟨?_, allKnown_cons.mpr ⟨?_, allKnown_nil⟩⟩⟩)
    · exact ((htest.mono hle).mono hle').mono hle''
    · exact hb.mono hle''
  · exact Keeps.fail _

theorem keeps_conditional {test form otherwise : Value} (ht : R.Known test) (hf : R.Known form)
    (ho : R.Known otherwise) : Keeps R (liftM (conditional test form otherwise)) Known := by
  unfold conditional
  rw [lift_bind]
  refine Keeps.bind (keeps_newSymbol _) fun R' head hle hhead => keeps_newList ?_
  exact List.forall_mem_cons.mpr ⟨hhead, List.forall_mem_cons.mpr ⟨ht.mono hle,
    List.forall_mem_cons.mpr ⟨hf.mono hle, List.forall_mem_singleton.mpr (ho.mono hle)⟩⟩⟩

theorem keeps_conditionals {R : Registry} {otherwise : Value} {args : List Value} (ho : R.Known otherwise)
    (ha : R.AllKnown args) : Keeps R (liftM (conditionals otherwise args)) Known := by
  match args with
  | [] => exact Keeps.pure ho
  | [_] => exact Keeps.pure ho
  | form :: test :: rest =>
    obtain ⟨hform, hrest⟩ := allKnown_cons.mp ha
    obtain ⟨htest, hrest⟩ := allKnown_cons.mp hrest
    unfold conditionals
    rw [lift_bind]
    refine Keeps.bind (keeps_conditional htest hform ho) fun R' v hle hv => ?_
    exact keeps_conditionals hv (hrest.mono hle)

theorem keeps_cond {args : List Value} (ha : R.AllKnown args) : Keeps R (cond args) Known := by
  unfold cond
  split
  · exact Keeps.fail _
  · exact keeps_conditionals trivial fun v hv => ha v (List.mem_reverse.mp hv)

theorem keeps_thread {acc form : Value} (ha : R.Known acc) (hf : R.Known form) :
    Keeps R (liftM (thread acc form)) Known := by
  refine Keeps.of_ok fun w hw => ?_
  have hparts := hw.partsKnown hf
  unfold thread
  split
  · obtain ⟨hhead, hargs⟩ := allKnown_cons.mp hparts
    exact keeps_newList (allKnown_cons.mpr ⟨hhead, allKnown_cons.mpr ⟨ha, hargs⟩⟩)
  · exact keeps_newList (allKnown_cons.mpr ⟨hf, allKnown_cons.mpr ⟨ha, allKnown_nil⟩⟩)

theorem keeps_threadAll {acc : Value} {forms : List Value} (ha : R.Known acc) (hf : R.AllKnown forms) :
    Keeps R (liftM (threadAll acc forms)) Known := by
  induction forms generalizing R acc with
  | nil => exact Keeps.pure ha
  | cons form rest ih =>
    obtain ⟨hfirst, hrest⟩ := allKnown_cons.mp hf
    unfold threadAll
    rw [lift_bind]
    exact Keeps.bind (keeps_thread ha hfirst) fun R' acc hle hacc => ih hacc (hrest.mono hle)

theorem keeps_threadFirst {args : List Value} (ha : R.AllKnown args) :
    Keeps R (threadFirst args) Known := by
  unfold threadFirst
  split
  · exact keeps_threadAll (allKnown_cons.mp ha).1 (allKnown_cons.mp ha).2
  · exact Keeps.fail _

end Expander

end EditableLisp
