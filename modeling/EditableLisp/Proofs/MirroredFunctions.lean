import EditableLisp.Proofs.MirroredTexts

/-!
# Built-in functions in worlds that mirror each other

A built-in function sees the kinds, names, texts and elements of its arguments, and whether they are equal or
the same; none of it changes with new identities. So it does the same on renamed arguments
(`Builtin.sim_evaluate`).
-/

namespace EditableLisp

variable {α : Type} [Renamed α] {m : Mirror}

/-! ## Arguments -/

namespace Argument

theorem sim_wrongArity (name : String) (args : List Value) :
    Sim m (wrongArity name args : Act α) (wrongArity name (rename m.ρ args)) := by
  unfold wrongArity
  rw [length_rename]
  exact .fail _

theorem sim_one {f f' : Value → Act α} (h : ∀ v, Sim m (f v) (f' (rename m.ρ v))) (name : String)
    (args : List Value) : Sim m (one name f args) (one name f' (rename m.ρ args)) := by
  match args with
  | [v] => exact h v
  | [] | _ :: _ :: _ => exact sim_wrongArity name _

theorem sim_two {f f' : Value → Value → Act α} (h : ∀ v w, Sim m (f v w) (f' (rename m.ρ v) (rename m.ρ w)))
    (name : String) (args : List Value) : Sim m (two name f args) (two name f' (rename m.ρ args)) := by
  match args with
  | [v, w] => exact h v w
  | [] | [_] | _ :: _ :: _ :: _ => exact sim_wrongArity name _

theorem sim_twoOrThree {f f' : Value → Value → Option Value → Act α}
    (h : ∀ v w x, Sim m (f v w x) (f' (rename m.ρ v) (rename m.ρ w) (rename m.ρ x))) (name : String)
    (args : List Value) : Sim m (twoOrThree name f args) (twoOrThree name f' (rename m.ρ args)) := by
  match args with
  | [v, w] => exact h v w none
  | [v, w, x] => exact h v w (some x)
  | [] | [_] | _ :: _ :: _ :: _ :: _ => exact sim_wrongArity name _

theorem sim_oneOrMore {f f' : Value → List Value → Act α}
    (h : ∀ v rest, Sim m (f v rest) (f' (rename m.ρ v) (rename m.ρ rest))) (name : String)
    (args : List Value) : Sim m (oneOrMore name f args) (oneOrMore name f' (rename m.ρ args)) := by
  match args with
  | v :: rest => exact h v rest
  | [] => exact sim_wrongArity name []

theorem sim_unmet (demand : Demand) (v : Value) :
    Sim m (unmet demand v : Act α) (unmet demand (rename m.ρ v)) := sim_failShowing (.expected demand) v

theorem sim_number (v : Value) : Sim m (number v) (number (rename m.ρ v)) := by
  cases v with
  | num x => exact .pure rfl
  | _ => exact sim_unmet .number _

theorem sim_number? (v : Option Value) : Sim m (number? v) (number? (rename m.ρ v)) := by
  cases v with
  | some v => exact (sim_number v).bind fun _ => .pure rfl
  | none => exact .pure rfl

theorem sim_string (v : Value) : Sim m (string v) (string (rename m.ρ v)) := by
  cases v with
  | text s => exact .pure rfl
  | _ => exact sim_unmet .string _

theorem sim_sequence (v : Value) : Sim m (sequence v) (sequence (rename m.ρ v)) := by
  cases v with
  | seq shape node items =>
    rw [rename_seq]
    exact .pure rfl
  | _ => exact sim_unmet .sequence _

theorem sim_mapping (v : Value) : Sim m (mapping v) (mapping (rename m.ρ v)) := by
  cases v with
  | map node entries =>
    rw [rename_map]
    exact .pure rfl
  | _ => exact sim_unmet .map _

theorem sim_cell (v : Value) : Sim m (cell v) (cell (rename m.ρ v)) := by
  cases v with
  | atom id => exact .pure rfl
  | _ => exact sim_unmet .atom _

theorem sim_items (v : Value) : Sim m (items v) (items (rename m.ρ v)) := by
  cases v with
  | nil => exact .pure rfl
  | seq shape node items =>
    rw [rename_seq]
    exact .pure rfl
  | _ => exact sim_failShowing .notItems _

theorem sim_nameFor (function : String) (v : Value) :
    Sim m (nameFor function v) (nameFor function (rename m.ρ v)) := by
  unfold nameFor
  rw [Value.name?_rename]
  cases v.name? with
  | some name => exact .pure rfl
  | none => exact sim_failShowing (.notNamed function) v

theorem sim_key (v : Value) : Sim m (key v) (key (rename m.ρ v)) := by
  unfold key
  rw [Value.key?_rename]
  cases v.key? with
  | some k => exact .pure rfl
  | none => exact sim_failShowing .badKey v

theorem sim_pairs (done : Array (Key × Value)) (vs : List Value) :
    Sim m (pairs done vs) (pairs (rename m.ρ done) (rename m.ρ vs)) := by
  match vs with
  | [] | [_] => exact .pure (toList_rename m.ρ done)
  | k :: v :: rest =>
    refine (sim_key k).bind fun k => ?_
    rw [← rename_pair, ← rename_push]
    exact sim_pairs _ rest

/-- The entries made of keys and values in turn. -/
theorem sim_allPairs (vs : List Value) : Sim m (pairs #[] vs) (pairs #[] (rename m.ρ vs)) := by
  have h := sim_pairs (m := m) #[] vs
  rw [rename_empty] at h
  exact h

end Argument

/-! ## Sequences -/

section lists

variable (ρ : Renaming)

theorem getElem?_rename (as : List α) (i : Nat) : (rename ρ as)[i]? = rename ρ as[i]? := List.getElem?_map

theorem headD_rename (vs : List Value) : (rename ρ vs).headD .nil = rename ρ (vs.headD .nil) := by
  cases vs <;> rfl

theorem getLastD_rename (vs : List Value) : (rename ρ vs).getLastD .nil = rename ρ (vs.getLastD .nil) := by
  rw [List.getLastD_eq_getLast?, List.getLastD_eq_getLast?, rename_list, List.getLast?_map]
  cases vs.getLast? <;> rfl

theorem tail_rename (as : List α) : (rename ρ as).tail = rename ρ as.tail := List.map_tail.symm

theorem dropLast_rename (as : List α) : (rename ρ as).dropLast = rename ρ as.dropLast := List.map_dropLast.symm

end lists

namespace Sequence

variable (ρ : Renaming)

theorem slice_rename (bounds : Nat × Nat) (items : List Value) :
    slice bounds (rename ρ items) = rename ρ (slice bounds items) := by
  unfold slice
  rw [rename_list, rename_list, List.map_take, List.map_drop]

theorem indexFrom_rename (v : Value) (i : Nat) (items : List Value) :
    indexFrom (rename ρ v) i (rename ρ items) = indexFrom v i items := by
  induction items generalizing i with
  | nil => rfl
  | cons x rest ih =>
    rw [rename_cons]
    unfold indexFrom
    rw [Value.equal_rename, ih]

theorem lastIndexFrom_rename (v : Value) (last : Option Nat) (i : Nat) (items : List Value) :
    lastIndexFrom (rename ρ v) last i (rename ρ items) = lastIndexFrom v last i items := by
  induction items generalizing last i with
  | nil => rfl
  | cons x rest ih =>
    rw [rename_cons]
    unfold lastIndexFrom
    rw [Value.equal_rename, ih]

theorem rename_positionValue (position : Option Nat) :
    rename ρ (positionValue position) = positionValue position := by
  cases position <;> rfl

theorem sort?_rename (items : List Value) : sort? (rename ρ items) = rename ρ (sort? items) := by
  have hnumber : ∀ v : Value, number? (rename ρ v) = number? v := fun v => by
    cases v <;> rfl
  have htext : ∀ v : Value, text? (rename ρ v) = text? v := fun v => by
    cases v <;> rfl
  have hall : ∀ p : Value → Bool, (∀ v, p (rename ρ v) = p v) → (rename ρ items).all p = items.all p := by
    intro p hp
    rw [rename_list, List.all_map]
    exact congrArg items.all (funext hp)
  have hsorted : ∀ le : Value → Value → Bool, (∀ a b, le (rename ρ a) (rename ρ b) = le a b) →
      (rename ρ items).mergeSort le = rename ρ (items.mergeSort le) := fun le hle =>
    (List.map_mergeSort fun a _ b _ => (hle a b).symm).symm
  unfold sort?
  rw [hall _ fun v => by rw [hnumber], hall _ fun v => by rw [htext],
    hsorted _ fun a b => by rw [hnumber, hnumber], hsorted _ fun a b => by rw [htext, htext]]
  split
  · rfl
  · split <;> rfl

theorem groupsFrom_rename (size : Nat) (done : Array (List Value)) (group : List Value) (lack : Nat)
    (items : List Value) : groupsFrom size (rename ρ done) (rename ρ group) lack (rename ρ items) =
      rename ρ (groupsFrom size done group lack items) := by
  induction items generalizing done group lack with
  | nil =>
    unfold groupsFrom
    rw [isEmpty_rename, ← rename_reverse, ← rename_push, toList_rename, toList_rename]
    show (if group.isEmpty then rename ρ done.toList else _) = _
    split <;> rfl
  | cons a rest ih =>
    cases lack with
    | zero =>
      show groupsFrom size ((rename ρ done).push (rename ρ a :: rename ρ group).reverse) [] size (rename ρ rest) = _
      rw [← rename_cons, ← rename_reverse, ← rename_push]
      exact ih _ [] size
    | succ lack => exact ih done (a :: group) lack

theorem groups_rename (size : Nat) (items : List Value) :
    groups size (rename ρ items) = rename ρ (groups size items) := by
  have h := groupsFrom_rename ρ (size - 1) #[] [] (size - 1) items
  rw [rename_empty] at h
  exact h

theorem count?_rename (v : Value) : count? (rename ρ v) = count? v := by
  cases v with
  | seq shape node items =>
    rw [rename_seq]
    exact congrArg some (length_rename ρ items)
  | map node entries =>
    rw [rename_map]
    exact congrArg some (length_rename ρ entries)
  | _ => rfl

/-! ### The functions -/

theorem sim_newVectors (done : Array Value) (lists : List (List Value)) :
    Sim m (liftM (newVectors done lists)) (liftM (newVectors (rename m.ρ done) (rename m.ρ lists))) := by
  induction lists generalizing done with
  | nil => exact .pure (toList_rename m.ρ done)
  | cons items rest ih =>
    rw [rename_cons]
    unfold newVectors
    rw [lift_bind, lift_bind]
    refine (sim_newVector items).bind fun v => ?_
    rw [← rename_push]
    exact ih _

theorem sim_allVectors (lists : List (List Value)) :
    Sim m (liftM (newVectors #[] lists)) (liftM (newVectors #[] (rename m.ρ lists))) := by
  have h := sim_newVectors (m := m) #[] lists
  rw [rename_empty] at h
  exact h

theorem sim_entryVectors (entries : Entries) :
    Sim m (liftM (entryVectors entries)) (liftM (entryVectors (rename m.ρ entries))) := by
  have hpairs : ((rename m.ρ entries).map fun (e : Key × Value) => [e.1.toValue, e.2]) =
      rename m.ρ (entries.map fun e => [e.1.toValue, e.2]) := by
    rw [rename_list, rename_list, List.map_map, List.map_map]
    refine List.map_congr_left fun e _ => ?_
    show [(rename m.ρ e.1).toValue, rename m.ρ e.2] = rename m.ρ [e.1.toValue, e.2]
    rw [Key.toValue_rename]
    rfl
  show Sim m (liftM (newVectors #[] (entries.map fun e => [e.1.toValue, e.2])))
    (liftM (newVectors #[] ((rename m.ρ entries).map fun e => [e.1.toValue, e.2])))
  rw [hpairs]
  exact sim_allVectors _

theorem sim_ofAny (v : Value) : Sim m (liftM (ofAny v)) (liftM (ofAny (rename m.ρ v))) := by
  cases v with
  | seq shape node items =>
    rw [rename_seq]
    exact sim_newVector items
  | text s =>
    have hchars : rename m.ρ (s.toList.map fun c => Value.text (String.singleton c)) =
        s.toList.map fun c => Value.text (String.singleton c) := by
      rw [rename_list, List.map_map]
      rfl
    have h := sim_newVector (m := m) (s.toList.map fun c => Value.text (String.singleton c))
    rw [hchars] at h
    exact h
  | map node entries =>
    rw [rename_map]
    unfold ofAny
    rw [lift_bind, lift_bind]
    exact (sim_entryVectors entries).bind fun vs => sim_newVector vs
  | _ => exact .pure rfl

theorem sim_size (name : String) (v : Value) : Sim m (size name v) (size name (rename m.ρ v)) := by
  unfold size
  rw [count?_rename]
  cases count? v with
  | some n => exact .pure rfl
  | none => exact sim_failShowing (.notCollection name) v

theorem sim_sliceOf (collection start : Value) (stop : Option Value) :
    Sim m (sliceOf collection start stop)
      (sliceOf (rename m.ρ collection) (rename m.ρ start) (rename m.ρ stop)) := by
  refine (Argument.sim_items collection).bind fun items => (Argument.sim_number start).bind fun start => ?_
  refine (Argument.sim_number? stop).bind fun stop => ?_
  rw [rename_plain m.ρ start, rename_plain m.ρ stop, length_rename, slice_rename]
  exact sim_newVector _

theorem sim_nth (collection index : Value) :
    Sim m (nth collection index) (nth (rename m.ρ collection) (rename m.ρ index)) := by
  refine (Argument.sim_sequence collection).bind fun items => (Argument.sim_number index).bind fun i => ?_
  rw [rename_plain m.ρ i, length_rename]
  extract_lets index position
  refine .ite (.fail _) ?_
  rw [getElem?_rename]
  cases items[position.toNat]? with
  | some v => exact .pure rfl
  | none => exact .fail _

theorem sim_grow (collection : Value) (vs : List Value) :
    Sim m (grow collection vs) (grow (rename m.ρ collection) (rename m.ρ vs)) := by
  cases collection with
  | seq shape node items =>
    rw [rename_seq]
    cases shape with
    | list =>
      show Sim m (liftM (newList (vs.reverse ++ items))) (liftM (newList ((rename m.ρ vs).reverse ++ rename m.ρ items)))
      rw [← rename_reverse, ← rename_append]
      exact sim_newList _
    | vector =>
      show Sim m (liftM (newVector (items ++ vs))) (liftM (newVector (rename m.ρ items ++ rename m.ρ vs)))
      rw [← rename_append]
      exact sim_newVector _
  | _ => exact sim_failShowing .notGrowable _

theorem sim_flatten (done : Array Value) (vs : List Value) :
    Sim m (flatten done vs) (flatten (rename m.ρ done) (rename m.ρ vs)) := by
  induction vs generalizing done with
  | nil => exact .pure (toList_rename m.ρ done)
  | cons v rest ih =>
    refine (Argument.sim_items v).bind fun items => ?_
    rw [← rename_array_append]
    exact ih _

theorem sim_sort (collection : Value) : Sim m (sort collection) (sort (rename m.ρ collection)) := by
  refine (Argument.sim_items collection).bind fun items => ?_
  rw [sort?_rename]
  cases sort? items with
  | some sorted => exact sim_newVector sorted
  | none => exact .fail _

theorem sim_partition (size collection : Value) :
    Sim m (partition size collection) (partition (rename m.ρ size) (rename m.ρ collection)) := by
  refine (Argument.sim_number size).bind fun n => (Argument.sim_items collection).bind fun items => ?_
  rw [rename_plain m.ρ n, groups_rename]
  exact .ite (.fail _) (.ite (.throw _) ((sim_allVectors _).bind fun vs => sim_newVector vs))

theorem sim_rangeOf (start stop step : Number) : Sim m (rangeOf start stop step) (rangeOf start stop step) := by
  unfold rangeOf
  cases Number.range? start stop step with
  | some terms =>
    have hterms : rename m.ρ (terms.map Value.num).toList = (terms.map Value.num).toList := by
      rw [Array.toList_map, rename_list, List.map_map]
      rfl
    have h := sim_newVector (m := m) (terms.map Value.num).toList
    rw [hterms] at h
    exact h
  | none => exact .throw _

theorem sim_range (args : List Value) : Sim m (range args) (range (rename m.ρ args)) := by
  match args with
  | [stop] => exact (Argument.sim_number stop).bind fun stop => sim_rangeOf _ _ _
  | [start, stop] =>
    exact (Argument.sim_number start).bind fun start => (Argument.sim_number stop).bind fun stop =>
      sim_rangeOf _ _ _
  | [start, stop, step] =>
    exact (Argument.sim_number start).bind fun start => (Argument.sim_number stop).bind fun stop =>
      (Argument.sim_number step).bind fun step => sim_rangeOf _ _ _
  | [] | _ :: _ :: _ :: _ :: _ => exact Argument.sim_wrongArity "range" _

theorem sim_replicate (v n : Value) : Sim m (replicate v n) (replicate (rename m.ρ v) (rename m.ρ n)) := by
  refine (Argument.sim_number n).bind fun n => ?_
  have h := sim_deepCopies (m := m) v #[] n.toCount
  rw [rename_empty] at h
  exact h.bind fun vs => sim_newVector vs

end Sequence

/-! ## Maps and metadata -/

namespace Mapping

theorem get?_rename (ρ : Renaming) (m k : Value) : get? (rename ρ m) (rename ρ k) = rename ρ (get? m k) := by
  cases m with
  | map node entries =>
    rw [rename_map]
    exact Entries.get?_rename ρ entries k
  | _ => rfl

theorem sim_ofArguments (args : List Value) : Sim m (ofArguments args) (ofArguments (rename m.ρ args)) := by
  unfold ofArguments
  rw [length_rename]
  refine .ite (.fail _) ((Argument.sim_allPairs args).bind fun pairs => ?_)
  rw [← Entries.rename_ofPairs]
  exact sim_newMap _

theorem sim_assoc (args : List Value) : Sim m (assoc args) (assoc (rename m.ρ args)) := by
  cases args with
  | nil => exact .fail _
  | cons coll kvs =>
    rw [rename_cons]
    unfold assoc
    dsimp only
    rw [length_rename]
    refine .ite (.fail _) ?_
    have hput : Sim m
        (do let entries ← Argument.mapping coll
            newMap (Entries.putAll entries (← Argument.pairs #[] kvs)))
        (do let entries ← Argument.mapping (rename m.ρ coll)
            newMap (Entries.putAll entries (← Argument.pairs #[] (rename m.ρ kvs)))) := by
      refine (Argument.sim_mapping coll).bind fun entries => (Argument.sim_allPairs kvs).bind fun pairs => ?_
      rw [← Entries.rename_putAll]
      exact sim_newMap _
    cases coll with
    | nil =>
      refine (Argument.sim_allPairs kvs).bind fun pairs => ?_
      rw [← Entries.rename_ofPairs]
      exact sim_newMap _
    | _ => exact hput

theorem sim_dissoc (coll : Value) (ks : List Value) :
    Sim m (dissoc coll ks) (dissoc (rename m.ρ coll) (rename m.ρ ks)) := by
  have hnames : ((rename m.ρ ks).filterMap fun k => k.key?.map Key.name) =
      ks.filterMap fun k => k.key?.map Key.name := by
    rw [rename_list, List.filterMap_map]
    refine congrArg (List.filterMap · ks) (funext fun k => ?_)
    show (rename m.ρ k).key?.map Key.name = _
    rw [Value.key?_rename]
    cases k.key? with
    | none => rfl
    | some key => exact congrArg some (Key.name_rename m.ρ key)
  unfold dissoc
  rw [hnames]
  refine (Argument.sim_mapping coll).bind fun entries => ?_
  rw [← Entries.rename_without]
  exact sim_newMap _

theorem sim_gather (done : Array (Key × Value)) (ms : List Value) :
    Sim m (gather done ms) (gather (rename m.ρ done) (rename m.ρ ms)) := by
  induction ms generalizing done with
  | nil => exact .pure (toList_rename m.ρ done)
  | cons v rest ih =>
    have hmore : Sim m
        (do let entries ← Argument.mapping v
            gather (done ++ entries) rest)
        (do let entries ← Argument.mapping (rename m.ρ v)
            gather (rename m.ρ done ++ entries) (rename m.ρ rest)) := by
      refine (Argument.sim_mapping v).bind fun entries => ?_
      rw [← rename_array_append]
      exact ih _
    cases v with
    | nil => exact ih done
    | _ => exact hmore

theorem sim_merge (ms : List Value) : Sim m (merge ms) (merge (rename m.ρ ms)) := by
  have h := sim_gather (m := m) #[] ms
  rw [rename_empty] at h
  refine h.bind fun entries => ?_
  rw [← Entries.rename_ofPairs]
  exact sim_newMap _

end Mapping

theorem sim_withMetadata (f data : Value) :
    Sim m (f.withMetadata data) ((rename m.ρ f).withMetadata (rename m.ρ data)) := by
  cases f with
  | builtin id code old => exact Sim.fresh fun _ => .pure rfl
  | closure id kind params body env old => exact Sim.fresh fun _ => .pure rfl
  | _ => exact sim_failShowing .notDescribed _

/-! ## Numbers -/

namespace Numeric

/-- A failure that shows two values shows the same texts. -/
theorem sim_failShowingTwo (f : String → String → Fault) (a b : Value) :
    Sim m (do let left ← print a
              fail (f left (← print b)) : Act α)
      (do let left ← print (rename m.ρ a)
          fail (f left (← print (rename m.ρ b)))) :=
  (sim_print a).bind fun left => sim_failShowing (f left) b

theorem sim_operate (op : Arithmetic) (a b : Value) :
    Sim m (operate op a b) (operate op (rename m.ρ a) (rename m.ρ b)) := by
  cases a with
  | num x =>
    cases b with
    | num y => exact .pure rfl
    | _ => exact sim_failShowingTwo (.operands op) _ _
  | _ => exact sim_failShowingTwo (.operands op) _ _

theorem sim_fold (op : Arithmetic) (acc : Value) (vs : List Value) :
    Sim m (fold op acc vs) (fold op (rename m.ρ acc) (rename m.ρ vs)) := by
  induction vs generalizing acc with
  | nil => exact .pure rfl
  | cons v rest ih => exact (sim_operate op acc v).bind fun acc => ih acc

theorem sim_negate (v : Value) : Sim m (negate v) (negate (rename m.ρ v)) := by
  cases v with
  | num x => exact .pure rfl
  | _ => exact sim_failShowing .negated _

theorem sim_difference (vs : List Value) : Sim m (difference vs) (difference (rename m.ρ vs)) := by
  match vs with
  | [] => exact .pure rfl
  | [v] => exact sim_negate v
  | v :: w :: rest => exact sim_fold .subtract v (w :: rest)

theorem sim_quotient (vs : List Value) : Sim m (quotient vs) (quotient (rename m.ρ vs)) := by
  match vs with
  | [] => exact .pure rfl
  | [v] => exact sim_operate .divide (.num 1) v
  | v :: w :: rest => exact sim_fold .divide v (w :: rest)

theorem sim_compare (c : Comparison) (a b : Value) :
    Sim m (compare c a b) (compare c (rename m.ρ a) (rename m.ρ b)) := by
  cases a with
  | num x =>
    cases b with
    | num y => exact .pure rfl
    | _ => exact sim_failShowingTwo (.incomparable c) _ _
  | _ => exact sim_failShowingTwo (.incomparable c) _ _

theorem sim_ofTwo (f : Number → Number → Number) (a b : Value) :
    Sim m (ofTwo f a b) (ofTwo f (rename m.ρ a) (rename m.ρ b)) :=
  (Argument.sim_number a).bind fun _ => (Argument.sim_number b).bind fun _ => .pure rfl

theorem sim_extreme (pick : Number → Number → Number) (acc : Number) (vs : List Value) :
    Sim m (extreme pick acc vs) (extreme pick acc (rename m.ρ vs)) := by
  induction vs generalizing acc with
  | nil => exact .pure rfl
  | cons v rest ih => exact (Argument.sim_number v).bind fun _ => ih _

theorem sim_extremeOf (name : String) (pick : Number → Number → Number) (vs : List Value) :
    Sim m (extremeOf name pick vs) (extremeOf name pick (rename m.ρ vs)) := by
  cases vs with
  | nil => exact Argument.sim_wrongArity name []
  | cons v rest => exact (Argument.sim_number v).bind fun _ => sim_extreme pick _ rest

theorem sim_seed (v : Value) : Sim m (liftM (seed v)) (liftM (seed (rename m.ρ v))) := by
  have hshown : Sim m (liftM (print v) >>= fun text => (Pure.pure (Number.Seeded.ofText text) : Act UInt64))
      (liftM (print (rename m.ρ v)) >>= fun text => Pure.pure (Number.Seeded.ofText text)) :=
    (sim_print v).bind fun _ => .pure rfl
  cases v with
  | num x => exact .pure rfl
  | _ => exact hshown

end Numeric

/-! ## Texts -/

namespace Textual

theorem sim_keyword (v : Value) : Sim m (keyword v) (keyword (rename m.ρ v)) := by
  have hnamed : Sim m (Argument.nameFor "keyword" v >>= fun name => liftM (intern name) >>= fun k =>
        (Pure.pure (Value.keyword k) : Act Value))
      (Argument.nameFor "keyword" (rename m.ρ v) >>= fun name => liftM (intern name) >>= fun k =>
        Pure.pure (Value.keyword k)) :=
    (Argument.sim_nameFor "keyword" v).bind fun name => (sim_intern name).bind fun _ => .pure rfl
  cases v with
  | keyword k => exact .pure rfl
  | _ => exact hnamed

theorem sim_substring (s start : Value) (stop : Option Value) :
    Sim m (substring s start stop) (substring (rename m.ρ s) (rename m.ρ start) (rename m.ρ stop)) := by
  refine (Argument.sim_string s).bind fun s => (Argument.sim_number start).bind fun start => ?_
  refine (Argument.sim_number? stop).bind fun stop => ?_
  rw [rename_plain m.ρ s, rename_plain m.ρ start, rename_plain m.ρ stop]
  exact .pure rfl

theorem sim_join (args : List Value) : Sim m (join args) (join (rename m.ρ args)) := by
  match args with
  | [coll] =>
    refine (Argument.sim_items coll).bind fun items => (sim_printEachPlain items).bind fun texts => ?_
    rw [rename_plain m.ρ texts]
    exact .pure rfl
  | [separator, coll] =>
    refine (sim_printPlain separator).bind fun separator => (Argument.sim_items coll).bind fun items => ?_
    refine (sim_printEachPlain items).bind fun texts => ?_
    rw [rename_plain m.ρ separator, rename_plain m.ρ texts]
    exact .pure rfl
  | [] | _ :: _ :: _ :: _ => exact Argument.sim_wrongArity "join" _

theorem sim_read (s : Value) : Sim m (read s) (read (rename m.ρ s)) := by
  refine (Argument.sim_string s).bind fun src => (sim_readForm src).bind fun r => ?_
  cases r with
  | ok v => exact .pure rfl
  | error e => exact .fail _

end Textual

/-! ## Expanders -/

namespace Expander

theorem sim_when (args : List Value) : Sim m (when args) (when (rename m.ρ args)) := by
  cases args with
  | nil => exact Argument.sim_wrongArity "when" []
  | cons test body =>
    refine (sim_newSymbol "do").bind fun head => (sim_newList (head :: body)).bind fun block => ?_
    exact (sim_newSymbol "if").bind fun head => sim_newList [head, test, block]

theorem sim_conditionals (otherwise : Value) (args : List Value) :
    Sim m (liftM (conditionals otherwise args))
      (liftM (conditionals (rename m.ρ otherwise) (rename m.ρ args))) := by
  match args with
  | [] | [_] => exact .pure rfl
  | form :: test :: rest =>
    rw [rename_cons, rename_cons]
    unfold conditionals conditional
    rw [lift_bind, lift_bind, lift_bind, lift_bind]
    refine Sim.bind ((sim_newSymbol "if").bind fun head => sim_newList [head, test, form, otherwise]) fun v => ?_
    exact sim_conditionals v rest

theorem sim_cond (args : List Value) : Sim m (cond args) (cond (rename m.ρ args)) := by
  unfold cond
  rw [length_rename, ← rename_reverse]
  exact .ite (.fail _) (sim_conditionals .nil _)

theorem sim_thread (acc form : Value) :
    Sim m (liftM (thread acc form)) (liftM (thread (rename m.ρ acc) (rename m.ρ form))) := by
  have hplain := sim_newList (m := m) [form, acc]
  cases form with
  | seq shape node items =>
    rw [rename_list, List.map_cons] at hplain
    rw [rename_seq] at hplain ⊢
    cases shape with
    | vector => exact hplain
    | list =>
      cases items with
      | nil => exact hplain
      | cons head args => exact sim_newList (head :: acc :: args)
  | _ => exact hplain

theorem sim_threadAll (acc : Value) (forms : List Value) :
    Sim m (liftM (threadAll acc forms)) (liftM (threadAll (rename m.ρ acc) (rename m.ρ forms))) := by
  induction forms generalizing acc with
  | nil => exact .pure rfl
  | cons form rest ih =>
    rw [rename_cons]
    unfold threadAll
    rw [lift_bind, lift_bind]
    exact (sim_thread acc form).bind fun acc => ih acc

theorem sim_threadFirst (args : List Value) : Sim m (threadFirst args) (threadFirst (rename m.ρ args)) := by
  cases args with
  | nil => exact Argument.sim_wrongArity "->" []
  | cons x forms => exact sim_threadAll x forms

end Expander

/-! ## All functions -/

theorem Question.holds_rename (ρ : Renaming) (q : Question) (v : Value) : q.holds (rename ρ v) = q.holds v := by
  cases q with
  | truth | falsity => cases v <;> rfl
  | _ =>
    unfold Question.holds
    rw [Value.kind_rename]

/-- A function of a collection that makes something of its elements. -/
theorem Argument.sim_onItems {f f' : List Value → Act α} (h : ∀ items, Sim m (f items) (f' (rename m.ρ items)))
    (name : String) (args : List Value) :
    Sim m (one name (fun v => items v >>= f) args) (one name (fun v => items v >>= f') (rename m.ρ args)) :=
  sim_one (fun v => (sim_items v).bind h) name args

/-- **A function that calls no other does the same with renamed arguments.** -/
theorem Builtin.sim_evaluate (b : Builtin) (args : List Value) :
    Sim m (b.evaluate args) (b.evaluate (rename m.ρ args)) := by
  cases b with
  | typeName =>
    refine Argument.sim_one (fun v => ?_) _ args
    rw [Value.kind_rename]
    exact (sim_intern v.kind.name).map fun _ => rfl
  | question q =>
    refine Argument.sim_one (fun v => ?_) _ args
    rw [Question.holds_rename]
    exact .pure rfl
  | isEmpty =>
    refine Argument.sim_one (fun v => ?_) _ args
    exact (Sequence.sim_size _ v).map fun _ => rfl
  | keyword => exact Argument.sim_one Textual.sim_keyword _ args
  | symbol =>
    exact Argument.sim_one (fun v => (Argument.sim_nameFor _ v).bind fun name => sim_newSymbol name) _ args
  | list => exact sim_newList args
  | vector => exact sim_newVector args
  | vec => exact Argument.sim_onItems sim_newVector _ args
  | hashMap => exact Mapping.sim_ofArguments args
  | atom => exact Argument.sim_one sim_newAtom _ args
  | equal =>
    refine Argument.sim_two (fun v w => .pure ?_) _ args
    rw [Value.equal_rename]
    rfl
  | notEqual =>
    refine Argument.sim_two (fun v w => .pure ?_) _ args
    rw [Value.equal_rename]
    rfl
  | compare c => exact Argument.sim_two (Numeric.sim_compare c) _ args
  | add => exact Numeric.sim_fold .add (.num 0) args
  | subtract => exact Numeric.sim_difference args
  | multiply => exact Numeric.sim_fold .multiply (.num 1) args
  | divide => exact Numeric.sim_quotient args
  | modulo => exact Argument.sim_two (Numeric.sim_ofTwo Number.modulo) _ args
  | nth => exact Argument.sim_two Sequence.sim_nth _ args
  | first => exact Argument.sim_one (fun v => (Argument.sim_items v).map (headD_rename m.ρ)) _ args
  | rest =>
    refine Argument.sim_onItems (fun items => ?_) _ args
    rw [tail_rename]
    exact sim_newVector _
  | last => exact Argument.sim_one (fun v => (Argument.sim_items v).map (getLastD_rename m.ρ)) _ args
  | butlast =>
    refine Argument.sim_onItems (fun items => ?_) _ args
    rw [dropLast_rename]
    exact sim_newVector _
  | count =>
    refine Argument.sim_one (fun v => ?_) _ args
    exact (Sequence.sim_size _ v).map fun _ => rfl
  | slice => exact Argument.sim_twoOrThree Sequence.sim_sliceOf _ args
  | cons =>
    exact Argument.sim_two (fun v coll => (Argument.sim_items coll).bind fun items =>
      sim_newList (v :: items)) _ args
  | conj => exact Argument.sim_oneOrMore Sequence.sim_grow _ args
  | concat =>
    have h := Sequence.sim_flatten (m := m) #[] args
    rw [rename_empty] at h
    exact h.bind fun vs => sim_newVector vs
  | reverse =>
    refine Argument.sim_onItems (fun items => ?_) _ args
    rw [← rename_reverse]
    exact sim_newVector _
  | range => exact Sequence.sim_range args
  | indexOf =>
    refine Argument.sim_two (fun coll v => (Argument.sim_items coll).map fun items => ?_) _ args
    rw [Sequence.indexFrom_rename, Sequence.rename_positionValue]
  | lastIndexOf =>
    refine Argument.sim_two (fun coll v => (Argument.sim_items coll).map fun items => ?_) _ args
    rw [Sequence.lastIndexFrom_rename, Sequence.rename_positionValue]
  | seq => exact Argument.sim_one Sequence.sim_ofAny _ args
  | lst => exact Argument.sim_onItems sim_newList _ args
  | sort => exact Argument.sim_one Sequence.sim_sort _ args
  | partition => exact Argument.sim_two Sequence.sim_partition _ args
  | replicate => exact Argument.sim_two Sequence.sim_replicate _ args
  | metadata =>
    refine Argument.sim_one (fun v => ?_) _ args
    exact .pure (Value.metadata_rename m.ρ v)
  | withMetadata => exact Argument.sim_two sim_withMetadata _ args
  | get =>
    let f : Value → Value → Option Value → Act Value := fun coll k missing =>
      Pure.pure ((Mapping.get? coll k).getD (missing.getD .nil))
    show Sim m (Argument.twoOrThree _ f args) (Argument.twoOrThree _ f (rename m.ρ args))
    refine Argument.sim_twoOrThree (fun coll k missing => .pure ?_) _ args
    rw [Mapping.get?_rename]
    cases Mapping.get? coll k with
    | some v => rfl
    | none => cases missing <;> rfl
  | assoc => exact Mapping.sim_assoc args
  | dissoc => exact Argument.sim_oneOrMore Mapping.sim_dissoc _ args
  | keys =>
    refine Argument.sim_one (fun v => (Argument.sim_mapping v).bind fun entries => ?_) _ args
    have hkeys : ((rename m.ρ entries).map fun (e : Key × Value) => e.1.toValue) =
        rename m.ρ (entries.map fun e => e.1.toValue) := by
      rw [rename_list, rename_list, List.map_map, List.map_map]
      exact List.map_congr_left fun e _ => Key.toValue_rename m.ρ e.1
    rw [hkeys]
    exact sim_newVector _
  | vals =>
    refine Argument.sim_one (fun v => (Argument.sim_mapping v).bind fun entries => ?_) _ args
    have hvals : (rename m.ρ entries).map Prod.snd = rename m.ρ (entries.map Prod.snd) := by
      rw [rename_list, rename_list, List.map_map, List.map_map]
      rfl
    rw [hvals]
    exact sim_newVector _
  | entries =>
    exact Argument.sim_one (fun v => (Argument.sim_mapping v).bind fun entries =>
      (Sequence.sim_entryVectors entries).bind fun vs => sim_newVector vs) _ args
  | contains =>
    refine Argument.sim_two (fun v k => (Argument.sim_mapping v).map fun entries => ?_) _ args
    rw [Entries.get?_rename]
    cases Entries.get? entries k <;> rfl
  | merge => exact Mapping.sim_merge args
  | str =>
    refine (sim_printEachPlain args).bind fun texts => ?_
    rw [rename_plain m.ρ texts]
    exact .pure rfl
  | prStr =>
    refine (sim_printEach args).bind fun texts => ?_
    rw [rename_plain m.ρ texts]
    exact .pure rfl
  | subs => exact Argument.sim_twoOrThree Textual.sim_substring _ args
  | join => exact Textual.sim_join args
  | println =>
    refine (sim_printEachPlain args).bind fun texts => ?_
    rw [rename_plain m.ρ texts]
    exact (sim_printLine _).map fun _ => rfl
  | prn =>
    refine (sim_printEach args).bind fun texts => ?_
    rw [rename_plain m.ρ texts]
    exact (sim_printLine _).map fun _ => rfl
  | deref => exact Argument.sim_one (fun v => (Argument.sim_cell v).bind fun id => sim_readContent id) _ args
  | reset =>
    refine Argument.sim_two (fun a v => (Argument.sim_cell a).bind fun id => ?_) _ args
    exact (sim_setContent id v).map fun _ => rfl
  | throw =>
    exact Argument.sim_one (fun v => (sim_printPlain v).failWith fun _ => rfl) _ args
  | readString => exact Argument.sim_one Textual.sim_read _ args
  | when => exact Expander.sim_when args
  | cond => exact Expander.sim_cond args
  | threadFirst => exact Expander.sim_threadFirst args
  | unary u =>
    refine Argument.sim_one (fun v => ?_) _ args
    exact (Argument.sim_number v).map fun _ => rfl
  | pow => exact Argument.sim_two (Numeric.sim_ofTwo Number.power) _ args
  | atan2 => exact Argument.sim_two (Numeric.sim_ofTwo Number.angle) _ args
  | min => exact Numeric.sim_extremeOf _ Number.smaller args
  | max => exact Numeric.sim_extremeOf _ Number.larger args
  | rnd =>
    refine Argument.sim_one (fun v => ?_) _ args
    exact (Numeric.sim_seed v).map fun _ => rfl
  | slurp =>
    refine Argument.sim_one (fun v => (Argument.sim_string v).bind fun path => ?_) _ args
    exact ((sim_readFile path).within _).map fun _ => rfl
  | spit =>
    refine Argument.sim_two (fun v content => (Argument.sim_string v).bind fun path => ?_) _ args
    refine (sim_printPlain content).bind fun text => ?_
    exact ((sim_writeFile path text).within _).map fun _ => rfl
  | jsonStringify =>
    refine Argument.sim_one (fun v => ?_) _ args
    exact ((sim_encodeJson v).within _).map fun _ => rfl
  | jsonParse =>
    exact Argument.sim_one (fun v => (Argument.sim_string v).bind fun text => (sim_decodeJson text).within _) _ args
  | map | mapIndexed | filter | remove | apply | swap => exact Argument.sim_wrongArity _ args

end EditableLisp
