import EditableLisp.Proofs.Library

/-!
# Edits keep the world ok

An edit makes the collections on the way to the root anew, in new nodes, so nothing that the world keeps
under the old nodes can go over to the new ones (`keeps_replaceChild`, `Tree.keeps_replace`).
-/

namespace EditableLisp

open Registry

variable {R : Registry}

/-! ## Replacing an element -/

theorem allKnown_set {items : List Value} {v : Value} (hi : R.AllKnown items) (hv : R.Known v) (i : Nat) :
    R.AllKnown (items.set i v) := by
  intro u hu
  rcases List.mem_or_eq_of_mem_set hu with hm | rfl
  · exact hi u hm
  · exact hv

/-- An entry may take the place of another if its key has the same name or a new one. -/
theorem nodup_names_set {entries : Entries} (h : (Entries.names entries).Nodup) {i : Nat}
    {entry : Key × Value} (hnew : entry.1.name ∉ Entries.names (entries.eraseIdx i)) :
    (Entries.names (entries.set i entry)).Nodup := by
  induction entries generalizing i with
  | nil => exact h
  | cons e rest ih =>
    obtain ⟨hnot, hrest⟩ := List.nodup_cons.mp h
    cases i with
    | zero => exact List.nodup_cons.mpr ⟨hnew, hrest⟩
    | succ i =>
      have hne : entry.1.name ≠ e.1.name := fun he => hnew (by rw [he]; exact List.mem_cons_self)
      have hrest' : entry.1.name ∉ Entries.names (rest.eraseIdx i) :=
        fun hm => hnew (List.mem_cons_of_mem _ hm)
      refine List.nodup_cons.mpr ⟨?_, ih hrest hrest'⟩
      intro hm
      obtain ⟨e', he', hname⟩ := List.mem_map.mp hm
      rcases List.mem_or_eq_of_mem_set he' with hmem | rfl
      · exact hnot (List.mem_map.mpr ⟨e', hmem, hname⟩)
      · exact hne hname

theorem name_notMem_eraseIdx {entries : Entries} (h : (Entries.names entries).Nodup) {i : Nat}
    {e : Key × Value} (he : entries[i]? = some e) : e.1.name ∉ Entries.names (entries.eraseIdx i) := by
  induction entries generalizing i with
  | nil => cases he
  | cons first rest ih =>
    obtain ⟨hnot, hrest⟩ := List.nodup_cons.mp h
    cases i with
    | zero =>
      cases he
      exact hnot
    | succ i =>
      intro hm
      rcases List.mem_cons.mp hm with hname | hm
      · exact hnot (hname ▸ List.mem_map.mpr ⟨e, List.mem_of_getElem? he, rfl⟩)
      · exact ih hrest he hm

theorem steady_replacementKey {v : Value} (hv : R.Known v) (others : List String) :
    Steady R (replacementKey others v) fun key => R.KnownKey key ∧ key.name ∉ others := by
  unfold replacementKey
  split
  · exact Argument.steady_failWith hv _
  · rename_i key hkey
    split
    · exact Argument.steady_failWith hv _
    · rename_i hn
      exact Steady.pure ⟨Argument.knownKey_of_key? hv hkey, fun hm => hn (List.contains_iff_mem.mpr hm)⟩

/-- Replacing the key of an entry replaces it among the keys and values in turn. -/
theorem Entries.children_set_key {entries : Entries} {i : Nat} {k : Key} {v : Value}
    (h : entries[i]? = some (k, v)) (key : Key) :
    ((entries.set i (key, v)).flatMap fun (k, v) => [k.toValue, v]) =
      (entries.flatMap fun (k, v) => [k.toValue, v]).set (2 * i) key.toValue := by
  induction entries generalizing i with
  | nil => cases h
  | cons first rest ih =>
    cases i with
    | zero =>
      cases h
      rfl
    | succ i =>
      have hi : 2 * (i + 1) = 2 * i + 1 + 1 := by omega
      rw [hi, List.set_cons_succ, List.flatMap_cons, List.flatMap_cons, ih h]
      rfl

/-- Replacing the value of an entry replaces it among the keys and values in turn. -/
theorem Entries.children_set_value {entries : Entries} {i : Nat} {k : Key} {v : Value}
    (h : entries[i]? = some (k, v)) (value : Value) :
    ((entries.set i (k, value)).flatMap fun (k, v) => [k.toValue, v]) =
      (entries.flatMap fun (k, v) => [k.toValue, v]).set (2 * i + 1) value := by
  induction entries generalizing i with
  | nil => cases h
  | cons first rest ih =>
    cases i with
    | zero =>
      cases h
      rfl
    | succ i =>
      have hi : 2 * (i + 1) + 1 = 2 * i + 1 + 1 + 1 := by omega
      rw [hi, List.set_cons_succ, List.flatMap_cons, List.flatMap_cons, ih h]
      rfl

/-- A map may be made anew with another entry, whose key is no other's, in the place of one. -/
theorem keeps_replaceEntry {node : Node} {entries : Entries} (hm : R.Known (.map node entries)) {i index : Nat}
    {entry : Key × Value} {part : Value} (hk : R.KnownKey entry.1) (hv : R.Known entry.2)
    (hnew : entry.1.name ∉ Entries.names (entries.eraseIdx i))
    (hset : (Value.map node (entries.set i entry)).children = (Value.map node entries).children.set index part) :
    Keeps R (relayout node (2 * entries.length) index >>= fun node' =>
      pure (Value.map node' (entries.set i entry))) Known := by
  refine Keeps.of_ok fun w hw => ?_
  obtain ⟨hnodup, hentries⟩ := hw.partsKnown hm
  have hlays : node.Lays (Value.map node entries).children := hw.isLaidOut hm node rfl
  have hknown : R.EntriesKnown (entries.set i entry) := by
    intro e he
    rcases List.mem_or_eq_of_mem_set he with he | rfl
    · exact hentries e he
    · exact ⟨hk, hv⟩
  refine Keeps.bind (keeps_relayout (k := fun node' => .map node' (entries.set i entry))
    (fun _ => ⟨nodup_names_set hnodup hnew, hknown⟩) fun w id => ?_) fun R' node' _ h => Keeps.pure h
  have hreplaced := hlays.replaced (Value.length_children_map _ _) w id index part
  rw [← hset] at hreplaced
  exact Value.isLaidOut_of_lays rfl hreplaced

theorem keeps_replaceChild {owner child : Value} (ho : R.Known owner) (hc : R.Known child) (index : Nat) :
    Keeps R (owner.replaceChild index child) Known := by
  refine Keeps.of_ok fun w hw => ?_
  have hparts := hw.partsKnown ho
  have hlaid := hw.isLaidOut ho
  unfold Value.replaceChild
  split
  · rename_i shape node items
    split
    · exact Keeps.fail _
    · have hlays : node.Lays items := hlaid node rfl
      refine Keeps.bind (keeps_relayout (k := fun node => .seq shape node (items.set index child))
        (fun _ => allKnown_set hparts hc index) fun w id => ?_) fun R' node' _ h => Keeps.pure h
      exact Value.isLaidOut_of_lays rfl (hlays.replaced rfl w id index child)
  · rename_i node entries
    dsimp only
    split
    · exact Keeps.fail _
    · rename_i key value he
      obtain ⟨hk, hv⟩ := hparts.2 _ (List.mem_of_getElem? he)
      split
      · rename_i heven
        have hindex : 2 * (index / 2) = index := by omega
        refine (steady_replacementKey hc _).bind_keeps fun key' hkey' => ?_
        have hset : (Value.map node (entries.set (index / 2) (key', value))).children =
            (Value.map node entries).children.set index key'.toValue := by
          have := Entries.children_set_key he key'
          rwa [hindex] at this
        exact keeps_replaceEntry ho hkey'.1 hv hkey'.2 hset
      · rename_i hodd
        have hindex : 2 * (index / 2) + 1 = index := by omega
        have hname := name_notMem_eraseIdx hparts.1 he
        have hset : (Value.map node (entries.set (index / 2) (key, child))).children =
            (Value.map node entries).children.set index child := by
          have := Entries.children_set_value he child
          rwa [hindex] at this
        exact keeps_replaceEntry ho hk hc hname hset
  · exact (steady_print ho).bind_keeps fun _ _ => Keeps.fail _

/-! ## Trees -/

namespace Tree

/-- All nodes of an index are known. -/
def NodesKnown (R : Registry) (nodes : Array TreeNode) : Prop := ∀ n ∈ nodes, R.Known n.value

variable {nodes : Array TreeNode}

theorem NodesKnown.push (h : NodesKnown R nodes) {n : TreeNode} (hn : R.Known n.value) :
    NodesKnown R (nodes.push n) := by
  intro m hm
  rcases Array.mem_push.mp hm with hm | rfl
  · exact h m hm
  · exact hn

/-- Setting the children of a node leaves its value alone. -/
theorem NodesKnown.modify (h : NodesKnown R nodes) (id : Nat) (children : List Nat) :
    NodesKnown R (nodes.modify id fun n => { n with children := children }) := by
  intro m hm
  obtain ⟨i, hi⟩ := Array.mem_iff_getElem?.mp hm
  rw [Array.getElem?_modify] at hi
  split at hi
  · obtain ⟨n, hn, rfl⟩ := Option.map_eq_some_iff.mp hi
    exact h n (Array.mem_of_getElem? hn)
  · exact h m (Array.mem_of_getElem? hi)

mutual

theorem known_index {w : World} (hw : R.Ok w) {place : Option Place} {nodes : Array TreeNode} (v : Value)
    (hv : R.Known v) (h : NodesKnown R nodes) : NodesKnown R (index place nodes v).2 := by
  have hparts := hw.partsKnown hv
  match v with
  | .nil | .bool _ | .num _ | .text _ | .keyword _ | .symbol _ _ | .builtin _ _ _
  | .closure _ _ _ _ _ _ | .atom _ =>
    unfold index
    exact h.push hv
  | .seq shape node items =>
    unfold index
    exact (known_indexItems hw items hparts (h.push hv)).modify _ _
  | .map node entries =>
    unfold index
    exact (known_indexEntries hw entries hparts.2 (h.push hv)).modify _ _

theorem known_indexItems {w : World} (hw : R.Ok w) {owner i : Nat} {done : Array Nat}
    {nodes : Array TreeNode} (items : List Value) (hi : R.AllKnown items) (h : NodesKnown R nodes) :
    NodesKnown R (indexItems owner i done nodes items).2 := by
  match items with
  | [] =>
    unfold indexItems
    exact h
  | v :: rest =>
    obtain ⟨hv, hrest⟩ := allKnown_cons.mp hi
    unfold indexItems
    exact known_indexItems hw rest hrest (known_index hw v hv h)

theorem known_indexEntries {w : World} (hw : R.Ok w) {owner i : Nat} {done : Array Nat}
    {nodes : Array TreeNode} (entries : List (Key × Value)) (he : R.EntriesKnown entries)
    (h : NodesKnown R nodes) : NodesKnown R (indexEntries owner i done nodes entries).2 := by
  match entries with
  | [] =>
    unfold indexEntries
    exact h
  | (k, v) :: rest =>
    obtain ⟨⟨hk, hv⟩, hrest⟩ := List.forall_mem_cons.mp he
    unfold indexEntries
    exact known_indexEntries hw rest hrest (known_index hw v hv (h.push (known_toValue hk)))

end

/-- The nodes of the tree of a known value are known. -/
theorem known_ofValue {w : World} (hw : R.Ok w) {v : Value} (hv : R.Known v) :
    NodesKnown R (ofValue v).nodes := known_index hw v hv nofun

theorem NodesKnown.value {t : Tree} (h : NodesKnown R t.nodes) (id : Nat) :
    R.Known ((t.value? id).getD .nil) := by
  unfold value?
  cases hn : t.nodes[id]? with
  | none => trivial
  | some n => exact h n (Array.mem_of_getElem? hn)

theorem keeps_rebuild {t : Tree} (ht : NodesKnown R t.nodes) (id : Nat) {v : Value} (hv : R.Known v) :
    Keeps R (t.rebuild id v) Known := by
  induction id using Nat.strongRecOn generalizing R v with
  | ind id ih =>
    rw [rebuild]
    split
    · split
      · rename_i p _ hlt
        refine Keeps.bind (keeps_replaceChild (ht.value p.owner) hv p.index) fun R' owner hle ho => ?_
        exact ih p.owner hlt (fun n hn => (ht n hn).mono hle) ho
      · exact Keeps.pure hv
    · exact Keeps.pure hv

/-- **The tree that an edit makes is known.** -/
theorem keeps_replace {root v : Value} (hr : R.Known root) (hv : R.Known v) (id : Nat) :
    Keeps R ((ofValue root).replace id v) fun R' result => R'.Known result.1.root := by
  refine Keeps.of_ok fun w hw => ?_
  unfold replace
  split
  · exact Keeps.fail _
  · refine Keeps.bind (keeps_rebuild (known_ofValue hw hr) id hv) fun R' u _ hu => ?_
    refine Keeps.of_ok fun w' hw' => ?_
    dsimp only
    split
    · exact Keeps.pure ((known_ofValue hw' hu).value 0)
    · exact Keeps.fail _

end Tree

end EditableLisp
