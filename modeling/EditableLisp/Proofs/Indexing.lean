import EditableLisp.Tree
import EditableLisp.Proofs.Reading

/-!
# Numbers and paths

The numbers of a tree are those of the nodes below its root in pre-order. `Tree.Located` says what the index
holds of a value from its number on; `Tree.Indexed` that indexing adds just that. So the numbers of a tree
and the paths that lead somewhere in its root stand for each other: `Tree.atPath?` of a path holds what the
path leads to (`value?_of_atPath?`, `exists_atPath?`), its path is the path that it was found by
(`path_of_atPath?`), and every number is found by a path (`atPath?_path`).
-/

namespace EditableLisp

namespace Value

/-- What passes from the children of values to values holds of every value. -/
@[elab_as_elim]
theorem ofChildren {motive : Value → Prop} (h : ∀ v, (∀ u ∈ v.children, motive u) → motive v)
    (v : Value) : motive v := by
  induction v using ofParts with
  | seq shape node items ih => exact h _ ih
  | map node entries ih =>
    refine h _ fun u hu => ?_
    obtain ⟨e, he, hm⟩ := List.mem_flatMap.mp hu
    rcases List.mem_cons.mp hm with rfl | hm
    · cases e.1 <;> exact h _ nofun
    · rw [List.mem_singleton.mp hm]
      exact ih e he
  | _ => exact h _ nofun

end Value

theorem exists_getElem? {α : Type} {xs : List α} {i : Nat} (h : i < xs.length) : ∃ a, xs[i]? = some a :=
  ⟨_, List.getElem?_eq_getElem h⟩

namespace Tree

/-! ## One pass over the children -/

theorem index_toValue (k : Key) (place : Option Place) (nodes : Array TreeNode) :
    index place nodes k.toValue = (nodes.size, nodes.push ⟨k.toValue, place, []⟩) := by
  cases k <;> (unfold Key.toValue index; rfl)

/-- The keys and values of a map are indexed as its children in turn. -/
theorem indexEntries_eq (owner i : Nat) (done : Array Nat) (nodes : Array TreeNode)
    (entries : List (Key × Value)) :
    indexEntries owner i done nodes entries =
      indexItems owner i done nodes (entries.flatMap fun (k, v) => [k.toValue, v]) := by
  induction entries generalizing i done nodes with
  | nil => rfl
  | cons e rest ih =>
    obtain ⟨k, v⟩ := e
    show _ = indexItems owner i done nodes (k.toValue :: v :: rest.flatMap fun (k, v) => [k.toValue, v])
    unfold indexEntries indexItems
    rw [index_toValue]
    dsimp only
    unfold indexItems
    exact ih _ _ _

/-- Setting the children that stand there changes nothing. -/
theorem modify_push_self (nodes : Array TreeNode) (n : TreeNode) :
    ((nodes.push n).modify nodes.size fun m => { m with children := n.children }) = nodes.push n := by
  refine Array.ext_getElem? fun k => ?_
  rw [Array.getElem?_modify]
  split
  · rename_i hk
    subst hk
    rw [Array.getElem?_push_size]
    rfl
  · rfl

/-- A value is indexed as a node and its children after it. -/
theorem index_eq (place : Option Place) (nodes : Array TreeNode) (v : Value) :
    index place nodes v =
      (nodes.size, (indexItems nodes.size 0 #[] (nodes.push ⟨v, place, []⟩) v.children).2.modify nodes.size
        fun n => { n with
          children := (indexItems nodes.size 0 #[] (nodes.push ⟨v, place, []⟩) v.children).1 }) := by
  cases v with
  | seq => rw [index]; rfl
  | map node entries =>
    rw [index, indexEntries_eq]
    rfl
  | _ =>
    rw [index]
    · exact Prod.ext rfl (modify_push_self nodes _).symm
    all_goals nofun

/-! ## What the index holds -/

/-- From a number on, an array holds a value and what is below it: each node with its place, and with the
numbers of its children, which are larger. -/
inductive Located (nodes : Array TreeNode) : Option Place → Nat → Value → Prop where
  | node {place : Option Place} {id : Nat} {v : Value} {children : List Nat} :
      nodes[id]? = some ⟨v, place, children⟩ → children.length = v.children.length →
      (∀ (i c : Nat), children[i]? = some c → id < c) →
      (∀ (i c : Nat) (u : Value), children[i]? = some c → v.children[i]? = some u →
        Located nodes (some ⟨id, i⟩) c u) →
      Located nodes place id v

variable {nodes nodes' : Array TreeNode} {place : Option Place} {id : Nat} {v : Value}

theorem Located.lt_size (h : Located nodes place id v) : id < nodes.size := by
  obtain ⟨hnode, -, -, -⟩ := h
  exact (Array.getElem?_eq_some_iff.mp hnode).1

/-- Arrays that agree from a number on hold the same from there. -/
theorem Located.congr (h : Located nodes place id v)
    (hs : ∀ k, id ≤ k → k < nodes.size → nodes'[k]? = nodes[k]?) : Located nodes' place id v := by
  induction h with
  | node hnode hlen hlt _ ih =>
    have hid := (Array.getElem?_eq_some_iff.mp hnode).1
    refine .node ((hs _ (Nat.le_refl _) hid).trans hnode) hlen hlt fun i c u hc hu => ?_
    exact ih i c u hc hu fun k hk => hs k (Nat.le_trans (Nat.le_of_lt (hlt i c hc)) hk)

/-- In arrays that agree from a number on, a path leads to the same node from there. -/
theorem Located.follow?_congr (h : Located nodes place id v)
    (hs : ∀ k, id ≤ k → k < nodes.size → nodes'[k]? = nodes[k]?) (path : List Nat) :
    Tree.follow? ⟨nodes'⟩ id path = Tree.follow? ⟨nodes⟩ id path := by
  induction h generalizing path with
  | @node place id v children hnode hlen hlt _ ih =>
    have hid := (Array.getElem?_eq_some_iff.mp hnode).1
    cases path with
    | nil => rfl
    | cons i path =>
      have hchild : ∀ nodes : Array TreeNode, nodes[id]? = some ⟨v, place, children⟩ →
          Tree.child? ⟨nodes⟩ id i = children[i]? := by
        intro nodes hn
        unfold child?
        rw [hn]
        rfl
      unfold follow?
      rw [hchild _ hnode, hchild _ ((hs id (Nat.le_refl _) hid).trans hnode)]
      cases hc : children[i]? with
      | none => rfl
      | some c =>
        have hi : i < v.children.length := hlen ▸ (List.getElem?_eq_some_iff.mp hc).1
        refine ih i c _ hc (List.getElem?_eq_getElem hi) (fun k hk => ?_) path
        exact hs k (Nat.le_trans (Nat.le_of_lt (hlt i c hc)) hk)

/-! ## What indexing adds -/

/-- Indexing a value adds the value and what is below it, each node once, and leaves alone what was there. -/
structure Indexed (nodes : Array TreeNode) (place : Option Place) (v : Value)
    (result : Nat × Array TreeNode) : Prop where
  number : result.1 = nodes.size
  size : nodes.size < result.2.size
  old : ∀ k, k < nodes.size → result.2[k]? = nodes[k]?
  located : Located result.2 place nodes.size v
  covers : ∀ k, nodes.size ≤ k → k < result.2.size →
    ∃ path, Tree.follow? ⟨result.2⟩ nodes.size path = some k

/-- The same for values in turn, which are children of `owner` from the index `i` on. -/
structure IndexedEach (nodes : Array TreeNode) (owner i : Nat) (items : List Value) (numbers : List Nat)
    (nodes' : Array TreeNode) : Prop where
  length : numbers.length = items.length
  size : nodes.size ≤ nodes'.size
  old : ∀ k, k < nodes.size → nodes'[k]? = nodes[k]?
  located : ∀ (j c : Nat) (u : Value), numbers[j]? = some c → items[j]? = some u →
    nodes.size ≤ c ∧ Located nodes' (some ⟨owner, i + j⟩) c u
  covers : ∀ k, nodes.size ≤ k → k < nodes'.size →
    ∃ (j c : Nat) (path : List Nat), numbers[j]? = some c ∧ Tree.follow? ⟨nodes'⟩ c path = some k

/-- Values are indexed in turn if each is. -/
theorem indexed_indexItems {items : List Value}
    (h : ∀ u ∈ items, ∀ place nodes, Indexed nodes place u (index place nodes u)) (owner i : Nat)
    (done : Array Nat) (nodes : Array TreeNode) :
    ∃ numbers, (indexItems owner i done nodes items).1 = done.toList ++ numbers ∧
      IndexedEach nodes owner i items numbers (indexItems owner i done nodes items).2 := by
  induction items generalizing i done nodes with
  | nil =>
    unfold indexItems
    refine ⟨[], (List.append_nil _).symm, rfl, Nat.le_refl _, fun _ _ => rfl, nofun, fun k hk hlt => ?_⟩
    exact absurd hlt (Nat.not_lt.mpr hk)
  | cons v rest ih =>
    obtain ⟨hv, hrest⟩ := List.forall_mem_cons.mp h
    have hfirst := hv (some ⟨owner, i⟩) nodes
    unfold indexItems
    generalize index (some ⟨owner, i⟩) nodes v = first at hfirst
    obtain ⟨id, nodes₁⟩ := first
    obtain rfl : id = nodes.size := hfirst.number
    obtain ⟨numbers, hnumbers, heach⟩ := ih hrest (i + 1) (done.push nodes.size) nodes₁
    have hsame : ∀ k, nodes.size ≤ k → k < nodes₁.size → _ := fun k _ hk => heach.old k hk
    refine ⟨nodes.size :: numbers, ?_, ?_⟩
    · rw [hnumbers, Array.toList_push, List.append_assoc, List.singleton_append]
    · refine ⟨congrArg (· + 1) heach.length, Nat.le_trans (Nat.le_of_lt hfirst.size) heach.size, ?_, ?_, ?_⟩
      · intro k hk
        rw [heach.old k (Nat.lt_trans hk hfirst.size), hfirst.old k hk]
      · intro j c u hc hu
        cases j with
        | zero =>
          cases hc
          cases hu
          exact ⟨Nat.le_refl _, hfirst.located.congr hsame⟩
        | succ j =>
          obtain ⟨hle, hlocated⟩ := heach.located j c u hc hu
          have hplace : i + 1 + j = i + (j + 1) := by omega
          exact ⟨Nat.le_trans (Nat.le_of_lt hfirst.size) hle, hplace ▸ hlocated⟩
      · intro k hk hlt
        by_cases hk₁ : k < nodes₁.size
        · obtain ⟨path, hpath⟩ := hfirst.covers k hk hk₁
          exact ⟨0, nodes.size, path, rfl, (hfirst.located.follow?_congr hsame path).trans hpath⟩
        · obtain ⟨j, c, path, hc, hpath⟩ := heach.covers k (Nat.le_of_not_lt hk₁) hlt
          exact ⟨j + 1, c, path, hc, hpath⟩

/-- **Indexing a value adds it and what is below it**, whatever was indexed before. -/
theorem indexed_index (v : Value) (place : Option Place) (nodes : Array TreeNode) :
    Indexed nodes place v (index place nodes v) := by
  induction v using Value.ofChildren generalizing place nodes with
  | h v ih =>
    have hsize : (nodes.push ⟨v, place, []⟩).size = nodes.size + 1 := Array.size_push _
    obtain ⟨numbers, hnumbers, heach⟩ :=
      indexed_indexItems ih nodes.size 0 #[] (nodes.push ⟨v, place, []⟩)
    rw [index_eq]
    generalize indexItems nodes.size 0 #[] (nodes.push ⟨v, place, []⟩) v.children = below at hnumbers heach
    obtain ⟨children, nodes₁⟩ := below
    obtain rfl : children = numbers := hnumbers
    -- the node of the value is the only one that is written again
    have hold : ∀ k, k ≠ nodes.size →
        (nodes₁.modify nodes.size fun n => { n with children := children })[k]? = nodes₁[k]? := by
      intro k hk
      rw [Array.getElem?_modify, if_neg fun e => hk e.symm]
    have hnode : (nodes₁.modify nodes.size fun n => { n with children := children })[nodes.size]? =
        some ⟨v, place, children⟩ := by
      rw [Array.getElem?_modify, if_pos rfl, heach.old _ (by omega), Array.getElem?_push_size]
      rfl
    have habove : ∀ c, nodes.size + 1 ≤ c → ∀ k, c ≤ k → k < nodes₁.size →
        (nodes₁.modify nodes.size fun n => { n with children := children })[k]? = nodes₁[k]? :=
      fun c hc k hk _ => hold k (by omega)
    have hbelow : ∀ (i c : Nat) (u : Value), children[i]? = some c → v.children[i]? = some u →
        nodes.size < c ∧ Located nodes₁ (some ⟨nodes.size, i⟩) c u := by
      intro i c u hc hu
      have := heach.located i c u hc hu
      rwa [hsize, Nat.zero_add] at this
    have hchild : ∀ i c : Nat, children[i]? = some c → ∃ u, v.children[i]? = some u := by
      intro i c hc
      exact exists_getElem? (heach.length ▸ (List.getElem?_eq_some_iff.mp hc).1)
    refine ⟨rfl, ?_, fun k hk => ?_, .node hnode heach.length ?_ ?_, fun k hk hlt => ?_⟩
    · have := heach.size
      rw [hsize] at this
      rw [Array.size_modify]
      omega
    · show (nodes₁.modify nodes.size fun n => { n with children := children })[k]? = _
      rw [hold k (by omega), heach.old k (by omega), Array.getElem?_push_lt hk]
      exact (Array.getElem?_eq_getElem hk).symm
    · intro i c hc
      obtain ⟨u, hu⟩ := hchild i c hc
      exact (hbelow i c u hc hu).1
    · intro i c u hc hu
      obtain ⟨hlt, hlocated⟩ := hbelow i c u hc hu
      exact hlocated.congr (habove c hlt)
    · by_cases he : k = nodes.size
      · subst he
        exact ⟨[], rfl⟩
      · rw [Array.size_modify] at hlt
        obtain ⟨i, c, path, hc, hpath⟩ := heach.covers k (by omega) hlt
        obtain ⟨u, hu⟩ := hchild i c hc
        obtain ⟨hltc, hlocated⟩ := hbelow i c u hc hu
        refine ⟨i :: path, ?_⟩
        unfold follow? child?
        rw [hnode, Option.bind_some, hc]
        exact (hlocated.follow?_congr (habove c hltc) path).trans hpath

/-! ## Paths -/

variable {t : Tree}

/-- **What a path leads to from a number is what it leads to in the value there.** -/
theorem Located.of_follow? (h : Located t.nodes place id v) {path : List Nat} {c : Nat}
    (hc : t.follow? id path = some c) :
    ∃ place' u, v.at? path = some u ∧ Located t.nodes place' c u ∧ id ≤ c := by
  induction path generalizing place id v with
  | nil =>
    cases hc
    exact ⟨place, v, rfl, h, Nat.le_refl _⟩
  | cons i path ih =>
    obtain ⟨hnode, hlen, hlt, hbelow⟩ := h
    unfold follow? child? at hc
    rw [hnode] at hc
    split at hc
    · rename_i next hnext
      obtain ⟨u, hu⟩ : ∃ u, v.children[i]? = some u :=
        exists_getElem? (hlen ▸ (List.getElem?_eq_some_iff.mp hnext).1)
      obtain ⟨place', u, hat, hlocated, hle⟩ := ih (hbelow i next _ hnext hu) hc
      refine ⟨place', u, ?_, hlocated, Nat.le_trans (Nat.le_of_lt (hlt i next hnext)) hle⟩
      unfold Value.at?
      rw [hu]
      exact hat
    · cases hc

/-- A path that leads somewhere in a value leads somewhere from its number. -/
theorem Located.exists_follow? (h : Located t.nodes place id v) {path : List Nat} {u : Value}
    (hu : v.at? path = some u) : ∃ c, t.follow? id path = some c := by
  induction path generalizing place id v with
  | nil => exact ⟨id, rfl⟩
  | cons i path ih =>
    obtain ⟨hnode, hlen, hlt, hbelow⟩ := h
    unfold Value.at? at hu
    split at hu
    · rename_i child hchild
      have hi := (List.getElem?_eq_some_iff.mp hchild).1
      rw [← hlen] at hi
      obtain ⟨next, hc⟩ := exists_getElem? hi
      obtain ⟨c, hfollow⟩ := ih (hbelow i next child hc hchild) hu
      have hnext : t.child? id i = some next := by
        unfold child?
        rw [hnode]
        exact hc
      refine ⟨c, ?_⟩
      unfold follow?
      rw [hnext]
      exact hfollow
    · cases hu

theorem Located.value? (h : Located t.nodes place id v) : t.value? id = some v := by
  obtain ⟨hnode, -, -, -⟩ := h
  unfold Tree.value?
  rw [hnode]
  rfl

theorem Located.place? (h : Located t.nodes place id v) : t.place? id = place := by
  obtain ⟨hnode, -, -, -⟩ := h
  unfold Tree.place?
  rw [hnode]
  rfl

/-- The child of a node has its place there. -/
theorem Located.child (h : Located t.nodes place id v) {i c : Nat} (hc : t.child? id i = some c) :
    ∃ u, v.children[i]? = some u ∧ id < c ∧ Located t.nodes (some ⟨id, i⟩) c u := by
  obtain ⟨hnode, hlen, hlt, hbelow⟩ := h
  unfold child? at hc
  rw [hnode] at hc
  obtain ⟨u, hu⟩ : ∃ u, v.children[i]? = some u :=
    exists_getElem? (hlen ▸ (List.getElem?_eq_some_iff.mp hc).1)
  exact ⟨u, hu, hlt i c hc, hbelow i c u hc hu⟩

/-- The path to what is found below a node begins with the path to the node. -/
theorem Located.pathThrough (h : Located t.nodes place id v) {path : List Nat} {c : Nat}
    (hc : t.follow? id path = some c) (below : List Nat) :
    t.pathThrough c below = t.pathThrough id (path ++ below) := by
  induction path generalizing place id v with
  | nil =>
    cases hc
    rfl
  | cons i path ih =>
    unfold follow? at hc
    split at hc
    · rename_i next hnext
      obtain ⟨u, -, hlt, hlocated⟩ := h.child hnext
      rw [ih hlocated hc, Tree.pathThrough, hlocated.place?]
      exact if_pos hlt
    · cases hc

/-! ## Trees of values -/

theorem located_ofValue (v : Value) : Located (ofValue v).nodes none 0 v :=
  (indexed_index v none #[]).located

@[simp] theorem root_ofValue (v : Value) : (ofValue v).root = v := by
  unfold root
  rw [(located_ofValue v).value?]
  rfl

variable {root u : Value} {path : List Nat}

/-- A node that a path leads to holds what the path leads to in the root. -/
theorem value?_of_atPath? (h : (ofValue root).atPath? path = some id) :
    ∃ u, root.at? path = some u ∧ (ofValue root).value? id = some u := by
  obtain ⟨place, u, hu, hlocated, -⟩ := (located_ofValue root).of_follow? h
  exact ⟨u, hu, hlocated.value?⟩

/-- A path that leads somewhere in the root leads to a node. -/
theorem exists_atPath? (h : root.at? path = some u) :
    ∃ id, (ofValue root).atPath? path = some id ∧ (ofValue root).value? id = some u := by
  obtain ⟨id, hid⟩ := (located_ofValue root).exists_follow? h
  obtain ⟨u', hu', hvalue⟩ := value?_of_atPath? hid
  rw [h] at hu'
  cases hu'
  exact ⟨id, hid, hvalue⟩

/-- **What a path leads to** is the same in the tree and in its root. -/
theorem bind_atPath? (root : Value) (path : List Nat) :
    ((ofValue root).atPath? path).bind (ofValue root).value? = root.at? path := by
  cases h : (ofValue root).atPath? path with
  | some id =>
    obtain ⟨u, hu, hvalue⟩ := value?_of_atPath? h
    rw [hu]
    exact hvalue
  | none =>
    cases hu : root.at? path with
    | none => rfl
    | some u =>
      obtain ⟨id, hid, -⟩ := exists_atPath? hu
      rw [h] at hid
      cases hid

/-- **The path of a node is the one that leads to it.** -/
theorem path_of_atPath? (h : (ofValue root).atPath? path = some id) : (ofValue root).path id = path := by
  unfold Tree.path
  rw [(located_ofValue root).pathThrough h [], List.append_nil, Tree.pathThrough,
    (located_ofValue root).place?]

/-- **The path of a node leads to it.** -/
theorem atPath?_path (h : id < (ofValue root).size) :
    (ofValue root).atPath? ((ofValue root).path id) = some id := by
  obtain ⟨path, hpath⟩ := (indexed_index root none #[]).covers id (Nat.zero_le _) h
  have hfollow : (ofValue root).atPath? path = some id := hpath
  rwa [path_of_atPath? hfollow]

/-- What a node holds is what its path leads to. -/
theorem at?_path (h : (ofValue root).value? id = some u) : root.at? ((ofValue root).path id) = some u := by
  obtain ⟨n, hn, -⟩ := Option.map_eq_some_iff.mp h
  rw [← bind_atPath?, atPath?_path (Array.getElem?_eq_some_iff.mp hn).1]
  exact h

/-- A node that a path leads to is one of the tree. -/
theorem lt_size_of_atPath? (h : (ofValue root).atPath? path = some id) : id < (ofValue root).size := by
  obtain ⟨place, u, -, hlocated, -⟩ := (located_ofValue root).of_follow? h
  exact hlocated.lt_size

end Tree

end EditableLisp
