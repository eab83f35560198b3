import EditableLisp.Proofs.Replacing

/-!
# Pre-order

The numbers of a tree run through the occurrences of nodes in its root in pre-order. `Value.positions` lists
the paths to these occurrences: a value first, then what is below each of its children in turn. It holds the
paths that lead somewhere, each once (`mem_positions`), in the order of paths as words (`pairwise_positions`),
so it is determined by the value alone. `Tree.Numbered` says that indexing gives them the next numbers in this
order.

`Tree.IsIndexOf` gathers what a tree is for: numbers, places, paths and look-up by identity fit each other, and
the walk up from a node needs no bound (`Tree.Climbs`). Every tree of a value is its index
(**`Tree.isIndexOf_ofValue`**).
-/

namespace EditableLisp

namespace Value

/-! ## Paths in pre-order -/

mutual

/-- The paths to a value and to what is below it, in pre-order. -/
def positions : Value → List (List Nat)
  | seq _ _ items => [] :: positionsFrom 0 items
  | map _ entries => [] :: entryPositions 0 entries
  | _ => [[]]

/-- The paths to elements and to what is below them, where the first has the index `i`. -/
def positionsFrom (i : Nat) : List Value → List (List Nat)
  | [] => []
  | v :: rest => (positions v).map (i :: ·) ++ positionsFrom (i + 1) rest

/-- The paths to keys and values in turn and to what is below them, where the first key has the index `i`. -/
def entryPositions (i : Nat) : List (Key × Value) → List (List Nat)
  | [] => []
  | (_, v) :: rest => [i] :: ((positions v).map ((i + 1) :: ·) ++ entryPositions (i + 2) rest)

end

/-- The keys and values of a map stand as its children in turn. -/
theorem entryPositions_eq (i : Nat) (entries : List (Key × Value)) :
    entryPositions i entries = positionsFrom i (entries.flatMap fun (k, v) => [k.toValue, v]) := by
  induction entries generalizing i with
  | nil => rfl
  | cons e rest ih =>
    obtain ⟨k, v⟩ := e
    have hkey : positions k.toValue = [[]] := by cases k <;> rfl
    rw [List.flatMap_cons, List.cons_append, List.cons_append, List.nil_append, positionsFrom, positionsFrom,
      entryPositions, hkey, ih]
    rfl

/-- A value stands before what is below its children. -/
theorem positions_eq (v : Value) : v.positions = [] :: positionsFrom 0 v.children := by
  cases v with
  | seq => rw [positions]; rfl
  | map node entries =>
    rw [positions, entryPositions_eq]
    rfl
  | _ => rfl

/-- The paths into elements begin with the indices of these. -/
theorem exists_cons_of_mem_positionsFrom {i : Nat} {items : List Value} {q : List Nat}
    (h : q ∈ positionsFrom i items) : ∃ m p, q = m :: p ∧ i ≤ m := by
  induction items generalizing i with
  | nil => cases h
  | cons v rest ih =>
    rw [positionsFrom] at h
    rcases List.mem_append.mp h with h | h
    · obtain ⟨p, -, rfl⟩ := List.mem_map.mp h
      exact ⟨i, p, rfl, Nat.le_refl i⟩
    · obtain ⟨m, p, rfl, hm⟩ := ih h
      exact ⟨m, p, rfl, Nat.le_of_succ_le hm⟩

/-- Paths that are in order are in order below each element, and the elements are in order. -/
theorem pairwise_positionsFrom {items : List Value} (h : ∀ u ∈ items, u.positions.Pairwise (· < ·)) (i : Nat) :
    (positionsFrom i items).Pairwise (· < ·) := by
  induction items generalizing i with
  | nil => exact .nil
  | cons v rest ih =>
    obtain ⟨hv, hrest⟩ := List.forall_mem_cons.mp h
    rw [positionsFrom, List.pairwise_append]
    refine ⟨?_, ih hrest (i + 1), fun p hp q hq => ?_⟩
    · rw [List.pairwise_map]
      exact hv.imp fun hlt => List.cons_lt_cons_iff.mpr (Or.inr ⟨rfl, hlt⟩)
    · obtain ⟨p, -, rfl⟩ := List.mem_map.mp hp
      obtain ⟨m, q, rfl, hm⟩ := exists_cons_of_mem_positionsFrom hq
      exact List.cons_lt_cons_iff.mpr (Or.inl hm)

/-- **Pre-order is the order of paths as words.** -/
theorem pairwise_positions (v : Value) : v.positions.Pairwise (· < ·) := by
  induction v using ofChildren with
  | h v ih =>
    rw [positions_eq, List.pairwise_cons]
    refine ⟨fun q hq => ?_, pairwise_positionsFrom ih 0⟩
    obtain ⟨m, p, rfl, -⟩ := exists_cons_of_mem_positionsFrom hq
    exact List.nil_lt_cons m p

end Value

namespace Tree

/-! ## Numbers in pre-order -/

/-- Indexing a value gives the next numbers to it and to what is below it, in pre-order. -/
structure Numbered (nodes : Array TreeNode) (v : Value) (nodes' : Array TreeNode) : Prop where
  size : nodes'.size = nodes.size + v.positions.length
  follow : ∀ j p, v.positions[j]? = some p → Tree.follow? ⟨nodes'⟩ nodes.size p = some (nodes.size + j)

/-- The same for values in turn, the first of which has the index `i` and the position `skip` among the
numbers. -/
structure NumberedEach (nodes : Array TreeNode) (i skip : Nat) (items : List Value)
    (result : List Nat × Array TreeNode) : Prop where
  size : result.2.size = nodes.size + (Value.positionsFrom i items).length
  follow : ∀ j q, (Value.positionsFrom i items)[j]? = some q → ∃ m c p, q = (i + m) :: p ∧
    result.1[skip + m]? = some c ∧ Tree.follow? ⟨result.2⟩ c p = some (nodes.size + j)

/-- Values get their numbers in turn if each does. -/
theorem numberedEach_indexItems {items : List Value}
    (h : ∀ u ∈ items, ∀ place nodes, Numbered nodes u (index place nodes u).2) (owner i : Nat)
    (done : Array Nat) (nodes : Array TreeNode) :
    NumberedEach nodes i done.size items (indexItems owner i done nodes items) := by
  induction items generalizing i done nodes with
  | nil => exact ⟨rfl, nofun⟩
  | cons v rest ih =>
    obtain ⟨hv, hrest⟩ := List.forall_mem_cons.mp h
    have hfirst := hv (some ⟨owner, i⟩) nodes
    have hindexed := indexed_index v (some ⟨owner, i⟩) nodes
    unfold indexItems
    generalize index (some ⟨owner, i⟩) nodes v = first at hfirst hindexed
    obtain ⟨id, nodes₁⟩ := first
    obtain rfl : id = nodes.size := hindexed.number
    have heach := ih hrest (i + 1) (done.push nodes.size) nodes₁
    obtain ⟨numbers, hnumbers, hold⟩ := indexed_indexItems (fun u (_ : u ∈ rest) => indexed_index u) owner
      (i + 1) (done.push nodes.size) nodes₁
    dsimp only
    refine ⟨?_, fun j q hq => ?_⟩
    · rw [heach.size, hfirst.size, Value.positionsFrom, List.length_append, List.length_map, Nat.add_assoc]
    · rw [Value.positionsFrom, List.getElem?_append, List.length_map] at hq
      by_cases hj : j < v.positions.length
      · rw [if_pos hj, List.getElem?_map] at hq
        obtain ⟨p, hp, rfl⟩ := Option.map_eq_some_iff.mp hq
        refine ⟨0, nodes.size, p, rfl, ?_, ?_⟩
        · rw [hnumbers]
          simp
        · rw [hindexed.located.follow?_congr (fun k _ hk => hold.old k hk) p]
          exact hfirst.follow j p hp
      · rw [if_neg hj] at hq
        obtain ⟨m, c, p, rfl, hc, hfollow⟩ := heach.follow _ q hq
        have hsize : nodes₁.size = nodes.size + v.positions.length := hfirst.size
        refine ⟨m + 1, c, p, ?_, ?_, ?_⟩
        · rw [Nat.add_right_comm, Nat.add_assoc]
        · rwa [Array.size_push, Nat.add_right_comm, Nat.add_assoc] at hc
        · rw [hfollow, hsize]
          congr 1
          omega

/-- **Indexing numbers a value and what is below it in pre-order**, whatever was indexed before. -/
theorem numbered_index (v : Value) (place : Option Place) (nodes : Array TreeNode) :
    Numbered nodes v (index place nodes v).2 := by
  induction v using Value.ofChildren generalizing place nodes with
  | h v ih =>
    have hbelow := numberedEach_indexItems ih nodes.size 0 #[] (nodes.push ⟨v, place, []⟩)
    obtain ⟨numbers, hnumbers, heach⟩ := indexed_indexItems (fun u (_ : u ∈ v.children) => indexed_index u)
      nodes.size 0 #[] (nodes.push ⟨v, place, []⟩)
    rw [index_eq]
    generalize indexItems nodes.size 0 #[] (nodes.push ⟨v, place, []⟩) v.children = below
      at hbelow hnumbers heach ⊢
    obtain ⟨children, nodes₁⟩ := below
    obtain rfl : children = numbers := hnumbers
    have hpush : (nodes.push ⟨v, place, []⟩).size = nodes.size + 1 := Array.size_push _
    refine ⟨?_, fun j p hp => ?_⟩
    · have hsize := hbelow.size
      rw [hpush] at hsize
      rw [Array.size_modify, hsize, Value.positions_eq, List.length_cons]
      omega
    · rw [Value.positions_eq] at hp
      cases j with
      | zero =>
        cases hp
        rfl
      | succ j =>
        obtain ⟨m, c, p, rfl, hc, hfollow⟩ := hbelow.follow j p hp
        rw [Array.size_empty, Nat.zero_add] at hc
        obtain ⟨u, hu⟩ : ∃ u, v.children[m]? = some u :=
          exists_getElem? (heach.length ▸ (List.getElem?_eq_some_iff.mp hc).1)
        obtain ⟨hle, hlocated⟩ := heach.located m c u hc hu
        rw [hpush] at hle hfollow
        have hchild : Tree.child? ⟨nodes₁.modify nodes.size fun n => { n with children := children }⟩
            nodes.size (0 + m) = some c := by
          unfold child?
          rw [Array.getElem?_modify, if_pos rfl, heach.old _ (by omega), Array.getElem?_push_size, Nat.zero_add]
          exact hc
        -- only the node of the value is written again, and what is below its children comes after it
        have hsame : ∀ k, c ≤ k → k < nodes₁.size →
            (nodes₁.modify nodes.size fun n => { n with children := children })[k]? = nodes₁[k]? := by
          intro k hk _
          rw [Array.getElem?_modify, if_neg (by omega)]
        rw [follow?, hchild]
        dsimp only
        rw [hlocated.follow?_congr hsame p, hfollow]
        congr 1
        omega

/-! ## Numbers and paths of a tree -/

variable {root u : Value} {id : Nat} {path : List Nat}

theorem size_ofValue (root : Value) : (ofValue root).size = root.positions.length := by
  have h := (numbered_index root none #[]).size
  rwa [Array.size_empty, Nat.zero_add] at h

/-- The position of a path in pre-order is the number that it leads to. -/
theorem atPath?_of_positions (h : root.positions[id]? = some path) :
    (ofValue root).atPath? path = some id := by
  have hfollow := (numbered_index root none #[]).follow id path h
  rwa [Array.size_empty, Nat.zero_add] at hfollow

/-- **The paths of the numbers are the positions in pre-order.** -/
theorem map_path_range (root : Value) :
    (List.range (ofValue root).size).map (ofValue root).path = root.positions := by
  refine List.ext_getElem? fun j => ?_
  rw [List.getElem?_map]
  cases hp : root.positions[j]? with
  | none =>
    rw [List.getElem?_eq_none_iff] at hp
    rw [List.getElem?_eq_none (by rw [List.length_range, size_ofValue]; exact hp)]
    rfl
  | some p =>
    have hj := (List.getElem?_eq_some_iff.mp hp).1
    rw [← size_ofValue] at hj
    rw [List.getElem?_range hj, Option.map_some, path_of_atPath? (atPath?_of_positions hp)]

/-- **The positions in a value are the paths that lead somewhere in it.** -/
theorem mem_positions : path ∈ root.positions ↔ ∃ u, root.at? path = some u := by
  constructor
  · intro h
    obtain ⟨id, hid⟩ := List.mem_iff_getElem?.mp h
    obtain ⟨u, hu, -⟩ := value?_of_atPath? (atPath?_of_positions hid)
    exact ⟨u, hu⟩
  · rintro ⟨u, hu⟩
    obtain ⟨id, hid, -⟩ := exists_atPath? hu
    rw [← map_path_range, ← path_of_atPath? hid]
    exact List.mem_map_of_mem (List.mem_range.mpr (lt_size_of_atPath? hid))

/-- A path that leads nowhere in a value leads to no number of its tree. -/
theorem atPath?_eq_none_iff : (ofValue root).atPath? path = none ↔ root.at? path = none := by
  constructor
  · intro h
    rw [← bind_atPath?, h]
    rfl
  · intro h
    cases hid : (ofValue root).atPath? path with
    | none => rfl
    | some id =>
      obtain ⟨u, hu, -⟩ := value?_of_atPath? hid
      rw [h] at hu
      cases hu

/-! ## Places -/

/-- The walk from a node up to one without a place, with the path that it goes. -/
inductive Climbs (t : Tree) : Nat → List Nat → Prop where
  | root {id : Nat} : t.place? id = none → Climbs t id []
  | up {id : Nat} {p : Place} {path : List Nat} : t.place? id = some p → Climbs t p.owner path →
      Climbs t id (path ++ [p.index])

/-- The root is no child. -/
theorem place?_zero (root : Value) : (ofValue root).place? 0 = none := (located_ofValue root).place?

/-- **A node other than the root is a child of a node with a smaller number.** -/
theorem exists_place (hpos : 0 < id) (h : id < (ofValue root).size) :
    ∃ p, (ofValue root).place? id = some p ∧ p.owner < id ∧
      (ofValue root).child? p.owner p.index = some id ∧
      (ofValue root).path id = (ofValue root).path p.owner ++ [p.index] := by
  have hfound := atPath?_path h
  generalize hpath : (ofValue root).path id = path at hfound ⊢
  rcases List.eq_nil_or_concat path with rfl | ⟨above, i, rfl⟩
  · cases hfound
    exact absurd hpos (Nat.lt_irrefl 0)
  · rw [atPath?, List.concat_eq_append, follow?_append] at hfound
    obtain ⟨owner, howner, hfollow⟩ := Option.bind_eq_some_iff.mp hfound
    obtain ⟨place, u, -, hlocated, -⟩ := (located_ofValue root).of_follow? howner
    rw [follow?] at hfollow
    split at hfollow
    · rename_i child hchild
      cases hfollow
      obtain ⟨x, -, hlt, hbelow⟩ := hlocated.child hchild
      refine ⟨⟨owner, i⟩, hbelow.place?, hlt, hchild, ?_⟩
      rw [path_of_atPath? howner, List.concat_eq_append]
    · cases hfollow

/-- A node that a tree does not have has no place. -/
theorem place?_of_size_le {t : Tree} (h : t.size ≤ id) : t.place? id = none := by
  unfold place?
  rw [Array.getElem?_eq_none h]
  rfl

/-- **The walk up from a node ends**, and the path of the node is the one that it goes. -/
theorem climbs_path (root : Value) (id : Nat) : Climbs (ofValue root) id ((ofValue root).path id) := by
  induction id using Nat.strongRecOn with
  | ind id ih =>
    by_cases hinside : 0 < id ∧ id < (ofValue root).size
    · obtain ⟨p, hplace, hlt, -, hpath⟩ := exists_place hinside.1 hinside.2
      rw [hpath]
      exact .up hplace (ih p.owner hlt)
    · have hplace : (ofValue root).place? id = none := by
        rcases Nat.eq_zero_or_pos id with rfl | hpos
        · exact place?_zero root
        · exact place?_of_size_le (Nat.le_of_not_lt fun h => hinside ⟨hpos, h⟩)
      have hpath : (ofValue root).path id = [] := by
        unfold Tree.path pathThrough
        rw [hplace]
      rw [hpath]
      exact .root hplace

/-! ## Look-up by identity -/

/-- The first node that is identical to a value has the smallest number. -/
theorem find?_eq_some_iff {t : Tree} {v : Value} : t.find? v = some id ↔
    (∃ u, t.value? id = some u ∧ u.identical v) ∧
      ∀ j u, j < id → t.value? j = some u → ¬ u.identical v := by
  unfold Tree.find? value?
  rw [Array.findIdx?_eq_some_iff_getElem]
  constructor
  · rintro ⟨hid, hidentical, hbefore⟩
    refine ⟨⟨t.nodes[id].value, by rw [Array.getElem?_eq_getElem hid, Option.map_some], hidentical⟩, ?_⟩
    intro j u hj hu
    rw [Array.getElem?_eq_getElem (Nat.lt_trans hj hid), Option.map_some] at hu
    cases hu
    exact hbefore j hj
  · rintro ⟨⟨u, hu, hidentical⟩, hbefore⟩
    obtain ⟨n, hn, rfl⟩ := Option.map_eq_some_iff.mp hu
    obtain ⟨hid, rfl⟩ := Array.getElem?_eq_some_iff.mp hn
    refine ⟨hid, hidentical, fun j hj => hbefore j _ hj ?_⟩
    rw [Array.getElem?_eq_getElem (Nat.lt_trans hj hid), Option.map_some]

/-- Nothing is found exactly if no node is identical. -/
theorem find?_eq_none_iff {t : Tree} {v : Value} :
    t.find? v = none ↔ ∀ id u, t.value? id = some u → ¬ u.identical v := by
  unfold Tree.find? value?
  rw [Array.findIdx?_eq_none_iff]
  constructor
  · intro h id u hu
    obtain ⟨n, hn, rfl⟩ := Option.map_eq_some_iff.mp hu
    rw [h n (Array.mem_of_getElem? hn)]
    exact Bool.false_ne_true
  · intro h n hn
    obtain ⟨id, hid⟩ := Array.mem_iff_getElem?.mp hn
    refine Bool.eq_false_iff.mpr (h id n.value ?_)
    rw [hid, Option.map_some]

/-! ## The index of a value -/

/-- A tree is the index of a value. -/
structure IsIndexOf (t : Tree) (root : Value) : Prop where
  /-- The numbers stand for the occurrences of nodes, each once, in pre-order. -/
  numbers : (List.range t.size).map t.path = root.positions ∧ root.positions.Pairwise (· < ·) ∧
    ∀ path, path ∈ root.positions ↔ ∃ u, root.at? path = some u
  /-- A number holds the node that its path leads to. -/
  holds : ∀ id u, t.value? id = some u ↔ id < t.size ∧ root.at? (t.path id) = some u
  /-- The place of every number but the first leads back to it and belongs to a smaller one. -/
  places : t.place? 0 = none ∧ ∀ id, 0 < id → id < t.size →
    ∃ p, t.place? id = some p ∧ p.owner < id ∧ t.child? p.owner p.index = some id
  /-- The walk up from a number ends, with its path. -/
  climbs : ∀ id, t.Climbs id (t.path id)
  /-- The path of a number leads to it. -/
  found : ∀ id, id < t.size → t.atPath? (t.path id) = some id
  /-- A number has the path that leads to it. -/
  unique : ∀ path id, t.atPath? path = some id → id < t.size ∧ t.path id = path
  /-- A path leads to no number exactly if it leads out of the value. -/
  outside : ∀ path, t.atPath? path = none ↔ root.at? path = none
  /-- What is found of a value is the smallest number that holds a node identical to it. -/
  first : ∀ v id, t.find? v = some id ↔ (∃ u, t.value? id = some u ∧ u.identical v) ∧
    ∀ j u, j < id → t.value? j = some u → ¬ u.identical v
  /-- Nothing is found exactly if no number holds such a node. -/
  absent : ∀ v, t.find? v = none ↔ ∀ id u, t.value? id = some u → ¬ u.identical v

/-- **The tree of a value is its index**, also where nodes occur several times in the value. -/
theorem isIndexOf_ofValue (root : Value) : (ofValue root).IsIndexOf root where
  numbers := ⟨map_path_range root, root.pairwise_positions, fun _ => mem_positions⟩
  holds id u := by
    constructor
    · intro h
      obtain ⟨n, hn, -⟩ := Option.map_eq_some_iff.mp h
      exact ⟨(Array.getElem?_eq_some_iff.mp hn).1, at?_path h⟩
    · rintro ⟨hid, hu⟩
      rw [← hu, ← bind_atPath?, atPath?_path hid]
      rfl
  places := by
    refine ⟨place?_zero root, fun id hpos hid => ?_⟩
    obtain ⟨p, hplace, hlt, hchild, -⟩ := exists_place hpos hid
    exact ⟨p, hplace, hlt, hchild⟩
  climbs := climbs_path root
  found _ := atPath?_path
  unique _ _ h := ⟨lt_size_of_atPath? h, path_of_atPath? h⟩
  outside _ := atPath?_eq_none_iff
  first _ _ := find?_eq_some_iff
  absent _ := find?_eq_none_iff

/-- A node that occurs twice has two numbers, and the first is found. -/
example : (ofValue (.seq .list (.bare 0) [.symbol 1 "x", .nil, .symbol 1 "x"])).find? (.symbol 1 "x") = some 1 ∧
    (ofValue (.seq .list (.bare 0) [.symbol 1 "x", .nil, .symbol 1 "x"])).path 3 = [2] := by decide +kernel

end Tree

end EditableLisp
