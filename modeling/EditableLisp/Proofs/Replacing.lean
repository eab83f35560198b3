import EditableLisp.Proofs.Indexing
import EditableLisp.Proofs.Session

/-!
# What an edit does

An edit goes up from a node to the root by number; `Value.replaceAt` says the same by path
(`Tree.rebuild_eq`). Where no collection on the way rejects its new child, the edit comes to the root that
`Edited` describes: the collections above the node are made anew (`Remade`), everything else is what it was
(`Edited.at?_of_not_prefix`, `Edited.at?_of_prefix`).

Only a map can reject a child, and only the new key that an edit puts in place of a key: the collections
above were there before as values. So an edit that fails has made nothing, but it has printed the rejected
value for its message, and printing keeps texts under the nodes of that value. Where these are nodes of the
tree, the tree is not quite what it was before (`Session.text_of_rejected`).
-/

namespace EditableLisp

open Registry

/-! ## Children of a map -/

/-- The keys and values of entries in turn. -/
theorem Entries.child_eq {entries : Entries} {index : Nat} {u : Value}
    (h : (entries.flatMap fun (k, v) => [k.toValue, v])[index]? = some u) :
    ∃ k v, entries[index / 2]? = some (k, v) ∧ u = if index % 2 = 0 then k.toValue else v := by
  induction entries generalizing index with
  | nil => cases h
  | cons e rest ih =>
    obtain ⟨k, v⟩ := e
    match index, h with
    | 0, h =>
      cases h
      exact ⟨k, v, rfl, rfl⟩
    | 1, h =>
      cases h
      exact ⟨k, _, rfl, rfl⟩
    | index + 2, h =>
      obtain ⟨k', v', he, hu⟩ := ih h
      rw [Nat.add_div_right _ (by decide), Nat.add_mod_right]
      exact ⟨k', v', he, hu⟩

theorem Value.toValue_of_key? {v : Value} {key : Key} (h : v.key? = some key) : key.toValue = v := by
  cases v with
  | keyword | text =>
    cases h
    rfl
  | _ => cases h

theorem Value.children_toValue (k : Key) : k.toValue.children = [] := by cases k <;> rfl

/-! ## Replacing a child -/

/-- A value may not take the place of a key of a map if it is neither a keyword nor a string, or has the name
of another key. -/
def Value.Rejects (owner : Value) (index : Nat) (child : Value) : Prop :=
  ∃ node entries, owner = .map node entries ∧ index % 2 = 0 ∧
    (child.key? = none ∨ ∃ (key : Key) (j : Nat) (e : Key × Value),
      child.key? = some key ∧ entries[j]? = some e ∧ e.1.name = key.name ∧ j ≠ index / 2)

/-- A new node with the layout of another, in which one element has no spelling. -/
def Node.remade (w : World) (node : Node) (count index : Nat) (id : NodeId) : Node :=
  ⟨id, node.style, w.gaps? node count, node.spellings.map fun s => s.set index none⟩

/-- A collection made anew under an identity, with another child at an index. -/
inductive Remade (w : World) (id : NodeId) (index : Nat) (child : Value) : Value → Value → Prop where
  | item {shape : Shape} {node : Node} {items : List Value} : index < items.length →
      Remade w id index child (.seq shape node items)
        (.seq shape (node.remade w items.length index id) (items.set index child))
  | key {node : Node} {entries : Entries} {i : Nat} {k key : Key} {v : Value} : index = 2 * i →
      entries[i]? = some (k, v) → child.key? = some key → key.name ∉ Entries.names (entries.eraseIdx i) →
      Remade w id index child (.map node entries)
        (.map (node.remade w (2 * entries.length) index id) (entries.set i (key, v)))
  | value {node : Node} {entries : Entries} {i : Nat} {k : Key} {v : Value} : index = 2 * i + 1 →
      entries[i]? = some (k, v) →
      Remade w id index child (.map node entries)
        (.map (node.remade w (2 * entries.length) index id) (entries.set i (k, child)))

variable {w w₁ : World} {id : NodeId} {index : Nat} {owner owner' child : Value}

theorem Remade.children (h : Remade w id index child owner owner') :
    owner'.children = owner.children.set index child := by
  cases h with
  | item => rfl
  | key hi he hk _ =>
    subst hi
    rw [← Value.toValue_of_key? hk]
    exact Entries.children_set_key he _
  | value hi he =>
    subst hi
    exact Entries.children_set_value he _

theorem Remade.nodeId? (h : Remade w id index child owner owner') : owner'.nodeId? = some id := by
  cases h <;> rfl

/-- A collection is a list, vector or map like another, with the same notation and as many elements. -/
def Value.SameForm : Value → Value → Prop
  | .seq shape node items, .seq shape' node' items' =>
    shape = shape' ∧ node.style = node'.style ∧ items.length = items'.length
  | .map node entries, .map node' entries' => node.style = node'.style ∧ entries.length = entries'.length
  | _, _ => False

theorem Remade.sameForm (h : Remade w id index child owner owner') : owner'.SameForm owner := by
  cases h with
  | item => exact ⟨rfl, rfl, List.length_set⟩
  | key => exact ⟨rfl, List.length_set⟩
  | value => exact ⟨rfl, List.length_set⟩

/-- What a node holds for its layout depends on the default layouts of the world alone. -/
theorem World.gaps?_congr (h : w₁.spaced = w.spaced) (node : Node) (count : Nat) :
    w₁.gaps? node count = w.gaps? node count := by
  unfold World.gaps?
  rw [h]

theorem relayout_eq (h : w₁.spaced = w.spaced) (node : Node) (count index : Nat) :
    (liftM (relayout node count index) : Act Node) w₁ =
      .ok (node.remade w count index w₁.nextId) { w₁ with nextId := w₁.nextId + 1 } := by
  show EStateM.Result.ok (⟨w₁.nextId, node.style, w₁.gaps? node count, _⟩ : Node) _ = _
  rw [World.gaps?_congr h]
  rfl

/-- The names of the other entries. -/
theorem Entries.mem_names_eraseIdx {entries : Entries} {i : Nat} {name : String} :
    name ∈ names (entries.eraseIdx i) ↔ ∃ (j : Nat) (e : Key × Value),
      entries[j]? = some e ∧ e.1.name = name ∧ j ≠ i := by
  unfold names
  rw [List.mem_map]
  constructor
  · rintro ⟨e, he, hname⟩
    obtain ⟨j, hj, hget⟩ := List.mem_eraseIdx_iff_getElem?.mp he
    exact ⟨j, e, hget, hname, hj⟩
  · rintro ⟨j, e, hget, hname, hj⟩
    exact ⟨e, List.mem_eraseIdx_iff_getElem?.mpr ⟨j, hj, hget⟩, hname⟩

/-- **A child that is not rejected is replaced**, in a collection made anew. -/
theorem Remade.replaceChild (h : Remade w w₁.nextId index child owner owner') (hs : w₁.spaced = w.spaced) :
    owner.replaceChild index child w₁ = .ok owner' { w₁ with nextId := w₁.nextId + 1 } := by
  unfold Value.replaceChild
  cases h with
  | item hi =>
    dsimp only
    rw [if_neg (Nat.not_le.mpr hi), bind_of_eq_ok (relayout_eq hs _ _ _)]
    rfl
  | @key node entries i k key v hi he hk hn =>
    have hdiv : index / 2 = i := by omega
    have hmod : index % 2 = 0 := by omega
    have hkey : replacementKey (Entries.names (entries.eraseIdx i)) child w₁ = .ok key w₁ := by
      unfold replacementKey
      rw [hk]
      dsimp only
      rw [if_neg fun hm => hn (List.contains_iff_mem.mp hm)]
      rfl
    dsimp only
    rw [hdiv, he]
    dsimp only
    rw [if_pos hmod, bind_of_eq_ok hkey, pure_bind, bind_of_eq_ok (relayout_eq hs _ _ _)]
    rfl
  | @value node entries i k v hi he =>
    have hdiv : index / 2 = i := by omega
    have hmod : ¬ index % 2 = 0 := by omega
    dsimp only
    rw [hdiv, he]
    dsimp only
    rw [if_neg hmod, pure_bind, bind_of_eq_ok (relayout_eq hs _ _ _)]
    rfl

/-- A collection can be made anew with another child in place of any that is not rejected. -/
theorem exists_remade {u : Value} (hu : owner.children[index]? = some u) (h : ¬ owner.Rejects index child)
    (w : World) (id : NodeId) : ∃ owner', Remade w id index child owner owner' := by
  cases owner with
  | seq shape node items => exact ⟨_, .item (List.getElem?_eq_some_iff.mp hu).1⟩
  | map node entries =>
    obtain ⟨k, v, he, -⟩ := Entries.child_eq hu
    by_cases hmod : index % 2 = 0
    · cases hk : child.key? with
      | none => exact absurd ⟨node, entries, rfl, hmod, Or.inl hk⟩ h
      | some key =>
        refine ⟨_, .key (by omega) he hk fun hm => h ?_⟩
        obtain ⟨j, e, hj, hname, hne⟩ := Entries.mem_names_eraseIdx.mp hm
        exact ⟨node, entries, rfl, hmod, Or.inr ⟨key, j, e, hk, hj, hname, hne⟩⟩
    · exact ⟨_, .value (by omega) he⟩
  | _ => cases hu

/-- **A child that is rejected is printed for the message**, and nothing else happens. -/
theorem replaceChild_of_rejects {u : Value} (hu : owner.children[index]? = some u)
    (h : owner.Rejects index child) (w : World) :
    ∃ f, owner.replaceChild index child w = .error (.fault f) (print child w).2 := by
  obtain ⟨node, entries, rfl, hmod, h⟩ := h
  obtain ⟨k, v, he, -⟩ := Entries.child_eq hu
  have hkey : ∃ f, replacementKey (Entries.names (entries.eraseIdx (index / 2))) child w =
      .error (.fault f) (print child w).2 := by
    unfold replacementKey
    rcases h with hk | ⟨key, j, e, hk, hj, hname, hne⟩
    · rw [hk]
      exact ⟨_, rfl⟩
    · have hm := Entries.mem_names_eraseIdx.mpr ⟨j, e, hj, hname, hne⟩
      rw [hk]
      dsimp only
      rw [if_pos (List.contains_iff_mem.mpr hm)]
      exact ⟨_, rfl⟩
  obtain ⟨f, hf⟩ := hkey
  refine ⟨f, ?_⟩
  unfold Value.replaceChild
  dsimp only
  rw [he]
  dsimp only
  rw [if_pos hmod]
  exact bind_of_eq_error hf

/-! ## Replacing by path -/

/-- A copy of a value with another value where a path leads to; where it leads nowhere, the value itself. -/
def Value.replaceAt (v : Value) (path : List Nat) (new : Value) : Act Value :=
  match path with
  | [] => return new
  | i :: rest =>
    match v.children[i]? with
    | some child => do v.replaceChild i (← child.replaceAt rest new)
    | none => return v

/-- The last collection on a path rejects a value. -/
def Value.RejectsAt (v : Value) (path : List Nat) (new : Value) : Prop :=
  ∃ above i owner, path = above ++ [i] ∧ v.at? above = some owner ∧ owner.Rejects i new

/-- A value with another value where a path leads to: the collections above are made anew, with the
identities that follow those of the world, the innermost first. -/
inductive Edited (w : World) (new : Value) : List Nat → Value → Value → Prop where
  | here {v : Value} : Edited w new [] v new
  | there {i : Nat} {path : List Nat} {v v' child child' : Value} : v.children[i]? = some child →
      Edited w new path child child' → Remade w (w.nextId + path.length) i child' v v' →
      Edited w new (i :: path) v v'

variable {new v v' old : Value} {path : List Nat}

/-- The world after so many identities were given out. -/
def World.advance (w : World) (n : Nat) : World := { w with nextId := w.nextId + n }

theorem Value.at?_cons {i : Nat} {u : Value} (hc : v.children[i]? = some child) (h : child.at? path = some u) :
    v.at? (i :: path) = some u := by
  unfold at?
  rw [hc]
  exact h

theorem Value.exists_child {i : Nat} {u : Value} (h : v.at? (i :: path) = some u) :
    ∃ child, v.children[i]? = some child ∧ child.at? path = some u := by
  unfold at? at h
  split at h
  · rename_i child hc
    exact ⟨child, hc, h⟩
  · cases h

theorem Value.RejectsAt.cons {i j : Nat} (hc : v.children[i]? = some child)
    (h : child.RejectsAt (j :: path) new) : v.RejectsAt (i :: j :: path) new := by
  obtain ⟨above, last, owner, hpath, hat, hr⟩ := h
  refine ⟨i :: above, last, owner, ?_, at?_cons hc hat, hr⟩
  rw [hpath]
  rfl

theorem Value.RejectsAt.of_cons {i j : Nat} (hc : v.children[i]? = some child)
    (h : v.RejectsAt (i :: j :: path) new) : child.RejectsAt (j :: path) new := by
  obtain ⟨above, last, owner, hpath, hat, hr⟩ := h
  cases above with
  | nil => cases hpath
  | cons i' above =>
    rw [List.cons_append] at hpath
    obtain ⟨rfl, hrest⟩ := List.cons.inj hpath
    obtain ⟨child', hc', hat'⟩ := exists_child hat
    rw [hc] at hc'
    cases hc'
    exact ⟨above, last, owner, hrest, hat', hr⟩

/-- A collection does not reject a copy of a child that has children: such a child is not a key. -/
theorem Value.not_rejects_of_child {i j : Nat} {u : Value} (hc : v.children[i]? = some child)
    (hu : child.children[j]? = some u) : ¬ v.Rejects i new := by
  rintro ⟨node, entries, rfl, hmod, -⟩
  obtain ⟨k, value, -, hk⟩ := Entries.child_eq hc
  rw [if_pos hmod] at hk
  rw [hk, children_toValue] at hu
  cases hu

/-- **Where no collection rejects its new child there is an edited value.** -/
theorem exists_edited (h : v.at? path = some old) (hr : ¬ v.RejectsAt path new) (w : World) :
    ∃ v', Edited w new path v v' := by
  induction path generalizing v with
  | nil => exact ⟨new, .here⟩
  | cons i rest ih =>
    obtain ⟨child, hc, hat⟩ := Value.exists_child h
    cases rest with
    | nil =>
      have hnew : ¬ v.Rejects i new := fun hn => hr ⟨[], i, v, rfl, rfl, hn⟩
      obtain ⟨v', hv'⟩ := exists_remade hc hnew w (w.nextId + 0)
      exact ⟨v', .there hc .here hv'⟩
    | cons j rest =>
      obtain ⟨child', hchild'⟩ := ih hat fun hn => hr (hn.cons hc)
      obtain ⟨u, hu, -⟩ := Value.exists_child hat
      obtain ⟨v', hv'⟩ := exists_remade hc (Value.not_rejects_of_child hc hu) w
        (w.nextId + (j :: rest).length)
      exact ⟨v', .there hc hchild' hv'⟩

/-- **An edit that no collection rejects comes to the edited value**, and all that it changes is which
identities are used. -/
theorem Edited.replaceAt (h : Edited w new path v v') :
    v.replaceAt path new w = .ok v' (w.advance path.length) := by
  induction h with
  | here => rfl
  | @there i path v v' child child' hc _ hr ih =>
    unfold Value.replaceAt
    rw [hc]
    dsimp only
    rw [bind_of_eq_ok ih]
    have hremade : Remade w (w.advance path.length).nextId i child' v v' := hr
    rw [hremade.replaceChild rfl]
    rfl

/-- **An edit that a collection rejects fails and prints the rejected value.** -/
theorem replaceAt_of_rejects (h : v.at? path = some old) (hr : v.RejectsAt path new) (w : World) :
    ∃ f, v.replaceAt path new w = .error (.fault f) (print new w).2 := by
  induction path generalizing v with
  | nil =>
    obtain ⟨above, i, owner, hpath, -⟩ := hr
    exact absurd hpath.symm (List.append_ne_nil_of_right_ne_nil above (List.cons_ne_nil i []))
  | cons i rest ih =>
    obtain ⟨child, hc, hat⟩ := Value.exists_child h
    unfold Value.replaceAt
    rw [hc]
    cases rest with
    | nil =>
      obtain ⟨above, j, owner, hpath, hat', hr⟩ := hr
      have hlast : [] ++ [i] = above ++ [j] := hpath
      obtain ⟨rfl, hj⟩ := List.append_inj' hlast rfl
      cases hj
      cases hat'
      exact replaceChild_of_rejects hc hr w
    | cons j rest =>
      obtain ⟨f, hf⟩ := ih hat (hr.of_cons hc)
      exact ⟨f, bind_of_eq_error hf⟩

/-! ## Edited values -/

/-- An edited value holds the new value where the path leads to. -/
theorem Edited.at?_self (h : Edited w new path v v') : v'.at? path = some new := by
  induction h with
  | here => rfl
  | there hc _ hr ih =>
    refine Value.at?_cons ?_ ih
    rw [hr.children]
    exact List.getElem?_set_self (List.getElem?_eq_some_iff.mp hc).1

/-- **Away from the path an edited value holds what it held.** -/
theorem Edited.at?_of_not_prefix (h : Edited w new path v v') {q : List Nat} (hq : ¬ q <+: path)
    (hp : ¬ path <+: q) : v'.at? q = v.at? q := by
  induction h generalizing q with
  | here => exact absurd List.nil_prefix hp
  | @there i path v v' child child' hc _ hr ih =>
    cases q with
    | nil => exact absurd List.nil_prefix hq
    | cons j q =>
      unfold Value.at?
      rw [hr.children]
      by_cases hij : i = j
      · subst hij
        rw [List.getElem?_set_self (List.getElem?_eq_some_iff.mp hc).1, hc]
        exact ih (fun hn => hq (List.cons_prefix_cons.mpr ⟨rfl, hn⟩))
          fun hn => hp (List.cons_prefix_cons.mpr ⟨rfl, hn⟩)
      · rw [List.getElem?_set_ne hij]

/-- **On the way to the new value an edited value holds collections made anew.** -/
theorem Edited.at?_of_prefix (h : Edited w new path v v') {q : List Nat} (hq : q <+: path) (hne : q ≠ path) :
    ∃ i below child owner owner', path = q ++ i :: below ∧ v.at? q = some owner ∧ v'.at? q = some owner' ∧
      Remade w (w.nextId + below.length) i child owner owner' := by
  induction h generalizing q with
  | here => exact absurd (List.prefix_nil.mp hq) hne
  | @there i path v v' child child' hc _ hr ih =>
    cases q with
    | nil => exact ⟨i, path, child', v, v', rfl, rfl, rfl, hr⟩
    | cons j q =>
      obtain ⟨rfl, hq'⟩ := List.cons_prefix_cons.mp hq
      obtain ⟨i', below, last, owner, owner', rfl, hat, hat', hremade⟩ :=
        ih hq' fun e => hne (congrArg (j :: ·) e)
      refine ⟨i', below, last, owner, owner', rfl, Value.at?_cons hc hat, ?_, hremade⟩
      refine Value.at?_cons ?_ hat'
      rw [hr.children]
      exact List.getElem?_set_self (List.getElem?_eq_some_iff.mp hc).1

/-! ## Replacing by number -/

namespace Tree

variable {t : Tree} {place : Option Place} {id c : Nat}

/-- Going up from a number is replacing by path, and going up from there. -/
theorem Located.rebuild_eq (h : Located t.nodes place id v) (hc : t.follow? id path = some c) (new : Value) :
    t.rebuild c new = v.replaceAt path new >>= t.rebuild id := by
  induction path generalizing place id v with
  | nil =>
    cases hc
    exact (pure_bind new _).symm
  | cons i path ih =>
    unfold follow? at hc
    split at hc
    · rename_i next hnext
      obtain ⟨u, hu, hlt, hlocated⟩ := h.child hnext
      have hup : t.rebuild next = fun u' => v.replaceChild i u' >>= t.rebuild id := by
        funext u'
        rw [rebuild, hlocated.place?]
        dsimp only
        rw [if_pos hlt, h.value?]
        rfl
      rw [ih hlocated hc, hup, Value.replaceAt, hu]
      exact (bind_assoc _ _ _).symm
    · cases hc

/-- **Going up from a number to the root is replacing by the path that leads to the number.** -/
theorem rebuild_eq {root : Value} (h : (ofValue root).atPath? path = some id) (new : Value) :
    (ofValue root).rebuild id new = root.replaceAt path new := by
  rw [(located_ofValue root).rebuild_eq h]
  refine (congrArg _ (funext fun v => ?_)).trans (bind_pure _)
  rw [rebuild, (located_ofValue root).place?]

theorem follow?_append (t : Tree) (id : Nat) (path below : List Nat) :
    t.follow? id (path ++ below) = (t.follow? id path).bind fun c => t.follow? c below := by
  induction path generalizing id with
  | nil => rfl
  | cons i path ih =>
    rw [List.cons_append, follow?, follow?]
    cases t.child? id i with
    | none => rfl
    | some next => exact ih next

/-- A value may not take the place of a node: its collection is a map that rejects the value as a key. -/
def Rejects (t : Tree) (id : Nat) (v : Value) : Prop :=
  ∃ p owner, t.place? id = some p ∧ t.value? p.owner = some owner ∧ owner.Rejects p.index v

/-- A node is rejected by number as it is by path. -/
theorem rejects_iff {root : Value} (h : (ofValue root).atPath? path = some id) :
    (ofValue root).Rejects id new ↔ root.RejectsAt path new := by
  rcases List.eq_nil_or_concat path with rfl | ⟨above, i, rfl⟩
  · cases h
    constructor
    · rintro ⟨p, owner, hp, -⟩
      rw [(located_ofValue root).place?] at hp
      cases hp
    · rintro ⟨above, i, owner, hpath, -⟩
      exact absurd hpath.symm (List.append_ne_nil_of_right_ne_nil above (List.cons_ne_nil i []))
  · rw [List.concat_eq_append] at h ⊢
    unfold atPath? at h
    rw [follow?_append] at h
    obtain ⟨o, ho, hchild⟩ := Option.bind_eq_some_iff.mp h
    obtain ⟨place, owner, hat, hlocated, -⟩ := (located_ofValue root).of_follow? ho
    unfold follow? follow? at hchild
    split at hchild
    · rename_i c hc
      cases hchild
      obtain ⟨u, -, -, hplace⟩ := hlocated.child hc
      constructor
      · rintro ⟨p, owner', hp, hvalue, hr⟩
        rw [hplace.place?] at hp
        cases hp
        rw [hlocated.value?] at hvalue
        cases hvalue
        exact ⟨above, i, owner, rfl, hat, hr⟩
      · rintro ⟨above', i', owner', hpath, hat', hr⟩
        obtain ⟨rfl, hi⟩ := List.append_inj' hpath rfl
        cases hi
        rw [hat] at hat'
        cases hat'
        exact ⟨⟨o, i⟩, owner, hplace.place?, hlocated.value?, hr⟩
    · cases hchild

theorem replace_of_size_le {root : Value} (h : (ofValue root).size ≤ id) (new : Value) (w : World) :
    (ofValue root).replace id new w = .error (.fault (.nodeRange id (ofValue root).size)) w := by
  unfold replace
  rw [if_pos h]
  rfl

theorem replace_of_rejects {root : Value} (h : id < (ofValue root).size) (hr : (ofValue root).Rejects id new)
    (w : World) : ∃ f, (ofValue root).replace id new w = .error (.fault f) (print new w).2 := by
  have hpath := atPath?_path h
  obtain ⟨u, hu, -⟩ := value?_of_atPath? hpath
  obtain ⟨f, hf⟩ := replaceAt_of_rejects hu ((rejects_iff hpath).mp hr) w
  refine ⟨f, ?_⟩
  unfold replace
  rw [if_neg (Nat.not_le.mpr h), rebuild_eq hpath, bind_of_eq_error hf]

/-- **An edit that is not rejected comes to the tree of an edited root.** -/
theorem replace_of_not_rejects {root : Value} (h : id < (ofValue root).size)
    (hr : ¬ (ofValue root).Rejects id new) (w : World) :
    ∃ root' newId, Edited w new ((ofValue root).path id) root root' ∧
      (ofValue root').atPath? ((ofValue root).path id) = some newId ∧
      (ofValue root).replace id new w =
        .ok (ofValue root', newId) (w.advance ((ofValue root).path id).length) := by
  have hpath := atPath?_path h
  obtain ⟨u, hu, -⟩ := value?_of_atPath? hpath
  obtain ⟨root', hroot'⟩ := exists_edited hu (fun hn => hr ((rejects_iff hpath).mpr hn)) w
  obtain ⟨newId, hnew, -⟩ := exists_atPath? hroot'.at?_self
  refine ⟨root', newId, hroot', hnew, ?_⟩
  unfold replace
  rw [if_neg (Nat.not_le.mpr h), rebuild_eq hpath, bind_of_eq_ok hroot'.replaceAt, hnew]
  rfl

end Tree

/-! ## Copies of a path -/

/-- Nothing is kept under an identity. -/
structure World.Blank (w : World) (id : NodeId) : Prop where
  text : w.texts.get? id = none
  result : w.results.get? id = none
  site : w.sites.get? id = none
  expansion : w.expansions.get? id = none

/-- Nothing is kept under an identity that was not given out. -/
theorem Registry.Ok.blank {R : Registry} {w : World} (hw : R.Ok w) {id : NodeId} (h : w.nextId ≤ id) :
    w.Blank id := by
  have hnone : ¬ (R.node id).isSome := fun hn => Nat.not_lt.mpr h ((hw.nodes id).mpr hn)
  have hderived := fun hd => hnone (hw.derived id hd)
  refine ⟨?_, ?_, ?_, ?_⟩
  · cases ht : w.texts.get? id with
    | none => rfl
    | some text =>
      obtain ⟨v, hv, -⟩ := hw.texts id text ht
      exact absurd (Option.isSome_iff_exists.mpr ⟨v, hv⟩) hnone
  · exact Option.not_isSome_iff_eq_none.mp fun h => hderived (Or.inl h)
  · exact Option.not_isSome_iff_eq_none.mp fun h => hderived (Or.inr (Or.inl h))
  · exact Option.not_isSome_iff_eq_none.mp fun h => hderived (Or.inr (Or.inr h))

/-- A tree is a copy of another along the path of a node, in whose place it holds a value: what the world
keeps is untouched, nodes away from the path are shared, and nodes on the way to the value are new. -/
structure Tree.PathCopy (t : Tree) (w : World) (id : Nat) (v : Value) (t' : Tree) (newId : Nat) (w' : World) :
    Prop where
  world : w' = { w with nextId := w.nextId + (t.path id).length }
  found : t'.atPath? (t.path id) = some newId
  placed : t'.value? newId = some v
  shared : ∀ q, ¬ q <+: t.path id → ¬ t.path id <+: q →
    (t'.atPath? q).bind t'.value? = (t.atPath? q).bind t.value?
  fresh : ∀ q, q <+: t.path id → q ≠ t.path id → ∃ old new node,
    (t.atPath? q).bind t.value? = some old ∧ (t'.atPath? q).bind t'.value? = some new ∧
      new.SameForm old ∧ new.nodeId? = some node ∧ w.nextId ≤ node ∧ w'.Blank node

/-- **An edited root makes a copy of the path** to the new value. -/
theorem Edited.pathCopy {R : Registry} {root root' : Value} (hw : R.Ok w) {id newId : Nat}
    (h : Edited w new ((Tree.ofValue root).path id) root root')
    (hnew : (Tree.ofValue root').atPath? ((Tree.ofValue root).path id) = some newId) :
    (Tree.ofValue root).PathCopy w id new (Tree.ofValue root') newId
      (w.advance ((Tree.ofValue root).path id).length) where
  world := rfl
  found := hnew
  placed := by
    obtain ⟨u, hu, hvalue⟩ := Tree.value?_of_atPath? hnew
    rw [h.at?_self] at hu
    cases hu
    exact hvalue
  shared q hq hp := by rw [Tree.bind_atPath?, Tree.bind_atPath?, h.at?_of_not_prefix hq hp]
  fresh q hq hne := by
    obtain ⟨i, below, child, owner, owner', -, hat, hat', hremade⟩ := h.at?_of_prefix hq hne
    refine ⟨owner, owner', _, ?_, ?_, hremade.sameForm, hremade.nodeId?, Nat.le_add_right _ _, ?_⟩
    · rw [Tree.bind_atPath?, hat]
    · rw [Tree.bind_atPath?, hat']
    · have hblank := hw.blank (Nat.le_add_right w.nextId below.length)
      exact ⟨hblank.text, hblank.result, hblank.site, hblank.expansion⟩

namespace Session

/-- **What an edit does**, to any tree and with any value that a host can come to. It fails exactly if there
is no such node, or the node is a key of a map and the value is neither a keyword nor a string or has the name
of another key; the tree is then as it was, but for what printing the value for the message may keep under the
nodes of the value. An edit that succeeds copies the path to the node. -/
theorem replace_path_copy {s : Session} (hs : s.Reachable) {v : Value} (hv : s.Has v) (root : Value)
    (id : Nat) :
    ((∃ h w, (Tree.ofValue root).replace id v s.world = .error h w) ↔
      (Tree.ofValue root).size ≤ id ∨ (Tree.ofValue root).Rejects id v) ∧
    (∀ h w, (Tree.ofValue root).replace id v s.world = .error h w → s.world.Printed v w) ∧
    ∀ t newId w, (Tree.ofValue root).replace id v s.world = .ok (t, newId) w →
      (Tree.ofValue root).PathCopy s.world id v t newId w := by
  obtain ⟨R, hsound⟩ := hs.exists_sound
  by_cases hsize : (Tree.ofValue root).size ≤ id
  · have hreplace := Tree.replace_of_size_le hsize v s.world
    refine ⟨⟨fun _ => Or.inl hsize, fun _ => ⟨_, _, hreplace⟩⟩, fun h w he => ?_, fun t newId w he => ?_⟩
    · rw [hreplace] at he
      cases he
      exact .refl _ _
    · rw [hreplace] at he
      cases he
  · have hlt := Nat.not_le.mp hsize
    by_cases hrejects : (Tree.ofValue root).Rejects id v
    · obtain ⟨f, hreplace⟩ := Tree.replace_of_rejects hlt hrejects s.world
      refine ⟨⟨fun _ => Or.inr hrejects, fun _ => ⟨_, _, hreplace⟩⟩, fun h w he => ?_, fun t newId w he => ?_⟩
      · rw [hreplace] at he
        cases he
        exact printed_print hsound.world (hsound.known hv)
      · rw [hreplace] at he
        cases he
    · obtain ⟨root', newId', hedited, hnew, hreplace⟩ :=
        Tree.replace_of_not_rejects hlt hrejects s.world
      refine ⟨⟨?_, fun h => ?_⟩, fun h w he => ?_, fun t newId w he => ?_⟩
      · rintro ⟨h, w, he⟩
        rw [hreplace] at he
        cases he
      · exact absurd h (not_or.mpr ⟨hsize, hrejects⟩)
      · rw [hreplace] at he
        cases he
      · rw [hreplace] at he
        cases he
        exact hedited.pathCopy hsound.world hnew

/-- A map with a vector is read. -/
def readsNestedVector : Bool :=
  match EditableLisp.readProgram "\x7b:a [b]\x7d" World.initial with
  | (.ok (.seq _ _ [.map _ [(_, .seq _ _ [_])]]), _) => true
  | _ => false

/-- A map with a vector, as it is read into an empty world: the element of the vector is replaced by the
vector itself. -/
theorem replace_path_copy_nested : ∃ p v w id t newId w',
    EditableLisp.readProgram "\x7b:a [b]\x7d" World.initial = (.ok p, w) ∧ p.at? [0, 1] = some v ∧
      (Tree.ofValue p).atPath? [0, 1, 0] = some id ∧
      (Tree.ofValue p).replace id v w = .ok (t, newId) w' ∧
      (Tree.ofValue p).PathCopy w id v t newId w' := by
  have test : readsNestedVector = true := by decide +kernel
  unfold readsNestedVector at test
  split at test
  · rename_i shape node mapNode key shape' node' b w hr
    let p : Value := .seq shape node [.map mapNode [(key, .seq shape' node' [b])]]
    let read : Session := ⟨w, [p], [], []⟩
    have hread : read.Reachable := Reachable.bare.step (Step.read hr)
    have hmap : read.Has (.map mapNode [(key, .seq shape' node' [b])]) :=
      (Has.held List.mem_cons_self).item List.mem_cons_self
    have hvector : Value.seq shape' node' [b] ∈ Entries.values [(key, .seq shape' node' [b])] :=
      List.mem_cons_of_mem _ List.mem_cons_self
    have hat : p.at? [0, 1, 0] = some b := rfl
    obtain ⟨id, hid, -⟩ := Tree.exists_atPath? hat
    obtain ⟨hfails, -, hcopy⟩ := replace_path_copy hread (hmap.entry hvector) p id
    cases e : (Tree.ofValue p).replace id (.seq shape' node' [b]) w with
    | ok result w' => exact ⟨p, _, w, id, result.1, result.2, w', hr, rfl, hid, e, hcopy _ _ _ e⟩
    | error h w' =>
      rcases hfails.mp ⟨h, w', e⟩ with hsize | hrejects
      · exact absurd (Tree.lt_size_of_atPath? hid) (Nat.not_lt.mpr hsize)
      · obtain ⟨above, i, owner, hpath, howner, hr⟩ := (Tree.rejects_iff hid).mp hrejects
        have hlast : [0, 1] ++ [0] = above ++ [i] := hpath
        obtain ⟨rfl, -⟩ := List.append_inj' hlast rfl
        cases howner
        obtain ⟨_, _, he, -⟩ := hr
        cases he
  · cases test

/-- The vector of the map has no text when it is read, and has one after it was printed. -/
def printingWritesText : Bool :=
  match EditableLisp.readProgram "\x7b:a [b]\x7d" World.initial with
  | (.ok (.seq _ _ [.map _ [(_, .seq shape node [b])]]), w) =>
    w.texts.get? node.id == none &&
      (EditableLisp.print (.seq shape node [b]) w).2.texts.get? node.id == some "[b]"
  | _ => false

/-- **A rejected edit need not leave the tree exactly as it was.** In the map of this program the vector is
put in place of the key. The edit fails, and afterwards the vector, which is still a node of the tree, has a
text that it did not have before. -/
theorem text_of_rejected : ∃ p v w id k h w',
    EditableLisp.readProgram "\x7b:a [b]\x7d" World.initial = (.ok p, w) ∧
      p.at? [0, 1] = some v ∧ v.nodeId? = some k ∧ (Tree.ofValue p).atPath? [0, 0] = some id ∧
      (Tree.ofValue p).replace id v w = .error h w' ∧
      w.texts.get? k = none ∧ w'.texts.get? k = some "[b]" := by
  have test : printingWritesText = true := by decide +kernel
  unfold printingWritesText at test
  split at test
  · rename_i shape node mapNode key shape' node' b w hr
    let p : Value := .seq shape node [.map mapNode [(key, .seq shape' node' [b])]]
    rw [Bool.and_eq_true, beq_iff_eq, beq_iff_eq] at test
    have hat : p.at? [0, 0] = some key.toValue := rfl
    obtain ⟨id, hid, -⟩ := Tree.exists_atPath? hat
    have hrejects : (Tree.ofValue p).Rejects id (.seq shape' node' [b]) :=
      (Tree.rejects_iff hid).mpr ⟨[0], 0, _, rfl, rfl, _, _, rfl, rfl, Or.inl rfl⟩
    obtain ⟨f, he⟩ := Tree.replace_of_rejects (Tree.lt_size_of_atPath? hid) hrejects w
    exact ⟨p, _, w, id, node'.id, _, _, hr, rfl, rfl, hid, he, test.1, test.2⟩
  · cases test

end Session

end EditableLisp
