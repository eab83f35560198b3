import Mathlib.Data.List.Perm.Subperm
import EditableLisp.Proofs.Decoding

/-!
# What JSON keeps of a value

`World.normal? v` is what is left of a value when it is written as JSON and read back: lists become
vectors, an atom what it holds (`Storable.normal?_atom`), numbers that are not finite `nil`, and keywords,
symbols and texts what their text stands for. A zero has no sign (`plainZero_eq`). Names that were different
can be one name then: a later entry takes the place of an earlier one (`Entries.ofPairs`).

A value is stored if it is made of plain data and finite (`World.Storable`). It is written as its tree
(`Storable.exists_tree?`). Of a JSON library nothing is used but that it is lawful (`Json.Lawful`): then the
value is read back as its normal form (`World.readsBack_of_storable`).
-/

namespace EditableLisp

namespace Json

/-! ## Normal forms -/

/-- What a number is read as. -/
def numberValue (x : Number) : Value :=
  match x.exact with
  | .finite .. => .num (plainZero x)
  | _ => .nil

mutual

/-- What is left of a value, given what is left of atoms. -/
def normal (keywords : Array String) (atomNormal : AtomId → Option Value) : Value → Option Value
  | .nil => some .nil
  | .bool b => some (.bool b)
  | .num x => some (numberValue x)
  | .text s => (key? keywords s).map Key.toValue
  | .keyword k => (key? keywords (":" ++ k.name)).map Key.toValue
  | .symbol _ name => (key? keywords name).map Key.toValue
  | .seq _ _ items => (normalEach keywords atomNormal items).map (.seq .vector (.bare 0))
  | .map _ entries =>
    (normalEntries keywords atomNormal entries).map fun es => .map (.bare 0) (Entries.ofPairs es)
  | .builtin .. => none
  | .closure .. => none
  | .atom id => atomNormal id

/-- What is left of values. -/
def normalEach (keywords : Array String) (atomNormal : AtomId → Option Value) :
    List Value → Option (List Value)
  | [] => some []
  | v :: rest => do
    let u ← normal keywords atomNormal v
    let us ← normalEach keywords atomNormal rest
    return u :: us

/-- What is left of entries. -/
def normalEntries (keywords : Array String) (atomNormal : AtomId → Option Value) :
    List (Key × Value) → Option Entries
  | [] => some []
  | (k, v) :: rest => do
    let u ← normal keywords atomNormal v
    let key ← key? keywords (keyText k)
    let us ← normalEntries keywords atomNormal rest
    return (key, u) :: us

end

/-- What is left of an atom's content, through at most so many atoms. -/
def normalContent (w : World) : Nat → AtomId → Option Value
  | 0, _ => none
  | depth + 1, id => normal w.keywords (normalContent w depth) (w.content id)

end Json

open Json

/-- What is left of a value. -/
def World.normal? (w : World) (v : Value) : Option Value :=
  normal w.keywords (normalContent w w.atoms.size) v

/-- A value inside these atoms that is made of plain data, at most so many lists, vectors and maps deep: no
functions, and no atom inside itself. Its numbers are whole, of an absolute value below `9 * 10 ^ 15`, or not
finite. -/
inductive World.Storable (w : World) : List AtomId → Nat → Value → Prop where
  | nil {within : List AtomId} {n : Nat} : w.Storable within n .nil
  | bool {within : List AtomId} {n : Nat} (b : Bool) : w.Storable within n (.bool b)
  | num {within : List AtomId} {n : Nat} {x : Number}
      (h : ∀ negative quanta, x.exact = .finite negative quanta → IsWhole x) : w.Storable within n (.num x)
  | text {within : List AtomId} {n : Nat} (s : String) : w.Storable within n (.text s)
  | keyword {within : List AtomId} {n : Nat} (k : Keyword) : w.Storable within n (.keyword k)
  | symbol {within : List AtomId} {n : Nat} (id : NodeId) (name : String) :
      w.Storable within n (.symbol id name)
  | seq {within : List AtomId} {n : Nat} {shape : Shape} {node : Node} {items : List Value}
      (each : ∀ v ∈ items, w.Storable within n v) : w.Storable within (n + 1) (.seq shape node items)
  | map {within : List AtomId} {n : Nat} {node : Node} {entries : List (Key × Value)}
      (each : ∀ e ∈ entries, w.Storable within n e.2) : w.Storable within (n + 1) (.map node entries)
  | atom {within : List AtomId} {n : Nat} {id : AtomId} (exists_content : id < w.atoms.size)
      (acyclic : id ∉ within) (content : w.Storable (id :: within) n (w.content id)) :
      w.Storable within n (.atom id)

namespace Json

variable {atomTree : AtomId → Option Tree}

/-! ## Normal forms and trees -/

/-- A whole number is handed over as an integer. -/
theorem numberTree_whole {x : Number} {negative : Bool} {n : Nat}
    (hx : x.exact = .finite negative (n * Number.quantaPerUnit)) (hn : n < integerLimit) :
    numberTree x = .int (if negative then -n else n) := by
  have hsmall : (n * Number.quantaPerUnit % Number.quantaPerUnit = 0 &&
      n * Number.quantaPerUnit < integerLimit * Number.quantaPerUnit : Bool) = true := by
    rw [Bool.and_eq_true, decide_eq_true_eq, decide_eq_true_eq]
    exact ⟨Nat.mul_mod_left .., Nat.mul_lt_mul_of_pos_right hn quantaPerUnit_pos⟩
  unfold numberTree
  rw [hx]
  dsimp only
  rw [if_pos hsmall, Nat.mul_div_cancel _ quantaPerUnit_pos]

/-- A finite number that is not handed over as an integer is no zero. -/
theorem numberTree_finite {x : Number} {negative : Bool} {quanta : Nat} (hx : x.exact = .finite negative quanta) :
    (∃ n, quanta = n * Number.quantaPerUnit ∧ n < integerLimit) ∨
      numberTree x = .num x ∧ plainZero x = x := by
  by_cases hsmall : (quanta % Number.quantaPerUnit = 0 && quanta < integerLimit * Number.quantaPerUnit : Bool) = true
  · refine Or.inl ⟨quanta / Number.quantaPerUnit, ?_, ?_⟩
    · rw [Bool.and_eq_true, decide_eq_true_eq, decide_eq_true_eq] at hsmall
      exact (Nat.div_mul_cancel (Nat.dvd_of_mod_eq_zero hsmall.1)).symm
    · rw [Bool.and_eq_true, decide_eq_true_eq, decide_eq_true_eq] at hsmall
      exact Nat.div_lt_of_lt_mul (by rw [Nat.mul_comm]; exact hsmall.2)
  · refine Or.inr ⟨?_, ?_⟩
    · unfold numberTree
      rw [hx]
      exact if_neg hsmall
    · unfold plainZero
      refine if_neg fun hzero => hsmall ?_
      rw [hx] at hzero
      rw [(Number.Exact.finite.inj hzero).2, Nat.zero_mod, Bool.and_eq_true, decide_eq_true_eq, decide_eq_true_eq]
      exact ⟨rfl, Nat.mul_pos (by decide +kernel) quantaPerUnit_pos⟩

/-- The value that a tree is read as when it was written. -/
def Tree.readAs? (keywords : Array String) (t : Tree) : Option Value := t.settled.value? keywords

theorem readAs?_numberTree (keywords : Array String) (x : Number) :
    (numberTree x).readAs? keywords = some (numberValue x) := by
  unfold numberValue Tree.readAs?
  cases hx : x.exact with
  | finite negative quanta =>
    rcases numberTree_finite hx with ⟨n, hquanta, hn⟩ | ⟨htree, hplain⟩
    · rw [hquanta] at hx
      rw [numberTree_whole hx hn]
      have hnumber := ofInt_of_exact hx hn
      rw [← hnumber]
      rfl
    · rw [htree, hplain]
      unfold Tree.settled
      rw [hx]
      rfl
  | nan | infinite =>
    unfold numberTree
    rw [hx]
    unfold Tree.settled
    rw [hx]
    rfl

variable {keywords : Array String}

mutual

/-- **What is left of a value is the value of its tree.** -/
theorem normal_eq (v : Value) : normal keywords (fun id => (atomTree id).bind (Tree.readAs? keywords)) v =
    (tree atomTree v).bind (Tree.readAs? keywords) := by
  match v with
  | .nil | .bool _ | .text _ | .keyword _ | .symbol _ _ | .builtin _ _ _ | .closure _ _ _ _ _ _ | .atom _ =>
    unfold normal tree
    rfl
  | .num x =>
    unfold normal tree
    rw [Option.bind_some, readAs?_numberTree]
  | .seq shape node items =>
    unfold normal tree
    rw [normalEach_eq items]
    cases trees atomTree items <;> rfl
  | .map node entries =>
    unfold normal tree
    rw [normalEntries_eq entries]
    cases members atomTree entries <;> rfl

theorem normalEach_eq (items : List Value) :
    normalEach keywords (fun id => (atomTree id).bind (Tree.readAs? keywords)) items =
      (trees atomTree items).bind fun ts => Tree.values? keywords (Tree.settledEach ts) := by
  match items with
  | [] => rfl
  | v :: rest =>
    unfold normalEach trees
    rw [normal_eq v, normalEach_eq rest]
    cases tree atomTree v with
    | none => rfl
    | some t =>
      cases trees atomTree rest with
      | none =>
        rw [Option.bind_some]
        cases t.readAs? keywords <;> rfl
      | some ts => rfl

theorem normalEntries_eq (entries : List (Key × Value)) :
    normalEntries keywords (fun id => (atomTree id).bind (Tree.readAs? keywords)) entries =
      (members atomTree entries).bind fun ms => Tree.pairs? keywords (Tree.settledMembers ms) := by
  match entries with
  | [] => rfl
  | (k, v) :: rest =>
    unfold normalEntries members
    rw [normal_eq v, normalEntries_eq rest]
    cases tree atomTree v with
    | none => rfl
    | some t =>
      cases members atomTree rest with
      | none =>
        rw [Option.bind_some]
        cases t.readAs? keywords <;> cases key? keywords (keyText k) <;> rfl
      | some ms => rfl

end

theorem normalContent_eq (w : World) (depth : Nat) :
    normalContent w depth = fun id => (contentTree w depth id).bind (Tree.readAs? w.keywords) := by
  induction depth with
  | zero => rfl
  | succ depth ih =>
    funext id
    unfold normalContent contentTree
    rw [ih, normal_eq]

end Json

variable {w : World}

theorem World.normal?_eq (v : Value) : w.normal? v = (w.tree? v).bind (Json.Tree.readAs? w.keywords) := by
  unfold World.normal? World.tree?
  rw [normalContent_eq, normal_eq]

/-! ## Trees of values -/

namespace Json

variable {n : Nat} {t : Tree} {v : Value} {keywords : Array String} {atomTree : AtomId → Option Tree}

/-- A number that is whole or not finite is read back. -/
theorem plain_numberTree {x : Number} (h : ∀ negative quanta, x.exact = .finite negative quanta → IsWhole x) :
    (numberTree x).settled.Plain n := by
  cases hx : x.exact with
  | finite negative quanta =>
    obtain ⟨negative, m, hx, hm⟩ := h negative quanta hx
    rw [numberTree_whole hx hm]
    exact .int (by cases negative <;> simpa using hm)
  | nan | infinite =>
    unfold numberTree
    rw [hx]
    unfold Tree.settled
    rw [hx]
    exact .null

/-- Values that have trees one by one have trees. -/
theorem exists_trees {P : Value → Tree → Prop} {items : List Value}
    (h : ∀ v ∈ items, ∃ t, tree atomTree v = some t ∧ P v t) :
    ∃ ts, trees atomTree items = some ts ∧ List.Forall₂ P items ts := by
  induction items with
  | nil => exact ⟨[], rfl, .nil⟩
  | cons v rest ih =>
    obtain ⟨⟨t, ht, hp⟩, hrest⟩ := List.forall_mem_cons.mp h
    obtain ⟨ts, hts, hps⟩ := ih hrest
    refine ⟨t :: ts, ?_, .cons hp hps⟩
    unfold trees
    rw [ht, hts]
    rfl

/-- Entries whose values have trees one by one have trees. -/
theorem exists_members {P : Key × Value → Tree → Prop} {entries : List (Key × Value)}
    (h : ∀ e ∈ entries, ∃ t, tree atomTree e.2 = some t ∧ P e t) : ∃ ms, members atomTree entries = some ms ∧
      List.Forall₂ (fun e m => m.1 = keyText e.1 ∧ P e m.2) entries ms := by
  induction entries with
  | nil => exact ⟨[], rfl, .nil⟩
  | cons e rest ih =>
    obtain ⟨⟨t, ht, hp⟩, hrest⟩ := List.forall_mem_cons.mp h
    obtain ⟨ms, hms, hps⟩ := ih hrest
    refine ⟨(keyText e.1, t) :: ms, ?_, .cons ⟨rfl, hp⟩ hps⟩
    unfold members
    rw [ht, hms]
    rfl

theorem forall_mem_of_forall₂ {α β : Type} {Q : β → Prop} {as : List α} {bs : List β}
    (h : List.Forall₂ (fun _ b => Q b) as bs) : ∀ b ∈ bs, Q b := by
  induction h with
  | nil => exact List.forall_mem_nil _
  | cons hb _ ih => exact List.forall_mem_cons.mpr ⟨hb, ih⟩

/-! ## Trees of normal forms -/

/-- A key says which string it stands for. -/
theorem keyText_of_key? {s : String} {k : Key} (h : key? keywords s = some k) : keyText k = s := by
  cases hs : keywordName? s with
  | none =>
    rw [key?_of_none hs] at h
    cases h
    rfl
  | some name =>
    rw [key?_of_name hs] at h
    obtain ⟨i, -, rfl⟩ := Option.map_eq_some_iff.mp h
    show ":" ++ name = s
    unfold keywordName? at hs
    split at hs
    · rename_i c cs hlist
      cases hs
      rw [← String.toList_inj, String.toList_append, hlist, String.toList_ofList, String.toList_ofList]
      rfl
    · cases hs

theorem tree_toValue (k : Key) : tree atomTree k.toValue = some (.str (keyText k)) := by
  cases k <;> rfl

theorem mem_values? {items : List Tree} {vs : List Value} (h : Tree.values? keywords items = some vs) :
    ∀ v ∈ vs, ∃ t ∈ items, t.value? keywords = some v := by
  induction items generalizing vs with
  | nil =>
    cases h
    exact List.forall_mem_nil _
  | cons t rest ih =>
    unfold Tree.values? at h
    obtain ⟨v, hv, h⟩ := Option.bind_eq_some_iff.mp h
    obtain ⟨vs, hvs, h⟩ := Option.bind_eq_some_iff.mp h
    cases h
    refine List.forall_mem_cons.mpr ⟨⟨t, List.mem_cons_self, hv⟩, fun u hu => ?_⟩
    obtain ⟨t', ht', hu⟩ := ih hvs u hu
    exact ⟨t', List.mem_cons_of_mem _ ht', hu⟩

theorem mem_pairs? {members : List (String × Tree)} {es : Entries} (h : Tree.pairs? keywords members = some es) :
    ∀ e ∈ es, ∃ m ∈ members, m.2.value? keywords = some e.2 ∧ key? keywords m.1 = some e.1 := by
  induction members generalizing es with
  | nil =>
    cases h
    exact List.forall_mem_nil _
  | cons m rest ih =>
    unfold Tree.pairs? at h
    obtain ⟨v, hv, h⟩ := Option.bind_eq_some_iff.mp h
    obtain ⟨k, hk, h⟩ := Option.bind_eq_some_iff.mp h
    obtain ⟨es, hes, h⟩ := Option.bind_eq_some_iff.mp h
    cases h
    refine List.forall_mem_cons.mpr ⟨⟨m, List.mem_cons_self, hv, hk⟩, fun e he => ?_⟩
    obtain ⟨m', hm', he⟩ := ih hes e he
    exact ⟨m', List.mem_cons_of_mem _ hm', he⟩

theorem values?_of_forall₂ {vs : List Value} {ts : List Tree}
    (h : List.Forall₂ (fun v t => t.readAs? keywords = some v) vs ts) :
    Tree.values? keywords (Tree.settledEach ts) = some vs := by
  induction h with
  | nil => rfl
  | @cons v t vs ts ht _ ih =>
    have ht : t.settled.value? keywords = some v := ht
    unfold Tree.settledEach Tree.values?
    rw [ht, ih]
    rfl

theorem pairs?_of_forall₂ {es : Entries} {ms : List (String × Tree)}
    (h : List.Forall₂ (fun e m => key? keywords m.1 = some e.1 ∧ m.2.readAs? keywords = some e.2) es ms) :
    Tree.pairs? keywords (Tree.settledMembers ms) = some es := by
  induction h with
  | nil => rfl
  | @cons e m es ms hm _ ih =>
    have hvalue : m.2.settled.value? keywords = some e.2 := hm.2
    unfold Tree.settledMembers Tree.pairs?
    rw [hm.1, hvalue, ih]
    rfl

/-- Plain trees in an array. -/
theorem plain_arr {ts : List Tree} (h : ∀ t ∈ ts, t.settled.Plain n) : (Tree.arr ts).settled.Plain (n + 1) := by
  have heach : ∀ t ∈ Tree.settledEach ts, t.Plain n := by
    induction ts with
    | nil => exact List.forall_mem_nil _
    | cons t rest ih =>
      obtain ⟨ht, hrest⟩ := List.forall_mem_cons.mp h
      exact List.forall_mem_cons.mpr ⟨ht, ih hrest⟩
  exact .arr heach

/-- Plain trees in an object. -/
theorem plain_obj {ms : List (String × Tree)} (h : ∀ m ∈ ms, m.2.settled.Plain n) :
    (Tree.obj ms).settled.Plain (n + 1) := by
  have heach : ∀ m ∈ Tree.settledMembers ms, m.2.Plain n := by
    induction ms with
    | nil => exact List.forall_mem_nil _
    | cons m rest ih =>
      obtain ⟨hm, hrest⟩ := List.forall_mem_cons.mp h
      exact List.forall_mem_cons.mpr ⟨hm, ih hrest⟩
  exact .obj heach

end Json

namespace Entries

theorem mem_put {key : Key} {value : Value} {entries : Entries} {e : Key × Value}
    (h : e ∈ put key value entries) : e = (key, value) ∨ e ∈ entries := by
  induction entries with
  | nil => exact Or.inl (List.mem_singleton.mp h)
  | cons first rest ih =>
    unfold put at h
    split at h
    · exact (List.mem_cons.mp h).imp_right (List.mem_cons_of_mem _)
    · rcases List.mem_cons.mp h with rfl | h
      · exact Or.inr List.mem_cons_self
      · exact (ih h).imp_right (List.mem_cons_of_mem _)

theorem mem_putAll {entries pairs : Entries} {e : Key × Value} (h : e ∈ putAll entries pairs) :
    e ∈ entries ∨ e ∈ pairs := by
  induction pairs generalizing entries with
  | nil => exact Or.inl h
  | cons pair rest ih =>
    rcases ih (show e ∈ putAll (put pair.1 pair.2 entries) rest from h) with h | h
    · rcases mem_put h with rfl | h
      · exact Or.inr List.mem_cons_self
      · exact Or.inl h
    · exact Or.inr (List.mem_cons_of_mem _ h)

/-- The entries made of pairs are among the pairs. -/
theorem mem_ofPairs {pairs : Entries} {e : Key × Value} (h : e ∈ ofPairs pairs) : e ∈ pairs :=
  (mem_putAll h).resolve_left List.not_mem_nil

end Entries

namespace Json

variable {n : Nat} {t : Tree} {v : Value} {keywords : Array String} {atomTree : AtomId → Option Tree}

/-- **The value of a tree is its own normal form**: it has a tree with the same value. -/
theorem Tree.Plain.exists_tree (h : t.Plain n) (hv : t.value? keywords = some v) :
    ∃ t', tree atomTree v = some t' ∧ t'.settled.Plain n ∧ t'.readAs? keywords = some v := by
  induction h generalizing v with
  | null =>
    cases hv
    exact ⟨.null, rfl, .null, rfl⟩
  | bool b =>
    cases hv
    exact ⟨.bool b, rfl, .bool b, rfl⟩
  | @int n i small =>
    cases hv
    obtain ⟨negative, hx, hplain⟩ := exact_ofInt small
    refine ⟨_, rfl, plain_numberTree fun _ _ _ => ⟨negative, i.natAbs, hx, small⟩, ?_⟩
    rw [readAs?_numberTree]
    unfold numberValue
    rw [hx, hplain]
  | str s =>
    have hs := hv
    unfold Tree.value? at hv
    obtain ⟨k, hk, rfl⟩ := Option.map_eq_some_iff.mp hv
    exact ⟨.str s, by rw [tree_toValue, keyText_of_key? hk], .str s, hs⟩
  | @arr n items each ih =>
    unfold Tree.value? at hv
    obtain ⟨vs, hvs, rfl⟩ := Option.map_eq_some_iff.mp hv
    have heach : ∀ v ∈ vs, ∃ t', tree atomTree v = some t' ∧ t'.settled.Plain n ∧ t'.readAs? keywords = some v := by
      intro v hv
      obtain ⟨t, ht, hv⟩ := mem_values? hvs v hv
      exact ih t ht hv
    obtain ⟨ts, hts, hall⟩ := exists_trees heach
    refine ⟨.arr ts, ?_, plain_arr (forall_mem_of_forall₂ (hall.imp fun _ _ h => h.1)), ?_⟩
    · unfold tree
      rw [hts]
      rfl
    · unfold Tree.readAs? Tree.settled Tree.value?
      rw [values?_of_forall₂ (hall.imp fun _ _ h => h.2)]
      rfl
  | @obj n ms each ih =>
    unfold Tree.value? at hv
    obtain ⟨es, hes, rfl⟩ := Option.map_eq_some_iff.mp hv
    have heach : ∀ e ∈ Entries.ofPairs es, ∃ t', tree atomTree e.2 = some t' ∧ t'.settled.Plain n ∧
        t'.readAs? keywords = some e.2 ∧ key? keywords (keyText e.1) = some e.1 := by
      intro e he
      obtain ⟨m, hm, hvalue, hkey⟩ := mem_pairs? hes e (Entries.mem_ofPairs he)
      obtain ⟨t', ht', hread, hv'⟩ := ih m hm hvalue
      exact ⟨t', ht', hread, hv', by rw [keyText_of_key? hkey]; exact hkey⟩
    obtain ⟨ms', hms', hall⟩ := exists_members heach
    refine ⟨.obj ms', ?_, plain_obj (forall_mem_of_forall₂ (hall.imp fun _ _ h => h.2.1)), ?_⟩
    · unfold tree
      rw [hms']
      rfl
    · unfold Tree.readAs? Tree.settled Tree.value?
      rw [pairs?_of_forall₂ (hall.imp fun e m h => ⟨h.1 ▸ h.2.2.2, h.2.2.1⟩), Option.map_some,
        Entries.ofPairs_of_nodup (Entries.nodup_names_ofPairs es)]

/-! ## Trees of alike values -/

mutual

/-- Alike values have the same tree. -/
theorem tree_congr (v : Value) {u : Value} (h : v.Alike u) : tree atomTree u = tree atomTree v := by
  match v with
  | .nil | .bool _ | .num _ | .text _ | .keyword _ | .builtin _ _ _ | .closure _ _ _ _ _ _ | .atom _ =>
    unfold Value.Alike at h
    rw [h]
  | .symbol id name =>
    unfold Value.Alike at h
    obtain ⟨id', rfl⟩ := h
    rfl
  | .seq shape node items =>
    unfold Value.Alike at h
    obtain ⟨node', us, -, hus, rfl⟩ := h
    unfold tree
    rw [trees_congr items hus]
  | .map node entries =>
    unfold Value.Alike at h
    obtain ⟨node', es, -, hes, rfl⟩ := h
    unfold tree
    rw [members_congr entries hes]

theorem trees_congr (vs : List Value) {us : List Value} (h : Value.AlikeEach vs us) :
    trees atomTree us = trees atomTree vs := by
  match vs with
  | [] =>
    unfold Value.AlikeEach at h
    rw [h]
  | v :: rest =>
    unfold Value.AlikeEach at h
    obtain ⟨u, us, hu, hus, rfl⟩ := h
    unfold trees
    rw [tree_congr v hu, trees_congr rest hus]

theorem members_congr (es : List (Key × Value)) {fs : List (Key × Value)} (h : Value.AlikeEntries es fs) :
    members atomTree fs = members atomTree es := by
  match es with
  | [] =>
    unfold Value.AlikeEntries at h
    rw [h]
  | (k, v) :: rest =>
    unfold Value.AlikeEntries at h
    obtain ⟨u, us, hu, hus, rfl⟩ := h
    unfold members
    rw [tree_congr v hu, members_congr rest hus]

end

end Json

/-! ## Stored values -/

variable {w : World} {n : Nat} {v : Value}

/-- **A stored value has a tree that is read back.** -/
theorem World.Storable.exists_tree {within : List AtomId} (h : w.Storable within n v) (hnodup : within.Nodup)
    (hin : ∀ id ∈ within, id < w.atoms.size) :
    ∃ t, tree (contentTree w (w.atoms.size - within.length)) v = some t ∧ t.settled.Plain n := by
  induction h with
  | nil => exact ⟨.null, rfl, .null⟩
  | bool b => exact ⟨.bool b, rfl, .bool b⟩
  | num h => exact ⟨_, rfl, plain_numberTree h⟩
  | text s => exact ⟨.str s, rfl, .str s⟩
  | keyword k => exact ⟨.str _, rfl, .str _⟩
  | symbol id name => exact ⟨.str name, rfl, .str name⟩
  | seq each ih =>
    obtain ⟨ts, hts, hall⟩ := exists_trees fun v hv => ih v hv hnodup hin
    refine ⟨.arr ts, ?_, plain_arr (forall_mem_of_forall₂ hall)⟩
    unfold tree
    rw [hts]
    rfl
  | map each ih =>
    obtain ⟨ms, hms, hall⟩ := exists_members fun e he => ih e he hnodup hin
    refine ⟨.obj ms, ?_, plain_obj (forall_mem_of_forall₂ (hall.imp fun _ _ h => h.2))⟩
    unfold tree
    rw [hms]
    rfl
  | @atom within n id exists_content acyclic content ih =>
    have hnodup' : (id :: within).Nodup := List.nodup_cons.mpr ⟨acyclic, hnodup⟩
    have hin' : ∀ i ∈ id :: within, i < w.atoms.size := List.forall_mem_cons.mpr ⟨exists_content, hin⟩
    obtain ⟨t, ht, hread⟩ := ih hnodup' hin'
    -- different atoms are not more than there are
    have hle := (List.subperm_of_subset hnodup' fun i hi => List.mem_range.mpr (hin' i hi)).length_le
    rw [List.length_range, List.length_cons] at hle
    have hfuel : w.atoms.size - within.length = w.atoms.size - (id :: within).length + 1 := by
      rw [List.length_cons]
      omega
    refine ⟨t, ?_, hread⟩
    unfold tree
    rw [hfuel]
    exact ht

theorem World.Storable.exists_tree? (h : w.Storable [] n v) : ∃ t, w.tree? v = some t ∧ t.settled.Plain n :=
  h.exists_tree List.nodup_nil (List.forall_mem_nil _)

namespace Json

variable {f g : AtomId → Option Tree}

mutual

/-- A tree stays when more atoms have trees. -/
theorem tree_mono (hfg : ∀ id t, f id = some t → g id = some t) (v : Value) {t : Tree}
    (h : tree f v = some t) : tree g v = some t := by
  match v with
  | .nil | .bool _ | .num _ | .text _ | .keyword _ | .symbol _ _ | .builtin _ _ _ | .closure _ _ _ _ _ _ =>
    unfold tree at h ⊢
    exact h
  | .atom id =>
    unfold tree at h ⊢
    exact hfg id t h
  | .seq shape node items =>
    unfold tree at h ⊢
    obtain ⟨ts, hts, rfl⟩ := Option.map_eq_some_iff.mp h
    rw [trees_mono hfg items hts]
    rfl
  | .map node entries =>
    unfold tree at h ⊢
    obtain ⟨ms, hms, rfl⟩ := Option.map_eq_some_iff.mp h
    rw [members_mono hfg entries hms]
    rfl

theorem trees_mono (hfg : ∀ id t, f id = some t → g id = some t) (items : List Value) {ts : List Tree}
    (h : trees f items = some ts) : trees g items = some ts := by
  match items with
  | [] => exact h
  | v :: rest =>
    unfold trees at h ⊢
    obtain ⟨t, ht, h⟩ := Option.bind_eq_some_iff.mp h
    obtain ⟨ts, hts, h⟩ := Option.bind_eq_some_iff.mp h
    rw [tree_mono hfg v ht, trees_mono hfg rest hts]
    exact h

theorem members_mono (hfg : ∀ id t, f id = some t → g id = some t) (entries : List (Key × Value))
    {ms : List (String × Tree)} (h : members f entries = some ms) : members g entries = some ms := by
  match entries with
  | [] => exact h
  | (k, v) :: rest =>
    unfold members at h ⊢
    obtain ⟨t, ht, h⟩ := Option.bind_eq_some_iff.mp h
    obtain ⟨ms, hms, h⟩ := Option.bind_eq_some_iff.mp h
    rw [tree_mono hfg v ht, members_mono hfg rest hms]
    exact h

end

theorem contentTree_succ {depth : Nat} {id : AtomId} {t : Tree} (h : contentTree w depth id = some t) :
    contentTree w (depth + 1) id = some t := by
  induction depth generalizing id t with
  | zero => cases h
  | succ depth ih => exact tree_mono (fun _ _ => ih) (w.content id) h

/-- The content of atoms does not depend on the keywords or the unused identity. -/
theorem contentTree_withKeywords (w : World) (keywords : Array String) (id : NodeId) (depth : Nat) :
    contentTree ((w.withKeywords keywords).withNextId id) depth = contentTree w depth := by
  induction depth with
  | zero => rfl
  | succ depth ih =>
    funext a
    unfold contentTree
    rw [ih]
    rfl

end Json

/-- What is left of an atom is what is left of what it holds. -/
theorem World.Storable.normal?_atom {id : AtomId} (h : w.Storable [] n (.atom id)) :
    w.normal? (.atom id) = w.normal? (w.content id) := by
  obtain ⟨t, ht, -⟩ := h.exists_tree?
  have hcontent : w.tree? (w.content id) = some t := contentTree_succ ht
  rw [World.normal?_eq, World.normal?_eq, ht, hcontent]

/-! ## Writing and reading back -/

/-- A value is written as JSON and read back. -/
structure World.ReadsBack [Library] (w : World) (v u : Value) (w' : World) : Prop where
  run : (encodeJson v >>= decodeJson) w = .ok u w'
  /-- The result is the normal form. -/
  normal : ∃ v₀, w'.normal? v = some v₀ ∧ v₀.Alike u ∧ w'.normal? v₀ = some v₀
  /-- Nothing changes but that identities are used and keywords interned. -/
  frame : w' = (w.withKeywords w'.keywords).withNextId w'.nextId
  /-- Keywords keep their identities. -/
  keywords : w.keywords.toList <+: w'.keywords.toList

/-- Reading a text leaves the trees of values as they are. -/
theorem World.tree?_withKeywords (keywords : Array String) (id : NodeId) (x : Value) :
    ((w.withKeywords keywords).withNextId id).tree? x = w.tree? x := by
  unfold World.tree?
  rw [contentTree_withKeywords]
  rfl

theorem World.normal?_withKeywords (keywords : Array String) (id : NodeId) (x : Value) :
    ((w.withKeywords keywords).withNextId id).normal? x = (w.tree? x).bind (Json.Tree.readAs? keywords) := by
  rw [World.normal?_eq, World.tree?_withKeywords]
  rfl

theorem World.normal?_congr {u : Value} (h : v.Alike u) : w.normal? u = w.normal? v := by
  rw [World.normal?_eq, World.normal?_eq]
  unfold World.tree?
  rw [tree_congr v h]

section

variable [Library]

/-- A value whose tree is read back is written and read back, and what comes out has such a tree again. Nothing
is interned if the value has a normal form already. -/
theorem World.readsBack_of_tree? (hlawful : Lawful) {t : Json.Tree} (ht : w.tree? v = some t)
    (hplain : t.settled.Plain depthMax) :
    ∃ u w', w.ReadsBack v u w' ∧ (∃ t', w'.tree? u = some t' ∧ t'.settled.Plain depthMax) ∧
      ((w.normal? v).isSome → w'.keywords = w.keywords) := by
  obtain ⟨u, v₀, keywords, id, hrun, hvalue, halike, hprefix, hsame⟩ := hlawful.decodeJson_write hplain w
  obtain ⟨t', ht', hplain', hvalue'⟩ : ∃ t', w.tree? v₀ = some t' ∧ t'.settled.Plain depthMax ∧
      t'.readAs? keywords = some v₀ := hplain.exists_tree hvalue
  refine ⟨u, (w.withKeywords keywords).withNextId id, ⟨?_, ⟨v₀, ?_, halike, ?_⟩, rfl, hprefix⟩,
    ⟨t', ?_, hplain'⟩, fun h => ?_⟩
  · rw [bind_of_eq_ok (encodeJson_of_tree? ht)]
    exact hrun
  · rw [World.normal?_withKeywords, ht]
    exact hvalue
  · rw [World.normal?_withKeywords, ht']
    exact hvalue'
  · rw [World.tree?_withKeywords]
    exact (tree_congr v₀ halike).trans ht'
  · rw [World.normal?_eq, ht] at h
    exact hsame h

/-- **With a lawful library, a stored value is written as JSON and read back as its normal form**, which is its own
normal form. What was read back is written and read back as itself, without a new keyword. -/
theorem World.readsBack_of_storable (hlawful : Lawful) (h : w.Storable [] depthMax v) :
    ∃ u w', w.ReadsBack v u w' ∧
      ∃ u' w'', w'.ReadsBack u u' w'' ∧ u.Alike u' ∧ w''.keywords = w'.keywords := by
  obtain ⟨t, ht, hplain⟩ := h.exists_tree?
  obtain ⟨u, w', hback, ⟨t', ht', hplain'⟩, -⟩ := World.readsBack_of_tree? hlawful ht hplain
  obtain ⟨u', w'', hback', -, hsame⟩ := World.readsBack_of_tree? hlawful ht' hplain'
  obtain ⟨v₀, -, halike, hnormal⟩ := hback.normal
  have hu : w'.normal? u = some v₀ := (World.normal?_congr halike).trans hnormal
  have hkeywords : w''.keywords = w'.keywords := hsame (Option.isSome_of_eq_some hu)
  obtain ⟨v₁, hv₁, halike', -⟩ := hback'.normal
  have hv : v₁ = v₀ := by
    rw [hback'.frame, World.normal?_withKeywords, hkeywords, ← World.normal?_eq, hu] at hv₁
    exact (Option.some.inj hv₁).symm
  exact ⟨u, w', hback, u', w'', hback', Value.Alike.right_unique v₀ halike (hv ▸ halike'), hkeywords⟩

end

/-- A map with two keys that become one, and an atom in a list. -/
theorem World.readsBack_of_storable_colliding :
    let w : World := { World.initial with atoms := #[.text ":b"] }
    let v : Value := .map (.bare 0) [(.text ":a", .num 1),
      (.keyword ⟨5, "a"⟩, .seq .list (.bare 1) [.symbol 2 "x", .atom 0, .num Number.nan])]
    @Lawful standard ∧ w.Storable [] depthMax v ∧ ∃ u w', w.ReadsBack v u w' ∧
      ∃ u' w'', w'.ReadsBack u u' w'' ∧ u.Alike u' ∧ w''.keywords = w'.keywords := by
  intro w v
  have hone : IsWhole 1 := ⟨false, 1, by decide +kernel, by decide +kernel⟩
  have hnan : ∀ negative quanta, Number.nan.exact = .finite negative quanta → IsWhole Number.nan := by
    intro negative quanta h
    rw [show Number.nan.exact = .nan from by decide +kernel] at h
    cases h
  have hatom : w.Storable [] 125 (.atom 0) := .atom (by decide) List.not_mem_nil (.text ":b")
  have hlist : w.Storable [] 126 (.seq .list (.bare 1) [.symbol 2 "x", .atom 0, .num Number.nan]) :=
    .seq (List.forall_mem_cons.mpr ⟨.symbol 2 "x", List.forall_mem_cons.mpr
      ⟨hatom, List.forall_mem_singleton.mpr (.num hnan)⟩⟩)
  have hv : w.Storable [] depthMax v :=
    .map (List.forall_mem_cons.mpr ⟨.num fun _ _ _ => hone, List.forall_mem_singleton.mpr hlist⟩)
  exact ⟨lawful_standard, hv, World.readsBack_of_storable lawful_standard hv⟩

example : ({ World.initial with keywords := #["b", "a"] } : World).normal? (.map (.bare 0) [(.text ":a", .nil),
    (.text "c", .symbol 3 ":"), (.keyword ⟨5, "a"⟩, .seq .list (.bare 1) [.keyword ⟨7, "b"⟩])]) =
      some (.map (.bare 0) [(.keyword ⟨1, "a"⟩, .seq .vector (.bare 0) [.keyword ⟨0, "b"⟩]),
        (.text "c", .text ":")]) := by cbv

end EditableLisp
