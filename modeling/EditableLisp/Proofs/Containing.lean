import Mathlib.Data.List.Perm.Subperm
import Mathlib.Logic.Relation
import EditableLisp.World

/-!
# What stands in a value

The tree of a value never changes, but atoms stand in it, and what an atom holds does. `World.Within` follows
both: elements of sequences, values of entries and contents of atoms, and, if one asks for it, the parameters and
bodies of functions. What stands in a value depends on no other atoms than those that stand in it
(`within_congr`).

A value is `Acyclic` if no atom in it stands inside itself. Then its atoms are nested no deeper than there are
atoms (`Acyclic.nested`), so what follows atoms at most as many times comes to an end before it stops.
-/

namespace EditableLisp

namespace World

/-! ## Parts -/

/-- What stands immediately in a value. The parameters and bodies of functions count if `inside` says so. -/
def partsOf (w : World) (inside : Bool) : Value → List Value
  | .seq _ _ items => items
  | .map _ entries => entries.map Prod.snd
  | .closure _ _ params body _ _ => if inside then [params, body] else []
  | .atom id => [w.content id]
  | _ => []

/-- A value stands in another one, or is it. -/
def Within (w : World) (inside : Bool) : Value → Value → Prop :=
  Relation.ReflTransGen fun v u => u ∈ w.partsOf inside v

/-- A value stands in a function that stands in another one. -/
def InFunction (w : World) (v x : Value) : Prop :=
  ∃ f, w.Within false v f ∧ f.functionId?.isSome ∧ w.Within true f x

variable {w w' : World} {inside : Bool} {v u x : Value}

theorem Within.refl : w.Within inside v v := Relation.ReflTransGen.refl

theorem Within.trans (h : w.Within inside v u) (h' : w.Within inside u x) : w.Within inside v x :=
  Relation.ReflTransGen.trans h h'

theorem Within.part (h : w.Within inside v u) (hx : x ∈ w.partsOf inside u) : w.Within inside v x :=
  Relation.ReflTransGen.tail h hx

theorem Within.of_part (hu : u ∈ w.partsOf inside v) (h : w.Within inside u x) : w.Within inside v x :=
  Relation.ReflTransGen.head hu h

/-- Only functions have parts that stand in a function. -/
theorem functionId?_of_partsOf (hx : x ∈ w.partsOf true v) (hn : x ∉ w.partsOf false v) :
    v.functionId?.isSome := by
  cases v with
  | closure => rfl
  | _ => exact absurd hx hn

/-- **What stands in a value stands outside of functions or in a function.** -/
theorem within_or_inFunction (h : w.Within true v x) : w.Within false v x ∨ w.InFunction v x := by
  induction h with
  | refl => exact .inl .refl
  | @tail u x _ hx ih =>
    rcases ih with hu | ⟨f, hf, hid, hu⟩
    · by_cases hout : x ∈ w.partsOf false u
      · exact .inl (hu.part hout)
      · exact .inr ⟨u, hu, functionId?_of_partsOf hx hout, Within.refl.part hx⟩
    · exact .inr ⟨f, hf, hid, hu.part hx⟩

/-! ## Other contents of atoms -/

theorem partsOf_congr (h : ∀ id, v = .atom id → w'.content id = w.content id) :
    w'.partsOf inside v = w.partsOf inside v := by
  cases v with
  | atom id => exact congrArg (fun content => [content]) (h id rfl)
  | _ => rfl

/-- **What stands in a value stays if the contents of the atoms in it stay.** -/
theorem within_congr (h : ∀ id, w.Within inside v (.atom id) → w'.content id = w.content id) :
    w'.Within inside v u ↔ w.Within inside v u := by
  constructor
  · intro hu
    induction hu with
    | refl => exact .refl
    | @tail u x _ hx ih =>
      have hparts : w'.partsOf inside u = w.partsOf inside u := partsOf_congr fun id he => h id (he ▸ ih)
      exact ih.part (hparts ▸ hx)
  · intro hu
    induction hu with
    | refl => exact .refl
    | @tail u x hu hx ih =>
      have hparts : w'.partsOf inside u = w.partsOf inside u := partsOf_congr fun id he => h id (he ▸ hu)
      exact ih.part (hparts ▸ hx)

/-! ## Atoms inside themselves -/

/-- No atom that stands in a value, inside these atoms, stands inside itself. -/
inductive Acyclic (w : World) : List AtomId → Value → Prop where
  | parts {within : List AtomId} {v : Value} (no_atom : ∀ id, v ≠ .atom id)
      (each : ∀ u ∈ w.partsOf true v, w.Acyclic within u) : w.Acyclic within v
  | atom {within : List AtomId} {id : AtomId} (exists_content : id < w.atoms.size) (acyclic : id ∉ within)
      (content : w.Acyclic (id :: within) (w.content id)) : w.Acyclic within (.atom id)

/-- Whether no atom stands inside itself, for values that are at most so deep. -/
def acyclic? (w : World) : Nat → List AtomId → Value → Bool
  | 0, _, _ => false
  | n + 1, within, .atom id =>
    decide (id < w.atoms.size) && !within.contains id && w.acyclic? n (id :: within) (w.content id)
  | n + 1, within, v => (w.partsOf true v).all (w.acyclic? n within)

theorem acyclic_of_acyclic? {n : Nat} {within : List AtomId} (h : w.acyclic? n within v = true) :
    w.Acyclic within v := by
  induction n generalizing within v with
  | zero => cases h
  | succ n ih =>
    have hparts : (w.partsOf true v).all (w.acyclic? n within) = true →
        ∀ u ∈ w.partsOf true v, w.Acyclic within u := fun h u hu => ih (List.all_eq_true.mp h u hu)
    cases v with
    | atom id =>
      unfold acyclic? at h
      simp only [Bool.and_eq_true, decide_eq_true_eq, Bool.not_eq_true', List.contains_eq_mem,
        decide_eq_false_iff_not] at h
      exact .atom h.1.1 h.1.2 (ih h.2)
    | _ => exact .parts nofun (hparts h)

/-- Atoms are nested in a value at most so deep. -/
inductive Nested (w : World) : Nat → Value → Prop where
  | parts {n : Nat} {v : Value} (no_atom : ∀ id, v ≠ .atom id) (each : ∀ u ∈ w.partsOf true v, w.Nested n u) :
      w.Nested n v
  | atom {n : Nat} {id : AtomId} (exists_content : id < w.atoms.size) (content : w.Nested n (w.content id)) :
      w.Nested (n + 1) (.atom id)

/-- **Atoms that are not inside themselves are nested no deeper than there are others.** -/
theorem Acyclic.nested_of_nodup {within : List AtomId} (h : w.Acyclic within v) (hnodup : within.Nodup)
    (hin : ∀ id ∈ within, id < w.atoms.size) : w.Nested (w.atoms.size - within.length) v := by
  induction h with
  | parts no_atom _ ih => exact .parts no_atom fun u hu => ih u hu hnodup hin
  | @atom within id exists_content acyclic _ ih =>
    have hnodup' : (id :: within).Nodup := List.nodup_cons.mpr ⟨acyclic, hnodup⟩
    have hin' : ∀ i ∈ id :: within, i < w.atoms.size := List.forall_mem_cons.mpr ⟨exists_content, hin⟩
    -- different atoms are not more than there are
    have hle := (List.subperm_of_subset hnodup' fun i hi => List.mem_range.mpr (hin' i hi)).length_le
    rw [List.length_range, List.length_cons] at hle
    have hdepth : w.atoms.size - within.length = w.atoms.size - (id :: within).length + 1 := by
      rw [List.length_cons]
      omega
    rw [hdepth]
    exact .atom exists_content (ih hnodup' hin')

theorem Acyclic.nested (h : w.Acyclic [] v) : w.Nested w.atoms.size v :=
  h.nested_of_nodup List.nodup_nil (List.forall_mem_nil _)

theorem Nested.part {n : Nat} (h : w.Nested n v) (hv : ∀ id, v ≠ .atom id) (hu : u ∈ w.partsOf true v) :
    w.Nested n u := by
  cases h with
  | parts _ each => exact each u hu
  | atom => exact absurd rfl (hv _)

/-- What stands in a value of nested atoms is one. -/
theorem Nested.within {n : Nat} (h : w.Nested n v) (hu : w.Within true v u) : ∃ m, w.Nested m u := by
  induction hu with
  | refl => exact ⟨n, h⟩
  | @tail u x _ hx ih =>
    obtain ⟨m, hm⟩ := ih
    cases hm with
    | parts _ each => exact ⟨m, each x hx⟩
    | atom _ content =>
      cases List.mem_singleton.mp hx
      exact ⟨_, content⟩

/-- The atoms that stand in a value of nested atoms have contents. -/
theorem Nested.lt_size {n : Nat} (h : w.Nested n v) {id : AtomId} (hid : w.Within true v (.atom id)) :
    id < w.atoms.size := by
  obtain ⟨m, hm⟩ := h.within hid
  cases hm with
  | parts no_atom => exact absurd rfl (no_atom id)
  | atom exists_content => exact exists_content

theorem Nested.mono {m n : Nat} (h : w.Nested m v) (hle : m ≤ n) : w.Nested n v := by
  induction h generalizing n with
  | parts no_atom _ ih => exact .parts no_atom fun u hu => ih u hu hle
  | atom exists_content _ ih =>
    obtain ⟨k, rfl⟩ := Nat.exists_eq_add_of_lt hle
    exact .atom exists_content (ih (Nat.le_add_right _ k))

/-- Atoms are nested as deep as before if their contents are there and as before. -/
theorem Nested.congr {n : Nat} (h : w.Nested n v)
    (hcontent : ∀ id, id < w.atoms.size → id < w'.atoms.size ∧ w'.content id = w.content id) : w'.Nested n v := by
  induction h with
  | parts no_atom _ ih =>
    refine .parts no_atom fun u hu => ih u ?_
    rwa [partsOf_congr fun id he => absurd he (no_atom id)] at hu
  | @atom n id exists_content _ ih =>
    obtain ⟨hsize, hsame⟩ := hcontent id exists_content
    exact .atom hsize (by rwa [hsame])

end World

/-! ## Cells -/

/-- What can be written: what is kept under a node, or the content of an atom. -/
inductive Cell where
  | node (id : NodeId)
  | atom (id : AtomId)
deriving DecidableEq

/-- The cell that a value names. Functions are shared and have none. -/
def Value.cell? : Value → Option Cell
  | .symbol id _ => some (.node id)
  | .seq _ node _ => some (.node node.id)
  | .map node _ => some (.node node.id)
  | .atom id => some (.atom id)
  | _ => none

theorem Value.cell?_eq_node {v : Value} {id : NodeId} : v.cell? = some (.node id) ↔ v.nodeId? = some id := by
  cases v <;> simp [cell?, nodeId?]

/-- Outside of functions, no node and no atom stands in the one value and in the other. -/
def World.Separate (w : World) (a b : Value) : Prop :=
  ∀ u x cell, w.Within false a u → w.Within false b x → u.cell? = some cell → x.cell? ≠ some cell

theorem World.Separate.symm {w : World} {a b : Value} (h : w.Separate a b) : w.Separate b a :=
  fun u x cell hu hx hcell hcell' => h x u cell hx hu hcell' hcell

end EditableLisp
