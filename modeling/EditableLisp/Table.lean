/-!
# Tables

A partial function on natural numbers, kept in an array. `get?_set` and `get?_erase` hold for every
index, so nothing else about the array matters; writes of one entry commute as arrays (`set_comm`).
-/

namespace EditableLisp

/-- A partial function on natural numbers. -/
structure Table (α : Type) where
  cells : Array (Option α)

namespace Table

variable {α : Type}

/-- The table without entries. -/
def empty : Table α := ⟨#[]⟩

instance : Inhabited (Table α) := ⟨empty⟩

/-- The entry at an index. -/
def get? (t : Table α) (i : Nat) : Option α := t.cells[i]?.join

/-- An entry stands at an index. -/
def has (t : Table α) (i : Nat) : Bool := (t.get? i).isSome

/-- Writes an entry. -/
def set (t : Table α) (i : Nat) (a : α) : Table α :=
  if i < t.cells.size then ⟨t.cells.setIfInBounds i (some a)⟩
  else ⟨(t.cells ++ Array.replicate (i - t.cells.size) none).push (some a)⟩

/-- Removes an entry. -/
def erase (t : Table α) (i : Nat) : Table α := ⟨t.cells.setIfInBounds i none⟩

@[simp] theorem get?_empty (i : Nat) : (empty : Table α).get? i = none := rfl

@[simp] theorem get?_set (t : Table α) (i j : Nat) (a : α) :
    (t.set i a).get? j = if j = i then some a else t.get? j := by
  simp only [set, get?]
  split
  · rename_i h
    by_cases hj : j = i
    · subst hj; simp [h]
    · have hij : ¬ i = j := fun e => hj e.symm
      simp [hj, hij]
  · rename_i h
    have hs : (t.cells ++ Array.replicate (i - t.cells.size) (none : Option α)).size = i := by
      simp; omega
    rw [Array.getElem?_push, hs]
    by_cases hj : j = i
    · simp [hj]
    · simp only [hj, if_false, Array.getElem?_append]
      split
      · rfl
      · rename_i hlt
        have : t.cells[j]? = none := by simp; omega
        simp only [this, Array.getElem?_replicate]
        split <;> rfl

@[simp] theorem get?_erase (t : Table α) (i j : Nat) :
    (t.erase i).get? j = if j = i then none else t.get? j := by
  simp only [erase, get?, Array.getElem?_setIfInBounds]
  by_cases hj : j = i
  · subst hj
    by_cases h : j < t.cells.size <;> simp [h]
  · have hij : ¬ i = j := fun e => hj e.symm
    simp [hj, hij]

/-- An entry that stands in a table after a write was written or stood there before. -/
theorem has_set {t : Table α} {i j : Nat} {a : α} (h : (t.set i a).has j) : j = i ∨ t.has j := by
  unfold has at h
  rw [get?_set] at h
  split at h
  · rename_i hj
    exact Or.inl hj
  · exact Or.inr h

/-- An entry that stands in a table after another was removed stood there before. -/
theorem has_of_erase {t : Table α} {i j : Nat} (h : (t.erase i).has j) : t.has j := by
  unfold has at h
  rw [get?_erase] at h
  split at h
  · cases h
  · exact h

/-! ## Order of writes -/

theorem size_set (t : Table α) (i : Nat) (a : α) :
    (t.set i a).cells.size = max t.cells.size (i + 1) := by
  unfold set
  split
  · simp only [Array.size_setIfInBounds]; omega
  · simp only [Array.size_push, Array.size_append, Array.size_replicate]; omega

/-- Two tables are the same when they have the same size and the same entries. -/
theorem eq_of_get? {t u : Table α} (hs : t.cells.size = u.cells.size)
    (h : ∀ i, t.get? i = u.get? i) : t = u := by
  obtain ⟨ts⟩ := t
  obtain ⟨us⟩ := u
  congr 1
  refine Array.ext hs fun i ht hu => ?_
  have := h i
  simpa only [get?, Array.getElem?_eq_getElem ht, Array.getElem?_eq_getElem hu,
    Option.join_some] using this

/-- Writing one entry at two places can be done in either order. -/
theorem set_comm (t : Table α) (i j : Nat) (a : α) : (t.set i a).set j a = (t.set j a).set i a := by
  apply eq_of_get?
  · simp only [size_set]; omega
  · intro k
    simp only [get?_set]
    split <;> split <;> rfl

/-- Writing an entry that stands there changes nothing. -/
theorem set_eq_self {t : Table α} {i : Nat} {a : α} (h : t.get? i = some a) : t.set i a = t := by
  have hi : i < t.cells.size := by
    apply Nat.lt_of_not_le
    intro hle
    rw [get?, Array.getElem?_eq_none hle] at h
    cases h
  apply eq_of_get?
  · rw [size_set]; omega
  · intro k
    rw [get?_set]
    split
    · subst k; exact h.symm
    · rfl

end Table

end EditableLisp
