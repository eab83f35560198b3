import Mathlib.Data.List.Infix
import Mathlib.Data.List.Basic
import EditableLisp.World

/-!
# The table of keywords

What interning does to a world, as one equation: a name that is not in the table is added at its end
(`intern_eq`, `internAll_eq`). A name that is in the table stays where it is (`position_of_grown`).
-/

namespace EditableLisp

/-- A world with another table of keywords. -/
def World.withKeywords (w : World) (keywords : Array String) : World := { w with keywords := keywords }

/-- A world with another unused identity. -/
def World.withNextId (w : World) (id : NodeId) : World := { w with nextId := id }

/-- A table of keywords with a name in it. -/
def interned (name : String) (keywords : Array String) : Array String :=
  if name ∈ keywords then keywords else keywords.push name

/-- A table of keywords with some names in it. -/
def internedAll (names : List String) (keywords : Array String) : Array String :=
  names.foldl (fun keywords name => interned name keywords) keywords

/-- Where a name stands in a table, or would stand if it were added. -/
def position (name : String) (keywords : Array String) : Nat :=
  match keywords.idxOf? name with
  | some id => id
  | none => keywords.size

variable {name : String} {names : List String} {keywords keywords' : Array String}

/-! ## Names in a table -/

theorem interned_of_mem (h : name ∈ keywords) : interned name keywords = keywords := if_pos h

theorem prefix_interned (name : String) (keywords : Array String) :
    keywords.toList <+: (interned name keywords).toList := by
  unfold interned
  split
  · exact List.prefix_rfl
  · rw [Array.toList_push]
    exact List.prefix_append _ _

theorem mem_interned_iff {other : String} : other ∈ interned name keywords ↔ other ∈ keywords ∨ other = name := by
  unfold interned
  split_ifs with h
  · exact ⟨Or.inl, fun ho => ho.elim id fun he => he ▸ h⟩
  · exact Array.mem_push

theorem mem_interned (name : String) (keywords : Array String) : name ∈ interned name keywords :=
  mem_interned_iff.mpr (.inr rfl)

theorem prefix_internedAll (names : List String) (keywords : Array String) :
    keywords.toList <+: (internedAll names keywords).toList := by
  induction names generalizing keywords with
  | nil => exact List.prefix_rfl
  | cons name rest ih => exact (prefix_interned name keywords).trans (ih _)

theorem mem_internedAll_iff : name ∈ internedAll names keywords ↔ name ∈ keywords ∨ name ∈ names := by
  induction names generalizing keywords with
  | nil => exact ⟨Or.inl, fun h => h.resolve_right List.not_mem_nil⟩
  | cons other rest ih =>
    show name ∈ internedAll rest (interned other keywords) ↔ _
    rw [ih, mem_interned_iff, or_assoc, List.mem_cons]

theorem internedAll_append (names more : List String) (keywords : Array String) :
    internedAll (names ++ more) keywords = internedAll more (internedAll names keywords) := List.foldl_append

theorem internedAll_of_mem (h : ∀ name ∈ names, name ∈ keywords) : internedAll names keywords = keywords := by
  induction names with
  | nil => rfl
  | cons name rest ih =>
    obtain ⟨hname, hrest⟩ := List.forall_mem_cons.mp h
    show internedAll rest (interned name keywords) = _
    rw [interned_of_mem hname, ih hrest]

/-! ## Positions -/

theorem position_eq_idxOf (name : String) (keywords : Array String) :
    position name keywords = keywords.toList.idxOf name := by
  obtain ⟨keywords⟩ := keywords
  unfold position
  rw [List.idxOf?_toArray, List.idxOf_eq_getD_idxOf?]
  cases keywords.idxOf? name <;> rfl

/-- A name stays where it is when the table grows. -/
theorem position_of_grown (h : keywords.toList <+: keywords'.toList) (hmem : name ∈ keywords) :
    position name keywords' = position name keywords := by
  rw [position_eq_idxOf, position_eq_idxOf]
  exact (h.idxOf_eq_of_mem (Array.mem_toList_iff.mpr hmem)).symm

/-- A new name gets the position at which it stands afterwards. -/
theorem position_interned (name : String) (keywords : Array String) :
    position name (interned name keywords) = position name keywords := by
  by_cases h : name ∈ keywords
  · rw [interned_of_mem h]
  · unfold interned
    rw [if_neg h, position_eq_idxOf, position_eq_idxOf, Array.toList_push,
      List.idxOf_append_of_notMem (mt Array.mem_toList_iff.mp h), List.idxOf_cons_self, Nat.add_zero,
      List.idxOf_eq_length (mt Array.mem_toList_iff.mp h)]

theorem getElem?_position (h : name ∈ keywords) : keywords[position name keywords]? = some name := by
  rw [position_eq_idxOf, ← Array.getElem?_toList]
  exact List.getElem?_idxOf (Array.mem_toList_iff.mpr h)

/-! ## Two tables -/

/-- A table with the names of another one. -/
def merged (table keywords : Array String) : Array String := internedAll keywords.toList table

theorem mem_merged_iff {table : Array String} : name ∈ merged table keywords ↔ name ∈ table ∨ name ∈ keywords := by
  unfold merged
  rw [mem_internedAll_iff, Array.mem_toList_iff]

theorem prefix_merged (table keywords : Array String) : table.toList <+: (merged table keywords).toList :=
  prefix_internedAll _ _

/-- What is merged grows with its second table. -/
theorem merged_mono {table : Array String} (h : keywords.toList <+: keywords'.toList) :
    (merged table keywords).toList <+: (merged table keywords').toList := by
  obtain ⟨more, hmore⟩ := h
  unfold merged
  rw [← hmore, internedAll_append]
  exact prefix_internedAll more _

theorem interned_merged (name : String) (table keywords : Array String) :
    interned name (merged table keywords) = merged table (interned name keywords) := by
  by_cases h : name ∈ keywords
  · rw [interned_of_mem h, interned_of_mem (mem_merged_iff.mpr (.inr h))]
  · have hpush : (interned name keywords).toList = keywords.toList ++ [name] := by
      unfold interned
      rw [if_neg h, Array.toList_push]
    unfold merged
    rw [hpush, internedAll_append]
    rfl

/-- Names that are in the first table add nothing. -/
theorem merged_internedAll {table : Array String} (h : ∀ name ∈ names, name ∈ table) :
    merged table (internedAll names keywords) = merged table keywords := by
  obtain ⟨more, hmore⟩ := prefix_internedAll names keywords
  unfold merged
  rw [← hmore, internedAll_append]
  refine internedAll_of_mem fun name hname => ?_
  have hmem : name ∈ internedAll names keywords :=
    Array.mem_toList_iff.mp (hmore ▸ List.mem_append_right _ hname)
  rcases mem_internedAll_iff.mp hmem with hk | hn
  · exact mem_merged_iff.mpr (.inr hk)
  · exact mem_merged_iff.mpr (.inl (h name hn))

/-! ## Interning -/

/-- Interning a name adds it at the end, unless it is there. -/
theorem intern_eq (name : String) (w : World) :
    intern name w = (⟨position name w.keywords, name⟩, w.withKeywords (interned name w.keywords)) := by
  unfold intern position
  rw [Change.modifyGet_apply]
  cases hi : w.keywords.idxOf? name with
  | some i =>
    have hmem : name ∈ w.keywords := by
      by_contra hn
      rw [Array.idxOf?_eq_none_iff.mpr hn] at hi
      cases hi
    rw [interned_of_mem hmem]
    rfl
  | none =>
    unfold interned
    rw [if_neg (Array.idxOf?_eq_none_iff.mp hi)]
    rfl

/-- Interning names adds those that are not there at the end. -/
theorem internAll_eq (names : List String) (w : World) :
    internAll names w = ((), w.withKeywords (internedAll names w.keywords)) := by
  induction names generalizing w with
  | nil => rfl
  | cons name rest ih =>
    show internAll rest (intern name w).2 = _
    rw [intern_eq, ih]
    rfl

end EditableLisp
