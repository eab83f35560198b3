import EditableLisp.Value.Basic

/-!
# Frames

One frame of an `Env` has two tables, `values` and `defs`: the value of each name, and the `def` forms that made some
of the bindings. `define` and `define_at` write both (`Tables.define`, `Tables.defineAt`). A frame is also seen as one
list of bindings, each a value with its form (`Tables.bindings`); a write of either kind is a `Frame.put` there
(**`Tables.bindings_put`**).
-/

namespace EditableLisp

/-- A value with the form that defined it, if one did. -/
structure Binding where
  value : Value
  site : Option Value
deriving Inhabited

/-- The bindings made in one frame. -/
abbrev Frame := List (String × Binding)

namespace Frame

/-- The binding of a name in a frame. -/
def get? (name : String) : Frame → Option Binding
  | [] => none
  | (n, b) :: rest => if n == name then some b else get? name rest

/-- A frame with a name bound anew. -/
def put (name : String) (binding : Binding) (frame : Frame) : Frame :=
  (name, binding) :: frame.filter fun e => e.1 != name

/-- Removing one name leaves the others. -/
theorem get?_filter_ne {name other : String} (h : ¬ other = name) (frame : Frame) :
    get? other (frame.filter fun e => e.1 != name) = frame.get? other := by
  induction frame with
  | nil => rfl
  | cons e rest ih =>
    by_cases hn : e.1 = name
    · have ho : ¬ name = other := fun e => h e.symm
      simp [get?, hn, ih, ho]
    · simp [get?, hn, ih]

/-- What was put under a name is found under it, and nothing else changes. -/
@[simp] theorem get?_put (name other : String) (binding : Binding) (frame : Frame) :
    (frame.put name binding).get? other = if other = name then some binding else frame.get? other := by
  by_cases h : other = name
  · simp [put, get?, h]
  · have h' : ¬ name = other := fun e => h e.symm
    simp [put, get?, h, h', get?_filter_ne h]

end Frame

/-- The names of a table without one. -/
def without (name : String) (table : List (String × Value)) : List (String × Value) :=
  table.filter fun e => e.1 != name

theorem lookup_without {name other : String} (h : ¬ other = name) (table : List (String × Value)) :
    (without name table).lookup other = table.lookup other := by
  induction table with
  | nil => rfl
  | cons e rest ih =>
    obtain ⟨n, v⟩ := e
    by_cases hn : n = name
    · subst hn
      simp only [without, List.filter_cons, bne_self_eq_false, Bool.false_eq_true, if_false, List.lookup_cons]
      rw [beq_false_of_ne h]
      exact ih
    · simp only [without, List.filter_cons, bne_iff_ne, ne_eq, hn, not_false_eq_true, if_true, List.lookup_cons]
      rw [← without, ih]

theorem lookup_without_self (name : String) (table : List (String × Value)) :
    (without name table).lookup name = none := by
  rw [List.lookup_eq_none_iff]
  intro e he
  exact bne_comm.trans (List.mem_filter.mp he).2

/-- The two tables of a frame: the value of each name, and the forms that made some of the bindings. A frame does not
own the forms: whether one is still there when its link is followed is left to the host. -/
structure Tables where
  values : List (String × Value)
  defs : List (String × Value)
deriving Inhabited

namespace Tables

/-- The tables of a new frame. -/
def empty : Tables := ⟨[], []⟩

/-- Gives a name a value; a form that made the binding before is forgotten. -/
def define (name : String) (value : Value) (t : Tables) : Tables :=
  ⟨(name, value) :: without name t.values, without name t.defs⟩

/-- Gives a name a value, and keeps the form that made the binding. -/
def defineAt (name : String) (value site : Value) (t : Tables) : Tables :=
  ⟨(name, value) :: without name t.values, (name, site) :: without name t.defs⟩

/-- Each value of a frame with its form. -/
def bindings (t : Tables) : Frame := t.values.map fun (name, v) => (name, ⟨v, t.defs.lookup name⟩)

/-- A write of one kind or the other: with the form of the binding if it has one. -/
def put (name : String) (b : Binding) (t : Tables) : Tables :=
  match b.site with
  | none => t.define name b.value
  | some site => t.defineAt name b.value site

theorem bindings_cons (name : String) (v : Value) (values defs : List (String × Value)) :
    (⟨(name, v) :: values, defs⟩ : Tables).bindings =
      (name, ⟨v, defs.lookup name⟩) :: (⟨values, defs⟩ : Tables).bindings := rfl

/-- The two tables together are found as one. -/
theorem get?_bindings (t : Tables) (name : String) :
    t.bindings.get? name = (t.values.lookup name).map fun v => ⟨v, t.defs.lookup name⟩ := by
  unfold bindings
  induction t.values with
  | nil => rfl
  | cons e rest ih =>
    obtain ⟨n, v⟩ := e
    rw [List.map_cons, Frame.get?, List.lookup_cons]
    by_cases hn : n = name
    · subst hn
      simp
    · rw [if_neg (by simpa using hn), ih, beq_false_of_ne fun h => hn h.symm]

/-- A binding has its value and its form from the tables. -/
theorem mem_of_mem_bindings {t : Tables} {e : String × Binding} (he : e ∈ t.bindings) :
    (e.1, e.2.value) ∈ t.values ∧ ∀ site, e.2.site = some site → (e.1, site) ∈ t.defs := by
  obtain ⟨⟨name, v⟩, hv, rfl⟩ := List.mem_map.mp he
  refine ⟨hv, fun site hsite => ?_⟩
  obtain ⟨before, after, hdefs, -⟩ := List.lookup_eq_some_iff.mp hsite
  rw [hdefs]
  exact List.mem_append_right before List.mem_cons_self

theorem mem_values_put {t : Tables} {name : String} {b : Binding} {e : String × Value}
    (he : e ∈ (t.put name b).values) : e = (name, b.value) ∨ e ∈ t.values := by
  have hcons : e ∈ (name, b.value) :: without name t.values := by
    obtain ⟨v, _ | site⟩ := b <;> exact he
  exact (List.mem_cons.mp hcons).imp_right fun h => (List.mem_filter.mp h).1

theorem mem_defs_put {t : Tables} {name : String} {b : Binding} {e : String × Value}
    (he : e ∈ (t.put name b).defs) : b.site = some e.2 ∨ e ∈ t.defs := by
  obtain ⟨v, _ | site⟩ := b
  · exact .inr (List.mem_filter.mp he).1
  · rcases List.mem_cons.mp he with rfl | he
    · exact .inl rfl
    · exact .inr (List.mem_filter.mp he).1

/-- The bindings of other names keep their forms. -/
theorem bindings_filter {values defs defs' : List (String × Value)} {name : String}
    (h : ∀ other, ¬ other = name → defs'.lookup other = defs.lookup other) :
    (⟨without name values, defs'⟩ : Tables).bindings =
      (⟨values, defs⟩ : Tables).bindings.filter fun e => e.1 != name := by
  unfold bindings without
  rw [List.filter_map]
  refine List.map_congr_left fun e he => ?_
  exact congrArg (fun site => (e.1, Binding.mk e.2 site)) (h e.1 (bne_iff_ne.mp (List.mem_filter.mp he).2))

/-- **Both tables are written together**: a write of either kind puts the value with its form under the name. -/
theorem bindings_put (name : String) (b : Binding) (t : Tables) :
    (t.put name b).bindings = t.bindings.put name b := by
  obtain ⟨v, site⟩ := b
  cases site with
  | none =>
    show (t.define name v).bindings = _
    rw [define, bindings_cons, lookup_without_self, bindings_filter fun other h => lookup_without h t.defs]
    rfl
  | some site =>
    show (t.defineAt name v site).bindings = _
    rw [defineAt, bindings_cons, List.lookup_cons_self, bindings_filter fun other h => ?_]
    · rfl
    · rw [List.lookup_cons, beq_false_of_ne h]
      exact lookup_without h t.defs

end Tables
end EditableLisp
