import EditableLisp.World

/-!
# Environments

A name is looked up along a chain of frames, innermost first (`Env`: `get`, `def_site`, `get_own`, `has_own`). The
value and the form that defined it are found by two searches (`World.valueIn?`, `World.siteIn?`), in two tables.
Seen as one list of bindings (`World.frame`), the two stop at the same frame: the first that binds the name
(**`World.valueIn?_eq`**, **`World.siteIn?_eq`**). Definitions write one frame only (`World.frame_bind`), and both of
its tables.
-/

namespace EditableLisp

namespace World

/-- The tables of a frame. -/
def tables (w : World) (id : FrameId) : Tables := w.frames.getD id .empty

/-- The value of a name in the first of some frames that has one. -/
def valueIn? (w : World) (name : String) : List FrameId → Option Value
  | [] => none
  | id :: rest =>
    match (w.tables id).values.lookup name with
    | some v => some v
    | none => valueIn? w name rest

/-- The form that defined a name, in the first of some frames that has a value of the name. -/
def siteIn? (w : World) (name : String) : List FrameId → Option Value
  | [] => none
  | id :: rest =>
    if ((w.tables id).values.lookup name).isSome then (w.tables id).defs.lookup name else siteIn? w name rest

/-- The value of a name along a chain. -/
def lookup? (w : World) (env : Env) (name : String) : Option Value := w.valueIn? name env.frames

/-- The form that defined a name, in the frame that the name belongs to. -/
def site? (w : World) (env : Env) (name : String) : Option Value := w.siteIn? name env.frames

/-- The value of a name in the innermost frame alone. -/
def own? (w : World) (env : Env) (name : String) : Option Value := (w.tables env.frame).values.lookup name

/-- The innermost frame binds a name. -/
def hasOwn (w : World) (env : Env) (name : String) : Bool := (w.own? env name).isSome

/-- The sizes of the frames of a chain, outermost inside. -/
def describe (w : World) : List FrameId → String
  | [] => ""
  | [id] => "<Env " ++ toString (w.tables id).values.length ++ ">"
  | id :: rest => "<Env " ++ toString (w.tables id).values.length ++ " " ++ describe w rest ++ ">"

/-! ## Values with their forms -/

/-- The bindings of a frame. -/
def frame (w : World) (id : FrameId) : Frame := (w.tables id).bindings

/-- The binding of a name in the first of some frames that binds it. -/
def bindingIn? (w : World) (name : String) : List FrameId → Option Binding
  | [] => none
  | id :: rest =>
    match (w.frame id).get? name with
    | some b => some b
    | none => bindingIn? w name rest

/-- The binding of a name along a chain. -/
def binding? (w : World) (env : Env) (name : String) : Option Binding := w.bindingIn? name env.frames

theorem get?_frame (w : World) (id : FrameId) (name : String) :
    (w.frame id).get? name =
      ((w.tables id).values.lookup name).map fun v => ⟨v, (w.tables id).defs.lookup name⟩ :=
  (w.tables id).get?_bindings name

/-- **The search for a value** stops at the first frame that binds the name. -/
theorem valueIn?_eq (w : World) (name : String) (ids : List FrameId) :
    w.valueIn? name ids = (w.bindingIn? name ids).map Binding.value := by
  induction ids with
  | nil => rfl
  | cons id rest ih =>
    rw [valueIn?, bindingIn?, get?_frame]
    cases (w.tables id).values.lookup name with
    | none => exact ih
    | some v => rfl

/-- **The search for a defining form** stops at the same frame. -/
theorem siteIn?_eq (w : World) (name : String) (ids : List FrameId) :
    w.siteIn? name ids = (w.bindingIn? name ids).bind Binding.site := by
  induction ids with
  | nil => rfl
  | cons id rest ih =>
    rw [siteIn?, bindingIn?, get?_frame]
    cases (w.tables id).values.lookup name with
    | none => exact ih
    | some v => rfl

theorem lookup?_eq (w : World) (env : Env) (name : String) :
    w.lookup? env name = (w.binding? env name).map Binding.value := w.valueIn?_eq name env.frames

theorem site?_eq (w : World) (env : Env) (name : String) :
    w.site? env name = (w.binding? env name).bind Binding.site := w.siteIn?_eq name env.frames

theorem own?_eq (w : World) (env : Env) (name : String) :
    w.own? env name = ((w.frame env.frame).get? name).map Binding.value := by
  rw [get?_frame, own?]
  cases (w.tables env.frame).values.lookup name <;> rfl

/-- Writes a binding into a frame. -/
def bind (w : World) (id : FrameId) (name : String) (binding : Binding) : World :=
  { w with frames := w.frames.modify id (Tables.put name binding) }

theorem tables_bind (w : World) (id other : FrameId) (name : String) (binding : Binding) :
    (w.bind id name binding).tables other =
      if other = id ∧ id < w.frames.size then (w.tables id).put name binding else w.tables other := by
  simp only [bind, tables, Array.getD_eq_getD_getElem?, Array.getElem?_modify]
  by_cases h : other = id
  · subst h
    by_cases hlt : other < w.frames.size
    · simp [hlt]
    · rw [if_pos rfl, if_neg fun e => hlt e.2, Array.getElem?_eq_none (Nat.le_of_not_lt hlt)]
      rfl
  · rw [if_neg fun e => h e.symm, if_neg fun e => h e.1]

/-- Writing a binding changes the frame that it is written into and no other. -/
theorem frame_bind (w : World) (id other : FrameId) (name : String) (binding : Binding) :
    (w.bind id name binding).frame other =
      if other = id ∧ id < w.frames.size then (w.frame id).put name binding else w.frame other := by
  rw [frame, tables_bind]
  split
  · exact Tables.bindings_put name binding (w.tables id)
  · rfl

/-- A name that no frame of a chain binds has no value along it. -/
theorem bindingIn?_eq_none_iff {w : World} {name : String} {ids : List FrameId} :
    w.bindingIn? name ids = none ↔ ∀ id ∈ ids, (w.frame id).get? name = none := by
  induction ids with
  | nil => simp [bindingIn?]
  | cons id rest ih =>
    rw [bindingIn?]
    cases h : (w.frame id).get? name with
    | none => simp [ih, h]
    | some b => simp [h]

/-- A frame that was not made has no bindings. -/
theorem frame_of_size_le {w : World} {id : FrameId} (h : w.frames.size ≤ id) : w.frame id = [] := by
  unfold frame tables
  rw [Array.getD_eq_getD_getElem?, Array.getElem?_eq_none h]
  rfl

theorem frame_congr {w w' : World} (h : w'.frames = w.frames) (id : FrameId) :
    w'.frame id = w.frame id := by
  unfold frame tables
  rw [h]

/-- A name belongs to the first frame of a chain that binds it. -/
theorem bindingIn?_append {w : World} {name : String} {above below : List FrameId} {id : FrameId} {b : Binding}
    (ha : ∀ inner ∈ above, (w.frame inner).get? name = none) (hb : (w.frame id).get? name = some b) :
    w.bindingIn? name (above ++ id :: below) = some b := by
  induction above with
  | nil =>
    rw [List.nil_append, bindingIn?, hb]
  | cons inner rest ih =>
    obtain ⟨hinner, hrest⟩ := List.forall_mem_cons.mp ha
    rw [List.cons_append, bindingIn?, hinner]
    exact ih hrest

/-- The binding of a name depends on the frames of its chain alone. -/
theorem binding?_congr {w w' : World} {env : Env} (h : ∀ id ∈ env.frames, w'.frame id = w.frame id)
    (name : String) : w'.binding? env name = w.binding? env name := by
  have along : ∀ ids, (∀ id ∈ ids, w'.frame id = w.frame id) →
      w'.bindingIn? name ids = w.bindingIn? name ids := by
    intro ids
    induction ids with
    | nil => exact fun _ => rfl
    | cons id rest ih =>
      intro h
      obtain ⟨hid, hrest⟩ := List.forall_mem_cons.mp h
      unfold bindingIn?
      rw [hid, ih hrest]
  exact along env.frames h

/-- A lookup depends on the frames of its chain alone. -/
theorem lookup?_congr {w w' : World} {env : Env} (h : ∀ id ∈ env.frames, w'.frame id = w.frame id)
    (name : String) : w'.lookup? env name = w.lookup? env name := by
  rw [lookup?_eq, lookup?_eq, binding?_congr h]

/-- The value of a name in a frame, or else along a chain. -/
def lookupFrom (w : World) (content : Frame) (scope : Env) (name : String) : Option Value :=
  match content.get? name with
  | some b => some b.value
  | none => w.lookup? scope name

theorem lookup?_child (w : World) (scope : Env) (id : FrameId) :
    w.lookup? (scope.child id) = w.lookupFrom (w.frame id) scope := by
  funext name
  rw [lookupFrom, lookup?_eq, lookup?_eq, binding?, binding?]
  show (w.bindingIn? name (id :: scope.frames)).map Binding.value = _
  rw [bindingIn?]
  cases (w.frame id).get? name with
  | none => rfl
  | some b => rfl

/-- Names are looked up beyond a frame without bindings. -/
theorem lookup?_child_of_nil {w : World} {id : FrameId} (h : w.frame id = []) (scope : Env) :
    w.lookup? (scope.child id) = w.lookup? scope := by
  rw [lookup?_child, h]
  rfl

end World

/-- Binds a name in the innermost frame. -/
def define (env : Env) (name : String) (value : Value) : Change Unit :=
  modify fun w => { w with frames := w.frames.modify env.frame (Tables.define name value) }

/-- Binds a name in the innermost frame and keeps the form that did. -/
def defineAt (env : Env) (name : String) (value site : Value) : Change Unit :=
  modify fun w => { w with frames := w.frames.modify env.frame (Tables.defineAt name value site) }

/-- A definition writes a binding without a form. -/
theorem define_apply (env : Env) (name : String) (v : Value) (w : World) :
    define env name v w = ((), w.bind env.frame name ⟨v, none⟩) := rfl

/-- A definition by a form writes a binding with the form. -/
theorem defineAt_apply (env : Env) (name : String) (v site : Value) (w : World) :
    defineAt env name v site w = ((), w.bind env.frame name ⟨v, some site⟩) := rfl

/-- A chain with a new, empty innermost frame. -/
def newChild (env : Env) : Change Env :=
  modifyGet fun w => (env.child w.frames.size, { w with frames := w.frames.push .empty })

/-- A new frame has no bindings and leaves the others as they are. -/
theorem tables_newChild (w : World) (env : Env) (id : FrameId) :
    ((newChild env w).2).tables id = w.tables id := by
  show (w.frames.push .empty).getD id .empty = w.frames.getD id .empty
  rw [Array.getD_eq_getD_getElem?, Array.getD_eq_getD_getElem?, Array.getElem?_push]
  split
  · rename_i h
    rw [h, Array.getElem?_eq_none (Nat.le_refl _)]
    rfl
  · rfl

theorem frame_newChild (w : World) (env : Env) (id : FrameId) :
    ((newChild env w).2).frame id = w.frame id := congrArg Tables.bindings (tables_newChild w env id)

/-- The value of a name, or a fault. -/
def lookup (env : Env) (name : String) : Act Value := do
  match (← get).lookup? env name with
  | some v => pure v
  | none => fail (.unbound name)

theorem lookup_of_some {w : World} {env : Env} {name : String} {v : Value}
    (h : w.lookup? env name = some v) : lookup env name w = .ok v w := by
  unfold lookup
  rw [Act.get_bind, h]
  rfl

theorem lookup_of_none {w : World} {env : Env} {name : String} (h : w.lookup? env name = none) :
    lookup env name w = .error (.fault (.unbound name)) w := by
  unfold lookup
  rw [Act.get_bind, h]
  rfl

end EditableLisp
