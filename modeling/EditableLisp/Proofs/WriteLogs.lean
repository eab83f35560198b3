import EditableLisp.Environment

/-!
# Frames as logs of writes

A tree of frames grows from a root by new children and by definitions, with or without a defining form. `Grown`
says so, with the chains that were made on the way and a log of what was written, the last write first. What is
found along a chain is a matter of the log alone (**`Grown.found_along`**): value and defining form are those of the
last write of the name into the nearest frame that a write of the name ever reached.

Values and forms lie in two tables, which two operations write and two searches read. Both operations keep the tables
in step (`Tables.bindings_put`), so the tables of a frame together are the last writes into it
(`Grown.get?_frame_iff`), and both searches stop at the first frame that binds the name (`World.valueIn?_eq`,
`World.siteIn?_eq`).
-/

namespace EditableLisp

/-- A binding that was written into a frame. -/
structure Write where
  frame : FrameId
  name : String
  binding : Binding

/-- A frame received a write of a name. -/
def Written (log : List Write) (frame : FrameId) (name : String) : Prop :=
  ∃ e ∈ log, e.frame = frame ∧ e.name = name

/-- The last write of a name into a frame made this binding. -/
def LastWritten (log : List Write) (frame : FrameId) (name : String) (b : Binding) : Prop :=
  ∃ newer older, log = newer ++ ⟨frame, name, b⟩ :: older ∧ ¬ Written newer frame name

/-- A tree of frames that was grown from a root, with the chains of its frames and the log of the writes. -/
inductive Grown : World → List Env → List Write → Prop where
  | root {w : World} : w.frames = #[.empty] → Grown w [.global] []
  | newChild {w : World} {chains : List Env} {log : List Write} {env : Env} : Grown w chains log → env ∈ chains →
      Grown (newChild env w).2 ((newChild env w).1 :: chains) log
  | define {w : World} {chains : List Env} {log : List Write} {env : Env} (name : String) (v : Value) :
      Grown w chains log → env ∈ chains →
      Grown (define env name v w).2 chains (⟨env.frame, name, v, none⟩ :: log)
  | defineAt {w : World} {chains : List Env} {log : List Write} {env : Env} (name : String) (v site : Value) :
      Grown w chains log → env ∈ chains →
      Grown (defineAt env name v site w).2 chains (⟨env.frame, name, v, some site⟩ :: log)

/-! ## Logs -/

section Log

variable {log : List Write} {e : Write} {frame : FrameId} {name : String} {b : Binding}

theorem written_cons :
    Written (e :: log) frame name ↔ e.frame = frame ∧ e.name = name ∨ Written log frame name := by
  simp [Written]

/-- A write of the name comes in place of the last one; any other write leaves it. -/
theorem lastWritten_cons : LastWritten (e :: log) frame name b ↔
    if e.frame = frame ∧ e.name = name then e.binding = b else LastWritten log frame name b := by
  constructor
  · rintro ⟨newer, older, hlog, hnewer⟩
    cases newer with
    | nil =>
      cases hlog
      exact (if_pos ⟨rfl, rfl⟩).mpr rfl
    | cons first newer =>
      cases hlog
      rw [written_cons, not_or] at hnewer
      rw [if_neg hnewer.1]
      exact ⟨newer, older, rfl, hnewer.2⟩
  · split
    · rename_i hsame
      rintro rfl
      obtain ⟨rfl, rfl⟩ := hsame
      exact ⟨[], log, rfl, nofun⟩
    · rename_i hdiffer
      rintro ⟨newer, older, rfl, hnewer⟩
      refine ⟨e :: newer, older, rfl, ?_⟩
      rw [written_cons, not_or]
      exact ⟨hdiffer, hnewer⟩

theorem written_iff_exists_lastWritten : Written log frame name ↔ ∃ b, LastWritten log frame name b := by
  induction log with
  | nil =>
    refine ⟨nofun, ?_⟩
    rintro ⟨b, newer, older, hlog, -⟩
    exact absurd hlog.symm (List.append_ne_nil_of_right_ne_nil newer (List.cons_ne_nil _ older))
  | cons e log ih =>
    rw [written_cons, ih]
    simp only [lastWritten_cons]
    split
    · rename_i hsame
      exact iff_of_true (.inl hsame) ⟨e.binding, rfl⟩
    · rename_i hdiffer
      exact or_iff_right hdiffer

end Log

/-! ## Frames -/

/-- A chain ends with the frame of its root. -/
theorem Env.exists_frames_eq (env : Env) : ∃ above, env.frames = above ++ [env.root.frame] :=
  ⟨_, (List.dropLast_concat_getLast (List.cons_ne_nil env.frame env.outer)).symm⟩

namespace Grown

variable {w : World} {chains : List Env} {log : List Write} {env : Env}

/-- The frames of a chain that was made are there. -/
theorem frame_lt (h : Grown w chains log) (henv : env ∈ chains) : ∀ id ∈ env.frames, id < w.frames.size := by
  induction h generalizing env with
  | root hw =>
    obtain rfl := List.mem_singleton.mp henv
    rw [hw]
    exact List.forall_mem_singleton.mpr Nat.one_pos
  | @newChild w chains log parent h hparent ih =>
    have hsize : (EditableLisp.newChild parent w).2.frames.size = w.frames.size + 1 := Array.size_push _
    rw [hsize]
    rcases List.mem_cons.mp henv with rfl | henv
    · refine List.forall_mem_cons.mpr ⟨Nat.lt_succ_self _, fun id hid => Nat.lt_succ_of_lt (ih hparent id hid)⟩
    · exact fun id hid => Nat.lt_succ_of_lt (ih henv id hid)
  | define | defineAt =>
    rename_i ih
    exact fun id hid => Nat.lt_of_lt_of_eq (ih henv id hid) Array.size_modify.symm

/-- The chain beyond the frame of a chain that was made was made as well. -/
theorem outer_mem (h : Grown w chains log) (henv : env ∈ chains) {parent : FrameId} {rest : List FrameId}
    (houter : env.outer = parent :: rest) : (⟨parent, rest⟩ : Env) ∈ chains := by
  induction h generalizing env with
  | root =>
    obtain rfl := List.mem_singleton.mp henv
    cases houter
  | newChild h hparent ih =>
    rcases List.mem_cons.mp henv with rfl | henv
    · cases houter
      exact List.mem_cons_of_mem _ hparent
    · exact List.mem_cons_of_mem _ (ih henv houter)
  | define _ _ _ _ ih => exact ih henv houter
  | defineAt _ _ _ _ _ ih => exact ih henv houter

/-- All that a chain goes on with are chains that were made. -/
theorem suffix_mem (h : Grown w chains log) {above below : List FrameId} {frame : FrameId} (henv : env ∈ chains)
    (hframes : env.frames = above ++ frame :: below) : (⟨frame, below⟩ : Env) ∈ chains := by
  induction above generalizing env with
  | nil =>
    cases hframes
    exact henv
  | cons inner above ih =>
    cases hnext : above ++ frame :: below with
    | nil => exact absurd hnext (List.append_ne_nil_of_right_ne_nil above (List.cons_ne_nil frame below))
    | cons parent rest =>
      have houter : env.outer = parent :: rest := (List.cons.inj (hframes.trans (congrArg (inner :: ·) hnext))).2
      exact ih (h.outer_mem henv houter) hnext.symm

/-- A binding that is written into a frame that was made is there, and is the last one of its name in the log. -/
theorem get?_frame_bind_iff {frame : FrameId} {name other : String} {b written : Binding} (h : Grown w chains log)
    (henv : env ∈ chains) (ih : (w.frame frame).get? name = some b ↔ LastWritten log frame name b) :
    ((w.bind env.frame other written).frame frame).get? name = some b ↔
      LastWritten (⟨env.frame, other, written⟩ :: log) frame name b := by
  have hlt := h.frame_lt henv env.frame List.mem_cons_self
  rw [World.frame_bind, lastWritten_cons]
  by_cases hframe : frame = env.frame
  · subst hframe
    rw [if_pos ⟨rfl, hlt⟩, Frame.get?_put]
    by_cases hname : name = other
    · rw [if_pos hname, if_pos ⟨rfl, hname.symm⟩, Option.some.injEq]
    · rw [if_neg hname, if_neg fun hsame => hname hsame.2.symm, ih]
  · rw [if_neg fun hsame => hframe hsame.1, if_neg fun hsame => hframe hsame.1.symm, ih]

/-- **The bindings of a frame are the last writes into it.** -/
theorem get?_frame_iff (h : Grown w chains log) (frame : FrameId) (name : String) (b : Binding) :
    (w.frame frame).get? name = some b ↔ LastWritten log frame name b := by
  induction h with
  | @root w hw =>
    have hempty : w.frame frame = [] := by
      unfold World.frame World.tables
      rw [hw]
      cases frame <;> rfl
    rw [hempty]
    refine iff_of_false nofun ?_
    rintro ⟨newer, older, hlog, -⟩
    exact absurd hlog.symm (List.append_ne_nil_of_right_ne_nil newer (List.cons_ne_nil _ older))
  | newChild h _ ih =>
    rw [frame_newChild]
    exact ih
  | define other v h henv ih =>
    rw [define_apply]
    exact get?_frame_bind_iff h henv ih
  | defineAt other v site h henv ih =>
    rw [defineAt_apply]
    exact get?_frame_bind_iff h henv ih

theorem get?_frame_eq_none_iff (h : Grown w chains log) (frame : FrameId) (name : String) :
    (w.frame frame).get? name = none ↔ ¬ Written log frame name := by
  rw [written_iff_exists_lastWritten, Option.eq_none_iff_forall_ne_some, not_exists]
  exact forall_congr' fun b => not_congr (h.get?_frame_iff frame name b)

/-- **Chains of frames are logs of writes.** Along a chain that was made, a name is found in the nearest frame that
a write of the name ever reached, with the value of the last such write, and with its form if a form made it; if
there is no such frame, the name is not bound. The innermost frame has the names that were written into it. A child
has a frame of its own before the frames of its parent, and the root of a chain is the chain of its last frame. -/
theorem found_along (h : Grown w chains log) (henv : env ∈ chains) :
    (∀ name above frame below b, env.frames = above ++ frame :: below →
      (∀ inner ∈ above, ¬ Written log inner name) → LastWritten log frame name b →
      w.lookup? env name = some b.value ∧ lookup env name w = .ok b.value w ∧ w.site? env name = b.site) ∧
    (∀ name, (∀ frame ∈ env.frames, ¬ Written log frame name) → w.lookup? env name = none ∧
      lookup env name w = .error (.fault (.unbound name)) w ∧ w.site? env name = none) ∧
    (∀ name, w.hasOwn env name ↔ Written log env.frame name) ∧
    ((EditableLisp.newChild env w).1.frames = w.frames.size :: env.frames ∧
      ∀ name, ¬ Written log w.frames.size name) ∧
    env.root ∈ chains ∧ env.root.outer = [] ∧ ∃ above, env.frames = above ++ [env.root.frame] := by
  refine ⟨fun name above frame below b hframes habove hlast => ?_, fun name hnone => ?_, fun name => ?_, ?_, ?_⟩
  · have hbinding : w.binding? env name = some b := by
      rw [World.binding?, hframes]
      exact World.bindingIn?_append (fun inner hinner => (h.get?_frame_eq_none_iff inner name).mpr (habove inner hinner))
        ((h.get?_frame_iff frame name b).mpr hlast)
    have hlookup : w.lookup? env name = some b.value := by rw [World.lookup?_eq, hbinding, Option.map_some]
    exact ⟨hlookup, lookup_of_some hlookup, by rw [World.site?_eq, hbinding, Option.bind_some]⟩
  · have hbinding : w.binding? env name = none :=
      World.bindingIn?_eq_none_iff.mpr fun frame hframe => (h.get?_frame_eq_none_iff frame name).mpr (hnone frame hframe)
    have hlookup : w.lookup? env name = none := by rw [World.lookup?_eq, hbinding, Option.map_none]
    exact ⟨hlookup, lookup_of_none hlookup, by rw [World.site?_eq, hbinding, Option.bind_none]⟩
  · rw [World.hasOwn, World.own?_eq, Option.isSome_map, Option.isSome_iff_exists, written_iff_exists_lastWritten]
    exact exists_congr fun b => h.get?_frame_iff env.frame name b
  · refine ⟨rfl, fun name => ?_⟩
    rw [← h.get?_frame_eq_none_iff, World.frame_of_size_le (Nat.le_refl _)]
    rfl
  · obtain ⟨above, hframes⟩ := env.exists_frames_eq
    exact ⟨h.suffix_mem henv hframes, rfl, above, hframes⟩

/-- A child that binds a name itself hides the binding of its parent, and the form that made it. -/
theorem found_along_shadowed :
    let root := World.initial
    let defined := (EditableLisp.defineAt .global "x" (.bool true) .nil root).2
    let (child, world) := EditableLisp.newChild .global defined
    let shadowed := (EditableLisp.define child "x" (.bool false) world).2
    shadowed.lookup? child "x" = some (.bool false) ∧ shadowed.site? child "x" = none ∧
      shadowed.lookup? .global "x" = some (.bool true) ∧ shadowed.site? .global "x" = some .nil ∧
      shadowed.lookup? child "y" = none ∧ child.root = .global := by
  have hdefined := Grown.defineAt "x" (.bool true) .nil (.root (w := World.initial) rfl) (List.mem_singleton_self _)
  have hgrown := Grown.define "x" (.bool false) (hdefined.newChild (List.mem_singleton_self _)) List.mem_cons_self
  have hnear := (found_along hgrown List.mem_cons_self).1 "x" [] 1 [0] ⟨.bool false, none⟩ rfl nofun
    ⟨[], _, rfl, nofun⟩
  have hfar := (found_along hgrown (List.mem_cons_of_mem _ (List.mem_singleton_self _))).1 "x" [] 0 []
    ⟨.bool true, some .nil⟩ rfl nofun ⟨[_], [], rfl, by simp [Written]; decide⟩
  have hnone := (found_along hgrown List.mem_cons_self).2.1 "y" (by simp [Written])
  exact ⟨hnear.1, hnear.2.2, hfar.1, hfar.2.2, hnone.1, rfl⟩

end Grown
end EditableLisp
