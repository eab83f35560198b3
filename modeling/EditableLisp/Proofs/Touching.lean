import EditableLisp.Proofs.PrintedTexts

/-!
# Direct changes of a value

A `Touch` resets an atom, drops what was derived from a node, prints a value, or writes the last value or the
expansion of a node. It writes the cell of its part and nothing else (`Touch.frame_run`), except that printing keeps
texts and default layouts under all nodes that are printed, those in functions included.

If no node and no atom stands in one value and in another outside of functions (`World.Separate`), a touch of what
stands in the one spares the other (**`Touch.spares`**), and the values stay separate as long as nothing of the one
is put into the other (**`World.Rounds.separate`**). Functions are shared, so two exceptions are left: a node of the
one that stands in a function is printed with it, and an atom of the one that stands in a function of the other is
printed with that.
-/

namespace EditableLisp

/-! ## What printing writes -/

section

variable {w₀ : World} {v u : Value}

theorem writes_layout {node : Node} (hu : w₀.Shows v u) (hid : u.nodeId? = some node.id) (count : Nat) :
    Writes w₀ v (layout node count) := by
  have spaced : Writes w₀ v (setSpaced node.id >>= fun _ => Pure.pure (defaultGaps node.style count)) :=
    (writes_setSpaced hu hid).bind fun _ => Writes.pure _
  unfold layout
  refine Writes.get_bind fun w _ => ?_
  cases w.gaps? node count with
  | none => exact spaced
  | some gaps =>
    dsimp only
    split
    · exact Writes.pure _
    · exact spaced

theorem writes_keptText (readably : Bool) (id : NodeId) : Writes w₀ v (keptText readably id) := by
  unfold keptText
  split
  · exact Writes.get_bind fun _ _ => Writes.pure _
  · exact Writes.pure _

theorem writes_keepText {id : NodeId} (hu : w₀.Shows v u) (hid : u.nodeId? = some id) (readably : Bool)
    (r : Rendered) : Writes w₀ v (keepText readably id r) := by
  unfold keepText
  split
  · exact (writes_setText hu hid _).bind fun _ => Writes.pure _
  · exact Writes.pure _

variable {atomText : Bool → AtomId → Change String} {readably : Bool}

theorem writes_renderItems {items : List Value}
    (h : ∀ x ∈ items, ∀ spelling, Writes w₀ v (render atomText readably spelling x)) (gaps : List String)
    (spellings : List (Option String)) (done : Rendered) :
    Writes w₀ v (renderItems atomText readably gaps spellings done items) := by
  induction items generalizing gaps spellings done with
  | nil =>
    unfold renderItems
    exact Writes.pure _
  | cons x rest ih =>
    obtain ⟨hx, hrest⟩ := List.forall_mem_cons.mp h
    unfold renderItems
    exact (hx _).bind fun r => ih hrest _ _ _

theorem writes_renderEntries {entries : List (Key × Value)}
    (h : ∀ e ∈ entries, ∀ spelling, Writes w₀ v (render atomText readably spelling e.2)) (gaps : List String)
    (spellings : List (Option String)) (done : Rendered) :
    Writes w₀ v (renderEntries atomText readably gaps spellings done entries) := by
  induction entries generalizing gaps spellings done with
  | nil =>
    unfold renderEntries
    exact Writes.pure _
  | cons e rest ih =>
    obtain ⟨he, hrest⟩ := List.forall_mem_cons.mp h
    unfold renderEntries
    exact (he _).bind fun r => ih hrest _ _ _

/-- What is rendered with a value writes what printing the value may write, if the atoms do that are rendered. -/
theorem writes_render (ha : ∀ readably id, w₀.Shows v (.atom id) → Writes w₀ v (atomText readably id))
    (hu : w₀.Shows v u) (readably : Bool) (spelling : Option String) :
    Writes w₀ v (render atomText readably spelling u) := by
  induction u using Value.ofParts generalizing readably spelling with
  | nil | bool | num | text | keyword | symbol | builtin =>
    unfold render
    exact Writes.pure _
  | seq shape node items ih =>
    have hitems : ∀ x ∈ node.written items, ∀ spelling, Writes w₀ v (render atomText readably spelling x) :=
      fun x hx spelling => ih x (Value.written_subset node items hx) (hu.part hx) readably spelling
    unfold render
    refine (writes_keptText _ _).bind fun kept => ?_
    split
    · exact Writes.pure _
    · refine (writes_layout hu rfl _).bind fun gaps => ?_
      dsimp only
      split
      · rename_i mark head form hm
        rw [Value.written_marked hm] at hitems
        exact (hitems form List.mem_cons_self _).bind fun r => writes_keepText hu rfl _ _
      · rename_i hb
        rw [Value.written_bracketed hb] at hitems
        exact (writes_renderItems hitems _ _ _).bind fun r => writes_keepText hu rfl _ _
  | map node entries ih =>
    unfold render
    refine (writes_keptText _ _).bind fun kept => ?_
    split
    · exact Writes.pure _
    · refine (writes_layout hu rfl _).bind fun gaps => ?_
      refine (writes_renderEntries (fun e he spelling => ?_) _ _ _).bind fun r => writes_keepText hu rfl _ _
      exact ih e he (hu.part (List.mem_map_of_mem he)) readably spelling
  | closure id kind params body env data hparams hbody _ =>
    unfold render
    refine (hparams (hu.part List.mem_cons_self) true none).bind fun p => ?_
    refine (hbody (hu.part (List.mem_cons_of_mem _ List.mem_cons_self)) true none).bind fun b => ?_
    exact Writes.pure _
  | atom id =>
    unfold render
    exact (ha readably id hu).bind fun _ => Writes.pure _

theorem writes_renderContent (depth : Nat) (readably : Bool) {id : AtomId} (hu : w₀.Shows v (.atom id)) :
    Writes w₀ v (renderContent depth readably id) := by
  induction depth generalizing readably id with
  | zero => exact Writes.pure _
  | succ depth ih =>
    unfold renderContent
    refine Writes.get_bind fun w hp => ?_
    have hcontent : w.content id = w₀.content id := by
      unfold World.content
      rw [hp.atoms]
    rw [hcontent]
    have hpart : w₀.Shows v (w₀.content id) := hu.part (List.mem_singleton.mpr rfl)
    exact (writes_render (fun readably id hid => ih readably hid) hpart readably none).bind fun _ => Writes.pure _

end

/-- **Printing writes only texts and default layouts**, under the nodes that are printed, in any world. -/
theorem printed_printWith (w : World) (v : Value) (readably : Bool) : w.Printed v (printWith readably v w).2 := by
  have hwrites : Writes w v (printWith readably v) := by
    unfold printWith
    refine Writes.get_bind fun w₁ _ => ?_
    exact (writes_render (fun readably id hid => writes_renderContent _ readably hid) .self readably none).bind
      fun _ => Writes.pure _
  exact hwrites w (.refl w v)

/-- What is printed with a value stands in it. -/
theorem World.Shows.within {w : World} {v u : Value} (h : w.Shows v u) : w.Within true v u := by
  induction h with
  | self => exact .refl
  | @part u x _ hx ih =>
    refine ih.part ?_
    cases u with
    | seq shape node items => exact Value.written_subset node items hx
    | _ => exact hx

/-! ## Touches -/

/-- A direct change of a value: a change of one of its parts. -/
inductive Touch where
  | reset (id : AtomId) (content : Value)
  | invalidate (part : Value)
  | print (readably : Bool) (part : Value)
  | evaluated (part result : Value)
  | expanded (part : Value) (expansion : Expansion)

namespace Touch

/-- The part that is changed. -/
def part : Touch → Value
  | reset id _ => .atom id
  | invalidate v | print _ v | evaluated v _ | expanded v _ => v

/-- The world after the change. -/
def run (t : Touch) (w : World) : World :=
  match t with
  | reset id content => (setContent id content w).2
  | invalidate v => (EditableLisp.invalidate v w).2
  | print readably v => (printWith readably v w).2
  | evaluated v result => (setResult v result w).2
  | expanded v expansion =>
    match v.nodeId? with
    | some id => (setExpansion id expansion w).2
    | none => w

/-- A world differs from another only in what the touch may write. -/
structure Frame (t : Touch) (w w' : World) : Prop where
  size : w'.atoms.size = w.atoms.size
  contents : ∀ id, (∀ content, t ≠ reset id content) → w'.content id = w.content id
  derived : ∀ id, t.part.nodeId? ≠ some id → w'.results.get? id = w.results.get? id ∧
    w'.sites.get? id = w.sites.get? id ∧ w'.expansions.get? id = w.expansions.get? id
  shown : ∀ id, t.part.nodeId? ≠ some id →
    (∀ readably v u, t = print readably v → w.Within true v u → u.nodeId? ≠ some id) →
    w'.texts.get? id = w.texts.get? id ∧ w'.spaced.get? id = w.spaced.get? id

variable {t : Touch} {w : World} {a b u : Value} {inside : Bool}

theorem Frame.refl (t : Touch) (w : World) : t.Frame w w :=
  ⟨rfl, fun _ _ => rfl, fun _ _ => ⟨rfl, rfl, rfl⟩, fun _ _ _ => ⟨rfl, rfl⟩⟩

theorem content_reset (w : World) (id : AtomId) (content : Value) (other : AtomId) :
    ((reset id content).run w).content other = content ∧ other = id ∨
      ((reset id content).run w).content other = w.content other := by
  have hset : ((reset id content).run w).content other = (w.atoms.setIfInBounds id content).getD other .nil := rfl
  rw [hset, Array.getD_eq_getD_getElem?, Array.getElem?_setIfInBounds]
  unfold World.content
  by_cases h : id = other
  · subst h
    by_cases hsize : id < w.atoms.size
    · rw [if_pos rfl, if_pos hsize]
      exact .inl ⟨rfl, rfl⟩
    · rw [if_pos rfl, if_neg hsize, Array.getD_eq_getD_getElem?, Array.getElem?_eq_none (Nat.le_of_not_lt hsize)]
      exact .inr rfl
  · rw [if_neg h, Array.getD_eq_getD_getElem?]
    exact .inr rfl

theorem frame_reset (id : AtomId) (content : Value) (w : World) :
    (reset id content).Frame w ((reset id content).run w) := by
  refine ⟨Array.size_setIfInBounds, fun other ho => ?_, fun _ _ => ⟨rfl, rfl, rfl⟩, fun _ _ _ => ⟨rfl, rfl⟩⟩
  rcases content_reset w id content other with ⟨-, rfl⟩ | h
  · exact absurd rfl (ho content)
  · exact h

theorem frame_invalidate (v : Value) (w : World) : (invalidate v).Frame w ((invalidate v).run w) := by
  have erased : ∀ {γ : Type} {table : Table γ} {id other : NodeId}, some id ≠ some other →
      (table.erase id).get? other = table.get? other :=
    fun h => (Table.get?_erase _ _ _).trans (if_neg fun e => h (congrArg some e.symm))
  cases v with
  | symbol id name =>
    refine ⟨rfl, fun _ _ => rfl, fun other ho => ?_, fun _ _ _ => ⟨rfl, rfl⟩⟩
    exact ⟨erased ho, erased ho, rfl⟩
  | seq shape node items =>
    refine ⟨rfl, fun _ _ => rfl, fun other ho => ?_, fun other ho _ => ⟨erased ho, rfl⟩⟩
    exact ⟨erased ho, rfl, erased ho⟩
  | map node entries =>
    refine ⟨rfl, fun _ _ => rfl, fun other ho => ?_, fun other ho _ => ⟨erased ho, rfl⟩⟩
    exact ⟨erased ho, rfl, rfl⟩
  | _ => exact Frame.refl _ w

theorem frame_print (readably : Bool) (v : Value) (w : World) :
    (print readably v).Frame w ((print readably v).run w) := by
  have hprinted := printed_printWith w v readably
  show Frame _ w (printWith readably v w).2
  generalize (printWith readably v w).2 = w' at hprinted
  obtain ⟨⟨texts, spaced, rfl⟩, htexts, hspaced⟩ := hprinted
  refine ⟨rfl, fun _ _ => rfl, fun _ _ => ⟨rfl, rfl, rfl⟩, fun id _ h => ?_⟩
  have hshown : ∀ u, w.Shows v u → u.nodeId? ≠ some id := fun u hu => h readably v u rfl hu.within
  exact ⟨htexts id hshown, hspaced id hshown⟩

theorem frame_evaluated (v result : Value) (w : World) :
    (evaluated v result).Frame w ((evaluated v result).run w) := by
  show Frame _ w (setResult v result w).2
  unfold setResult
  cases hid : v.nodeId? with
  | none => exact Frame.refl _ w
  | some id =>
    refine ⟨rfl, fun _ _ => rfl, fun other ho => ⟨?_, rfl, rfl⟩, fun _ _ _ => ⟨rfl, rfl⟩⟩
    exact (Table.get?_set _ _ _ _).trans (if_neg fun e => ho (by rw [e]; exact hid))

theorem frame_expanded (v : Value) (expansion : Expansion) (w : World) :
    (expanded v expansion).Frame w ((expanded v expansion).run w) := by
  show Frame _ w (match v.nodeId? with | some id => (setExpansion id expansion w).2 | none => w)
  cases hid : v.nodeId? with
  | none => exact Frame.refl _ w
  | some id =>
    refine ⟨rfl, fun _ _ => rfl, fun other ho => ⟨rfl, rfl, ?_⟩, fun _ _ _ => ⟨rfl, rfl⟩⟩
    exact (Table.get?_set _ _ _ _).trans (if_neg fun e => ho (by rw [e]; exact hid))

/-- **A touch writes no more than the cell of its part**, and under what is printed. -/
theorem frame_run (t : Touch) (w : World) : t.Frame w (t.run w) := by
  cases t with
  | reset id content => exact frame_reset id content w
  | invalidate v => exact frame_invalidate v w
  | print readably v => exact frame_print readably v w
  | evaluated v result => exact frame_evaluated v result w
  | expanded v expansion => exact frame_expanded v expansion w

/-! ## Values that are spared -/

/-- A touch leaves a value as it is: what stands in it, the contents of its atoms, what is kept under its nodes and
its text. Texts and layouts that are printed with a function may become another, and so may the text of a function
in which an atom is reset. -/
structure Spares (t : Touch) (w : World) (b : Value) : Prop where
  tree : ∀ u, (t.run w).Within false b u ↔ w.Within false b u
  contents : ∀ id, w.Within false b (.atom id) → (t.run w).content id = w.content id
  derived : ∀ u id, w.Within false b u → u.nodeId? = some id →
    (t.run w).results.get? id = w.results.get? id ∧ (t.run w).sites.get? id = w.sites.get? id ∧
      (t.run w).expansions.get? id = w.expansions.get? id
  shown : ∀ u id, w.Within false b u → u.nodeId? = some id →
    (∀ readably v x, t = print readably v → w.InFunction v x → x.nodeId? ≠ some id) →
    (t.run w).texts.get? id = w.texts.get? id ∧ (t.run w).spaced.get? id = w.spaced.get? id
  fresh : (∀ id content, t = reset id content → ¬ w.InFunction b (.atom id)) →
    ∀ readably, (t.run w).freshText readably b = w.freshText readably b

/-- **A touch of what stands in one value spares another** with which it has no node and no atom in common. -/
theorem spares (hs : w.Separate a b) (ht : w.Within false a t.part) : t.Spares w b := by
  have hframe := t.frame_run w
  have hcontents : ∀ id, w.Within false b (.atom id) → (t.run w).content id = w.content id := by
    intro id hid
    refine hframe.contents id ?_
    rintro content rfl
    exact hs _ _ (.atom id) ht hid rfl rfl
  have hpart : ∀ u id, w.Within false b u → u.nodeId? = some id → t.part.nodeId? ≠ some id := by
    intro u id hu hid hpart
    exact hs _ _ (.node id) ht hu (Value.cell?_eq_node.mpr hpart) (Value.cell?_eq_node.mpr hid)
  refine ⟨fun u => World.within_congr hcontents, hcontents, fun u id hu hid => hframe.derived id (hpart u id hu hid),
    fun u id hu hid hfun => hframe.shown id (hpart u id hu hid) ?_, fun hfun readably => ?_⟩
  · rintro readably v x rfl hx hxid
    rcases World.within_or_inFunction hx with hout | hin
    · exact hs x u (.node id) (ht.trans hout) hu (Value.cell?_eq_node.mpr hxid) (Value.cell?_eq_node.mpr hid)
    · exact hfun readably v x rfl hin hxid
  · refine World.freshText_congr hframe.size (fun id hid => ?_) readably
    rcases World.within_or_inFunction hid with hout | hin
    · exact hcontents id hout
    · refine hframe.contents id ?_
      rintro content rfl
      exact hfun id content rfl hin

/-- After an atom was reset, what stands in a value stood in it before, or in the new content. -/
theorem within_reset {id : AtomId} {content : Value} (h : ((reset id content).run w).Within inside a u) :
    w.Within inside a u ∨ w.Within inside content u := by
  induction h with
  | refl => exact .inl .refl
  | @tail u x _ hx ih =>
    have hparts : x ∈ w.partsOf inside u ∨ x = content := by
      cases u with
      | atom other =>
        rcases content_reset w id content other with ⟨hnew, -⟩ | hsame
        · exact .inr ((List.mem_singleton.mp hx).trans hnew)
        · exact .inl (List.mem_singleton.mpr ((List.mem_singleton.mp hx).trans hsame))
      | _ => exact .inl hx
    rcases hparts with hx | rfl
    · exact ih.imp (fun hu => hu.part hx) fun hu => hu.part hx
    · exact .inr .refl

/-- What stands in a value is the same after every touch but a reset. -/
theorem within_of_ne (h : ∀ id content, t ≠ reset id content) : (t.run w).Within inside a u ↔ w.Within inside a u :=
  World.within_congr fun id _ => (t.frame_run w).contents id (h id)

end Touch

/-! ## Rounds of touches -/

namespace World

/-- What stands in a value is touched. If an atom is reset, nothing of the other value is put into it. -/
def Touches (w : World) (a b : Value) (w' : World) : Prop :=
  ∃ t : Touch, w.Within false a t.part ∧ (∀ id content, t = .reset id content → w.Separate content b) ∧ w' = t.run w

/-- The two values were touched any number of times, and nothing of the one was put into the other. -/
def Rounds (w : World) (a b : Value) : World → Prop :=
  Relation.ReflTransGen (fun w w' => w.Touches a b w' ∨ w.Touches b a w') w

variable {w w' : World} {a b : Value}

/-- **A touch keeps two values separate.** -/
theorem Touches.separate (h : w.Touches a b w') (hs : w.Separate a b) : w'.Separate a b := by
  obtain ⟨t, hpart, hput, rfl⟩ := h
  have hspares := t.spares hs hpart
  intro u x cell hu hx hcell
  have hold : w.Within false b x := (hspares.tree x).mp hx
  by_cases hreset : ∃ id content, t = .reset id content
  · obtain ⟨id, content, rfl⟩ := hreset
    rcases Touch.within_reset hu with hu | hu
    · exact hs u x cell hu hold hcell
    · exact hput id content rfl u x cell hu hold hcell
  · have hu : w.Within false a u := (Touch.within_of_ne fun id content e => hreset ⟨id, content, e⟩).mp hu
    exact hs u x cell hu hold hcell

/-- **Rounds of touches keep two values separate.** -/
theorem Rounds.separate (h : w.Rounds a b w') (hs : w.Separate a b) : w'.Separate a b := by
  induction h with
  | refl => exact hs
  | tail _ hstep ih =>
    rcases hstep with ha | hb
    · exact ha.separate ih
    · exact (hb.separate ih.symm).symm

end World

end EditableLisp
