import EditableLisp.Proofs.Keeping

/-!
# Printing keeps the world ok

Printing a value writes texts and default layouts under the nodes that are printed with it, and nothing else
(`World.Printed`). What is kept is the text of the node, so a value comes out as it is drawn, whatever was
printed before, if the texts that are kept for it are of collections without atoms (`print_of_durable`).
-/

namespace EditableLisp

open Registry

variable {R : Registry}

/-- An act may rely on the world that it starts in. -/
theorem Steady.of_ok {α : Type} {act : Act α} {Q : α → Prop} (h : ∀ w, R.Ok w → Steady R act Q) :
    Steady R act Q := fun w hw => h w hw w hw

theorem Keeps.of_ok {α : Type} {act : Act α} {Q : Registry → α → Prop}
    (h : ∀ w, R.Ok w → Keeps R act Q) : Keeps R act Q := fun w hw => h w hw w hw

theorem steady_liftGet : Steady R (liftM (get : Change World)) fun w => R.Ok w :=
  steady_lift fun _ hw => ⟨hw, hw⟩

/-! ## What printing writes -/

/-- A world differs from another by what printing a value may write. -/
structure World.Printed (w : World) (v : Value) (w' : World) : Prop where
  rest : ∃ texts spaced, w' = { w with texts := texts, spaced := spaced }
  texts : ∀ id, (∀ u, w.Shows v u → u.nodeId? ≠ some id) → w'.texts.get? id = w.texts.get? id
  spaced : ∀ id, (∀ u, w.Shows v u → u.nodeId? ≠ some id) → w'.spaced.get? id = w.spaced.get? id

theorem World.Printed.refl (w : World) (v : Value) : w.Printed v w :=
  ⟨⟨w.texts, w.spaced, rfl⟩, fun _ _ => rfl, fun _ _ => rfl⟩

theorem World.Printed.atoms {w w' : World} {v : Value} (h : w.Printed v w') : w'.atoms = w.atoms := by
  obtain ⟨_, _, rfl⟩ := h.rest
  rfl

/-- A change writes nothing that printing the value `v` in the world `w₀` may not write. -/
def Writes (w₀ : World) (v : Value) {α : Type} (change : Change α) : Prop :=
  ∀ w, w₀.Printed v w → w₀.Printed v (change w).2

section

variable {w₀ : World} {v u : Value} {α β : Type}

theorem Writes.pure (a : α) : Writes w₀ v (Pure.pure a : Change α) := fun _ hp => hp

theorem Writes.bind {change : Change α} {f : α → Change β} (h : Writes w₀ v change) (hf : ∀ a, Writes w₀ v (f a)) :
    Writes w₀ v (change >>= f) := fun w hp => hf _ _ (h w hp)

/-- A change may rely on the world that it starts in. -/
theorem Writes.get_bind {f : World → Change β} (hf : ∀ w, w₀.Printed v w → Writes w₀ v (f w)) :
    Writes w₀ v (get >>= f) := fun w hp => hf w hp w hp

theorem writes_setText {id : NodeId} (hu : w₀.Shows v u) (hid : u.nodeId? = some id) (text : String) :
    Writes w₀ v (setText id text) := by
  intro w hp
  refine ⟨?_, fun other ho => ?_, hp.spaced⟩
  · obtain ⟨texts, spaced, rfl⟩ := hp.rest
    exact ⟨_, _, rfl⟩
  · show (w.texts.set id text).get? other = _
    rw [Table.get?_set, if_neg fun e => ho u hu (by rw [hid, e]), hp.texts other ho]

theorem writes_setSpaced {id : NodeId} (hu : w₀.Shows v u) (hid : u.nodeId? = some id) :
    Writes w₀ v (setSpaced id) := by
  intro w hp
  refine ⟨?_, hp.texts, fun other ho => ?_⟩
  · obtain ⟨texts, spaced, rfl⟩ := hp.rest
    exact ⟨_, _, rfl⟩
  · show (w.spaced.set id ()).get? other = _
    rw [Table.get?_set, if_neg fun e => ho u hu (by rw [hid, e]), hp.spaced other ho]

end

/-- The change is a part of printing the value `v` in the world `w₀`, and its result is as `Q` says. -/
def Prints (R : Registry) (w₀ : World) (v : Value) {α : Type} (change : Change α) (Q : α → Prop) : Prop :=
  ∀ w, R.Ok w → w₀.Printed v w → R.Ok (change w).2 ∧ w₀.Printed v (change w).2 ∧ Q (change w).1

section

variable {α β : Type} {w₀ : World} {v u : Value}

theorem Prints.pure {a : α} {Q : α → Prop} (h : Q a) : Prints R w₀ v (Pure.pure a : Change α) Q :=
  fun _ hw hp => ⟨hw, hp, h⟩

theorem Prints.mono {change : Change α} {P Q : α → Prop} (h : Prints R w₀ v change P)
    (hq : ∀ a, P a → Q a) : Prints R w₀ v change Q :=
  fun w hw hp => ⟨(h w hw hp).1, (h w hw hp).2.1, hq _ (h w hw hp).2.2⟩

theorem Prints.bind {change : Change α} {f : α → Change β} {P : α → Prop} {Q : β → Prop}
    (h : Prints R w₀ v change P) (hf : ∀ a, P a → Prints R w₀ v (f a) Q) :
    Prints R w₀ v (change >>= f) Q := by
  intro w hw hp
  obtain ⟨hw', hp', ha⟩ := h w hw hp
  exact hf _ ha _ hw' hp'

/-- Printing may rely on the world that it has come to. -/
theorem prints_get : Prints R w₀ v get fun w => R.Ok w ∧ w₀.Printed v w :=
  fun _ hw hp => ⟨hw, hp, hw, hp⟩

/-- What is printed keeps the world ok. -/
theorem Prints.steady {change : Change α} {Q : α → Prop} (h : ∀ w, R.Ok w → Prints R w v change Q) :
    Steady R (liftM change) Q :=
  steady_lift fun w hw => ⟨(h w hw w hw (.refl w v)).1, (h w hw w hw (.refl w v)).2.2⟩

theorem prints_setText {id : NodeId} {text : String} (hu : w₀.Shows v u) (hid : u.nodeId? = some id)
    (hnode : R.node id = some u) (hs : u.isStable)
    (ht : u.isFrozen → ∀ texts, text = u.draw texts true none) :
    Prints R w₀ v (setText id text) fun _ => True := by
  intro w hw hp
  exact ⟨(steady_setText hnode hs ht w hw).1, writes_setText hu hid text w hp, trivial⟩

theorem prints_setSpaced {id : NodeId} (hu : w₀.Shows v u) (hid : u.nodeId? = some id)
    (hnode : R.node id = some u) (hn : ¬ u.Fits) : Prints R w₀ v (setSpaced id) fun _ => True := by
  intro w hw hp
  exact ⟨(steady_setSpaced hnode hn w hw).1, writes_setSpaced hu hid w hp, trivial⟩

/-! ## Layout -/

/-- A node is laid out as it is drawn, and gets the default layout if it has none that fits. -/
theorem layout_eq {w : World} {node : Node} {count : Nat} (h : w.spaced.has node.id → ¬ node.Fits count) :
    layout node count w = (node.drawnGaps count, w) ∨
      ¬ node.Fits count ∧ layout node count w = (node.drawnGaps count, (setSpaced node.id w).2) := by
  have spaced : ¬ node.Fits count → ((setSpaced node.id >>= fun _ => pure (defaultGaps node.style count)) :
      Change (List String)) w = (node.drawnGaps count, (setSpaced node.id w).2) :=
    fun hn => Prod.ext (Node.drawnGaps_of_not_fits hn).symm rfl
  unfold layout
  rw [Change.get_bind]
  unfold World.gaps?
  by_cases hs : w.spaced.has node.id = true
  · rw [if_pos hs]
    dsimp only
    rw [if_pos (length_defaultGaps _ _)]
    exact .inl (Prod.ext (Node.drawnGaps_of_not_fits (h hs)).symm rfl)
  · rw [if_neg hs]
    cases hg : node.gaps with
    | none =>
      have hn : ¬ node.Fits count := by
        rintro ⟨gaps, h, -⟩
        rw [hg] at h
        cases h
      exact .inr ⟨hn, spaced hn⟩
    | some gaps =>
      dsimp only
      by_cases hl : gaps.length = count + 1
      · rw [if_pos hl]
        exact .inl (Prod.ext (Node.drawnGaps_of_gaps hg hl).symm rfl)
      · rw [if_neg hl]
        have hn : ¬ node.Fits count := by
          rintro ⟨gaps', h, hl'⟩
          rw [hg] at h
          cases h
          exact hl hl'
        exact .inr ⟨hn, spaced hn⟩

/-- The layout of a registered collection is the one that it is drawn with. -/
theorem prints_layout {node : Node} {count : Nat} (hu : w₀.Shows v u) (hid : u.nodeId? = some node.id)
    (hnode : R.node node.id = some u) (hc : u.Fits = node.Fits count) :
    Prints R w₀ v (layout node count) fun gaps => gaps = node.drawnGaps count := by
  intro w hw hp
  have hs : w.spaced.has node.id → ¬ node.Fits count := by
    intro hs
    obtain ⟨x, hx, hn⟩ := hw.spaced node.id hs
    rw [hnode] at hx
    cases hx
    rwa [hc] at hn
  rcases layout_eq hs with h | ⟨hn, h⟩
  · rw [h]
    exact ⟨hw, hp, rfl⟩
  · rw [h]
    obtain ⟨hw', hp', -⟩ := prints_setSpaced hu hid hnode (by rw [hc]; exact hn) w hw hp
    exact ⟨hw', hp', rfl⟩

/-! ## Kept texts -/

variable {texts : Bool → AtomId → String}

/-- A rendered text is that of a value: its mark says whether it may be kept, and the value comes out as it
is drawn if its text is durable. -/
def IsText (w₀ : World) (texts : Bool → AtomId → String) (readably : Bool) (spelling : Option String)
    (u : Value) (r : Rendered) : Prop :=
  (r.stable → u.isStable) ∧ (w₀.Durable u → r.text = u.draw texts readably spelling)

/-- The text that is kept under a node is that of its value. -/
theorem prints_keptText (texts : Bool → AtomId → String) {id : NodeId} (hid : u.nodeId? = some id)
    (hnode : R.node id = some u) (readably : Bool) :
    Prints R w₀ v (keptText readably id) fun kept => ∀ text, kept = some text →
      IsText w₀ texts readably none u ⟨text, true⟩ := by
  unfold keptText
  cases readably with
  | false => exact Prints.pure nofun
  | true =>
    rw [if_pos rfl]
    refine Prints.bind prints_get fun w hw => Prints.pure ?_
    intro text ht
    obtain ⟨x, hx, hs, hf⟩ := hw.1.texts id text ht
    rw [hnode] at hx
    cases hx
    refine ⟨fun _ => hs, fun hdurable => hf (hdurable u .self ?_ hs) texts⟩
    rw [hid]
    rfl

/-- A text that is right may be kept. -/
theorem prints_keepText {id : NodeId} (hu : w₀.Shows v u) (hid : u.nodeId? = some id)
    (hnode : R.node id = some u) {readably : Bool} {r : Rendered} (hr : IsText w₀ texts readably none u r) :
    Prints R w₀ v (keepText readably id r) fun r' => IsText w₀ texts readably none u r' := by
  unfold keepText
  cases readably with
  | false => exact Prints.pure hr
  | true =>
    cases hs : r.stable with
    | false => exact Prints.pure hr
    | true =>
      have ht : u.isFrozen → ∀ texts, r.text = u.draw texts true none := by
        intro hf texts'
        rw [hr.2 (World.durable_of_frozen hf)]
        exact Value.draw_of_frozen hf true none
      exact Prints.bind (prints_setText hu hid hnode (hr.1 hs) ht) fun _ _ => Prints.pure hr

/-! ## Trees -/

variable {atomText : Bool → AtomId → Change String}

theorem prints_renderItems {items : List Value} {readably : Bool}
    (h : ∀ x ∈ items, ∀ spelling, Prints R w₀ v (render atomText readably spelling x)
      (IsText w₀ texts readably spelling x))
    (gaps : List String) (spellings : List (Option String)) (done : Rendered) :
    Prints R w₀ v (renderItems atomText readably gaps spellings done items) fun r =>
      (r.stable → done.stable ∧ Value.areStable items) ∧ ((∀ x ∈ items, w₀.Durable x) →
        r.text = Value.drawItems texts readably gaps spellings done.text items) := by
  induction items generalizing gaps spellings done with
  | nil =>
    unfold renderItems Value.drawItems
    exact Prints.pure ⟨fun hs => ⟨hs, rfl⟩, fun _ => rfl⟩
  | cons x rest ih =>
    obtain ⟨hx, hrest⟩ := List.forall_mem_cons.mp h
    unfold renderItems Value.drawItems
    refine Prints.bind (hx _) fun r hr => ?_
    refine (ih hrest _ _ _).mono fun r' hr' => ⟨fun hs => ?_, fun hdurable => ?_⟩
    · obtain ⟨hs, hstable⟩ := hr'.1 hs
      rw [Bool.and_eq_true] at hs
      unfold Value.areStable
      rw [Bool.and_eq_true]
      exact ⟨hs.1, hr.1 hs.2, hstable⟩
    · obtain ⟨hsx, hsrest⟩ := List.forall_mem_cons.mp hdurable
      rw [hr'.2 hsrest, hr.2 hsx]

theorem prints_renderEntries {entries : List (Key × Value)} {readably : Bool}
    (h : ∀ e ∈ entries, ∀ spelling, Prints R w₀ v (render atomText readably spelling e.2)
      (IsText w₀ texts readably spelling e.2))
    (gaps : List String) (spellings : List (Option String)) (done : Rendered) :
    Prints R w₀ v (renderEntries atomText readably gaps spellings done entries) fun r =>
      (r.stable → done.stable ∧ Value.entriesStable entries) ∧ ((∀ e ∈ entries, w₀.Durable e.2) →
        r.text = Value.drawEntries texts readably gaps spellings done.text entries) := by
  induction entries generalizing gaps spellings done with
  | nil =>
    unfold renderEntries Value.drawEntries
    exact Prints.pure ⟨fun hs => ⟨hs, rfl⟩, fun _ => rfl⟩
  | cons e rest ih =>
    obtain ⟨he, hrest⟩ := List.forall_mem_cons.mp h
    unfold renderEntries Value.drawEntries
    refine Prints.bind (he _) fun r hr => ?_
    refine (ih hrest _ _ _).mono fun r' hr' => ⟨fun hs => ?_, fun hdurable => ?_⟩
    · obtain ⟨hs, hstable⟩ := hr'.1 hs
      rw [Bool.and_eq_true] at hs
      unfold Value.entriesStable
      rw [Bool.and_eq_true]
      exact ⟨hs.1, hr.1 hs.2, hstable⟩
    · obtain ⟨hse, hsrest⟩ := List.forall_mem_cons.mp hdurable
      rw [hr'.2 hsrest, hr.2 hse]

/-- A sequence renders if its elements do. -/
theorem prints_render_seq {shape : Shape} {node : Node} {items : List Value}
    (hu : w₀.Shows v (.seq shape node items)) (hknown : R.Known (.seq shape node items)) {readably : Bool}
    (h : ∀ x ∈ node.written items, ∀ spelling, Prints R w₀ v (render atomText readably spelling x)
      (IsText w₀ texts readably spelling x)) (spelling : Option String) :
    Prints R w₀ v (render atomText readably spelling (.seq shape node items))
      (IsText w₀ texts readably spelling (.seq shape node items)) := by
  unfold IsText
  simp only [Value.draw_seq shape node items readably spelling]
  unfold render
  refine Prints.bind (prints_keptText texts rfl hknown readably) fun kept hkept => ?_
  cases kept with
  | some text => exact Prints.pure (hkept text rfl)
  | none =>
    dsimp only
    refine Prints.bind (prints_layout hu rfl hknown rfl) fun gaps hgaps => ?_
    subst hgaps
    split
    · rename_i mark head form hm
      have hw : node.written [head, form] = [form] := Value.written_marked hm head form
      have hform : form ∈ node.written [head, form] := by rw [hw]; exact List.mem_cons_self
      refine Prints.bind (h form hform _) fun r hr => ?_
      refine prints_keepText hu rfl hknown ⟨fun hs => Value.isStable_seq.mpr ?_, fun hdurable => ?_⟩
      · rw [hw]
        exact List.forall_mem_singleton.mpr (hr.1 hs)
      · rw [hr.2 (hdurable.part hform), Value.draw_marked hm]
        rfl
    · rename_i hb
      have hw := Value.written_bracketed hb
      rw [hw] at h
      refine Prints.bind (prints_renderItems h _ _ _) fun r hr => ?_
      refine prints_keepText hu rfl hknown ⟨fun hs => Value.isStable_seq.mpr ?_, fun hdurable => ?_⟩
      · rw [hw]
        exact Value.areStable_iff.mp (hr.1 hs).2
      · rw [hr.2 fun x hx => hdurable.part (by rwa [← hw] at hx),
          Value.draw_bracketed hb]

/-- A map renders if its values do. -/
theorem prints_render_map {node : Node} {entries : List (Key × Value)}
    (hu : w₀.Shows v (.map node entries)) (hknown : R.Known (.map node entries)) {readably : Bool}
    (h : ∀ e ∈ entries, ∀ spelling, Prints R w₀ v (render atomText readably spelling e.2)
      (IsText w₀ texts readably spelling e.2)) (spelling : Option String) :
    Prints R w₀ v (render atomText readably spelling (.map node entries))
      (IsText w₀ texts readably spelling (.map node entries)) := by
  unfold IsText
  simp only [Value.draw_map node entries readably spelling]
  unfold render
  refine Prints.bind (prints_keptText texts rfl hknown readably) fun kept hkept => ?_
  cases kept with
  | some text => exact Prints.pure (hkept text rfl)
  | none =>
    dsimp only
    refine Prints.bind (prints_layout hu rfl hknown rfl) fun gaps hgaps => ?_
    subst hgaps
    refine Prints.bind (prints_renderEntries h _ _ _) fun r hr => ?_
    refine prints_keepText hu rfl hknown ⟨fun hs => (hr.1 hs).2, fun hdurable => ?_⟩
    rw [hr.2 fun e he => hdurable.part (List.mem_map_of_mem he), Value.draw]

/-- **What is printed with a value comes out as it is drawn if its text is durable, and only right texts are
kept.** -/
theorem prints_render (ha : ∀ readably id, w₀.Shows v (.atom id) →
      Prints R w₀ v (atomText readably id) fun text =>
        w₀.Durable (.atom id) → text = texts readably id)
    (hw : R.Ok w₀) {u : Value} (hu : w₀.Shows v u) (hknown : R.Known u) (readably : Bool)
    (spelling : Option String) :
    Prints R w₀ v (render atomText readably spelling u) (IsText w₀ texts readably spelling u) := by
  induction u using Value.ofParts generalizing readably spelling with
  | nil | bool | num | text | keyword | symbol | builtin =>
    unfold render
    exact Prints.pure ⟨fun _ => rfl, fun _ => rfl⟩
  | seq shape node items ih =>
    have hparts : R.AllKnown items := hw.partsKnown hknown
    refine prints_render_seq hu hknown (fun x hx spelling => ?_) spelling
    have hm := Value.written_subset node items hx
    exact ih x hm (hu.part hx) (hparts x hm) readably spelling
  | map node entries ih =>
    have hparts := (hw.partsKnown hknown).2
    refine prints_render_map hu hknown (fun e he spelling => ?_) spelling
    exact ih e he (hu.part (List.mem_map_of_mem he)) (hparts e he).2 readably spelling
  | closure id kind params body env data hparams hbody _ =>
    have hparts := hw.partsKnown hknown
    have hp : params ∈ [params, body] := List.mem_cons_self
    have hb : body ∈ [params, body] := List.mem_cons_of_mem _ List.mem_cons_self
    unfold render
    refine Prints.bind (hparams (hu.part hp) hparts.1 true none) fun p hp' => ?_
    refine Prints.bind (hbody (hu.part hb) hparts.2.1 true none) fun b hb' => Prints.pure ?_
    refine ⟨fun _ => rfl, fun hdurable => ?_⟩
    rw [hp'.2 (hdurable.part hp), hb'.2 (hdurable.part hb), Value.draw]
  | atom id =>
    unfold render
    refine Prints.bind (ha readably id hu) fun text ht => Prints.pure ⟨fun hs => ?_, fun hdurable => ?_⟩
    · cases hs
    · rw [ht hdurable, Value.draw]

/-! ## Values -/

theorem prints_renderContent (hw : R.Ok w₀) (depth : Nat) (readably : Bool) {id : AtomId}
    (hu : w₀.Shows v (.atom id)) :
    Prints R w₀ v (renderContent depth readably id) fun text =>
      w₀.Durable (.atom id) → text = w₀.atomText depth readably id := by
  induction depth generalizing readably id with
  | zero => exact Prints.pure fun _ => rfl
  | succ depth ih =>
    unfold renderContent
    refine Prints.bind prints_get fun w hp => ?_
    have hcontent : w.content id = w₀.content id := by
      unfold World.content
      rw [hp.2.atoms]
    have hpart : w₀.content id ∈ w₀.printedParts (.atom id) := List.mem_singleton.mpr rfl
    rw [hcontent]
    refine Prints.bind (prints_render (fun readably id hid => ih readably hid) hw (hu.part hpart)
      (hw.known_content id) readably none) fun r hr => Prints.pure fun hdurable => ?_
    rw [hr.2 (hdurable.part hpart), World.atomText]

/-- Printing a value is a part of printing it. -/
theorem prints_printWith (hw : R.Ok w₀) (hv : R.Known v) (readably : Bool) :
    Prints R w₀ v (printWith readably v) fun text =>
      w₀.Durable v → text = v.draw (w₀.atomText w₀.atoms.size) readably none := by
  unfold printWith
  refine Prints.bind prints_get fun w hp => ?_
  rw [hp.2.atoms]
  refine Prints.bind (prints_render (fun readably id hid => prints_renderContent hw _ readably hid) hw .self
    hv readably none) fun r hr => Prints.pure hr.2

end

/-- A value without atoms prints as it is drawn. -/
theorem steady_printWith {v : Value} (hv : R.Known v) (readably : Bool) :
    Steady R (liftM (printWith readably v)) fun text =>
      v.isFrozen → ∀ texts, text = v.draw texts readably none := by
  refine Prints.steady fun w hw => (prints_printWith hw hv readably).mono fun text ht hf texts => ?_
  rw [ht (World.durable_of_frozen hf)]
  exact Value.draw_of_frozen hf readably none

theorem steady_print {v : Value} (hv : R.Known v) :
    Steady R (liftM (print v)) fun text => v.isFrozen → ∀ texts, text = v.draw texts true none :=
  steady_printWith hv true

theorem steady_printPlain {v : Value} (hv : R.Known v) :
    Steady R (liftM (printPlain v)) fun text => v.isFrozen → ∀ texts, text = v.draw texts false none :=
  steady_printWith hv false

/-- **A value without atoms prints as it is drawn, whatever was printed before.** -/
theorem print_of_frozen {w : World} (hw : R.Ok w) {v : Value} (hv : R.Known v) (hf : v.isFrozen)
    (texts : Bool → AtomId → String) : (print v w).1 = v.draw texts true none :=
  (steady_print hv w hw).2 hf texts

/-- **A value prints as it is drawn with the contents of atoms as they are**, whatever was printed before, if
what is kept for it is durable. -/
theorem print_of_durable {w : World} (hw : R.Ok w) {v : Value} (hv : R.Known v) (hd : w.Durable v) :
    (print v w).1 = w.textOf v := (prints_printWith hw hv true w hw (.refl w v)).2.2 hd

/-- A settled value prints as it is drawn. -/
theorem print_of_settled {w : World} (hw : R.Ok w) {v : Value} (hv : R.Known v) (hs : w.Settled v) :
    (print v w).1 = w.textOf v := print_of_durable hw hv hs.durable

/-- **Printing writes only texts and default layouts**, under the nodes that are printed. -/
theorem printed_print {w : World} (hw : R.Ok w) {v : Value} (hv : R.Known v) :
    w.Printed v (print v w).2 := (prints_printWith hw hv true w hw (.refl w v)).2.1

end EditableLisp
