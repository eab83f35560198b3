import EditableLisp.Proofs.Lookups
import EditableLisp.Proofs.Quiet
import EditableLisp.Proofs.Renaming

/-!
# Acts in a world and in a renamed one

Two worlds mirror each other if one is the other with new identities. What was evaluated at nodes, and which
forms symbols refer to, need not agree: no evaluation reads it. Nor need the lookups of the expansions around
the two runs.

`Sim m act act'`: in worlds that mirror each other, the one act does what the other does. Both succeed with
the same value but for identities, or fail in the same way, and the worlds mirror each other again. A
`Mirror` fixes the identities beforehand, those that will be given out included, so it knows how both
tables of keywords will grow.
-/

namespace EditableLisp

/-! ## Mirrors -/

/-- Which worlds are compared: by which renaming, how many recordings around the runs are left out, and what
the table of keywords of the other world is as long as the first one fits. -/
structure Mirror where
  ρ : Renaming
  base : Nat
  fits : Array String → Prop
  target : Array String → Array String
  fits_of_prefix : ∀ {keywords keywords' : Array String}, keywords.toList <+: keywords'.toList →
    fits keywords' → fits keywords
  /-- A name that is interned in both worlds gets the identity that the renaming gives it. -/
  position_target : ∀ (name : String) (keywords : Array String), fits (interned name keywords) →
    position name (target keywords) = ρ.word (position name keywords)
  interned_target : ∀ (name : String) (keywords : Array String), fits (interned name keywords) →
    interned name (target keywords) = target (interned name keywords)

/-- The recordings of two worlds agree but for the outer ones. -/
def Recorded (ρ : Renaming) (base : Nat) (recordings recordings' : List (List Lookup)) : Prop :=
  ∃ inner outer outer', recordings = inner ++ outer ∧ recordings' = rename ρ inner ++ outer' ∧
    outer.length = base ∧ outer'.length = base

/-- Nothing is kept under an identity. -/
def World.Untouched (w : World) (id : NodeId) : Prop :=
  w.spaced.get? id = none ∧ w.texts.get? id = none ∧ w.expansions.get? id = none

/-- One world is another one with new identities. -/
structure Mirrors (m : Mirror) (w w' : World) : Prop where
  nextId : ∀ k, m.ρ.node (w.nextId + k) = w'.nextId + k
  frames : w'.frames = rename m.ρ w.frames
  atoms : w'.atoms = rename m.ρ w.atoms
  keywords : w'.keywords = m.target w.keywords
  spaced : ∀ id, w'.spaced.get? (m.ρ.node id) = w.spaced.get? id
  texts : ∀ id, w'.texts.get? (m.ρ.node id) = w.texts.get? id
  expansions : ∀ id, w'.expansions.get? (m.ρ.node id) = rename m.ρ (w.expansions.get? id)
  /-- What is kept is kept under new identities. -/
  others : ∀ id, (∀ i, m.ρ.node i ≠ id) → w'.Untouched id
  recordings : Recorded m.ρ m.base w.recordings w'.recordings
  output : w'.output = w.output
  files : w'.files = w.files

/-- Two acts end in the same way, but for identities. -/
def Matched {α : Type} [Renamed α] (m : Mirror) : EStateM.Result Halt World α →
    EStateM.Result Halt World α → Prop
  | .ok a w, .ok a' w' => a' = rename m.ρ a ∧ Mirrors m w w'
  | .error h w, .error h' w' => h' = h ∧ Mirrors m w w'
  | _, _ => False

/-- Keywords keep their identities. -/
def Grows {α : Type} (act : Act α) : Prop := ∀ w, w.keywords.toList <+: (worldAfter act w).keywords.toList

/-- One act does in a world what another does in its mirror image. -/
structure Sim {α : Type} [Renamed α] (m : Mirror) (act act' : Act α) : Prop where
  grows : Grows act
  matched : ∀ w w', Mirrors m w w' → m.fits (worldAfter act w).keywords → Matched m (act w) (act' w')

section rules

variable {α β : Type} {m : Mirror} {w w' : World}

theorem Quiet.grows {act : Act α} (h : Quiet act) : Grows act := fun w => (h w).keywords

theorem Grows.bind {act : Act α} {f : α → Act β} (h : Grows act) (hf : ∀ a, Grows (f a)) :
    Grows (act >>= f) := by
  intro w
  have ha := h w
  cases e : act w with
  | ok a w₁ =>
    rw [worldAfter_of_ok e] at ha
    rw [worldAfter, bind_of_eq_ok e]
    exact ha.trans (hf a w₁)
  | error b w₁ =>
    rw [worldAfter_of_error e] at ha
    rw [worldAfter_of_error (bind_of_eq_error e)]
    exact ha

variable [Renamed α] [Renamed β]

/-- Matching acts that succeed, with their outcomes. -/
theorem Matched.of_ok {r : EStateM.Result Halt World α} {a : α} (h : Matched m (.ok a w) r) :
    ∃ w', r = .ok (rename m.ρ a) w' ∧ Mirrors m w w' := by
  cases r with
  | ok a' w' =>
    obtain ⟨rfl, hw⟩ := h
    exact ⟨w', rfl, hw⟩
  | error => exact h.elim

theorem Matched.of_error {r : EStateM.Result Halt World α} {e : Halt} (h : Matched m (.error e w) r) :
    ∃ w', r = .error e w' ∧ Mirrors m w w' := by
  cases r with
  | error e' w' =>
    obtain ⟨rfl, hw⟩ := h
    exact ⟨w', rfl, hw⟩
  | ok => exact h.elim

namespace Sim

theorem pure {a a' : α} (h : a' = rename m.ρ a) : Sim m (Pure.pure a) (Pure.pure a') where
  grows := (Quiet.pure a).grows
  matched _ _ hw _ := ⟨h, hw⟩

theorem throw (h : Halt) : Sim m (MonadExcept.throw h : Act α) (MonadExcept.throw h) where
  grows := (Quiet.throw h).grows
  matched _ _ hw _ := ⟨rfl, hw⟩

theorem fail (f : Fault) : Sim m (EditableLisp.fail f : Act α) (EditableLisp.fail f) := throw _

theorem bind {act act' : Act α} {f f' : α → Act β} (h : Sim m act act')
    (hf : ∀ a, Sim m (f a) (f' (rename m.ρ a))) : Sim m (act >>= f) (act' >>= f') where
  grows := h.grows.bind fun a => (hf a).grows
  matched w w' hw hfits := by
    have hm := h.matched w w' hw
    cases e : act w with
    | ok a w₁ =>
      rw [worldAfter, bind_of_eq_ok e] at hfits
      rw [worldAfter_of_ok e, e] at hm
      obtain ⟨w₁', he, hw₁⟩ := (hm (m.fits_of_prefix ((hf a).grows w₁) hfits)).of_ok
      rw [bind_of_eq_ok e, bind_of_eq_ok he]
      exact (hf a).matched w₁ w₁' hw₁ hfits
    | error b w₁ =>
      rw [worldAfter_of_error (bind_of_eq_error e)] at hfits
      rw [worldAfter_of_error e, e] at hm
      obtain ⟨w₁', he, hw₁⟩ := (hm hfits).of_error
      rw [bind_of_eq_error e, bind_of_eq_error he]
      exact ⟨rfl, hw₁⟩

/-- Acts that return something made of what another act returns. -/
theorem map {act act' : Act α} {f f' : α → β} (h : Sim m act act')
    (hf : ∀ a, f' (rename m.ρ a) = rename m.ρ (f a)) :
    Sim m (act >>= fun a => Pure.pure (f a)) (act' >>= fun a => Pure.pure (f' a)) :=
  h.bind fun a => pure (hf a)

/-- Acts that fail after they printed. -/
theorem failWith {act act' : Act α} {f f' : α → Fault} (h : Sim m act act')
    (hf : ∀ a, f' (rename m.ρ a) = f a) :
    Sim m (act >>= fun a => (EditableLisp.fail (f a) : Act β)) (act' >>= fun a => EditableLisp.fail (f' a)) :=
  h.bind fun a => by
    rw [hf a]
    exact fail (f a)

/-- An act that reads the world goes on in the same way in both. -/
theorem get {f f' : World → Act α} (hgrows : Grows (MonadState.get >>= f))
    (h : ∀ w w', Mirrors m w w' → Sim m (f w) (f' w')) : Sim m (MonadState.get >>= f) (MonadState.get >>= f') :=
  ⟨hgrows, fun w w' hw hfits => (h w w' hw).matched w w' hw hfits⟩

/-- A change that reads the world goes on in the same way in both. -/
theorem lift_get {f f' : World → Act α}
    (hgrows : Grows ((liftM (MonadState.get : Change World) : Act World) >>= f))
    (h : ∀ w w', Mirrors m w w' → Sim m (f w) (f' w')) :
    Sim m ((liftM (MonadState.get : Change World) : Act World) >>= f)
      ((liftM (MonadState.get : Change World) : Act World) >>= f') :=
  ⟨hgrows, fun w w' hw hfits => (h w w' hw).matched w w' hw hfits⟩

theorem ite {p : Prop} [Decidable p] {act act' other other' : Act α} (h : Sim m act act')
    (ho : Sim m other other') : Sim m (if p then act else other) (if p then act' else other') := by
  split
  · exact h
  · exact ho

end Sim

end rules

/-! ## The world -/

variable {α β : Type} [Renamed α] [Renamed β] {m : Mirror} {w w' : World}

/-- A change does what another does. -/
theorem Sim.change {act act' : Change α} (hgrows : Grows (liftM act : Act α))
    (h : ∀ w w', Mirrors m w w' → m.fits (act w).2.keywords →
      (act' w').1 = rename m.ρ (act w).1 ∧ Mirrors m (act w).2 (act' w').2) :
    Sim m (liftM act : Act α) (liftM act') := ⟨hgrows, h⟩

/-- A change that only changes the world and leaves the keywords alone. -/
theorem Sim.modify {f f' : World → World} (hgrows : ∀ w, (f w).keywords = w.keywords)
    (h : ∀ w w', Mirrors m w w' → Mirrors m (f w) (f' w')) :
    Sim m (liftM (modify f : Change Unit) : Act Unit) (liftM (modify f' : Change Unit)) where
  grows w := by
    show w.keywords.toList <+: (f w).keywords.toList
    rw [hgrows]
  matched w w' hw _ := ⟨rfl, h w w' hw⟩

namespace Mirrors

theorem node_nextId (hw : Mirrors m w w') : w'.nextId = m.ρ.node w.nextId := (hw.nextId 0).symm

theorem fresh (hw : Mirrors m w w') :
    Mirrors m { w with nextId := w.nextId + 1 } { w' with nextId := w'.nextId + 1 } :=
  { hw with
    nextId := fun k => by
      have h := hw.nextId (k + 1)
      show m.ρ.node (w.nextId + 1 + k) = w'.nextId + 1 + k
      rw [Nat.add_assoc, Nat.add_comm 1 k, h, Nat.add_assoc, Nat.add_comm 1 k] }

theorem set_texts (hw : Mirrors m w w') (id : NodeId) (text : String) : Mirrors m
    { w with texts := w.texts.set id text } { w' with texts := w'.texts.set (m.ρ.node id) text } :=
  { hw with
    texts := fun i => by
      rw [Table.get?_set, Table.get?_set, hw.texts]
      simp only [m.ρ.node_inj]
    others := fun i hi => by
      obtain ⟨hspaced, htexts, hexpansions⟩ := hw.others i hi
      refine ⟨hspaced, ?_, hexpansions⟩
      rw [Table.get?_set, if_neg (hi id).symm]
      exact htexts }

theorem atoms_size (hw : Mirrors m w w') : w'.atoms.size = w.atoms.size := by
  rw [hw.atoms]
  exact Array.size_map

theorem frames_size (hw : Mirrors m w w') : w'.frames.size = w.frames.size := by
  rw [hw.frames]
  exact Array.size_map

theorem content (hw : Mirrors m w w') (id : AtomId) : w'.content id = rename m.ρ (w.content id) := by
  unfold World.content
  rw [hw.atoms, Array.getD_eq_getD_getElem?, Array.getD_eq_getD_getElem?]
  show ((w.atoms.map (rename m.ρ))[id]?).getD .nil = _
  rw [Array.getElem?_map]
  cases w.atoms[id]? <;> rfl

theorem tables (hw : Mirrors m w w') (id : FrameId) : w'.tables id = rename m.ρ (w.tables id) := by
  unfold World.tables
  rw [hw.frames, Array.getD_eq_getD_getElem?, Array.getD_eq_getD_getElem?]
  show ((w.frames.map (rename m.ρ))[id]?).getD .empty = _
  rw [Array.getElem?_map]
  cases w.frames[id]? <;> rfl

theorem frame (hw : Mirrors m w w') (id : FrameId) : w'.frame id = rename m.ρ (w.frame id) := by
  unfold World.frame
  rw [hw.tables, Tables.bindings_rename]

theorem binding? (hw : Mirrors m w w') (env : Env) (name : String) :
    w'.binding? env name = rename m.ρ (w.binding? env name) := by
  have along : ∀ ids, w'.bindingIn? name ids = rename m.ρ (w.bindingIn? name ids) := by
    intro ids
    induction ids with
    | nil => rfl
    | cons id rest ih =>
      unfold World.bindingIn?
      rw [hw.frame, Frame.get?_rename, ih]
      cases (w.frame id).get? name <;> rfl
  exact along env.frames

theorem lookup? (hw : Mirrors m w w') (env : Env) (name : String) :
    w'.lookup? env name = rename m.ρ (w.lookup? env name) := by
  rw [World.lookup?_eq, World.lookup?_eq, hw.binding?]
  cases w.binding? env name <;> rfl

theorem site? (hw : Mirrors m w w') (env : Env) (name : String) :
    w'.site? env name = rename m.ρ (w.site? env name) := by
  rw [World.site?_eq, World.site?_eq, hw.binding?]
  cases w.binding? env name <;> rfl

end Mirrors

/-! ### New nodes -/

/-- An act that goes on with an unused identity. -/
theorem Sim.fresh {f f' : NodeId → Act α} (h : ∀ id, Sim m (f id) (f' (m.ρ.node id))) :
    Sim m (liftM freshId >>= f) (liftM freshId >>= f') where
  grows := quiet_freshId.grows.bind fun id => (h id).grows
  matched w w' hw hfits := by
    show Matched m (f w.nextId _) (f' w'.nextId _)
    rw [hw.node_nextId]
    have hfresh := hw.fresh
    rw [hw.node_nextId] at hfresh
    exact (h w.nextId).matched _ _ hfresh hfits

theorem sim_newSymbol (name : String) : Sim m (liftM (newSymbol name)) (liftM (newSymbol name)) := by
  unfold newSymbol
  rw [lift_bind]
  exact Sim.fresh fun _ => .pure rfl

theorem sim_newSeq (shape : Shape) (items : List Value) :
    Sim m (liftM (newSeq shape items)) (liftM (newSeq shape (rename m.ρ items))) := by
  unfold newSeq
  rw [lift_bind, lift_bind]
  exact Sim.fresh fun _ => .pure (by rw [rename_seq, rename_bare])

theorem sim_newList (items : List Value) : Sim m (liftM (newList items)) (liftM (newList (rename m.ρ items))) :=
  sim_newSeq .list items

theorem sim_newVector (items : List Value) :
    Sim m (liftM (newVector items)) (liftM (newVector (rename m.ρ items))) := sim_newSeq .vector items

theorem sim_newMap (entries : Entries) :
    Sim m (liftM (newMap entries)) (liftM (newMap (rename m.ρ entries))) := by
  unfold newMap
  rw [lift_bind, lift_bind]
  exact Sim.fresh fun _ => .pure (by rw [rename_map, rename_bare])

/-! ### Atoms, texts and output -/

theorem sim_newAtom (content : Value) :
    Sim m (liftM (newAtom content)) (liftM (newAtom (rename m.ρ content))) := by
  refine .change (quiet_newAtom content).grows fun w w' hw _ => ⟨?_, { hw with atoms := ?_ }⟩
  · show Value.atom w'.atoms.size = .atom w.atoms.size
    rw [hw.atoms_size]
  · show w'.atoms.push _ = rename m.ρ (w.atoms.push content)
    rw [hw.atoms, rename_push]

theorem sim_readContent (id : AtomId) : Sim m (liftM (readContent id)) (liftM (readContent id)) :=
  .change (quiet_readContent id).grows fun _ _ hw _ => ⟨hw.content id, hw⟩

theorem sim_setContent (id : AtomId) (content : Value) :
    Sim m (liftM (setContent id content)) (liftM (setContent id (rename m.ρ content))) := by
  refine .modify (fun _ => rfl) fun w w' hw => { hw with atoms := ?_ }
  show w'.atoms.setIfInBounds id _ = Array.map _ (w.atoms.setIfInBounds id content)
  rw [hw.atoms, Array.map_setIfInBounds]
  rfl

theorem sim_printLine (line : String) : Sim m (liftM (printLine line)) (liftM (printLine line)) :=
  .modify (fun _ => rfl) fun w w' hw => { hw with
    output := show w'.output ++ line ++ "\n" = w.output ++ line ++ "\n" from by rw [hw.output] }

theorem sim_setText (id : NodeId) (text : String) :
    Sim m (liftM (setText id text)) (liftM (setText (m.ρ.node id) text)) :=
  .modify (fun _ => rfl) fun _ _ hw => hw.set_texts id text

theorem sim_setSpaced (id : NodeId) : Sim m (liftM (setSpaced id)) (liftM (setSpaced (m.ρ.node id))) :=
  .modify (fun _ => rfl) fun w w' hw => { hw with
    spaced := fun i => by
      show (w'.spaced.set (m.ρ.node id) ()).get? (m.ρ.node i) = (w.spaced.set id ()).get? i
      rw [Table.get?_set, Table.get?_set, hw.spaced]
      simp only [m.ρ.node_inj]
    others := fun i hi => by
      obtain ⟨hspaced, hkept⟩ := hw.others i hi
      refine ⟨?_, hkept⟩
      show (w'.spaced.set (m.ρ.node id) ()).get? i = none
      rw [Table.get?_set, if_neg (hi id).symm]
      exact hspaced }

/-! ### Keywords -/

theorem sim_intern (name : String) : Sim m (liftM (intern name)) (liftM (intern name)) := by
  refine .change (quiet_intern name).grows fun w w' hw hfits => ?_
  rw [intern_eq] at hfits ⊢
  rw [intern_eq]
  refine ⟨?_, { hw with keywords := ?_ }⟩
  · show Keyword.mk _ name = ⟨m.ρ.word _, name⟩
    rw [hw.keywords, m.position_target name w.keywords hfits]
  · show interned name w'.keywords = m.target (interned name w.keywords)
    rw [hw.keywords, m.interned_target name w.keywords hfits]

theorem sim_internAll (names : List String) : Sim m (liftM (internAll names)) (liftM (internAll names)) := by
  induction names with
  | nil => exact .pure rfl
  | cons name rest ih =>
    unfold internAll
    rw [lift_bind]
    exact (sim_intern name).bind fun _ => ih

/-! ### What is kept at nodes -/

/-- No evaluation reads what is changed, so nothing of the kind needs to happen in the other world. -/
theorem sim_setResult (node result node' result' : Value) :
    Sim m (liftM (setResult node result)) (liftM (setResult node' result')) := by
  have hsame : ∀ (node result : Value) (w : World), ∃ results, (setResult node result w).2 =
      { w with results := results } := by
    intro node result w
    unfold setResult
    cases node.nodeId? with
    | some id => exact ⟨_, rfl⟩
    | none => exact ⟨w.results, rfl⟩
  refine ⟨fun w => ?_, fun w w' hw _ => ⟨rfl, ?_⟩⟩
  · obtain ⟨results, h⟩ := hsame node result w
    show _ <+: (setResult node result w).2.keywords.toList
    rw [h]
  · obtain ⟨results, h⟩ := hsame node result w
    obtain ⟨results', h'⟩ := hsame node' result' w'
    show Mirrors m (setResult node result w).2 (setResult node' result' w').2
    rw [h, h']
    exact { hw with }

theorem sim_setSite (id id' : NodeId) (site site' : Value) :
    Sim m (liftM (setSite id site)) (liftM (setSite id' site')) :=
  .modify (fun _ => rfl) fun _ _ hw => { hw with }

theorem sim_setExpansion (id : NodeId) (e : Expansion) :
    Sim m (liftM (setExpansion id e)) (liftM (setExpansion (m.ρ.node id) (rename m.ρ e))) :=
  .modify (fun _ => rfl) fun w w' hw => { hw with
    expansions := fun i => by
      show (w'.expansions.set (m.ρ.node id) _).get? (m.ρ.node i) = rename m.ρ ((w.expansions.set id e).get? i)
      rw [Table.get?_set, Table.get?_set, hw.expansions]
      simp only [m.ρ.node_inj]
      split <;> rfl
    others := fun i hi => by
      obtain ⟨hspaced, htexts, hexpansions⟩ := hw.others i hi
      refine ⟨hspaced, htexts, ?_⟩
      show (w'.expansions.set (m.ρ.node id) _).get? i = none
      rw [Table.get?_set, if_neg (hi id).symm]
      exact hexpansions }

/-! ### Frames -/

theorem Mirrors.bind (hw : Mirrors m w w') (id : FrameId) (name : String) (binding : Binding) :
    Mirrors m (w.bind id name binding) (w'.bind id name (rename m.ρ binding)) := by
  refine { hw with frames := ?_ }
  show w'.frames.modify id (Tables.put name (rename m.ρ binding)) =
    Array.map (rename m.ρ) (w.frames.modify id (Tables.put name binding))
  refine Array.ext_getElem? fun i => ?_
  rw [hw.frames, Array.getElem?_modify, Array.getElem?_map, Array.getElem?_modify]
  show (if id = i then (w.frames.map (rename m.ρ))[i]?.map _ else (w.frames.map (rename m.ρ))[i]?) = _
  rw [Array.getElem?_map]
  split
  · cases w.frames[i]? with
    | none => rfl
    | some t => exact congrArg some (Tables.rename_put m.ρ name binding t).symm
  · rfl

theorem sim_define (env : Env) (name : String) (v : Value) :
    Sim m (liftM (define env name v)) (liftM (define env name (rename m.ρ v))) :=
  .modify (fun _ => rfl) fun _ _ hw => hw.bind env.frame name ⟨v, none⟩

theorem sim_defineAt (env : Env) (name : String) (v site : Value) :
    Sim m (liftM (defineAt env name v site)) (liftM (defineAt env name (rename m.ρ v) (rename m.ρ site))) :=
  .modify (fun _ => rfl) fun _ _ hw => hw.bind env.frame name ⟨v, some site⟩

theorem sim_newChild (env : Env) : Sim m (liftM (newChild env)) (liftM (newChild env)) := by
  refine .change (fun _ => List.prefix_rfl) fun w w' hw _ => ⟨?_, { hw with frames := ?_ }⟩
  · show env.child w'.frames.size = env.child w.frames.size
    rw [hw.frames_size]
  · show w'.frames.push .empty = rename m.ρ (w.frames.push .empty)
    rw [hw.frames, rename_push]
    rfl

theorem sim_lookup (env : Env) (name : String) : Sim m (lookup env name) (lookup env name) where
  grows w := by
    cases h : w.lookup? env name with
    | none =>
      rw [worldAfter_of_error (lookup_of_none h)]
    | some v =>
      rw [worldAfter_of_ok (lookup_of_some h)]
  matched w w' hw _ := by
    have hw' := hw.lookup? env name
    cases h : w.lookup? env name with
    | none =>
      rw [h] at hw'
      rw [lookup_of_none h, lookup_of_none hw']
      exact ⟨rfl, hw⟩
    | some v =>
      rw [h] at hw'
      rw [lookup_of_some h, lookup_of_some hw']
      exact ⟨rfl, hw⟩

/-! ### Files -/

theorem World.readFile_congr (h : w'.files = w.files) (path : String) : w'.readFile path = w.readFile path := by
  unfold World.readFile World.readTarget World.barrier World.look World.file?
  rw [h]

theorem World.writeFile_congr (h : w'.files = w.files) (path text : String) :
    (∃ p, w.writeFile path text = .error p ∧ w'.writeFile path text = .error p) ∨
      ∃ files, w.writeFile path text = .ok { w with files := files } ∧
        w'.writeFile path text = .ok { w' with files := files } := by
  unfold World.writeFile World.barrier World.look World.putFile World.file?
  rw [h]
  split
  · exact Or.inl ⟨_, rfl, rfl⟩
  · exact Or.inl ⟨_, rfl, rfl⟩
  · exact Or.inl ⟨_, rfl, rfl⟩
  · exact Or.inl ⟨_, rfl, rfl⟩
  · split
    · exact Or.inl ⟨_, rfl, rfl⟩
    · exact Or.inr ⟨_, rfl, rfl⟩

theorem sim_readFile (path : String) : Sim m (readFile path) (readFile path) where
  grows := (quiet_readFile path).grows
  matched w w' hw _ := by
    unfold readFile
    rw [Act.get_bind, Act.get_bind, World.readFile_congr hw.files]
    cases w.readFile path with
    | ok text => exact ⟨rfl, hw⟩
    | error p => exact ⟨rfl, hw⟩

theorem sim_writeFile (path text : String) : Sim m (writeFile path text) (writeFile path text) where
  grows := (quiet_writeFile path text).grows
  matched w w' hw _ := by
    unfold writeFile
    rw [Act.get_bind, Act.get_bind]
    rcases World.writeFile_congr hw.files path text with ⟨p, h, h'⟩ | ⟨files, h, h'⟩
    · rw [h, h']
      exact ⟨rfl, hw⟩
    · rw [h, h']
      exact ⟨rfl, { hw with files := rfl }⟩

/-- The wording of a failure gains a name. -/
theorem Sim.within {act act' : Act α} (h : Sim m act act') (name : String) :
    Sim m (within name act) (within name act') := by
  have hafter : ∀ w, worldAfter (EditableLisp.within name act) w = worldAfter act w := by
    intro w
    unfold worldAfter EditableLisp.within
    cases act w <;> rfl
  refine ⟨fun w => ?_, fun w w' hw hfits => ?_⟩
  · rw [hafter]
    exact h.grows w
  · rw [hafter] at hfits
    have hm := h.matched w w' hw hfits
    unfold EditableLisp.within
    cases e : act w with
    | ok a w₁ =>
      rw [e] at hm
      obtain ⟨w₁', he, hw₁⟩ := hm.of_ok
      rw [he]
      exact ⟨rfl, hw₁⟩
    | error b w₁ =>
      rw [e] at hm
      obtain ⟨w₁', he, hw₁⟩ := hm.of_error
      rw [he]
      exact ⟨rfl, hw₁⟩

/-! ## The same world with other results -/

/-- Worlds that are compared with other identities of nodes, but the same keywords. -/
def Mirror.moving (node : NodeId → NodeId) (h : Function.Injective node) (base : Nat) : Mirror where
  ρ := ⟨node, fun i => i, h, fun _ _ h => h⟩
  base := base
  fits _ := True
  target keywords := keywords
  fits_of_prefix _ h := h
  position_target _ _ _ := rfl
  interned_target _ _ _ := rfl

/-- Worlds that are compared with all identities as they are. -/
def Mirror.same (base : Nat) : Mirror := .moving (fun id => id) (fun _ _ h => h) base

/-- Other results, sites and recordings make a mirror image. -/
theorem mirrors_same (w : World) (results sites : Table Value) {recordings : List (List Lookup)}
    (h : recordings.length = w.recordings.length) : Mirrors (.same w.recordings.length) w
      { w with results := results, sites := sites, recordings := recordings } where
  nextId _ := rfl
  frames := (rename_id w.frames).symm
  atoms := (rename_id w.atoms).symm
  keywords := rfl
  spaced _ := rfl
  texts _ := rfl
  expansions _ := (rename_id _).symm
  others id hid := absurd rfl (hid id)
  recordings := ⟨[], w.recordings, recordings, rfl, rfl, rfl, h⟩
  output := rfl
  files := rfl

end EditableLisp
