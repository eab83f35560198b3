import EditableLisp.Copy
import EditableLisp.Tree
import EditableLisp.Expansion
import EditableLisp.Proofs.Printing

/-!
# Copies keep the world ok

New nodes take over the layout of old ones. A deep copy takes over the kept text as well, which is right
because a copy has the face of what it is a copy of (`keeps_copyWith`): no atom stands in the one if none
stands in the other, both are the same number or string if one is, and both are drawn alike.
-/

namespace EditableLisp

open Registry

/-! ## Faces -/

/-- How a value is drawn where all atoms have the same text. -/
def Value.outline (v : Value) (readably : Bool) (spelling : Option String) : String :=
  v.draw (fun _ _ => "") readably spelling

/-- Whether no atom stands in a value, whether its text is kept, what it is if it is a number or a string, and
how it is drawn but for atoms. -/
def Value.face (v : Value) : Bool × Bool × Option Value × (Bool → Option String → String) :=
  (v.isFrozen, v.isStable, v.literal?, v.outline)

/-- A node has the style, the spellings and the gaps to draw of another. -/
structure Node.DrawsAs (node' node : Node) (count : Nat) : Prop where
  style : node'.style = node.style
  spellings : node'.spellings = node.spellings
  gaps : node'.drawnGaps count = node.drawnGaps count

namespace Value

theorem isFrozen_of_face {v v' : Value} (h : v'.face = v.face) : v'.isFrozen = v.isFrozen :=
  congrArg Prod.fst h

theorem isStable_of_face {v v' : Value} (h : v'.face = v.face) : v'.isStable = v.isStable :=
  congrArg (fun p => p.2.1) h

theorem outline_of_face {v v' : Value} (h : v'.face = v.face) : v'.outline = v.outline :=
  congrArg (fun p => p.2.2.2) h

/-- Elements of the same faces have the same numbers and strings in the same places. -/
theorem literals_of_faces {vs vs' : List Value} (h : vs'.map face = vs.map face) :
    vs'.map literal? = vs.map literal? := by
  have hliterals := congrArg (List.map fun p => p.2.2.1) h
  rwa [List.map_map, List.map_map] at hliterals

theorem draw_of_face {v v' : Value} (h : v'.face = v.face) (readably : Bool) (spelling : Option String) :
    v'.draw (fun _ _ => "") readably spelling = v.draw (fun _ _ => "") readably spelling :=
  congrFun (congrFun (outline_of_face h) readably) spelling

/-- Elements of the same faces have the same marks and are drawn alike. -/
theorem faces_congr {vs vs' : List Value} (h : vs'.map face = vs.map face) :
    areFrozen vs' = areFrozen vs ∧ areStable vs' = areStable vs ∧
      ∀ readably gaps spellings done, drawItems (fun _ _ => "") readably gaps spellings done vs' =
        drawItems (fun _ _ => "") readably gaps spellings done vs := by
  induction vs' generalizing vs with
  | nil =>
    cases vs with
    | nil => exact ⟨rfl, rfl, fun _ _ _ _ => rfl⟩
    | cons => cases h
  | cons v' rest' ih =>
    cases vs with
    | nil => cases h
    | cons v rest =>
      obtain ⟨hv, hrest⟩ := List.cons.inj h
      obtain ⟨hfrozen, hstable, hdraw⟩ := ih hrest
      unfold areFrozen areStable
      rw [isFrozen_of_face hv, isStable_of_face hv, hfrozen, hstable]
      refine ⟨rfl, rfl, fun readably gaps spellings done => ?_⟩
      unfold drawItems
      rw [draw_of_face hv, hdraw]

/-- The keys of entries and the faces of their values. -/
def entryFaces (entries : List (Key × Value)) :
    List (Key × (Bool × Bool × Option Value × (Bool → Option String → String))) :=
  entries.map fun e => (e.1, e.2.face)

/-- Entries of the same keys and faces have the same numbers and strings in the same places. -/
theorem literals_of_entryFaces {node node' : Node} {es es' : Entries} (h : entryFaces es' = entryFaces es) :
    (map node' es').children.map literal? = (map node es).children.map literal? := by
  have flat : ∀ (node : Node) (entries : Entries), (map node entries).children.map literal? =
      (entryFaces entries).flatMap fun p => [p.1.toValue.literal?, p.2.2.2.1] := by
    intro node entries
    rw [entryFaces, List.flatMap_map]
    exact List.map_flatMap
  rw [flat, flat, h]

/-- Entries of the same keys and faces have the same marks and are drawn alike. -/
theorem entryFaces_congr {es es' : List (Key × Value)} (h : entryFaces es' = entryFaces es) :
    entriesFrozen es' = entriesFrozen es ∧ entriesStable es' = entriesStable es ∧
      ∀ readably gaps spellings done, drawEntries (fun _ _ => "") readably gaps spellings done es' =
        drawEntries (fun _ _ => "") readably gaps spellings done es := by
  induction es' generalizing es with
  | nil =>
    cases es with
    | nil => exact ⟨rfl, rfl, fun _ _ _ _ => rfl⟩
    | cons => cases h
  | cons e' rest' ih =>
    cases es with
    | nil => cases h
    | cons e rest =>
      obtain ⟨he, hrest⟩ := List.cons.inj h
      obtain ⟨hk, hv⟩ : e'.1 = e.1 ∧ e'.2.face = e.2.face := Prod.mk.inj he
      obtain ⟨hfrozen, hstable, hdraw⟩ := ih hrest
      unfold entriesFrozen entriesStable
      rw [isFrozen_of_face hv, isStable_of_face hv, hfrozen, hstable]
      refine ⟨rfl, rfl, fun readably gaps spellings done => ?_⟩
      unfold drawEntries
      rw [hk, draw_of_face hv, hdraw]

/-- A sequence has the face of another that is laid out like it and has elements of the same faces. -/
theorem face_seq_congr {node node' : Node} {vs vs' : List Value} (shape : Shape)
    (hn : node'.DrawsAs node vs.length) (h : vs'.map face = vs.map face) :
    (seq shape node' vs').face = (seq shape node vs).face := by
  have hlen : vs'.length = vs.length := by
    have := congrArg List.length h
    rwa [List.length_map, List.length_map] at this
  have hparts : (seq shape node' vs').isFrozen = (seq shape node vs).isFrozen ∧
      (seq shape node' vs').isStable = (seq shape node vs).isStable ∧
      ∀ readably, (seq shape node' vs').draw (fun _ _ => "") readably none =
        (seq shape node vs).draw (fun _ _ => "") readably none := by
    rcases marked_or_bracketed node vs with ⟨mark, head, form, hmark, rfl⟩ | hb
    · obtain ⟨head', form', rfl⟩ : ∃ head' form', vs' = [head', form'] := by
        match vs', hlen with
        | [head', form'], _ => exact ⟨head', form', rfl⟩
      have hform : form'.face = form.face := (List.cons.inj (List.cons.inj h).2).1
      have hgaps : node'.drawnGaps 2 = node.drawnGaps 2 := hn.gaps
      have hmark' : node'.style.mark? = some mark := hn.style ▸ hmark
      refine ⟨?_, ?_, fun readably => ?_⟩
      · rw [isFrozen_marked hmark, isFrozen_marked hmark', isFrozen_of_face hform]
      · rw [isStable_marked hmark, isStable_marked hmark', isStable_of_face hform]
      · rw [draw_marked hmark, draw_marked hmark', hgaps, hn.spellings, draw_of_face hform]
    · have hb' : ∀ mark head form, node'.style.mark? = some mark → vs' = [head, form] → False := by
        intro mark head form hmark he
        rw [he] at hlen
        match vs, hlen with
        | [head', form'], _ => exact hb mark head' form' (hn.style ▸ hmark) rfl
      obtain ⟨hfrozen, hstable, hdraw⟩ := faces_congr h
      refine ⟨?_, ?_, fun readably => ?_⟩
      · rw [isFrozen_bracketed hb, isFrozen_bracketed hb', hfrozen]
      · rw [isStable_bracketed hb, isStable_bracketed hb', hstable]
      · rw [draw_bracketed hb, draw_bracketed hb', hlen, hn.gaps, hn.spellings, hn.style, hdraw]
  refine Prod.ext hparts.1 (Prod.ext hparts.2.1 (Prod.ext rfl ?_))
  funext readably spelling
  show (seq shape node' vs').draw _ readably spelling = (seq shape node vs).draw _ readably spelling
  rw [draw_seq, hparts.2.2]
  exact (draw_seq shape node vs readably spelling).symm

/-- A map has the face of another that is laid out like it and has entries of the same faces. -/
theorem face_map_congr {node node' : Node} {es es' : Entries} (hn : node'.DrawsAs node (2 * es.length))
    (h : entryFaces es' = entryFaces es) : (map node' es').face = (map node es).face := by
  have hlen : es'.length = es.length := by
    have := congrArg List.length h
    rwa [entryFaces, entryFaces, List.length_map, List.length_map] at this
  obtain ⟨hfrozen, hstable, hdraw⟩ := entryFaces_congr h
  refine Prod.ext hfrozen (Prod.ext hstable (Prod.ext rfl ?_))
  funext readably spelling
  show (map node' es').draw _ readably spelling = (map node es).draw _ readably spelling
  unfold draw
  rw [hlen, hn.gaps, hn.spellings]
  dsimp only
  rw [hdraw]

end Value

/-! ## New nodes -/

variable {R : Registry}

/-- An identity may be given to a node whose layout depends on the world. -/
theorem keeps_newNode {make : World → NodeId → Node} (hid : ∀ w id, (make w id).id = id)
    {k : Node → Value} (hparts : ∀ node, R.PartsKnown (k node))
    (hlayout : ∀ w id, (k (make w id)).IsLaidOut) :
    Keeps R (liftM (modifyGet (m := Change) fun w =>
      (make w w.nextId, { w with nextId := w.nextId + 1 }))) fun R' node =>
        R'.node node.id = some (k node) ∧ ∃ w id, node = make w id := by
  intro w hw
  obtain ⟨R', hle, hok, hnode⟩ := @keeps_freshId R (fun id => k (make w id)) (fun id => hparts _) (hlayout w) w hw
  refine ⟨R', hle, hok, ?_, w, w.nextId, rfl⟩
  show R'.node (make w w.nextId).id = _
  rw [hid]
  exact hnode

theorem keeps_relayout {node : Node} {count index : Nat} {k : Node → Value}
    (hparts : ∀ node, R.PartsKnown (k node))
    (hlayout : ∀ (w : World) id, (k ⟨id, node.style, w.gaps? node count,
      node.spellings.map fun s => s.set index none⟩).IsLaidOut) :
    Keeps R (liftM (relayout node count index)) fun R' node => R'.node node.id = some (k node) :=
  (@keeps_newNode R (fun w id =>
    ⟨id, node.style, w.gaps? node count, node.spellings.map fun s : List (Option String) => s.set index none⟩)
    (fun _ _ => rfl) k hparts hlayout).mono fun _ _ _ h => h.1

theorem keeps_copyGaps {node : Node} {count : Nat} {k : Node → Value}
    (hparts : ∀ node, R.PartsKnown (k node))
    (hlayout : ∀ (w : World) id, (k ⟨id, node.style, w.gaps? node count, none⟩).IsLaidOut) :
    Keeps R (liftM (copyGaps node count)) fun R' node' =>
      R'.node node'.id = some (k node') ∧ node'.style = node.style := by
  refine (@keeps_newNode R (fun w id => ⟨id, node.style, w.gaps? node count, none⟩) (fun _ _ => rfl) k
    hparts hlayout).mono fun R' node' _ h => ⟨h.1, ?_⟩
  obtain ⟨w, id, rfl⟩ := h.2
  rfl

/-- A new node that takes over the layout of a registered one is drawn like it. -/
theorem drawsAs_gaps {w : World} (hw : R.Ok w) {node : Node} {count : Nat} {v : Value}
    (hv : R.node node.id = some v) (hc : v.Fits = node.Fits count) (id : NodeId) :
    Node.DrawsAs ⟨id, node.style, w.gaps? node count, node.spellings⟩ node count := by
  refine ⟨rfl, rfl, ?_⟩
  unfold World.gaps?
  by_cases hs : w.spaced.has node.id = true
  · rw [if_pos hs]
    obtain ⟨u, hu, hn⟩ := hw.spaced node.id hs
    rw [hv] at hu
    cases hu
    rw [hc] at hn
    rw [Node.drawnGaps_of_not_fits hn]
    exact Node.drawnGaps_of_gaps rfl (length_defaultGaps _ _)
  · rw [if_neg hs]
    rfl

/-- A copy of a registered node may stand for a value with the face of the node's. -/
theorem keeps_copyNode {node : Node} {count : Nat} {v : Value} (hv : R.node node.id = some v)
    (hc : v.Fits = node.Fits count) {k : Node → Value}
    (hparts : ∀ node', R.PartsKnown (k node'))
    (hlayout : ∀ (w : World) id, (k ⟨id, node.style, w.gaps? node count, node.spellings⟩).IsLaidOut)
    (hface : ∀ node' : Node, node'.DrawsAs node count → (k node').face = v.face) :
    Keeps R (liftM (copyNode node count)) fun R' node' =>
      R'.node node'.id = some (k node') ∧ node'.DrawsAs node count := by
  intro w hw
  have hdraws := drawsAs_gaps hw hv hc w.nextId
  obtain ⟨R', hle, hok, hnode⟩ := @keeps_freshId R
    (fun id => k ⟨id, node.style, w.gaps? node count, node.spellings⟩) (fun id => hparts _) (hlayout w) w hw
  refine ⟨R', hle, ?_⟩
  show R'.Ok (copyNode node count w).2 ∧
    R'.node (copyNode node count w).1.id = some (k (copyNode node count w).1) ∧ _
  unfold copyNode
  rw [Change.modifyGet_apply]
  dsimp only
  cases ht : w.texts.get? node.id with
  | none => exact ⟨hok, hnode, hdraws⟩
  | some text =>
    refine ⟨?_, hnode, hdraws⟩
    obtain ⟨u, hu, hstable, htext⟩ := hw.texts node.id text ht
    rw [hv] at hu
    cases hu
    have hf := hface _ hdraws
    have hright : (k ⟨w.nextId, node.style, w.gaps? node count, node.spellings⟩).isFrozen → ∀ texts,
        text = (k ⟨w.nextId, node.style, w.gaps? node count, node.spellings⟩).draw texts true none := by
      intro hfrozen texts
      have hfrozen' : v.isFrozen := (Value.isFrozen_of_face hf).symm.trans hfrozen
      rw [htext hfrozen' (fun _ _ => ""), ← Value.draw_of_face hf]
      exact Value.draw_of_frozen hfrozen true none
    have hkept := (Value.isStable_of_face hf).trans hstable
    exact (steady_setText hnode hkept hright _ hok).1

/-! ## Deep copies -/

variable {copyCell : AtomId → Change Value}

/-- What a copy of an atom must be. -/
def CopiesAtoms (copyCell : AtomId → Change Value) : Prop :=
  ∀ (R : Registry) (id : AtomId), Keeps R (liftM (copyCell id)) fun _ v => ∃ id', v = .atom id'

mutual

/-- **A deep copy is known and has the face of what it is a copy of.** -/
theorem keeps_copyWith (ha : CopiesAtoms copyCell) {R : Registry} (v : Value) (hv : R.Known v) :
    Keeps R (liftM (copyWith copyCell v)) fun R' v' => R'.Known v' ∧ v'.face = v.face := by
  refine Keeps.of_ok fun w hw => ?_
  have hparts := hw.partsKnown hv
  have hlaid := hw.isLaidOut hv
  match v with
  | .nil | .bool _ | .num _ | .text _ | .keyword _ | .builtin _ _ _ | .closure _ _ _ _ _ _ =>
    unfold copyWith
    exact Keeps.pure ⟨hv, rfl⟩
  | .symbol id name =>
    unfold copyWith
    refine Keeps.mono (keeps_namedSymbol name) fun R' v' _ h => ?_
    obtain ⟨hknown, id', rfl⟩ := h
    exact ⟨hknown, rfl⟩
  | .seq shape node items =>
    unfold copyWith
    rw [lift_bind]
    refine Keeps.bind (keeps_copyItems ha items hparts #[] allKnown_nil) fun R₁ vs hle hvs => ?_
    obtain ⟨hknown, hadded⟩ := hvs
    have hfaces := of_added_to_nothing hadded
    rw [lift_bind]
    have hv₁ : R₁.node node.id = some (.seq shape node items) := hle.1 _ _ hv
    have hlays : node.Lays items := hlaid node rfl
    refine Keeps.bind (keeps_copyNode hv₁ rfl (k := fun node' => .seq shape node' vs) (fun _ => hknown)
      (fun w id => Value.isLaidOut_of_lays rfl (hlays.copied rfl w id (Value.literals_of_faces hfaces)))
      fun node' hn => Value.face_seq_congr shape hn hfaces) fun R₂ node' _ hn => ?_
    exact Keeps.pure ⟨hn.1, Value.face_seq_congr shape hn.2 hfaces⟩
  | .map node entries =>
    unfold copyWith
    rw [lift_bind]
    refine Keeps.bind (keeps_copyEntries ha entries hparts.2 #[] nofun) fun R₁ es hle hes => ?_
    obtain ⟨hknown, hadded⟩ := hes
    have hfaces := of_added_to_nothing hadded
    rw [lift_bind]
    have hv₁ : R₁.node node.id = some (.map node entries) := hle.1 _ _ hv
    have hnames : Entries.names es = Entries.names entries := by
      have := congrArg (List.map fun p => p.1.name) hfaces
      rwa [Value.entryFaces, Value.entryFaces, List.map_map, List.map_map] at this
    have hlays : node.Lays (Value.map node entries).children := hlaid node rfl
    refine Keeps.bind (keeps_copyNode hv₁ rfl (k := fun node' => .map node' es)
      (fun _ => ⟨hnames ▸ hparts.1, hknown⟩)
      (fun w id => Value.isLaidOut_of_lays rfl (hlays.copied (Value.length_children_map _ _) w id
        (Value.literals_of_entryFaces hfaces)))
      fun node' hn => Value.face_map_congr hn hfaces) fun R₂ node' _ hn => ?_
    exact Keeps.pure ⟨hn.1, Value.face_map_congr hn.2 hfaces⟩
  | .atom id =>
    unfold copyWith
    refine Keeps.mono (ha R id) fun R' v' _ h => ?_
    obtain ⟨id', rfl⟩ := h
    exact ⟨trivial, rfl⟩

/-- `keeps_copyWith` for elements. -/
theorem keeps_copyItems (ha : CopiesAtoms copyCell) {R : Registry} (items : List Value)
    (hi : R.AllKnown items) (done : Array Value) (hd : R.AllKnown done.toList) :
    Keeps R (liftM (copyItems copyCell done items)) fun R' vs =>
      R'.AllKnown vs ∧ ∃ ws, vs = done.toList ++ ws ∧ ws.map Value.face = items.map Value.face := by
  match items with
  | [] =>
    unfold copyItems
    exact Keeps.pure ⟨hd, [], (List.append_nil _).symm, rfl⟩
  | v :: rest =>
    obtain ⟨hv, hrest⟩ := allKnown_cons.mp hi
    unfold copyItems
    rw [lift_bind]
    refine Keeps.bind (keeps_copyWith ha v hv) fun R₁ v' hle hv' => ?_
    have hd' := allKnown_push (hd.mono hle) hv'.1
    refine Keeps.mono (keeps_copyItems ha rest (hrest.mono hle) _ hd') fun R₂ vs _ hvs => ?_
    obtain ⟨hknown, ws, rfl, hfaces⟩ := hvs
    refine ⟨hknown, v' :: ws, ?_, ?_⟩
    · rw [Array.toList_push, List.append_assoc, List.singleton_append]
    · rw [List.map_cons, List.map_cons, hv'.2, hfaces]

/-- `keeps_copyWith` for entries. -/
theorem keeps_copyEntries (ha : CopiesAtoms copyCell) {R : Registry} (entries : List (Key × Value))
    (he : R.EntriesKnown entries) (done : Array (Key × Value)) (hd : R.EntriesKnown done.toList) :
    Keeps R (liftM (copyEntries copyCell done entries)) fun R' es =>
      R'.EntriesKnown es ∧ ∃ ws, es = done.toList ++ ws ∧
        Value.entryFaces ws = Value.entryFaces entries := by
  match entries with
  | [] =>
    unfold copyEntries
    exact Keeps.pure ⟨hd, [], (List.append_nil _).symm, rfl⟩
  | (k, v) :: rest =>
    obtain ⟨⟨hk, hv⟩, hrest⟩ := List.forall_mem_cons.mp he
    unfold copyEntries
    rw [lift_bind]
    refine Keeps.bind (keeps_copyWith ha v hv) fun R₁ v' hle hv' => ?_
    have hd' := entriesKnown_push (hd.mono hle) (hk.mono hle) hv'.1
    refine Keeps.mono (keeps_copyEntries ha rest (EntriesKnown.mono hrest hle) _ hd') fun R₂ es _ hes => ?_
    obtain ⟨hknown, ws, rfl, hfaces⟩ := hes
    refine ⟨hknown, (k, v') :: ws, ?_, ?_⟩
    · rw [Array.toList_push, List.append_assoc, List.singleton_append]
    · unfold Value.entryFaces at hfaces ⊢
      rw [List.map_cons, List.map_cons, hv'.2, hfaces]

end

theorem copiesAtoms_copyAtom (depth : Nat) : CopiesAtoms (copyAtom depth) := by
  induction depth with
  | zero => exact fun R id => Keeps.pure ⟨id, rfl⟩
  | succ depth ih =>
    intro R id
    unfold copyAtom
    rw [lift_bind]
    refine Steady.bind_keeps steady_liftGet fun w hw => ?_
    rw [lift_bind]
    refine Keeps.bind (keeps_copyWith ih _ (hw.known_content id)) fun R' v _ hv => ?_
    refine Steady.keeps (P := fun v => ∃ id', v = .atom id') ?_ fun _ h => h
    intro w hw
    exact ⟨(steady_newAtom hv.1 w hw).1, _, rfl⟩

/-- A deep copy is known and has the face of what it is a copy of. -/
theorem keeps_deepCopy {v : Value} (hv : R.Known v) :
    Keeps R (liftM (deepCopy v)) fun R' v' => R'.Known v' ∧ v'.face = v.face := by
  unfold deepCopy
  rw [lift_bind]
  exact Steady.bind_keeps steady_liftGet fun w _ => keeps_copyWith (copiesAtoms_copyAtom _) v hv

theorem keeps_deepCopies {v : Value} (hv : R.Known v) (n : Nat) (done : Array Value)
    (hd : R.AllKnown done.toList) : Keeps R (liftM (deepCopies v done n)) AllKnown := by
  induction n generalizing R done with
  | zero => exact Keeps.pure hd
  | succ n ih =>
    unfold deepCopies
    rw [lift_bind]
    refine Keeps.bind (keeps_deepCopy hv) fun R' v' hle hv' => ?_
    exact ih (hv.mono hle) _ (allKnown_push (hd.mono hle) hv'.1)

end EditableLisp
