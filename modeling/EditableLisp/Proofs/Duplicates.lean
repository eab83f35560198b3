import EditableLisp.Proofs.Equality
import EditableLisp.Proofs.PrintedTexts
import EditableLisp.Proofs.Replacing

/-!
# Duplicates

`World.Copies` says that a value is a duplicate of another one: every symbol, sequence, map and atom that stands
in it outside of functions is a new one, each node has the layout and the kept text of the one that it stands for,
and all the rest is the same. A deep copy is a duplicate, and nothing else in the world is changed
(**`copies_deepCopy`**), if atoms are followed as deep as they are nested.

A duplicate has no cell in common with its original (`Copies.separate`), is shown like it with what is kept
(`Copies.shown`), and is equal to it if there is no atom and no NaN (`Copies.equal`).
-/

namespace EditableLisp

open Registry

namespace World

/-! ## New cells -/

/-- A cell was given out. -/
def HasCell (w : World) : Cell → Prop
  | .node id => id < w.nextId
  | .atom id => id < w.atoms.size

/-- One cell was given out before, and the other one since. -/
structure Renews (w₀ w : World) (cell cell' : Cell) : Prop where
  old : w₀.HasCell cell
  new : ¬ w₀.HasCell cell'
  made : w.HasCell cell'

/-- No text is kept under an identity that was not given out. -/
def Clean (w : World) : Prop := ∀ id, w.nextId ≤ id → w.texts.get? id = none

/-- A world has more nodes and atoms, and is otherwise the same. -/
structure Extends (w w' : World) : Prop where
  rest : ∃ nextId atoms texts, w' = { w with nextId := nextId, atoms := atoms, texts := texts }
  nextId : w.nextId ≤ w'.nextId
  size : w.atoms.size ≤ w'.atoms.size
  contents : ∀ id, id < w.atoms.size → w'.content id = w.content id
  texts : ∀ id, id < w.nextId → w'.texts.get? id = w.texts.get? id
  clean : w.Clean → w'.Clean

variable {w₀ w w' w'' : World} {v c u : Value}

theorem Extends.refl (w : World) : w.Extends w where
  rest := ⟨w.nextId, w.atoms, w.texts, rfl⟩
  nextId := Nat.le_refl _
  size := Nat.le_refl _
  contents _ _ := rfl
  texts _ _ := rfl
  clean h := h

theorem Extends.trans (h : w.Extends w') (h' : w'.Extends w'') : w.Extends w'' where
  rest := by
    obtain ⟨_, _, _, rfl⟩ := h.rest
    obtain ⟨nextId, atoms, texts, he⟩ := h'.rest
    exact ⟨nextId, atoms, texts, he⟩
  nextId := Nat.le_trans h.nextId h'.nextId
  size := Nat.le_trans h.size h'.size
  contents id hid := (h'.contents id (Nat.lt_of_lt_of_le hid h.size)).trans (h.contents id hid)
  texts id hid := (h'.texts id (Nat.lt_of_lt_of_le hid h.nextId)).trans (h.texts id hid)
  clean hc := h'.clean (h.clean hc)

theorem Extends.hasCell (h : w.Extends w') {cell : Cell} (hcell : w.HasCell cell) : w'.HasCell cell := by
  cases cell with
  | node id => exact Nat.lt_of_lt_of_le hcell h.nextId
  | atom id => exact Nat.lt_of_lt_of_le hcell h.size

theorem Renews.mono {cell cell' : Cell} (h : w₀.Renews w cell cell') (hw : w.Extends w') :
    w₀.Renews w' cell cell' := ⟨h.old, h.new, hw.hasCell h.made⟩

/-- Atoms are nested as deep as before. -/
theorem Nested.extends {n : Nat} (h : w.Nested n v) (hw : w.Extends w') : w'.Nested n v :=
  h.congr fun id hid => ⟨Nat.lt_of_lt_of_le hid hw.size, hw.contents id hid⟩

/-! ## Duplicates -/

/-- A value is a duplicate of another one, made since the world `w₀`. -/
inductive Copies (w₀ w : World) : Value → Value → Prop where
  | same {v : Value} (no_cell : v.cell? = none) : w₀.Copies w v v
  | symbol {id id' : NodeId} {name : String} (renewed : w₀.Renews w (.node id) (.node id')) :
      w₀.Copies w (.symbol id name) (.symbol id' name)
  | seq {shape : Shape} {node node' : Node} {items items' : List Value}
      (renewed : w₀.Renews w (.node node.id) (.node node'.id)) (layout : node'.DrawsAs node items.length)
      (text : w.texts.get? node'.id = w.texts.get? node.id) (length : items.length = items'.length)
      (each : ∀ u u', (u, u') ∈ items.zip items' → w₀.Copies w u u') :
      w₀.Copies w (.seq shape node items) (.seq shape node' items')
  | map {node node' : Node} {entries entries' : Entries}
      (renewed : w₀.Renews w (.node node.id) (.node node'.id)) (layout : node'.DrawsAs node (2 * entries.length))
      (text : w.texts.get? node'.id = w.texts.get? node.id) (length : entries.length = entries'.length)
      (keys : ∀ e e', (e, e') ∈ entries.zip entries' → e'.1 = e.1)
      (each : ∀ e e', (e, e') ∈ entries.zip entries' → w₀.Copies w e.2 e'.2) :
      w₀.Copies w (.map node entries) (.map node' entries')
  | atom {id id' : AtomId} (renewed : w₀.Renews w (.atom id) (.atom id'))
      (content : w₀.Copies w (w.content id) (w.content id')) : w₀.Copies w (.atom id) (.atom id')

/-- **A duplicate stays one** while the world is extended. -/
theorem Copies.mono (h : w₀.Copies w v c) (hw₀ : w₀.Extends w) (hw : w.Extends w') : w₀.Copies w' v c := by
  have htext : ∀ {id id' : NodeId}, w₀.Renews w (.node id) (.node id') → w.texts.get? id' = w.texts.get? id →
      w'.texts.get? id' = w'.texts.get? id := by
    intro id id' hr ht
    rw [hw.texts id' hr.made, hw.texts id (hw₀.hasCell hr.old), ht]
  induction h with
  | same no_cell => exact .same no_cell
  | symbol renewed => exact .symbol (renewed.mono hw)
  | seq renewed layout text length _ ih => exact .seq (renewed.mono hw) layout (htext renewed text) length ih
  | map renewed layout text length keys _ ih =>
    exact .map (renewed.mono hw) layout (htext renewed text) length keys ih
  | @atom id id' renewed _ ih =>
    refine .atom (renewed.mono hw) ?_
    rwa [hw.contents id (hw₀.hasCell renewed.old), hw.contents id' renewed.made]

/-! ## What a duplicate has in common with its original -/

theorem exists_mem_zip_left {α β : Type} {us : List α} {us' : List β} (h : us.length = us'.length) {u : α}
    (hu : u ∈ us) : ∃ u', (u, u') ∈ us.zip us' := by
  rw [← List.map_fst_zip (Nat.le_of_eq h)] at hu
  obtain ⟨⟨_, u'⟩, hmem, rfl⟩ := List.mem_map.mp hu
  exact ⟨u', hmem⟩

theorem exists_mem_zip_right {α β : Type} {us : List α} {us' : List β} (h : us.length = us'.length) {u' : β}
    (hu : u' ∈ us') : ∃ u, (u, u') ∈ us.zip us' := by
  rw [← List.map_snd_zip (Nat.le_of_eq h.symm)] at hu
  obtain ⟨⟨u, _⟩, hmem, rfl⟩ := List.mem_map.mp hu
  exact ⟨u, hmem⟩

/-- The parts outside of functions of a duplicate are duplicates of those of its original. -/
theorem Copies.parts (h : w₀.Copies w v c) :
    (∀ u ∈ w.partsOf false v, ∃ u' ∈ w.partsOf false c, w₀.Copies w u u') ∧
      ∀ u' ∈ w.partsOf false c, ∃ u ∈ w.partsOf false v, w₀.Copies w u u' := by
  cases h with
  | same no_cell =>
    have hnil : w.partsOf false v = [] := by
      cases v with
      | seq | map | atom => cases no_cell
      | _ => rfl
    rw [hnil]
    exact ⟨nofun, nofun⟩
  | symbol => exact ⟨nofun, nofun⟩
  | seq _ _ _ length each =>
    refine ⟨fun u hu => ?_, fun u' hu' => ?_⟩
    · obtain ⟨u', hmem⟩ := exists_mem_zip_left length hu
      exact ⟨u', (List.of_mem_zip hmem).2, each u u' hmem⟩
    · obtain ⟨u, hmem⟩ := exists_mem_zip_right length hu'
      exact ⟨u, (List.of_mem_zip hmem).1, each u u' hmem⟩
  | map _ _ _ length _ each =>
    refine ⟨fun u hu => ?_, fun u' hu' => ?_⟩
    · obtain ⟨e, he, rfl⟩ := List.mem_map.mp hu
      obtain ⟨e', hmem⟩ := exists_mem_zip_left length he
      exact ⟨e'.2, List.mem_map_of_mem (List.of_mem_zip hmem).2, each e e' hmem⟩
    · obtain ⟨e', he', rfl⟩ := List.mem_map.mp hu'
      obtain ⟨e, hmem⟩ := exists_mem_zip_right length he'
      exact ⟨e.2, List.mem_map_of_mem (List.of_mem_zip hmem).1, each e e' hmem⟩
  | atom _ content =>
    refine ⟨fun u hu => ?_, fun u' hu' => ?_⟩
    · cases List.mem_singleton.mp hu
      exact ⟨_, List.mem_cons_self, content⟩
    · cases List.mem_singleton.mp hu'
      exact ⟨_, List.mem_cons_self, content⟩

/-- What stands in the original outside of functions has a duplicate in the duplicate. -/
theorem Copies.of_within (h : w₀.Copies w v c) (hu : w.Within false v u) :
    ∃ u', w.Within false c u' ∧ w₀.Copies w u u' := by
  induction hu with
  | refl => exact ⟨c, .refl, h⟩
  | tail _ hx ih =>
    obtain ⟨u', hu', hcopy⟩ := ih
    obtain ⟨x', hx', hcopy'⟩ := hcopy.parts.1 _ hx
    exact ⟨x', hu'.part hx', hcopy'⟩

/-- What stands in the duplicate outside of functions is a duplicate of what stands in the original. -/
theorem Copies.exists_within (h : w₀.Copies w v c) (hu : w.Within false c u) :
    ∃ x, w.Within false v x ∧ w₀.Copies w x u := by
  induction hu with
  | refl => exact ⟨v, .refl, h⟩
  | tail _ hx ih =>
    obtain ⟨u', hu', hcopy⟩ := ih
    obtain ⟨x', hx', hcopy'⟩ := hcopy.parts.2 _ hx
    exact ⟨x', hu'.part hx', hcopy'⟩

/-- The cells of a duplicate are new. -/
theorem Copies.not_hasCell (h : w₀.Copies w v c) {cell : Cell} (hcell : c.cell? = some cell) :
    ¬ w₀.HasCell cell := by
  cases h with
  | same no_cell =>
    rw [no_cell] at hcell
    cases hcell
  | symbol renewed | seq renewed | map renewed | atom renewed =>
    cases hcell
    exact renewed.new

/-- The cells of an original are old. -/
theorem Copies.hasCell (h : w₀.Copies w v c) {cell : Cell} (hcell : v.cell? = some cell) : w₀.HasCell cell := by
  cases h with
  | same no_cell =>
    rw [no_cell] at hcell
    cases hcell
  | symbol renewed | seq renewed | map renewed | atom renewed =>
    cases hcell
    exact renewed.old

/-- **A duplicate has no cell in common with its original**, outside of functions. -/
theorem Copies.separate (h : w₀.Copies w v c) : w.Separate v c := by
  intro u x cell hu hx hcell hcell'
  obtain ⟨u', -, hcopy⟩ := h.of_within hu
  obtain ⟨x', -, hcopy'⟩ := h.exists_within hx
  exact hcopy'.not_hasCell hcell' (hcopy.hasCell hcell)

/-- Atoms are nested as deep in a duplicate as in its original. -/
theorem Copies.nested (h : w₀.Copies w v c) {n : Nat} (hn : w.Nested n v) : w.Nested n c := by
  induction h generalizing n with
  | same => exact hn
  | symbol => exact .parts nofun nofun
  | seq _ _ _ length _ ih =>
    refine .parts nofun fun u' hu' => ?_
    obtain ⟨u, hmem⟩ := exists_mem_zip_right length hu'
    exact ih u u' hmem (hn.part nofun (List.of_mem_zip hmem).1)
  | map _ _ _ length _ _ ih =>
    refine .parts nofun fun u' hu' => ?_
    obtain ⟨e', he', rfl⟩ := List.mem_map.mp hu'
    obtain ⟨e, hmem⟩ := exists_mem_zip_right length he'
    exact ih e e' hmem (hn.part nofun (List.mem_map_of_mem (List.of_mem_zip hmem).1))
  | @atom id _ renewed _ ih =>
    cases hn with
    | parts no_atom => exact absurd rfl (no_atom id)
    | atom _ content => exact .atom renewed.made (ih content)

/-- **A duplicate is shown like its original**, if as much is kept of nodes of which as much was kept. -/
theorem Copies.shown (h : w₀.Copies w v c) {kept : NodeId → Option String}
    (hkept : ∀ id id', w.texts.get? id' = w.texts.get? id → kept id' = kept id) (depth : Nat) (readably : Bool) :
    Value.ShownAlike kept (w.contentShown kept depth) kept (w.contentShown kept depth) readably v c := by
  induction h generalizing depth readably with
  | same | symbol => exact fun _ => rfl
  | @seq shape _ _ _ _ _ layout text length _ ih =>
    refine Value.shown_seq_congr (hkept _ _ text) layout (List.forall₂_iff_zip.mpr ⟨length, fun hmem => ?_⟩) shape
    exact ih _ _ hmem depth readably
  | map _ layout text length keys _ ih =>
    refine Value.shown_map_congr (hkept _ _ text) layout (List.forall₂_iff_zip.mpr ⟨length, fun hmem => ?_⟩)
    exact ⟨keys _ _ hmem, ih _ _ hmem depth readably⟩
  | atom _ _ ih =>
    intro spelling
    unfold Value.shown
    cases depth with
    | zero => rfl
    | succ depth =>
      unfold contentShown
      rw [ih depth readably none]

theorem Copies.textWith (h : w₀.Copies w v c) {kept : NodeId → Option String}
    (hkept : ∀ id id', w.texts.get? id' = w.texts.get? id → kept id' = kept id) (readably : Bool) :
    w.textWith kept readably c = w.textWith kept readably v := h.shown hkept w.atoms.size readably none

/-- **A duplicate is equal to its original** if there is no atom and no NaN in it. -/
theorem Copies.equal (h : w₀.Copies w v c) (hatom : ∀ id, ¬ w.Within false v (.atom id)) (hnames : v.HasNames)
    (hnan : ¬ v.HasNaN) : v.equal c := by
  induction h with
  | same => exact (Value.equal_self_iff hnames).mpr hnan
  | symbol => exact beq_self_eq_true _
  | @seq shape node node' items items' _ _ _ length _ ih =>
    refine Value.equalItems_iff_forall₂.mpr (List.forall₂_iff_zip.mpr ⟨length, fun {u u'} hmem => ?_⟩)
    have hu := (List.of_mem_zip hmem).1
    exact ih u u' hmem (fun id hid => hatom id (.of_part hu hid)) (hnames.child hu) fun h => hnan (h.of_child hu)
  | @map node node' entries entries' _ _ _ length keys _ ih =>
    have hsame : List.Forall₂ (fun name name' => name = name') (Entries.names entries) (Entries.names entries') := by
      rw [Entries.names, Entries.names, List.forall₂_map_left_iff, List.forall₂_map_right_iff]
      exact List.forall₂_iff_zip.mpr ⟨length, fun hmem => congrArg Key.name (keys _ _ hmem).symm⟩
    rw [List.forall₂_eq_eq_eq] at hsame
    have hnames' : (Entries.names entries').Nodup := hsame ▸ hnames [] node entries rfl
    rw [Value.equal, Bool.and_eq_true, beq_iff_eq]
    refine ⟨length, Value.equalEntries_iff.mpr fun e he => ?_⟩
    obtain ⟨e', hmem⟩ := exists_mem_zip_left length he
    refine ⟨e', ?_, ?_⟩
    · rw [← keys e e' hmem]
      exact Entries.find?_name hnames' (List.of_mem_zip hmem).2
    · have hu : e.2 ∈ (Value.map node entries).children := Value.mem_children_map he
      refine ih e e' hmem (fun id hid => hatom id (.of_part (List.mem_map_of_mem he) hid)) (hnames.child hu) ?_
      exact fun h => hnan (h.of_child hu)
  | atom => exact absurd .refl (hatom _)

/-! ## Copying -/

/-- A change makes a duplicate of a value, in any world that extends `w₀`. -/
def Duplicates (w₀ : World) (change : Change Value) (v : Value) : Prop :=
  ∀ w, w₀.Extends w → w.Clean → w.Extends (change w).2 ∧ w₀.Copies (change w).2 v (change w).1

end World

open World

section

variable {w₀ w : World} {copyCell : AtomId → Change Value}

theorem extends_newSymbol (w : World) (name : String) : w.Extends (newSymbol name w).2 where
  rest := ⟨w.nextId + 1, w.atoms, w.texts, rfl⟩
  nextId := Nat.le_succ _
  size := Nat.le_refl _
  contents _ _ := rfl
  texts _ _ := rfl
  clean h id hid := h id (Nat.le_of_succ_le hid)

theorem extends_newAtom (w : World) (content : Value) :
    w.Extends (newAtom content w).2 ∧ (newAtom content w).2.content w.atoms.size = content := by
  have hpush : ∀ id, (newAtom content w).2.content id = (w.atoms.push content).getD id .nil := fun _ => rfl
  refine ⟨⟨⟨w.nextId, w.atoms.push content, w.texts, rfl⟩, Nat.le_refl _, ?_, fun id hid => ?_, fun _ _ => rfl,
    fun h => h⟩, ?_⟩
  · show w.atoms.size ≤ (w.atoms.push content).size
    rw [Array.size_push]
    exact Nat.le_succ _
  · rw [hpush]
    unfold World.content
    rw [Array.getD_eq_getD_getElem?, Array.getD_eq_getD_getElem?, Array.getElem?_push_lt hid,
      Array.getElem?_eq_getElem hid]
  · rw [hpush, Array.getD_eq_getD_getElem?, Array.getElem?_push_size]
    rfl

/-- A copied node has the layout and the kept text of the other one. -/
theorem extends_copyNode (hclean : w.Clean) (node : Node) (count : Nat) :
    w.Extends (copyNode node count w).2 ∧ (copyNode node count w).2.nextId = w.nextId + 1 ∧
      (copyNode node count w).1 = ⟨w.nextId, node.style, w.gaps? node count, node.spellings⟩ ∧
      (copyNode node count w).2.texts.get? w.nextId = w.texts.get? node.id := by
  unfold copyNode
  rw [Change.modifyGet_apply]
  dsimp only
  cases ht : w.texts.get? node.id with
  | none =>
    refine ⟨⟨⟨w.nextId + 1, w.atoms, w.texts, rfl⟩, Nat.le_succ _, Nat.le_refl _, fun _ _ => rfl, fun _ _ => rfl,
      fun h id hid => h id (Nat.le_of_succ_le hid)⟩, rfl, rfl, hclean _ (Nat.le_refl _)⟩
  | some text =>
    have hset : ∀ id, (w.texts.set w.nextId text).get? id = if id = w.nextId then some text else w.texts.get? id :=
      fun id => Table.get?_set _ _ id _
    refine ⟨⟨⟨w.nextId + 1, w.atoms, w.texts.set w.nextId text, rfl⟩, Nat.le_succ _, Nat.le_refl _, fun _ _ => rfl,
      fun id hid => ?_, fun h id hid => ?_⟩, rfl, rfl, ?_⟩
    · exact (hset id).trans (if_neg (Nat.ne_of_lt hid))
    · exact ((hset id).trans (if_neg (Nat.ne_of_gt hid))).trans (h id (Nat.le_of_succ_le hid))
    · exact (hset w.nextId).trans (if_pos rfl)

/-- Duplicates of elements are made in turn. -/
theorem copies_copyItems {items : List Value} (h : ∀ u ∈ items, w₀.Duplicates (copyWith copyCell u) u)
    (done : Array Value) (hw : w₀.Extends w) (hclean : w.Clean) :
    ∃ us, (copyItems copyCell done items w).1 = done.toList ++ us ∧ items.length = us.length ∧
      w.Extends (copyItems copyCell done items w).2 ∧
      ∀ u u', (u, u') ∈ items.zip us → w₀.Copies (copyItems copyCell done items w).2 u u' := by
  induction items generalizing done w with
  | nil => exact ⟨[], (List.append_nil _).symm, rfl, World.Extends.refl w, nofun⟩
  | cons v rest ih =>
    obtain ⟨hv, hrest⟩ := List.forall_mem_cons.mp h
    obtain ⟨hext, hcopy⟩ := hv w hw hclean
    have hrun : copyItems copyCell done (v :: rest) w =
        copyItems copyCell (done.push (copyWith copyCell v w).1) rest (copyWith copyCell v w).2 := by
      rw [copyItems]
      rfl
    rw [hrun]
    generalize copyWith copyCell v w = first at hext hcopy ⊢
    obtain ⟨v', w₁⟩ := first
    obtain ⟨us, hus, hlen, hext', heach⟩ := ih hrest (done.push v') (hw.trans hext) (hext.clean hclean)
    refine ⟨v' :: us, ?_, ?_, hext.trans hext', fun u u' hu => ?_⟩
    · rw [hus, Array.toList_push, List.append_assoc, List.singleton_append]
    · rw [List.length_cons, List.length_cons, hlen]
    · rcases List.mem_cons.mp hu with he | hu
      · cases he
        exact hcopy.mono (hw.trans hext) hext'
      · exact heach u u' hu

/-- Duplicates of the values of entries are made in turn, under the same keys. -/
theorem copies_copyEntries {entries : Entries}
    (h : ∀ e ∈ entries, w₀.Duplicates (copyWith copyCell e.2) e.2) (done : Array (Key × Value))
    (hw : w₀.Extends w) (hclean : w.Clean) :
    ∃ es, (copyEntries copyCell done entries w).1 = done.toList ++ es ∧
      entries.length = es.length ∧ w.Extends (copyEntries copyCell done entries w).2 ∧
      ∀ e e', (e, e') ∈ entries.zip es →
        e'.1 = e.1 ∧ w₀.Copies (copyEntries copyCell done entries w).2 e.2 e'.2 := by
  induction entries generalizing done w with
  | nil => exact ⟨[], (List.append_nil _).symm, rfl, World.Extends.refl w, nofun⟩
  | cons e rest ih =>
    obtain ⟨k, v⟩ := e
    obtain ⟨hv, hrest⟩ := List.forall_mem_cons.mp h
    obtain ⟨hext, hcopy⟩ := hv w hw hclean
    have hrun : copyEntries copyCell done ((k, v) :: rest) w =
        copyEntries copyCell (done.push (k, (copyWith copyCell v w).1)) rest (copyWith copyCell v w).2 := by
      rw [copyEntries]
      rfl
    rw [hrun]
    dsimp only at hext hcopy
    generalize copyWith copyCell v w = first at hext hcopy ⊢
    obtain ⟨v', w₁⟩ := first
    obtain ⟨es, hes, hlen, hext', heach⟩ := ih hrest (done.push (k, v')) (hw.trans hext) (hext.clean hclean)
    refine ⟨(k, v') :: es, ?_, ?_, hext.trans hext', fun e e' hmem => ?_⟩
    · rw [hes, Array.toList_push, List.append_assoc, List.singleton_append]
    · rw [List.length_cons, List.length_cons, hlen]
    · rcases List.mem_cons.mp hmem with he | hmem
      · cases he
        exact ⟨rfl, hcopy.mono (hw.trans hext) hext'⟩
      · exact heach e e' hmem

/-- A registered node was given out. -/
theorem hasCell_of_known {R : Registry} (hw : R.Ok w) {id : NodeId} {v : Value} (h : R.node id = some v) :
    w.HasCell (.node id) := (hw.nodes id).mpr (Option.isSome_of_eq_some h)

/-- A copy of a registered node is a new one with its layout and its kept text. -/
theorem renews_copyNode {R : Registry} (hw₀ : R.Ok w₀) {node : Node} {count : Nat} {v : Value}
    (hv : R.node node.id = some v) (hc : v.Fits = node.Fits count) (hw : w₀.Extends w) (hclean : w.Clean) :
    w.Extends (copyNode node count w).2 ∧
      w₀.Renews (copyNode node count w).2 (.node node.id) (.node (copyNode node count w).1.id) ∧
      (copyNode node count w).1.DrawsAs node count ∧
      (copyNode node count w).2.texts.get? (copyNode node count w).1.id =
        (copyNode node count w).2.texts.get? node.id := by
  obtain ⟨hext, hnext, hnode, htext⟩ := extends_copyNode hclean node count
  have hold : w₀.HasCell (.node node.id) := hasCell_of_known hw₀ hv
  have hgaps : w.gaps? node count = w₀.gaps? node count := by
    obtain ⟨_, _, _, rfl⟩ := hw.rest
    rfl
  have hid : (copyNode node count w).1.id = w.nextId := congrArg Node.id hnode
  refine ⟨hext, ⟨hold, ?_, ?_⟩, ?_, ?_⟩
  · rw [hid]
    exact Nat.not_lt.mpr hw.nextId
  · show (copyNode node count w).1.id < (copyNode node count w).2.nextId
    rw [hid, hnext]
    exact Nat.lt_succ_self _
  · rw [hnode, hgaps]
    exact drawsAs_gaps hw₀ hv hc _
  · rw [hid, htext]
    exact (hext.texts _ (hw.hasCell hold)).symm

/-- A copied sequence is a duplicate if its elements are copied to duplicates. -/
theorem copies_copyWith_seq {R : Registry} (hw₀ : R.Ok w₀) {shape : Shape} {node : Node} {items : List Value}
    (hknown : R.Known (.seq shape node items)) (h : ∀ u ∈ items, w₀.Duplicates (copyWith copyCell u) u) :
    w₀.Duplicates (copyWith copyCell (.seq shape node items)) (.seq shape node items) := by
  intro w hw hclean
  obtain ⟨us, hus, hlen, hext, heach⟩ := copies_copyItems h #[] hw hclean
  have hrun : copyWith copyCell (.seq shape node items) w =
      (.seq shape (copyNode node items.length (copyItems copyCell #[] items w).2).1 (copyItems copyCell #[] items w).1,
        (copyNode node items.length (copyItems copyCell #[] items w).2).2) := by
    rw [copyWith]
    rfl
  rw [hrun]
  generalize copyItems copyCell #[] items w = r at hus hext heach ⊢
  obtain ⟨us', w₁⟩ := r
  obtain rfl : us' = us := hus
  obtain ⟨hext', hrenews, hlayout, htext⟩ := renews_copyNode hw₀ hknown rfl (hw.trans hext) (hext.clean hclean)
  refine ⟨hext.trans hext', .seq hrenews hlayout htext hlen fun u u' hu => ?_⟩
  exact (heach u u' hu).mono (hw.trans hext) hext'

/-- A copied map is a duplicate if its values are copied to duplicates. -/
theorem copies_copyWith_map {R : Registry} (hw₀ : R.Ok w₀) {node : Node} {entries : Entries}
    (hknown : R.Known (.map node entries)) (h : ∀ e ∈ entries, w₀.Duplicates (copyWith copyCell e.2) e.2) :
    w₀.Duplicates (copyWith copyCell (.map node entries)) (.map node entries) := by
  intro w hw hclean
  obtain ⟨es, hes, hlen, hext, heach⟩ := copies_copyEntries h #[] hw hclean
  have hrun : copyWith copyCell (.map node entries) w =
      (.map (copyNode node (2 * entries.length) (copyEntries copyCell #[] entries w).2).1
          (copyEntries copyCell #[] entries w).1,
        (copyNode node (2 * entries.length) (copyEntries copyCell #[] entries w).2).2) := by
    rw [copyWith]
    rfl
  rw [hrun]
  generalize copyEntries copyCell #[] entries w = r at hes hext heach ⊢
  obtain ⟨es', w₁⟩ := r
  obtain rfl : es' = es := hes
  obtain ⟨hext', hrenews, hlayout, htext⟩ := renews_copyNode hw₀ hknown rfl (hw.trans hext) (hext.clean hclean)
  refine ⟨hext.trans hext', .map hrenews hlayout htext hlen (fun e e' he => (heach e e' he).1) fun e e' he => ?_⟩
  exact (heach e e' he).2.mono (hw.trans hext) hext'

/-- A copied atom is a duplicate if its content is copied to one. -/
theorem copies_copyAtom {depth : Nat} {id : AtomId} (hid : id < w₀.atoms.size)
    (h : w₀.Duplicates (copyWith (copyAtom depth) (w₀.content id)) (w₀.content id)) :
    w₀.Duplicates (copyAtom (depth + 1) id) (.atom id) := by
  intro w hw hclean
  obtain ⟨hext, hcopy⟩ := h w hw hclean
  have hrun : copyAtom (depth + 1) id w =
      newAtom (copyWith (copyAtom depth) (w₀.content id) w).1 (copyWith (copyAtom depth) (w₀.content id) w).2 := by
    rw [← hw.contents id hid, copyAtom]
    rfl
  rw [hrun]
  generalize copyWith (copyAtom depth) (w₀.content id) w = r at hext hcopy ⊢
  obtain ⟨content', w₁⟩ := r
  obtain ⟨hext', hnew⟩ := extends_newAtom w₁ content'
  refine ⟨hext.trans hext', .atom ⟨hid, ?_, ?_⟩ ?_⟩
  · exact Nat.not_lt.mpr (hw.trans hext).size
  · show w₁.atoms.size < (w₁.atoms.push content').size
    rw [Array.size_push]
    exact Nat.lt_succ_self _
  · rw [hnew, (hw.trans (hext.trans hext')).contents id hid]
    exact hcopy.mono (hw.trans hext) hext'

/-- **A copy is a duplicate**, if atoms are followed as deep as they are nested. -/
theorem copies_copyWith {R : Registry} (hw₀ : R.Ok w₀) {v : Value} {n depth : Nat} (h : w₀.Nested n v)
    (hdepth : n ≤ depth) (hknown : R.Known v) : w₀.Duplicates (copyWith (copyAtom depth) v) v := by
  induction h generalizing depth with
  | @parts n v no_atom _ ih =>
    have hparts := hw₀.partsKnown hknown
    cases v with
    | nil | bool | num | text | keyword | builtin | closure =>
      intro w _ _
      unfold copyWith
      exact ⟨World.Extends.refl w, .same rfl⟩
    | symbol id name =>
      intro w hw _
      unfold copyWith
      have hext := extends_newSymbol w name
      exact ⟨hext, .symbol ⟨hasCell_of_known hw₀ hknown, Nat.not_lt.mpr hw.nextId, Nat.lt_succ_self _⟩⟩
    | seq shape node items =>
      have hparts : R.AllKnown items := hparts
      exact copies_copyWith_seq hw₀ hknown fun u hu => ih u hu hdepth (hparts u hu)
    | map node entries =>
      refine copies_copyWith_map hw₀ hknown fun e he => ?_
      exact ih e.2 (List.mem_map_of_mem he) hdepth (hparts.2 e he).2
    | atom id => exact absurd rfl (no_atom id)
  | @atom n id exists_content _ ih =>
    obtain ⟨k, rfl⟩ := Nat.exists_eq_add_of_lt hdepth
    unfold copyWith
    exact copies_copyAtom exists_content (ih (Nat.le_add_right n k) (hw₀.known_content id))

/-- **A deep copy is a duplicate, and nothing else is changed.** -/
theorem copies_deepCopy {R : Registry} (hw : R.Ok w) {v : Value} (h : w.Nested w.atoms.size v)
    (hknown : R.Known v) : w.Extends (deepCopy v w).2 ∧ w.Copies (deepCopy v w).2 v (deepCopy v w).1 :=
  copies_copyWith hw h (Nat.le_refl _) hknown w (World.Extends.refl w) fun _ hid => (hw.blank hid).text

end

end EditableLisp
