import EditableLisp.Proofs.Mirroring
import EditableLisp.Proofs.Registry

/-!
# Renamings that agree

What a world holds has identities that the world has given out. So renamings that agree on these do the same with
all that the world holds (`Registry.Ok.rename_congr`), and a mirror image stays one when the renaming is changed
for the identities that are yet to come (`Mirrors.turn`). That is how worlds are compared whose identities are
given out in another order: the renaming is chosen anew at each place where the orders part.
-/

namespace EditableLisp

open Registry

/-- Two renamings do the same with the identities that a world has given out. -/
structure Renaming.Agree (ρ ρ' : Renaming) (w : World) : Prop where
  node : ∀ id < w.nextId, ρ.node id = ρ'.node id
  word : ∀ i < w.keywords.size, ρ.word i = ρ'.word i

variable {R : Registry} {w w' : World} {ρ ρ' : Renaming}

namespace Registry.Ok

theorem lt_nextId (hw : R.Ok w) {id : NodeId} {v : Value} (h : R.node id = some v) : id < w.nextId :=
  (hw.nodes id).mpr (Option.isSome_of_eq_some h)

theorem lt_keywords (hw : R.Ok w) {i : Nat} {name : String} (h : R.keyword i = some name) :
    i < w.keywords.size := by
  rw [← hw.keywords i] at h
  exact (Array.getElem?_eq_some_iff.mp h).1

theorem rename_key (hw : R.Ok w) (h : ρ.Agree ρ' w) {k : Key} (hk : R.KnownKey k) : rename ρ k = rename ρ' k := by
  cases k with
  | keyword k =>
    have hword := h.word k.id (hw.lt_keywords hk)
    show Key.keyword ⟨ρ.word k.id, k.name⟩ = .keyword ⟨ρ'.word k.id, k.name⟩
    rw [hword]
  | text => rfl

/-- **Renamings that agree on what was given out do the same with every value.** -/
theorem rename_congr (hw : R.Ok w) (h : ρ.Agree ρ' w) {v : Value} (hv : R.Known v) :
    rename ρ v = rename ρ' v := by
  induction v using Value.ofParts with
  | nil | bool | num | text | atom => rfl
  | keyword k => exact congrArg Key.toValue (hw.rename_key h (k := .keyword k) hv)
  | symbol id name => simp only [rename_symbol, h.node id (hw.lt_nextId hv)]
  | seq shape node items ih =>
    have hparts := hw.partsKnown hv
    have hitems : rename ρ items = rename ρ' items := List.map_congr_left fun v hm => ih v hm (hparts v hm)
    have hnode : rename ρ node = rename ρ' node := by
      show ({ node with id := ρ.node node.id } : Node) = { node with id := ρ'.node node.id }
      rw [h.node node.id (hw.lt_nextId hv)]
    rw [rename_seq, rename_seq, hnode, hitems]
  | map node entries ih =>
    have hparts := hw.partsKnown hv
    have hentries : rename ρ entries = rename ρ' entries := List.map_congr_left fun e hm =>
      congrArg₂ Prod.mk (hw.rename_key h (hparts.2 e hm).1) (ih e hm (hparts.2 e hm).2)
    have hnode : rename ρ node = rename ρ' node := by
      show ({ node with id := ρ.node node.id } : Node) = { node with id := ρ'.node node.id }
      rw [h.node node.id (hw.lt_nextId hv)]
    rw [rename_map, rename_map, hnode, hentries]
  | builtin id code data ih =>
    have hparts := hw.partsKnown hv
    rw [rename_builtin, rename_builtin, h.node id (hw.lt_nextId hv), ih hparts]
  | closure id kind params body env data hparams hbody hdata =>
    have hparts := hw.partsKnown hv
    rw [rename_closure, rename_closure, h.node id (hw.lt_nextId hv), hparams hparts.1, hbody hparts.2.1,
      hdata hparts.2.2.2.1]

/-- Renamings that agree do the same with the frames of a world. -/
theorem rename_frames (hw : R.Ok w) (h : ρ.Agree ρ' w) : rename ρ w.frames = rename ρ' w.frames := by
  refine Array.map_congr_left fun t ht => ?_
  obtain ⟨id, hid, rfl⟩ := Array.mem_iff_getElem.mp ht
  have hentry : w.tables id = w.frames[id] := by simp [World.tables, hid]
  obtain ⟨hvalues, hdefs⟩ := hentry ▸ hw.tables id
  have along : ∀ table : List (String × Value), (∀ e ∈ table, R.Known e.2) → rename ρ table = rename ρ' table :=
    fun table h' => List.map_congr_left fun e he => congrArg (Prod.mk e.1) (hw.rename_congr h (h' e he))
  exact congrArg₂ Tables.mk (along _ hvalues) (along _ hdefs)

theorem rename_atoms (hw : R.Ok w) (h : ρ.Agree ρ' w) : rename ρ w.atoms = rename ρ' w.atoms :=
  Array.map_congr_left fun v hv => hw.rename_congr h (hw.atoms v hv)

theorem rename_lookups (hw : R.Ok w) (h : ρ.Agree ρ' w) {reads : List Lookup} (hr : R.LookupsKnown reads) :
    rename ρ reads = rename ρ' reads := List.map_congr_left fun l hl =>
  congrArg (Lookup.mk l.env l.name) (hw.rename_congr h (hr l hl))

theorem rename_expansion (hw : R.Ok w) (h : ρ.Agree ρ' w) (id : NodeId) :
    rename ρ (w.expansions.get? id) = rename ρ' (w.expansions.get? id) := by
  cases e : w.expansions.get? id with
  | none => rfl
  | some expansion =>
    have hserves := hw.expansions id expansion e
    refine congrArg some ?_
    cases expansion with
    | constant maker form reads =>
      obtain ⟨hmaker, hform, hreads⟩ := hserves
      show Expansion.constant (rename ρ maker) (rename ρ form) (rename ρ reads) = .constant _ _ _
      rw [hw.rename_congr h hmaker, hw.rename_congr h hform, hw.rename_lookups h hreads]
    | bound maker template env =>
      obtain ⟨hmaker, _, _, _, _, _, _, _, _, rfl, -⟩ := hserves
      have hparts := hw.partsKnown hmaker
      show Expansion.bound (rename ρ _) (rename ρ template) env = .bound _ _ env
      rw [hw.rename_congr h hmaker, hw.rename_congr h hparts.2.1]
    | unchanged => rfl

/-- Nothing is kept under an identity that was not given out. -/
theorem untouched (hw : R.Ok w) {id : NodeId} (h : ¬ id < w.nextId) : w.Untouched id := by
  have hnone : R.node id = none := by
    rw [hw.nodes] at h
    exact Option.not_isSome_iff_eq_none.mp h
  refine ⟨?_, ?_, ?_⟩
  · by_contra hspaced
    obtain ⟨v, hv, -⟩ := hw.spaced id (Option.isSome_iff_ne_none.mpr hspaced)
    simp [hnone] at hv
  · by_contra htext
    obtain ⟨text, htext⟩ := Option.ne_none_iff_exists'.mp htext
    obtain ⟨v, hv, -⟩ := hw.texts id text htext
    simp [hnone] at hv
  · by_contra hexpansion
    have hsome := hw.derived id (.inr (.inr (Option.isSome_iff_ne_none.mpr hexpansion)))
    simp [hnone] at hsome

end Registry.Ok

/-! ## Mirrors -/

variable {m : Mirror}

/-- Nothing is kept in a mirror image under an identity that is not the image of one that was given out. -/
theorem Mirrors.untouched (h : Mirrors m w w') (hw : R.Ok w) {id : NodeId}
    (hid : ∀ i < w.nextId, m.ρ.node i ≠ id) : w'.Untouched id := by
  by_cases himage : ∃ i, m.ρ.node i = id
  · obtain ⟨i, rfl⟩ := himage
    obtain ⟨hspaced, htexts, hexpansions⟩ := hw.untouched fun hi => hid i hi rfl
    refine ⟨(h.spaced i).trans hspaced, (h.texts i).trans htexts, ?_⟩
    rw [h.expansions i, hexpansions]
    rfl
  · exact h.others id (not_exists.mp himage)

/-- **A mirror image stays one when the identities and keywords to come are chosen anew.** -/
theorem Mirrors.turn (h : Mirrors m w w') (hw : R.Ok w) (m' : Mirror) (hbase : m'.base = m.base)
    (hagree : m.ρ.Agree m'.ρ w) {next next' : NodeId} {keywords keywords' : Array String} (hnext : ∀ k, m'.ρ.node (next + k) = next' + k)
    (hkeywords : keywords' = m'.target keywords) :
    Mirrors m' ((w.withKeywords keywords).withNextId next) ((w'.withKeywords keywords').withNextId next') := by
  have hfar : ∀ id, ¬ id < w.nextId → w.Untouched id ∧ w'.Untouched (m'.ρ.node id) := by
    refine fun id hid => ⟨hw.untouched hid, h.untouched hw fun i hi he => ?_⟩
    rw [hagree.node i hi, m'.ρ.node_inj] at he
    exact hid (he ▸ hi)
  refine ⟨hnext, ?_, ?_, hkeywords, fun id => ?_, fun id => ?_, fun id => ?_, fun id hid => ?_, ?_, h.output,
    h.files⟩
  · exact h.frames.trans (hw.rename_frames hagree)
  · exact h.atoms.trans (hw.rename_atoms hagree)
  · by_cases hid : id < w.nextId
    · exact hagree.node id hid ▸ h.spaced id
    · exact (hfar id hid).2.1.trans (hfar id hid).1.1.symm
  · by_cases hid : id < w.nextId
    · exact hagree.node id hid ▸ h.texts id
    · exact (hfar id hid).2.2.1.trans (hfar id hid).1.2.1.symm
  · by_cases hid : id < w.nextId
    · have hkept := h.expansions id
      rw [hagree.node id hid] at hkept
      exact hkept.trans (hw.rename_expansion hagree id)
    · have hnone := (hfar id hid).1.2.2
      show w'.expansions.get? _ = rename _ (w.expansions.get? id)
      rw [(hfar id hid).2.2.2, hnone]
      rfl
  · exact h.untouched hw fun i hi => hagree.node i hi ▸ hid i
  · obtain ⟨inner, outer, outer', hinner, hinner', hlength, hlength'⟩ := h.recordings
    have hreads : rename m.ρ inner = rename m'.ρ inner := List.map_congr_left fun reads hr =>
      hw.rename_lookups hagree (hw.recordings reads (hinner ▸ List.mem_append_left _ hr))
    rw [hreads] at hinner'
    exact ⟨inner, outer, outer', hinner, hinner', hbase ▸ hlength, hbase ▸ hlength'⟩

end EditableLisp
