import EditableLisp.Proofs.Mirroring

/-!
# Texts in worlds that mirror each other

A text shows no identity. So values are printed alike before and after they get new ones, and what is read
from a text is the same but for the identities that it gets (`sim_print`, `sim_readForm`); a copy is a copy
there too (`sim_deepCopies`).
-/

namespace EditableLisp

variable {m : Mirror} {w w' : World}

/-! ## Printing -/

theorem sim_keptText (readably : Bool) (id : NodeId) :
    Sim m (liftM (keptText readably id)) (liftM (keptText readably (m.ρ.node id))) := by
  refine .change (quiet_keptText readably id).grows fun w w' hw _ => ?_
  unfold keptText
  cases readably with
  | true => exact ⟨by rw [rename_plain]; exact hw.texts id, hw⟩
  | false => exact ⟨rfl, hw⟩

theorem sim_keepText (readably : Bool) (id : NodeId) (r : Rendered) :
    Sim m (liftM (keepText readably id r)) (liftM (keepText readably (m.ρ.node id) r)) := by
  unfold keepText
  split
  · rw [lift_bind, lift_bind]
    exact (sim_setText id r.text).bind fun _ => .pure rfl
  · exact .pure rfl

theorem Mirrors.gaps? (hw : Mirrors m w w') (node : Node) (count : Nat) :
    w'.gaps? (rename m.ρ node) count = w.gaps? node count := by
  unfold World.gaps? Table.has
  show (if (w'.spaced.get? (m.ρ.node node.id)).isSome then _ else _) = _
  rw [hw.spaced]
  rfl

theorem sim_layout (node : Node) (count : Nat) :
    Sim m (liftM (layout node count)) (liftM (layout (rename m.ρ node) count)) := by
  have hdefault : Sim m (liftM (setSpaced node.id) >>= fun _ => Pure.pure (defaultGaps node.style count))
      (liftM (setSpaced (m.ρ.node node.id)) >>= fun _ => Pure.pure (defaultGaps node.style count)) :=
    (sim_setSpaced node.id).bind fun _ => .pure (rename_plain _ _).symm
  have hgrows := (quiet_layout node count).grows
  unfold layout at hgrows ⊢
  rw [lift_bind] at hgrows ⊢
  rw [lift_bind]
  refine .lift_get hgrows fun w w' hw => ?_
  rw [hw.gaps?]
  cases w.gaps? node count with
  | none => exact hdefault
  | some gaps =>
    by_cases hlength : gaps.length = count + 1
    · simp only [hlength, if_true]
      exact .pure (rename_plain _ _).symm
    · simp only [hlength, if_false]
      exact hdefault

section render

variable {atomText atomText' : Bool → AtomId → Change String}

theorem sim_renderItems {items : List Value}
    (h : ∀ v ∈ items, ∀ readably spelling, Sim m (liftM (render atomText readably spelling v))
      (liftM (render atomText' readably spelling (rename m.ρ v))))
    (readably : Bool) (gaps : List String) (spellings : List (Option String)) (done : Rendered) :
    Sim m (liftM (renderItems atomText readably gaps spellings done items))
      (liftM (renderItems atomText' readably gaps spellings done (rename m.ρ items))) := by
  induction items generalizing gaps spellings done with
  | nil => exact .pure rfl
  | cons v rest ih =>
    obtain ⟨hv, hrest⟩ := List.forall_mem_cons.mp h
    rw [rename_cons]
    unfold renderItems
    rw [lift_bind, lift_bind]
    exact (hv _ _).bind fun r => ih hrest _ _ _

theorem sim_renderEntries {entries : Entries}
    (h : ∀ e ∈ entries, ∀ readably spelling, Sim m (liftM (render atomText readably spelling e.2))
      (liftM (render atomText' readably spelling (rename m.ρ e.2))))
    (readably : Bool) (gaps : List String) (spellings : List (Option String)) (done : Rendered) :
    Sim m (liftM (renderEntries atomText readably gaps spellings done entries))
      (liftM (renderEntries atomText' readably gaps spellings done (rename m.ρ entries))) := by
  induction entries generalizing gaps spellings done with
  | nil => exact .pure rfl
  | cons e rest ih =>
    obtain ⟨he, hrest⟩ := List.forall_mem_cons.mp h
    obtain ⟨k, v⟩ := e
    have hkey : ∀ readably spelling, (rename m.ρ k).print readably spelling = k.print readably spelling := by
      cases k <;> exact fun _ _ => rfl
    rw [rename_cons, rename_pair]
    unfold renderEntries
    rw [lift_bind, lift_bind]
    refine (he _ _).bind fun r => ?_
    rw [hkey]
    exact ih hrest _ _ _

theorem sim_render
    (ha : ∀ readably id, Sim m (liftM (atomText readably id)) (liftM (atomText' readably id))) (v : Value)
    (readably : Bool) (spelling : Option String) : Sim m (liftM (render atomText readably spelling v))
      (liftM (render atomText' readably spelling (rename m.ρ v))) := by
  induction v using Value.ofParts generalizing readably spelling with
  | seq shape node items ih =>
    rw [rename_seq]
    unfold render
    rw [lift_bind, lift_bind]
    refine (sim_keptText readably node.id).bind fun kept => ?_
    rw [rename_plain m.ρ kept]
    cases kept with
    | some text => exact .pure rfl
    | none =>
      dsimp only
      rw [lift_bind, lift_bind, length_rename]
      refine (sim_layout node items.length).bind fun gaps => ?_
      rw [rename_plain m.ρ gaps]
      have hall : Sim m
          (liftM (renderItems atomText readably gaps.tail (node.spellings.getD [])
            ⟨(brackets node.style shape).1 ++ gaps.headD "", true⟩ items >>= fun r =>
              keepText readably node.id ⟨r.text ++ (brackets node.style shape).2, r.stable⟩))
          (liftM (renderItems atomText' readably gaps.tail (node.spellings.getD [])
            ⟨(brackets node.style shape).1 ++ gaps.headD "", true⟩ (rename m.ρ items) >>= fun r =>
              keepText readably (m.ρ.node node.id) ⟨r.text ++ (brackets node.style shape).2, r.stable⟩)) := by
        rw [lift_bind, lift_bind]
        exact (sim_renderItems ih readably _ _ _).bind fun r => sim_keepText readably node.id _
      have hstyle : (rename m.ρ node).style = node.style := rfl
      rw [hstyle]
      cases node.style.mark? with
      | none => exact hall
      | some mark =>
        obtain _ | ⟨_, _ | ⟨form, _ | ⟨_, _⟩⟩⟩ := items
        · exact hall
        · exact hall
        · have hform := ih form (List.mem_cons_of_mem _ List.mem_cons_self)
          show Sim m (liftM (render atomText readably _ form >>= _))
            (liftM (render atomText' readably _ (rename m.ρ form) >>= _))
          rw [lift_bind, lift_bind]
          exact (hform readably _).bind fun r => sim_keepText readably node.id _
        · exact hall
  | map node entries ih =>
    rw [rename_map]
    unfold render
    rw [lift_bind, lift_bind]
    refine (sim_keptText readably node.id).bind fun kept => ?_
    rw [rename_plain m.ρ kept]
    cases kept with
    | some text => exact .pure rfl
    | none =>
      dsimp only
      rw [lift_bind, lift_bind, length_rename]
      refine (sim_layout node _).bind fun gaps => ?_
      rw [rename_plain m.ρ gaps, lift_bind, lift_bind]
      exact (sim_renderEntries ih readably _ _ _).bind fun r => sim_keepText readably node.id _
  | closure id kind params body env data hparams hbody _ =>
    rw [rename_closure]
    unfold render
    rw [lift_bind, lift_bind]
    refine (hparams true none).bind fun p => ?_
    rw [lift_bind, lift_bind]
    exact (hbody true none).bind fun b => .pure rfl
  | atom id =>
    rw [rename_atom]
    unfold render
    rw [lift_bind, lift_bind]
    exact (ha readably id).bind fun text => .pure rfl
  | _ => exact .pure rfl

end render

theorem sim_renderContent (depth : Nat) (readably : Bool) (id : AtomId) :
    Sim m (liftM (renderContent depth readably id)) (liftM (renderContent depth readably id)) := by
  induction depth generalizing readably id with
  | zero => exact .pure rfl
  | succ depth ih =>
    have hgrows := (quiet_renderContent (depth + 1) readably id).grows
    unfold renderContent at hgrows ⊢
    rw [lift_bind] at hgrows ⊢
    refine .lift_get hgrows fun w w' hw => ?_
    rw [hw.content, lift_bind, lift_bind]
    exact (sim_render ih _ readably none).bind fun r => .pure rfl

theorem sim_printWith (readably : Bool) (v : Value) :
    Sim m (liftM (printWith readably v)) (liftM (printWith readably (rename m.ρ v))) := by
  have hgrows := (quiet_printWith readably v).grows
  unfold printWith at hgrows ⊢
  rw [lift_bind] at hgrows ⊢
  rw [lift_bind]
  refine .lift_get hgrows fun w w' hw => ?_
  rw [hw.atoms_size, lift_bind, lift_bind]
  exact (sim_render (sim_renderContent _) v readably none).bind fun r => .pure rfl

theorem sim_print (v : Value) : Sim m (liftM (print v)) (liftM (print (rename m.ρ v))) := sim_printWith true v

theorem sim_printPlain (v : Value) : Sim m (liftM (printPlain v)) (liftM (printPlain (rename m.ρ v))) :=
  sim_printWith false v

/-- A failure that shows a value shows the same text. -/
theorem sim_failShowing {α : Type} [Renamed α] (f : String → Fault) (v : Value) :
    Sim m (liftM (print v) >>= fun shown => (fail (f shown) : Act α))
      (liftM (print (rename m.ρ v)) >>= fun shown => fail (f shown)) :=
  (sim_print v).failWith fun _ => rfl

theorem sim_mapM {α β : Type} [Renamed α] [Renamed β] {act act' : α → Change β}
    (h : ∀ a, Sim m (liftM (act a)) (liftM (act' (rename m.ρ a)))) (as : List α) :
    Sim m (liftM (as.mapM act)) (liftM ((rename m.ρ as).mapM act')) := by
  induction as with
  | nil => exact .pure rfl
  | cons a rest ih =>
    rw [rename_cons, List.mapM_cons, List.mapM_cons, lift_bind, lift_bind]
    refine (h a).bind fun b => ?_
    rw [lift_bind, lift_bind]
    exact ih.bind fun bs => .pure rfl

theorem sim_printEach (vs : List Value) :
    Sim m (liftM (printEach vs)) (liftM (printEach (rename m.ρ vs))) := sim_mapM sim_print vs

theorem sim_printEachPlain (vs : List Value) :
    Sim m (liftM (printEachPlain vs)) (liftM (printEachPlain (rename m.ρ vs))) := sim_mapM sim_printPlain vs

/-! ## Reading -/

namespace Form

theorem sim_toKey (key : FormKey) : Sim m (liftM key.toKey) (liftM key.toKey) := by
  cases key with
  | keyword name =>
    unfold FormKey.toKey
    rw [lift_bind]
    exact (sim_intern name).bind fun _ => .pure rfl
  | text content spelling => exact .pure rfl

mutual

theorem sim_toValue (form : Form) : Sim m (liftM form.toValue) (liftM form.toValue) := by
  match form with
  | nil | bool _ | num _ _ | text _ _ =>
    unfold toValue
    exact .pure rfl
  | symbol name =>
    unfold toValue
    exact sim_newSymbol name
  | keyword name =>
    unfold toValue
    rw [lift_bind]
    exact (sim_intern name).bind fun _ => .pure rfl
  | marked style gap form =>
    unfold toValue
    rw [lift_bind]
    refine (sim_newSymbol style.name).bind fun head => ?_
    rw [lift_bind, lift_bind]
    refine (sim_toValue form).bind fun v => ?_
    rw [lift_bind, lift_bind]
    exact Sim.fresh fun id => .pure (by rw [rename_seq]; rfl)
  | seq shape gaps items =>
    have hparts := sim_toValues #[] items
    rw [rename_empty] at hparts
    unfold toValue
    rw [lift_bind]
    refine hparts.bind fun vs => ?_
    rw [lift_bind, lift_bind]
    exact Sim.fresh fun id => .pure (by rw [rename_seq]; rfl)
  | map gaps entries =>
    have hparts := sim_toEntries #[] entries
    rw [rename_empty] at hparts
    unfold toValue
    rw [lift_bind]
    refine hparts.bind fun es => ?_
    rw [lift_bind, lift_bind]
    exact Sim.fresh fun id => .pure (by rw [rename_map]; rfl)

theorem sim_toValues (done : Array Value) (forms : List Form) :
    Sim m (liftM (toValues done forms)) (liftM (toValues (rename m.ρ done) forms)) := by
  match forms with
  | [] =>
    unfold toValues
    exact .pure (toList_rename m.ρ done)
  | form :: rest =>
    unfold toValues
    rw [lift_bind, lift_bind]
    refine (sim_toValue form).bind fun v => ?_
    rw [← rename_push]
    exact sim_toValues _ rest

theorem sim_toEntries (done : Array (Key × Value)) (entries : List (FormKey × Form)) :
    Sim m (liftM (toEntries done entries)) (liftM (toEntries (rename m.ρ done) entries)) := by
  match entries with
  | [] =>
    unfold toEntries
    exact .pure (toList_rename m.ρ done)
  | (key, form) :: rest =>
    unfold toEntries
    rw [lift_bind, lift_bind]
    refine (sim_toKey key).bind fun k => ?_
    rw [lift_bind, lift_bind]
    refine (sim_toValue form).bind fun v => ?_
    rw [← rename_pair, ← rename_push]
    exact sim_toEntries _ rest

end

end Form

theorem sim_readForm (src : String) : Sim m (liftM (readForm src)) (liftM (readForm src)) := by
  unfold readForm
  dsimp only
  rw [lift_bind]
  refine (sim_internAll _).bind fun _ => ?_
  split
  · exact .pure rfl
  · split
    · rw [lift_bind]
      exact (Form.sim_toValue _).bind fun v => .pure rfl
    · exact .pure rfl
    · exact .pure rfl

/-! ## Copies -/

theorem sim_copyNode (node : Node) (count : Nat) :
    Sim m (liftM (copyNode node count)) (liftM (copyNode (rename m.ρ node) count)) := by
  refine .change (quiet_copyNode node count).grows fun w w' hw _ => ?_
  have htext : w'.texts.get? (rename m.ρ node).id = w.texts.get? node.id := hw.texts node.id
  have hcopy : (⟨w'.nextId, node.style, w'.gaps? (rename m.ρ node) count, node.spellings⟩ : Node) =
      rename m.ρ (⟨w.nextId, node.style, w.gaps? node count, node.spellings⟩ : Node) := by
    rw [hw.gaps?, hw.node_nextId]
    rfl
  unfold copyNode
  rw [Change.modifyGet_apply, Change.modifyGet_apply]
  dsimp only
  rw [htext]
  cases w.texts.get? node.id with
  | none => exact ⟨hcopy, hw.fresh⟩
  | some text =>
    refine ⟨hcopy, ?_⟩
    have hset := hw.fresh.set_texts w.nextId text
    rw [← hw.node_nextId] at hset
    exact hset

section copies

variable {copyAtom copyAtom' : AtomId → Change Value}

theorem sim_copyItems {items : List Value}
    (h : ∀ v ∈ items, Sim m (liftM (copyWith copyAtom v)) (liftM (copyWith copyAtom' (rename m.ρ v))))
    (done : Array Value) : Sim m (liftM (copyItems copyAtom done items))
      (liftM (copyItems copyAtom' (rename m.ρ done) (rename m.ρ items))) := by
  induction items generalizing done with
  | nil => exact .pure (toList_rename m.ρ done)
  | cons v rest ih =>
    obtain ⟨hv, hrest⟩ := List.forall_mem_cons.mp h
    rw [rename_cons]
    unfold copyItems
    rw [lift_bind, lift_bind]
    refine hv.bind fun v' => ?_
    rw [← rename_push]
    exact ih hrest _

theorem sim_copyEntries {entries : Entries}
    (h : ∀ e ∈ entries, Sim m (liftM (copyWith copyAtom e.2)) (liftM (copyWith copyAtom' (rename m.ρ e.2))))
    (done : Array (Key × Value)) : Sim m (liftM (copyEntries copyAtom done entries))
      (liftM (copyEntries copyAtom' (rename m.ρ done) (rename m.ρ entries))) := by
  induction entries generalizing done with
  | nil => exact .pure (toList_rename m.ρ done)
  | cons e rest ih =>
    obtain ⟨he, hrest⟩ := List.forall_mem_cons.mp h
    obtain ⟨k, v⟩ := e
    rw [rename_cons, rename_pair]
    unfold copyEntries
    rw [lift_bind, lift_bind]
    refine Sim.bind he fun v' => ?_
    rw [← rename_pair, ← rename_push]
    exact ih hrest _

theorem sim_copyWith (ha : ∀ id, Sim m (liftM (copyAtom id)) (liftM (copyAtom' id))) (v : Value) :
    Sim m (liftM (copyWith copyAtom v)) (liftM (copyWith copyAtom' (rename m.ρ v))) := by
  induction v using Value.ofParts with
  | symbol id name => exact sim_newSymbol name
  | seq shape node items ih =>
    have hitems := sim_copyItems ih #[]
    rw [rename_empty] at hitems
    rw [rename_seq]
    unfold copyWith
    rw [lift_bind, lift_bind]
    refine hitems.bind fun vs => ?_
    rw [lift_bind, lift_bind, length_rename]
    exact (sim_copyNode node items.length).bind fun _ => .pure (rename_seq ..).symm
  | map node entries ih =>
    have hentries := sim_copyEntries ih #[]
    rw [rename_empty] at hentries
    rw [rename_map]
    unfold copyWith
    rw [lift_bind, lift_bind]
    refine hentries.bind fun es => ?_
    rw [lift_bind, lift_bind, length_rename]
    exact (sim_copyNode node _).bind fun _ => .pure (rename_map ..).symm
  | atom id => exact ha id
  | _ => exact .pure rfl

end copies

theorem sim_copyAtom (depth : Nat) (id : AtomId) :
    Sim m (liftM (copyAtom depth id)) (liftM (copyAtom depth id)) := by
  induction depth generalizing id with
  | zero => exact .pure rfl
  | succ depth ih =>
    have hgrows := (quiet_copyAtom (depth + 1) id).grows
    unfold copyAtom at hgrows ⊢
    rw [lift_bind] at hgrows ⊢
    refine .lift_get hgrows fun w w' hw => ?_
    rw [hw.content, lift_bind, lift_bind]
    exact (sim_copyWith ih _).bind fun v => sim_newAtom v

theorem sim_deepCopy (v : Value) : Sim m (liftM (deepCopy v)) (liftM (deepCopy (rename m.ρ v))) := by
  have hgrows := (quiet_deepCopy v).grows
  unfold deepCopy at hgrows ⊢
  rw [lift_bind] at hgrows ⊢
  rw [lift_bind]
  refine .lift_get hgrows fun w w' hw => ?_
  rw [hw.atoms_size]
  exact sim_copyWith (sim_copyAtom _) v

theorem sim_deepCopies (v : Value) (done : Array Value) (n : Nat) :
    Sim m (liftM (deepCopies v done n)) (liftM (deepCopies (rename m.ρ v) (rename m.ρ done) n)) := by
  induction n generalizing done with
  | zero => exact .pure (toList_rename m.ρ done)
  | succ n ih =>
    unfold deepCopies
    rw [lift_bind, lift_bind]
    refine (sim_deepCopy v).bind fun v' => ?_
    rw [← rename_push]
    exact ih _

/-! ## JSON -/

namespace Json

theorem sim_toKey (s : String) : Sim m (liftM (toKey s)) (liftM (toKey s)) := by
  unfold toKey
  split
  · rw [lift_bind]
    exact (sim_intern _).bind fun _ => .pure rfl
  · exact .pure rfl

mutual

theorem sim_toValue (t : Tree) : Sim m (liftM t.toValue) (liftM t.toValue) := by
  match t with
  | .null | .bool _ | .int _ | .num _ =>
    unfold Tree.toValue
    exact .pure rfl
  | .str s =>
    unfold Tree.toValue
    rw [lift_bind]
    exact (sim_toKey s).bind fun k => .pure (Key.toValue_rename m.ρ k)
  | .arr items =>
    have hparts := sim_toValues #[] items
    rw [rename_empty] at hparts
    unfold Tree.toValue
    rw [lift_bind]
    exact hparts.bind fun vs => sim_newVector vs
  | .obj members =>
    have hparts := sim_toPairs #[] members
    rw [rename_empty] at hparts
    unfold Tree.toValue
    rw [lift_bind]
    refine hparts.bind fun pairs => ?_
    rw [← Entries.rename_ofPairs]
    exact sim_newMap _

theorem sim_toValues (done : Array Value) (trees : List Tree) :
    Sim m (liftM (Tree.toValues done trees)) (liftM (Tree.toValues (rename m.ρ done) trees)) := by
  match trees with
  | [] =>
    unfold Tree.toValues
    exact .pure (toList_rename m.ρ done)
  | t :: rest =>
    unfold Tree.toValues
    rw [lift_bind, lift_bind]
    refine (sim_toValue t).bind fun v => ?_
    rw [← rename_push]
    exact sim_toValues _ rest

theorem sim_toPairs (done : Array (Key × Value)) (members : List (String × Tree)) :
    Sim m (liftM (Tree.toPairs done members)) (liftM (Tree.toPairs (rename m.ρ done) members)) := by
  match members with
  | [] =>
    unfold Tree.toPairs
    exact .pure (toList_rename m.ρ done)
  | (name, t) :: rest =>
    unfold Tree.toPairs
    rw [lift_bind, lift_bind]
    refine (sim_toValue t).bind fun v => ?_
    rw [lift_bind, lift_bind]
    refine (sim_toKey name).bind fun k => ?_
    rw [← rename_pair, ← rename_push]
    exact sim_toPairs _ rest

end

section tree

variable {atomTree atomTree' : AtomId → Option Tree} (ρ : Renaming)

theorem trees_rename {items : List Value}
    (h : ∀ v ∈ items, tree atomTree' (rename ρ v) = tree atomTree v) :
    trees atomTree' (rename ρ items) = trees atomTree items := by
  induction items with
  | nil => rfl
  | cons v rest ih =>
    obtain ⟨hv, hrest⟩ := List.forall_mem_cons.mp h
    rw [rename_cons]
    unfold trees
    rw [hv, ih hrest]

theorem members_rename {entries : Entries}
    (h : ∀ e ∈ entries, tree atomTree' (rename ρ e.2) = tree atomTree e.2) :
    members atomTree' (rename ρ entries) = members atomTree entries := by
  induction entries with
  | nil => rfl
  | cons e rest ih =>
    obtain ⟨he, hrest⟩ := List.forall_mem_cons.mp h
    obtain ⟨k, v⟩ := e
    have hkey : keyText (rename ρ k) = keyText k := by
      cases k <;> rfl
    rw [rename_cons, rename_pair]
    unfold members
    rw [he, hkey, ih hrest]

/-- The tree of a value shows no identity. -/
theorem tree_rename (ha : ∀ id, atomTree' id = atomTree id) (v : Value) :
    tree atomTree' (rename ρ v) = tree atomTree v := by
  induction v using Value.ofParts with
  | seq shape node items ih =>
    rw [rename_seq]
    unfold tree
    rw [trees_rename ρ ih]
  | map node entries ih =>
    rw [rename_map]
    unfold tree
    rw [members_rename ρ ih]
  | atom id => exact ha id
  | _ => rfl

end tree

theorem contentTree_mirrored (hw : Mirrors m w w') (depth : Nat) (id : AtomId) :
    contentTree w' depth id = contentTree w depth id := by
  induction depth generalizing id with
  | zero => rfl
  | succ depth ih =>
    unfold contentTree
    rw [hw.content]
    exact tree_rename m.ρ ih _

end Json

variable [Json.Library]

theorem Mirrors.json? (hw : Mirrors m w w') (v : Value) : w'.json? (rename m.ρ v) = w.json? v := by
  unfold World.json? World.tree?
  rw [hw.atoms_size, Json.tree_rename m.ρ (Json.contentTree_mirrored hw _) v]

theorem sim_decodeJson (text : String) : Sim m (decodeJson text) (decodeJson text) := by
  refine (sim_internAll _).bind fun _ => ?_
  split
  · exact Json.sim_toValue _
  · exact .fail _

theorem sim_encodeJson (v : Value) : Sim m (encodeJson v) (encodeJson (rename m.ρ v)) := by
  refine .get (quiet_encodeJson v).grows fun w w' hw => ?_
  rw [hw.json?]
  cases w.json? v with
  | some text => exact .pure rfl
  | none => exact .fail _

end EditableLisp
