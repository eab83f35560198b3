import EditableLisp.Proofs.Session

/-!
# Maps are finite maps

A map is a list of entries, and `get`, `assoc`, `dissoc` and `merge` search, overwrite and filter that list. What
makes of the list a finite map from names to values is that no two entries have the same name, a keyword and a
string of one text being one name. `Session.Reachable.finite_maps` says that this is so of every map that is
found anywhere, however it was made, and what the four functions then come to:

* a key is looked up by its name. The search for the very keyword, which comes first, is a shortcut;
* `assoc` leaves under each name the last pair given for it, key and value, and adds new names at the end;
* `dissoc` takes out the names given and leaves the others in order;
* `merge` is `assoc` of all entries onto the empty map.
-/

namespace EditableLisp

/-- The entries of a map; other values have none. -/
def Value.entries : Value → Entries
  | .map _ entries => entries
  | _ => []

/-- A value that `merge` takes: a map or `nil`. -/
def Value.IsMergeable : Value → Prop
  | .nil => True
  | .map .. => True
  | _ => False

namespace Entries

/-! ## Looking up -/

/-- An entry whose key is this very keyword is the one that is found by name. -/
theorem get?_eq_byName? {R : Registry} {entries : Entries} {key : Value} (hn : (names entries).Nodup)
    (he : R.EntriesKnown entries) (hk : R.Known key) :
    get? entries key = key.key?.bind fun k => byName? entries k.name := by
  cases key with
  | keyword k =>
    have hbind : ((Value.keyword k).key?.bind fun k => byName? entries k.name) = byName? entries k.name := rfl
    rw [hbind]
    unfold get?
    dsimp only
    cases hfind : entries.find? (hasKeyword k) with
    | none => rfl
    | some e =>
      have hmem : e ∈ entries := List.mem_of_find?_eq_some hfind
      have hsame : hasKeyword k e = true := List.find?_some hfind
      have hname : e.1.name = k.name := by
        obtain ⟨key, v⟩ := e
        cases key with
        | text s => cases hsame
        | keyword k' =>
          -- A registry has one name for each identity.
          have hid : k'.id = k.id := eq_of_beq hsame
          have hknown : R.keyword k'.id = some k'.name := (he _ hmem).1
          rw [hid] at hknown
          exact Option.some.inj (hknown.symm.trans hk)
      unfold byName?
      rw [← hname, find?_name hn hmem]
      rfl
  | _ => rfl

/-! ## Arguments -/

theorem length_values (entries : Entries) : (values entries).length = 2 * entries.length := by
  induction entries with
  | nil => rfl
  | cons e rest ih =>
    have hcons : (values (e :: rest)).length = (values rest).length + 2 := rfl
    rw [hcons, ih, List.length_cons, Nat.mul_succ]

theorem key_toValue (key : Key) (w : World) : Argument.key key.toValue w = .ok key w := by
  cases key <;> rfl

/-- The entries made of the keys and values of some pairs are the pairs. -/
theorem pairs_values (pairs : Entries) (done : Array (Key × Value)) (w : World) :
    Argument.pairs done (values pairs) w = .ok (done.toList ++ pairs) w := by
  induction pairs generalizing done with
  | nil =>
    rw [List.append_nil]
    rfl
  | cons p rest ih =>
    have hpush : (done.push (p.1, p.2)).toList ++ rest = done.toList ++ p :: rest := by
      rw [Array.toList_push, List.append_assoc, List.singleton_append]
    calc Argument.pairs done (values (p :: rest)) w
        = (Argument.key p.1.toValue >>= fun k =>
            Argument.pairs (done.push (k, p.2)) (values rest)) w := rfl
      _ = Argument.pairs (done.push (p.1, p.2)) (values rest) w := bind_of_eq_ok (key_toValue p.1 w)
      _ = .ok (done.toList ++ p :: rest) w := by rw [ih, hpush]

/-- What is gathered from maps are their entries, one map after the other. -/
theorem gather_eq (maps : List Value) (hm : ∀ m ∈ maps, m.IsMergeable) (done : Array (Key × Value)) (w : World) :
    Mapping.gather done maps w = .ok (done.toList ++ maps.flatMap Value.entries) w := by
  induction maps generalizing done with
  | nil =>
    rw [List.flatMap_nil, List.append_nil]
    rfl
  | cons m rest ih =>
    have hrest := fun m' hm' => hm m' (List.mem_cons_of_mem m hm')
    have hmerge := hm m List.mem_cons_self
    cases m with
    | nil => exact ih hrest done
    | map node entries =>
      rw [List.flatMap_cons, ← List.append_assoc]
      have hnext := ih hrest (done ++ entries)
      rw [Array.toList_appendList] at hnext
      exact hnext
    | _ => cases hmerge

end Entries

/-! ## Running the functions on maps -/

section Running

variable (node : Node) (entries pairs : Entries) (w : World)

/-- `assoc` makes a new map of the entries with the pairs put into them. -/
theorem run_assoc : Builtin.run .assoc (.map node entries :: Entries.values pairs) w =
    .ok (.value (newMap (Entries.putAll entries pairs) w).1) (newMap (Entries.putAll entries pairs) w).2 := by
  have heven : ¬ (Entries.values pairs).length % 2 = 1 := by
    rw [Entries.length_values]
    omega
  have hassoc : Mapping.assoc (.map node entries :: Entries.values pairs) w =
      .ok (newMap (Entries.putAll entries pairs) w).1 (newMap (Entries.putAll entries pairs) w).2 := by
    have hpairs : Mapping.assoc (.map node entries :: Entries.values pairs) =
        Argument.pairs #[] (Entries.values pairs) >>= fun ps => liftM (newMap (Entries.putAll entries ps)) :=
      if_neg heven
    rw [hpairs]
    exact bind_of_eq_ok (Entries.pairs_values pairs #[] w)
  exact bind_of_eq_ok hassoc

/-- `dissoc` makes a new map of the entries whose names are not given. -/
theorem run_dissoc (ks : List Value) : Builtin.run .dissoc (.map node entries :: ks) w =
    .ok (.value (newMap (Entries.without entries (ks.filterMap fun k => k.key?.map Key.name)) w).1)
      (newMap (Entries.without entries (ks.filterMap fun k => k.key?.map Key.name)) w).2 := rfl

/-- `merge` makes a new map of all entries. -/
theorem run_merge {maps : List Value} (hm : ∀ m ∈ maps, m.IsMergeable) : Builtin.run .merge maps w =
    .ok (.value (newMap (Entries.ofPairs (maps.flatMap Value.entries)) w).1)
      (newMap (Entries.ofPairs (maps.flatMap Value.entries)) w).2 := by
  have hmerge : Mapping.merge maps w =
      .ok (newMap (Entries.ofPairs (maps.flatMap Value.entries)) w).1
        (newMap (Entries.ofPairs (maps.flatMap Value.entries)) w).2 :=
    bind_of_eq_ok (Entries.gather_eq maps hm #[] w)
  exact bind_of_eq_ok hmerge

end Running

namespace Session

variable {s : Session}

/-- **Maps are finite maps keyed by name, in a stable order.** In every session that can be reached the names of
a map's keys differ, each key is a keyword or a string, and a key of any kind finds what its name finds. Putting
pairs into a map leaves under each name the last pair given for it and adds the new names in the order in which
they first appear; removing keys leaves exactly the entries of other names, in order; merging maps and `nil`s is
putting all of their entries into the empty map. -/
theorem Reachable.finite_maps (h : s.Reachable) :
    (∀ node entries, s.Has (.map node entries) →
      (Entries.names entries).Nodup ∧
      (∀ e ∈ entries, e.1.toValue.kind = .keyword ∨ e.1.toValue.kind = .string) ∧
      ∀ key, s.Has key → Entries.get? entries key = key.key?.bind fun k => Entries.byName? entries k.name) ∧
    (∀ node entries pairs w, ∃ result,
      Builtin.run .assoc (.map node entries :: Entries.values pairs) w =
        .ok (.value (newMap result w).1) (newMap result w).2 ∧
      (∀ name, Entries.under? result name =
        (Entries.lastUnder? pairs name).or (Entries.under? entries name)) ∧
      Entries.names result = Entries.names entries ++
        ((Entries.names pairs).filter fun n => !(Entries.names entries).contains n).eraseDups) ∧
    (∀ node entries ks w, ∃ result,
      Builtin.run .dissoc (.map node entries :: ks) w =
        .ok (.value (newMap result w).1) (newMap result w).2 ∧
      result.Sublist entries ∧
      ∀ e, e ∈ result ↔ e ∈ entries ∧ ∀ k ∈ ks, k.key?.map Key.name ≠ some e.1.name) ∧
    ∀ node maps w, (∀ m ∈ maps, m.IsMergeable) →
      Builtin.run .merge maps w =
        Builtin.run .assoc (.map node [] :: Entries.values (maps.flatMap Value.entries)) w := by
  obtain ⟨R, hsound⟩ := h.exists_sound
  refine ⟨fun node entries hmap => ?_, fun node entries pairs w => ?_, fun node entries ks w => ?_,
    fun node maps w hmaps => ?_⟩
  · obtain ⟨hnodup, hentries⟩ := hsound.world.partsKnown (hsound.known hmap)
    refine ⟨hnodup, fun e _ => ?_, fun key hkey => Entries.get?_eq_byName? hnodup hentries (hsound.known hkey)⟩
    cases e.1 with
    | keyword k => exact .inl rfl
    | text t => exact .inr rfl
  · exact ⟨_, run_assoc node entries pairs w, Entries.under?_putAll entries pairs,
      Entries.names_putAll entries pairs⟩
  · refine ⟨_, run_dissoc node entries w ks, List.filter_sublist, fun e => ?_⟩
    rw [Entries.mem_without, List.mem_filterMap]
    simp only [not_exists, not_and, ne_eq]
  · rw [run_merge w hmaps, run_assoc]
    rfl

/-- A host reads a map. -/
def readMap? (src : String) (w : World) : Option (Node × Entries × World) :=
  match EditableLisp.readForm src w with
  | (.ok (.map node entries), w') => some (node, entries, w')
  | _ => none

theorem readMap?_eq_some {src : String} {node : Node} {entries : Entries} {w w' : World}
    (h : readMap? src w = some (node, entries, w')) :
    EditableLisp.readForm src w = (.ok (.map node entries), w') := by
  unfold readMap? at h
  split at h
  · cases h
    assumption
  · cases h

/-- A map with a keyword and a string for keys is read: the keyword that is its first key is looked up. -/
theorem Reachable.finite_maps_read : ∃ (s : Session) (node : Node) (entries : Entries) (k : Keyword),
    s.Reachable ∧ s.Has (.map node entries) ∧ s.Has (.keyword k) ∧ Entries.names entries = ["a", "b"] ∧
    Entries.get? entries (.keyword k) = Entries.byName? entries k.name := by
  have test : ((readMap? "\x7b:a 1 \"b\" 2\x7d" World.initial).any fun r =>
      Entries.names r.2.1 == ["a", "b"] && (r.2.1.head?.any fun e => e.1 == .keyword ⟨0, "a"⟩)) = true := by
    decide +kernel
  obtain ⟨⟨node, entries, w⟩, hrun, hshape⟩ := (Option.any_eq_true _ _).mp test
  simp only [Bool.and_eq_true, beq_iff_eq, Option.any_eq_true] at hshape
  obtain ⟨hnames, e, hhead, hkey⟩ := hshape
  let doc : Value := .map node entries
  let session : Session := ⟨w, [doc], [], []⟩
  have hreach : session.Reachable := Reachable.bare.step (Step.readForm (readMap?_eq_some hrun))
  have hdoc : session.Has doc := .held List.mem_cons_self
  have hentry : (Key.keyword ⟨0, "a"⟩).toValue ∈ Entries.values entries := by
    rw [← hkey]
    exact List.mem_flatMap.mpr ⟨e, List.mem_of_head? hhead, List.mem_cons_self⟩
  have hk : session.Has (.keyword ⟨0, "a"⟩) := .entry hdoc hentry
  exact ⟨session, node, entries, ⟨0, "a"⟩, hreach, hdoc, hk, hnames,
    (hreach.finite_maps.1 node entries hdoc).2.2 _ hk⟩

end Session

end EditableLisp
