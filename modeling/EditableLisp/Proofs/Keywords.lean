import EditableLisp.Proofs.Interning
import EditableLisp.Proofs.Session

/-!
# One keyword for each name

Keywords are compared by identity. That this is comparison of names needs that all of them come from the one
table, wherever they are found and on whatever way they came there: `Session.Reachable.keyword_identity`.

`Session.Traced s log` says which names were interned on the way to a session. The table holds one keyword for
each of them and no other (`Session.Traced.listed_iff`), and what it holds it keeps (`Session.Later.listed`).
-/

namespace EditableLisp

/-- A keyword stands in the table of a world. -/
def World.Lists (w : World) (k : Keyword) : Prop := w.keywords[k.id]? = some k.name

/-! ## Tables -/

theorem nodup_interned {name : String} {keywords : Array String} (h : keywords.toList.Nodup) :
    (interned name keywords).toList.Nodup := by
  unfold interned
  split_ifs with hmem
  · exact h
  · rw [Array.toList_push, List.nodup_append]
    refine ⟨h, List.pairwise_singleton _ name, fun a ha b hb => ?_⟩
    obtain rfl := List.mem_singleton.mp hb
    exact fun hab => hmem (Array.mem_toList_iff.mp (hab ▸ ha))

theorem nodup_internedAll {names : List String} {keywords : Array String} (h : keywords.toList.Nodup) :
    (internedAll names keywords).toList.Nodup := by
  induction names generalizing keywords with
  | nil => exact h
  | cons name rest ih => exact ih (nodup_interned h)

/-- New names, each of them once, are added in order. -/
theorem internedAll_of_nodup {names : List String} {keywords : Array String}
    (h : (keywords.toList ++ names).Nodup) : (internedAll names keywords).toList = keywords.toList ++ names := by
  induction names generalizing keywords with
  | nil => exact (List.append_nil _).symm
  | cons name rest ih =>
    have hnew : name ∉ keywords := by
      intro hmem
      have hdisjoint := (List.nodup_append.mp h).2.2
      exact hdisjoint name (Array.mem_toList_iff.mpr hmem) name List.mem_cons_self rfl
    have hpush : (interned name keywords).toList = keywords.toList ++ [name] := by
      unfold interned
      rw [if_neg hnew, Array.toList_push]
    have hrest : (interned name keywords).toList ++ rest = keywords.toList ++ name :: rest := by
      rw [hpush, List.append_assoc]
      rfl
    show (internedAll rest (interned name keywords)).toList = _
    rw [ih (by rw [hrest]; exact h), hrest]

/-- A table without repetitions that another one grew into differs by names that were interned. -/
theorem exists_internedAll {keywords keywords' : Array String} (hp : keywords.toList <+: keywords'.toList)
    (h : keywords'.toList.Nodup) : ∃ names, keywords' = internedAll names keywords := by
  obtain ⟨names, hnames⟩ := hp
  refine ⟨names, Array.toList_inj.mp ?_⟩
  rw [internedAll_of_nodup (hnames ▸ h), hnames]

/-- A table without repetitions has one keyword for each of its names. -/
theorem World.existsUnique_lists {w : World} {name : String} (h : w.keywords.toList.Nodup)
    (hmem : name ∈ w.keywords) : ∃! k : Keyword, k.name = name ∧ w.Lists k := by
  refine ⟨⟨position name w.keywords, name⟩, ⟨rfl, getElem?_position hmem⟩, ?_⟩
  rintro ⟨i, other⟩ ⟨hname, hi⟩
  obtain rfl : other = name := hname
  have hp := getElem?_position hmem
  unfold World.Lists at hi
  rw [← Array.getElem?_toList] at hp hi
  have heq := (List.getElem?_inj (List.getElem?_eq_some_iff.mp hi).1 h).mp (hi.trans hp.symm)
  exact congrArg (Keyword.mk · _) heq

theorem World.Lists.mem {w : World} {k : Keyword} (h : w.Lists k) : k.name ∈ w.keywords :=
  Array.mem_of_getElem? h

namespace Session

variable {s s' : Session} {log : List String}

/-! ## The table of a session -/

/-- The table grows at its end in every step. -/
theorem Reachable.prefix_keywords (h : s.Reachable) (hs : s.Step s') :
    s.world.keywords.toList <+: s'.world.keywords.toList := by
  obtain ⟨R, hsound⟩ := h.exists_sound
  obtain ⟨R', hle, hsound'⟩ := hs.exists_sound hsound
  rw [List.prefix_iff_getElem?]
  intro i hi
  have hold : R.keyword i = some s.world.keywords.toList[i] := by
    rw [← hsound.world.keywords i, ← Array.getElem?_toList, List.getElem?_eq_getElem hi]
  rw [Array.getElem?_toList, hsound'.world.keywords i, hle.2.2.1 i _ hold]

theorem Reachable.nodup_keywords (h : s.Reachable) : s.world.keywords.toList.Nodup := by
  obtain ⟨R, hsound⟩ := h.exists_sound
  exact hsound.world.names

/-- **What stands in the table stays there.** -/
theorem Later.listed (hl : s.Later s') (h : s.Reachable) {k : Keyword} (hk : s.world.Lists k) :
    s'.world.Lists k := by
  induction hl with
  | refl => exact hk
  | step hl hs ih =>
    have hp := (h.later hl).prefix_keywords hs
    unfold World.Lists at ih ⊢
    rw [← Array.getElem?_toList] at ih ⊢
    obtain ⟨hlt, hname⟩ := List.getElem?_eq_some_iff.mp ih
    rw [List.prefix_iff_getElem?.mp hp _ hlt, hname]

/-! ## Names that were interned -/

/-- A session and names that were interned on the way to it. Interning a name that is not in the table adds it,
and nothing else changes the table; so whatever a step interned, interning it accounts for the table that the
step leaves. -/
inductive Traced : Session → List String → Prop where
  | full : Traced ⟨World.full, [], [], []⟩ []
  | bare : Traced ⟨World.initial, [], [], []⟩ []
  | step {s s' : Session} {log names : List String} : Traced s log → s.Step s' →
      s'.world.keywords = internedAll names s.world.keywords → Traced s' (log ++ names)

theorem keywords_installAll (functions : List Builtin) (w : World) :
    (installAll functions w).2.keywords = w.keywords := by
  induction functions generalizing w with
  | nil => rfl
  | cons b rest ih => exact ih _

theorem keywords_full : World.full.keywords = #[] := by
  unfold World.full
  show ((installAll (Builtin.functions ++ Builtin.expanders) >>= fun _ => define .global "PI" (.num pi))
    World.initial).2.keywords = #[]
  generalize Builtin.functions ++ Builtin.expanders = functions
  exact keywords_installAll functions World.initial

/-- The table is what interning the names gives. -/
theorem Traced.keywords_eq (h : s.Traced log) : s.world.keywords = internedAll log #[] := by
  induction h with
  | full => exact keywords_full
  | bare => rfl
  | step _ _ hnames ih => rw [hnames, ih, internedAll_append]

/-- **The table holds one keyword for each name that was interned**, and no other. -/
theorem Traced.listed_iff (h : s.Traced log) :
    (∀ name ∈ log, ∃! k : Keyword, k.name = name ∧ s.world.Lists k) ∧ ∀ k, s.world.Lists k → k.name ∈ log := by
  have hmem : ∀ name, name ∈ s.world.keywords ↔ name ∈ log := by
    intro name
    rw [h.keywords_eq, mem_internedAll_iff]
    exact or_iff_right (Array.not_mem_empty name)
  have hnodup : s.world.keywords.toList.Nodup := by
    rw [h.keywords_eq]
    exact nodup_internedAll List.nodup_nil
  exact ⟨fun name hname => World.existsUnique_lists hnodup ((hmem name).mpr hname),
    fun k hk => (hmem k.name).mp hk.mem⟩

/-- Every session that can be reached has a trace. -/
theorem Reachable.exists_traced (h : s.Reachable) : ∃ log, s.Traced log := by
  induction h with
  | full => exact ⟨[], .full⟩
  | bare => exact ⟨[], .bare⟩
  | step h hs ih =>
    obtain ⟨log, hlog⟩ := ih
    obtain ⟨names, hnames⟩ := exists_internedAll (h.prefix_keywords hs) (h.step hs).nodup_keywords
    exact ⟨_, hlog.step hs hnames⟩

/-! ## Identity -/

/-- A keyword within reach stands in the table. -/
theorem Reachable.listed (h : s.Reachable) {k : Keyword} (hk : s.Has (.keyword k)) : s.world.Lists k := by
  obtain ⟨R, hsound⟩ := h.exists_sound
  exact (hsound.world.keywords k.id).trans (hsound.known hk)

/-- Interning a name gives the keyword that every keyword of this name within reach is. -/
theorem Reachable.intern_eq_of_has (h : s.Reachable) {k : Keyword} (hk : s.Has (.keyword k)) :
    intern k.name s.world = (k, s.world) := by
  have hl := h.listed hk
  have hunique := World.existsUnique_lists h.nodup_keywords hl.mem
  have hposition : (⟨position k.name s.world.keywords, k.name⟩ : Keyword) = k :=
    hunique.unique ⟨rfl, getElem?_position hl.mem⟩ ⟨rfl, hl⟩
  rw [intern_eq, interned_of_mem hl.mem, hposition]
  rfl

/-- **Keywords are identical, and equal, exactly when their names are.** In every session that can be reached
this holds of any two keywords within reach, wherever they are found: in trees, as keys of maps, in frames,
atoms and closures, and in whatever the world keeps. Each of them stands in the table and is what interning
its name gives. For every name that was interned on the way the table holds exactly one keyword, it holds none
of another name, and what it holds stays there in every later session. -/
theorem Reachable.keyword_identity (h : s.Reachable) :
    (∀ k k' : Keyword, s.Has (.keyword k) → s.Has (.keyword k') →
      ((Value.keyword k).identical (.keyword k') = true ↔ k.name = k'.name) ∧
      ((Value.keyword k).equal (.keyword k') = true ↔ k.name = k'.name)) ∧
    (∀ k, s.Has (.keyword k) → s.world.Lists k ∧ intern k.name s.world = (k, s.world)) ∧
    (∃ log, s.Traced log) ∧
    (∀ log, s.Traced log → (∀ name ∈ log, ∃! k : Keyword, k.name = name ∧ s.world.Lists k) ∧
      ∀ k, s.world.Lists k → k.name ∈ log) ∧
    ∀ s', s.Later s' → ∀ k, s.world.Lists k → s'.world.Lists k := by
  refine ⟨fun k k' hk hk' => ?_, fun k hk => ⟨h.listed hk, h.intern_eq_of_has hk⟩, h.exists_traced,
    fun log hlog => hlog.listed_iff, fun s' hl k => hl.listed h⟩
  have hname : (k.id == k'.id) = true ↔ k.name = k'.name := by
    have hl := h.listed hk
    have hl' := h.listed hk'
    rw [beq_iff_eq]
    constructor
    · intro hid
      unfold World.Lists at hl hl'
      rw [hid, hl'] at hl
      exact (Option.some.inj hl).symm
    · intro hname
      have hunique := World.existsUnique_lists h.nodup_keywords hl.mem
      exact congrArg Keyword.id (hunique.unique ⟨rfl, hl⟩ ⟨hname.symm, hl'⟩)
  -- On keywords both comparisons are that of identities.
  exact ⟨hname, hname⟩

/-- A host reads a keyword, and then a JSON document with one member. -/
def readThenDecode (src text : String) (w : World) :
    Option ((Keyword × World) × (Node × Key × Value × World)) :=
  match EditableLisp.readForm src w with
  | (.ok (.keyword k), w₁) =>
    match decodeJson text w₁ with
    | .ok (.map node [(key, v)]) w₂ => some ((k, w₁), (node, key, v, w₂))
    | _ => none
  | _ => none

theorem readThenDecode_eq_some {src text : String} {w w₁ w₂ : World} {k : Keyword} {node : Node} {key : Key}
    {v : Value} (h : readThenDecode src text w = some ((k, w₁), (node, key, v, w₂))) :
    EditableLisp.readForm src w = (.ok (.keyword k), w₁) ∧ decodeJson text w₁ = .ok (.map node [(key, v)]) w₂ := by
  unfold readThenDecode at h
  split at h
  · rename_i hread
    split at h
    · rename_i hdecode
      cases h
      exact ⟨hread, hdecode⟩
    · cases h
  · cases h

/-- A form is read and then a JSON document: the key of the document is the keyword `:b` that was read. -/
theorem Reachable.keyword_identity_decoded : ∃ (s : Session) (b key : Keyword) (node : Node) (v : Value),
    s.Reachable ∧ s.Has (.keyword b) ∧ s.Has (.map node [(.keyword key, v)]) ∧
    (Value.keyword b).identical (.keyword key) = true := by
  have test : ((readThenDecode ":b" "\x7b\":b\": 1\x7d" World.initial).any fun r =>
      r.1.1.name == "b" && r.2.2.1 != .text "b" && r.2.2.1.name == "b") = true := by decide +kernel
  obtain ⟨⟨⟨k, w₁⟩, node, key, v, w₂⟩, hrun, hnames⟩ := (Option.any_eq_true _ _).mp test
  obtain ⟨hread, hdecode⟩ := readThenDecode_eq_some hrun
  simp only [Bool.and_eq_true, beq_iff_eq, bne_iff_ne, ne_eq] at hnames
  obtain ⟨⟨hname, hkey⟩, hname'⟩ := hnames
  cases key with
  | text t => exact absurd (congrArg Key.text hname') hkey
  | keyword key =>
    let doc : Value := .map node [(.keyword key, v)]
    let first : Session := ⟨w₁, [.keyword k], [], []⟩
    let second : Session := ⟨w₂, [doc, .keyword k], [], []⟩
    have hfirst : first.Reachable := Reachable.bare.step (Step.readForm hread)
    have hserved : (Request.decode "\x7b\":b\": 1\x7d").run w₁ = .ok [doc] w₂ := bind_of_eq_ok hdecode
    have hstep : first.Step second :=
      @Step.served first (.decode _) [doc] w₂ (List.forall_mem_nil _) (by rintro _ ⟨⟩) hserved
    have hb : second.Has (.keyword k) := .held (List.mem_cons_of_mem _ List.mem_cons_self)
    have hdoc : second.Has doc := .held List.mem_cons_self
    have hsame := (hfirst.step hstep).keyword_identity.1 _ _ hb (.entry hdoc List.mem_cons_self)
    exact ⟨second, k, key, node, v, hfirst.step hstep, hb, hdoc, hsame.1.mpr (hname.trans hname'.symm)⟩

end Session

end EditableLisp
