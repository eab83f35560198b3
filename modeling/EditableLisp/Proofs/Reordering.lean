import EditableLisp.Proofs.Agreeing
import EditableLisp.Proofs.Joining
import EditableLisp.Proofs.Placing

/-!
# Identities given out in another order

Two texts are read as one, or the second one is read after the first one was evaluated. The nodes of the second
text are made before that evaluation, or after it, and keywords are interned in another order. The worlds of the
two ways are compared through a third one: that of the joined text with one more identity given out, which stands
for the second program. `Mirror.moving (spare _)` takes the world of the joined text there (`mirrors_spare`), and
`Mirror.merging` takes the worlds of the two texts there, with one renaming up to the place where the second
text is read (`mirrors_ahead`) and another one from there on (`mirrors_behind`).
-/

namespace EditableLisp

open Registry

/-! ## Identities in another order -/

section seats

variable {first count middle : Nat}

/-- An identity is left out after the first program. -/
def spare (last : Nat) (id : Nat) : Nat := if id ≤ last then id else id + 1

/-- Where the identities of a world that did not read the second text yet are found: `first` is that of the first
program, and the second text has `count` nodes. -/
def ahead (first count : Nat) (id : Nat) : Nat :=
  if id < first then id else if id = first then first + count else id + count + 1

/-- Where the identities of a world are found in which the nodes of the second text come from `middle` on. -/
def behind (first count middle : Nat) (id : Nat) : Nat :=
  if id < middle then ahead first count id
  else if id < middle + count then first + (id - middle)
  else if id = middle + count then first + count + 1
  else id

@[simp] theorem spare_of_le {last id : Nat} (h : id ≤ last) : spare last id = id := if_pos h

@[simp] theorem spare_of_lt {last id : Nat} (h : last < id) : spare last id = id + 1 := if_neg (by omega)

@[simp] theorem ahead_of_lt {id : Nat} (h : id < first) : ahead first count id = id := if_pos h

@[simp] theorem ahead_of_gt {id : Nat} (h : first < id) : ahead first count id = id + count + 1 := by
  unfold ahead
  rw [if_neg (by omega), if_neg (by omega)]

@[simp] theorem behind_of_lt {id : Nat} (h : id < middle) : behind first count middle id = ahead first count id :=
  if_pos h

theorem behind_middle {k : Nat} (h : k < count) : behind first count middle (middle + k) = first + k := by
  unfold behind
  rw [if_neg (by omega), if_pos (by omega)]
  omega

theorem behind_of_gt {id : Nat} (h : middle + count < id) : behind first count middle id = id := by
  unfold behind
  rw [if_neg (by omega), if_neg (by omega), if_neg (by omega)]

theorem spare_injective (last : Nat) : Function.Injective (spare last) := by
  intro i j h
  unfold spare at h
  split_ifs at h <;> omega

theorem ahead_injective (first count : Nat) : Function.Injective (ahead first count) := by
  intro i j h
  unfold ahead at h
  split_ifs at h <;> omega

theorem behind_injective (h : first < middle) (count : Nat) : Function.Injective (behind first count middle) := by
  intro i j he
  unfold behind ahead at he
  split_ifs at he <;> omega

end seats

/-! ## Keywords in another order -/

section words

variable {final table : Array String}

/-- The position of a keyword in the table that `final` is merged into. Positions that stand for no keyword are
moved out of the way. -/
def reword (final table : Array String) (i : Nat) : Nat :=
  match final[i]? with
  | some name => if position name final = i then position name (merged table final)
    else i + (merged table final).size
  | none => i + (merged table final).size

theorem reword_position {name : String} (h : name ∈ final) :
    reword final table (position name final) = position name (merged table final) := by
  unfold reword
  rw [getElem?_position h]
  exact if_pos rfl

theorem position_lt_size {name : String} {keywords : Array String} (h : name ∈ keywords) :
    position name keywords < keywords.size :=
  (Array.getElem?_eq_some_iff.mp (getElem?_position h)).1

/-- A position stands for a keyword, or it is moved out of the way. -/
theorem reword_cases (final table : Array String) (i : Nat) :
    (∃ name ∈ final, i = position name final ∧ reword final table i = position name (merged table final)) ∨
      reword final table i = i + (merged table final).size := by
  unfold reword
  cases h : final[i]? with
  | none => exact .inr rfl
  | some name =>
    dsimp only
    split_ifs with hi
    · exact .inl ⟨name, Array.mem_of_getElem? h, hi.symm, rfl⟩
    · exact .inr rfl

theorem reword_injective (final table : Array String) : Function.Injective (reword final table) := by
  intro i j h
  rcases reword_cases final table i with ⟨name, hname, rfl, hi⟩ | hi <;>
    rcases reword_cases final table j with ⟨name', hname', rfl, hj⟩ | hj <;> rw [hi, hj] at h
  · have hmem : name ∈ merged table final := mem_merged_iff.mpr (.inr hname)
    have hmem' : name' ∈ merged table final := mem_merged_iff.mpr (.inr hname')
    have hsame := getElem?_position hmem
    rw [h, getElem?_position hmem'] at hsame
    cases hsame
    rfl
  · have hlt := position_lt_size (mem_merged_iff.mpr (.inr hname) : name ∈ merged table final)
    omega
  · have hlt := position_lt_size (mem_merged_iff.mpr (.inr hname') : name' ∈ merged table final)
    omega
  · omega

end words

/-! ## Mirrors -/

/-- Worlds that are compared with other identities of nodes, and with keywords that are merged into a table.
`final` is the table of keywords at the end. -/
def Mirror.merging (node : NodeId → NodeId) (h : Function.Injective node) (base : Nat)
    (final table : Array String) : Mirror where
  ρ := ⟨node, reword final table, h, reword_injective final table⟩
  base := base
  fits keywords := keywords.toList <+: final.toList
  target keywords := merged table keywords
  fits_of_prefix h h' := h.trans h'
  position_target name keywords hfits := by
    have hname := mem_interned name keywords
    have hfinal : name ∈ final := Array.mem_toList_iff.mp (hfits.subset (Array.mem_toList_iff.mpr hname))
    have hmerged : name ∈ merged table (interned name keywords) := mem_merged_iff.mpr (.inr hname)
    show position name (merged table keywords) = reword final table (position name keywords)
    rw [← position_interned name keywords, ← position_of_grown hfits hname, reword_position hfinal,
      position_of_grown (merged_mono hfits) hmerged, ← interned_merged, position_interned]
  interned_target name keywords _ := interned_merged name table keywords

/-! ## The three worlds -/

/-- The world of two joined programs with one more identity given out. -/
def World.readSpare (w : World) (p q : Program) : World :=
  (w.withKeywords (w.read (p.join q)).keywords).withNextId ((w.read (p.join q)).nextId + 1)

section worlds

variable {R : Registry} {w w₁ c : World} {p q : Program} {final table : Array String}

theorem reword_of_grown {keywords : Array String} (hnodup : keywords.toList.Nodup)
    (h : keywords.toList <+: final.toList) (h' : keywords.toList <+: table.toList) {i : Nat}
    (hi : i < keywords.size) : reword final table i = i := by
  have hmem : keywords[i] ∈ keywords := Array.getElem_mem hi
  have hmem' : keywords[i] ∈ final := Array.mem_toList_iff.mp (h.subset (Array.mem_toList_iff.mpr hmem))
  have hpos : position keywords[i] keywords = i := by
    rw [position_eq_idxOf]
    exact hnodup.idxOf_getElem i hi
  have hfinal := position_of_grown h hmem
  have hmerged := position_of_grown (h'.trans (prefix_merged table final)) hmem
  rw [hpos] at hfinal hmerged
  rw [← hfinal, reword_position hmem', hmerged, hfinal]

/-- Names of a program that are in a table early are found in the table that is merged into. -/
theorem rewords_of_grown {node : NodeId → NodeId} {h : Function.Injective node} {base : Nat}
    {keywords : Array String} (hfinal : keywords.toList <+: final.toList) {names : List String}
    (hmem : ∀ name ∈ names, name ∈ keywords) (htable : ∀ name ∈ names, name ∈ table) :
    (Mirror.merging node h base final table).ρ.Rewords keywords table names := by
  intro name hname
  have hmem' : name ∈ final :=
    Array.mem_toList_iff.mp (hfinal.subset (Array.mem_toList_iff.mpr (hmem name hname)))
  show reword final table (position name keywords) = position name table
  rw [← position_of_grown hfinal (hmem name hname), reword_position hmem',
    position_of_grown (prefix_merged table final) (htable name hname)]

theorem join_made (p q : Program) :
    (p.join q).made = Form.madeEach p.forms + Form.madeEach q.forms + 1 := by
  simp [Program.made, Program.join, Form.madeEach_append]

theorem join_keywords (p q : Program) : (p.join q).keywords = p.keywords ++ q.keywords :=
  Form.keywordsEach_append p.forms q.forms

/-- The keywords of the first text are among those of the joined text, and those of the second one, too. -/
theorem mem_read_join {name : String} : name ∈ (w.read (p.join q)).keywords ↔
    name ∈ (w.read p).keywords ∨ name ∈ q.keywords := by
  show name ∈ internedAll (p.join q).keywords w.keywords ↔ name ∈ internedAll p.keywords w.keywords ∨ _
  rw [join_keywords, mem_internedAll_iff, mem_internedAll_iff, List.mem_append, or_assoc]

/-- The identity of the node of the first program. -/
def World.firstId (w : World) (p : Program) : Nat := w.nextId + Form.madeEach p.forms

/-- The joined text is read as with one more identity given out. -/
theorem mirrors_spare (hw : R.Ok w) (p q : Program) :
    Mirrors (.moving (spare (w.firstId p + Form.madeEach q.forms)) (spare_injective _) w.recordings.length)
      (w.read (p.join q)) (w.readSpare p q) := by
  have hlast : w.nextId + (p.join q).made = w.firstId p + Form.madeEach q.forms + 1 := by
    simp only [join_made, World.firstId, Nat.add_assoc]
  refine (mirrors_same w w.results w.sites rfl).turn hw
    (.moving (spare (w.firstId p + Form.madeEach q.forms)) (spare_injective _) w.recordings.length) rfl
    ⟨fun id hid => (spare_of_le ?_).symm, fun _ _ => rfl⟩ (fun k => ?_) rfl
  · exact (Nat.le_of_lt hid).trans ((Nat.le_add_right _ _).trans (Nat.le_add_right _ _))
  · show spare _ (w.nextId + (p.join q).made + k) = w.nextId + (p.join q).made + 1 + k
    rw [hlast, spare_of_lt (by omega)]
    omega

/-- The first text is read as in the world of the joined text. -/
theorem mirrors_ahead (hw : R.Ok w) (q : Program) (hfinal : (w.read p).keywords.toList <+: final.toList) :
    Mirrors (.merging (ahead (w.firstId p) (Form.madeEach q.forms)) (ahead_injective _ _)
      w.recordings.length final (w.read (p.join q)).keywords) (w.read p) (w.readSpare p q) := by
  have hprefix : w.keywords.toList <+: (w.read p).keywords.toList := prefix_internedAll _ _
  have hprefix' : w.keywords.toList <+: (w.read (p.join q)).keywords.toList := prefix_internedAll _ _
  refine (mirrors_same w w.results w.sites rfl).turn hw
    (.merging (ahead (w.firstId p) (Form.madeEach q.forms)) (ahead_injective _ _) w.recordings.length final
      (w.read (p.join q)).keywords) rfl
    ⟨fun id hid => (ahead_of_lt ?_).symm, fun i hi => ?_⟩ (fun k => ?_) ?_
  · exact Nat.lt_of_lt_of_le hid (Nat.le_add_right _ _)
  · exact (reword_of_grown hw.names ( hprefix.trans hfinal) hprefix' hi).symm
  · show ahead _ _ (w.nextId + (Form.madeEach p.forms + 1) + k) = w.nextId + (p.join q).made + 1 + k
    rw [join_made, ahead_of_gt (by rw [World.firstId]; omega)]
    omega
  · refine (internedAll_of_mem fun name hname => ?_).symm
    exact mem_read_join.mpr (.inl (Array.mem_toList_iff.mp hname))

/-- The second text is read as it was in the world of the joined text. -/
theorem mirrors_behind {base : Nat} (hw : R.Ok w₁)
    (h : Mirrors (.merging (ahead (w.firstId p) (Form.madeEach q.forms)) (ahead_injective _ _)
      base final (w.read (p.join q)).keywords) w₁ c) (hfirst : w.firstId p < w₁.nextId) :
    Mirrors (.merging (behind (w.firstId p) (Form.madeEach q.forms) w₁.nextId) (behind_injective hfirst _)
      base final (w.read (p.join q)).keywords) (w₁.read q) c := by
  have hnext : c.nextId = w₁.nextId + Form.madeEach q.forms + 1 := h.node_nextId.trans (ahead_of_gt hfirst)
  have hkeywords : c.keywords = merged (w.read (p.join q)).keywords (w₁.read q).keywords := by
    rw [h.keywords]
    exact (merged_internedAll fun name hname => mem_read_join.mpr (.inr hname)).symm
  refine h.turn hw (.merging (behind (w.firstId p) (Form.madeEach q.forms) w₁.nextId) (behind_injective hfirst _)
    base final (w.read (p.join q)).keywords) rfl
    ⟨fun id hid => (behind_of_lt hid).symm, fun _ _ => rfl⟩ (fun k => ?_) hkeywords
  · show behind _ _ w₁.nextId (w₁.nextId + (Form.madeEach q.forms + 1) + k) = c.nextId + k
    rw [hnext, behind_of_gt (by omega)]
    omega

end worlds

end EditableLisp
