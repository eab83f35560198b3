import EditableLisp.Source.Reader
import EditableLisp.Proofs.Parts
import EditableLisp.Proofs.Printing

/-!
# Reading into the world

`Form.Represents form v`: the value `v` has the structure and the layout of a form. What is read is known
and represents what was written (`keeps_readProgram`). A value that represents a form is drawn as the form
was written (`draw_of_represents`), and so are its nodes, which represent the parts of the form
(`Form.Represents.at`).
-/

namespace EditableLisp

open Registry

/-- A key has the name and the kind that were written. -/
def FormKey.Represents : FormKey → Key → Prop
  | .keyword name, k => ∃ id, k = .keyword ⟨id, name⟩
  | .text content _, k => k = .text content

theorem FormKey.Represents.name {key : FormKey} {k : Key} (h : key.Represents k) :
    k.name = key.name := by
  cases key with
  | keyword name =>
    obtain ⟨id, rfl⟩ := h
    rfl
  | text content spelling =>
    cases h
    rfl

namespace Form

mutual

/-- A value has the structure and the layout of a form. -/
def Represents : Form → Value → Prop
  | nil, v => v = .nil
  | bool b, v => v = .bool b
  | num x _, v => v = .num x
  | text content _, v => v = .text content
  | keyword name, v => ∃ id, v = .keyword ⟨id, name⟩
  | symbol name, v => ∃ id, v = .symbol id name
  | marked style gap form, v => ∃ id head x, Represents form x ∧
    v = .seq .list ⟨id, style, some ["", gap, ""], keptSpellings [none, form.oddSpelling?]⟩
      [.symbol head style.name, x]
  | seq shape gaps items, v => ∃ id vs, RepresentsEach items vs ∧
    v = .seq shape ⟨id, .plain, some gaps, keptSpellings (items.map oddSpelling?)⟩ vs
  | map gaps entries, v => ∃ id es, RepresentsEntries entries es ∧
    v = .map ⟨id, .plain, some gaps, keptSpellings (entrySpellings entries)⟩ es

/-- `Represents` for forms. -/
def RepresentsEach : List Form → List Value → Prop
  | [], vs => vs = []
  | form :: rest, vs => ∃ x xs, Represents form x ∧ RepresentsEach rest xs ∧ vs = x :: xs

/-- `Represents` for entries. -/
def RepresentsEntries : List (FormKey × Form) → List (Key × Value) → Prop
  | [], es => es = []
  | (key, form) :: rest, es => ∃ k x xs, key.Represents k ∧ Represents form x ∧
    RepresentsEntries rest xs ∧ es = (k, x) :: xs

end

theorem RepresentsEach.length {forms : List Form} {vs : List Value} (h : RepresentsEach forms vs) :
    vs.length = forms.length := by
  induction forms generalizing vs with
  | nil =>
    unfold RepresentsEach at h
    rw [h]
    rfl
  | cons form rest ih =>
    unfold RepresentsEach at h
    obtain ⟨x, xs, -, hxs, rfl⟩ := h
    rw [List.length_cons, List.length_cons, ih hxs]

/-- The names of the keys are those that were written. -/
theorem RepresentsEntries.names {entries : List (FormKey × Form)} {es : Entries}
    (h : RepresentsEntries entries es) : Entries.names es = entries.map fun e => e.1.name := by
  induction entries generalizing es with
  | nil =>
    unfold RepresentsEntries at h
    rw [h]
    rfl
  | cons e rest ih =>
    obtain ⟨key, form⟩ := e
    unfold RepresentsEntries at h
    obtain ⟨k, x, xs, hk, -, hrest, rfl⟩ := h
    show k.name :: Entries.names xs = key.name :: rest.map fun e => e.1.name
    rw [hk.name, ih hrest]

theorem RepresentsEntries.length {entries : List (FormKey × Form)} {es : Entries}
    (h : RepresentsEntries entries es) : es.length = entries.length := by
  have := congrArg List.length h.names
  rwa [Entries.names, List.length_map, List.length_map] at this

/-- The keys and values of entries represent what was written, in turn. -/
theorem RepresentsEntries.each {entries : List (FormKey × Form)} {es : Entries}
    (h : RepresentsEntries entries es) :
    RepresentsEach (entryForms entries) (es.flatMap fun (k, v) => [k.toValue, v]) := by
  induction entries generalizing es with
  | nil =>
    unfold RepresentsEntries at h
    rw [h]
    unfold RepresentsEach
    rfl
  | cons e rest ih =>
    obtain ⟨key, form⟩ := e
    unfold RepresentsEntries at h
    obtain ⟨k, x, xs, hk, hx, hxs, rfl⟩ := h
    have hkey : key.toForm.Represents k.toValue := by
      cases key with
      | keyword name =>
        obtain ⟨id, rfl⟩ := hk
        unfold FormKey.toForm Represents
        exact ⟨id, rfl⟩
      | text content spelling =>
        cases hk
        unfold FormKey.toForm Represents
        rfl
    show RepresentsEach (key.toForm :: form :: entryForms rest)
      (k.toValue :: x :: xs.flatMap fun (k, v) => [k.toValue, v])
    unfold RepresentsEach
    refine ⟨_, _, hkey, ?_, rfl⟩
    unfold RepresentsEach
    exact ⟨_, _, hx, ih hxs, rfl⟩

end Form

/-! ## Layouts -/

namespace Form

/-- The spellings of entries are those of their keys and forms in turn. -/
theorem entrySpellings_eq (entries : List (FormKey × Form)) :
    entrySpellings entries = (entryForms entries).map oddSpelling? := by
  induction entries with
  | nil => rfl
  | cons e rest ih =>
    obtain ⟨key, form⟩ := e
    have hkey : key.toForm.oddSpelling? = key.oddSpelling? := by cases key <;> rfl
    show key.oddSpelling? :: form.oddSpelling? :: entrySpellings rest = _
    rw [ih, ← hkey]
    rfl

/-- The spelling that is kept of a form is its text. -/
theorem source_of_oddSpelling? {form : Form} {text : String} (h : form.oddSpelling? = some text) :
    form.source = text := by
  unfold oddSpelling? at h
  split at h
  · split at h
    · cases h
    · exact Option.some.inj h
  · split at h
    · cases h
    · exact Option.some.inj h
  · cases h

/-- The spelling that is kept of a form spells what represents the form. -/
theorem Represents.isSpelledAs {form : Form} {v : Value} {text : String} (hw : form.Writable)
    (h : form.Represents v) (hs : form.oddSpelling? = some text) : v.IsSpelledAs text := by
  have hsource := source_of_oddSpelling? hs
  cases form with
  | num x spelling =>
    obtain rfl : v = .num x := h
    obtain rfl : spelling = text := hsource
    exact hw.isSpelledAs_num
  | text content spelling =>
    obtain rfl : v = .text content := h
    obtain rfl : spelling = text := hsource
    exact hw.isSpelledAs_text
  | _ => cases hs

/-- The spellings that are kept of forms spell what represents them. -/
theorem RepresentsEach.spellsEach {forms : List Form} {vs : List Value} (hw : ∀ form ∈ forms, form.Writable)
    (h : RepresentsEach forms vs) : SpellsEach (forms.map oddSpelling?) vs := by
  induction forms generalizing vs with
  | nil =>
    unfold RepresentsEach at h
    rw [h]
    exact .nil
  | cons form rest ih =>
    unfold RepresentsEach at h
    obtain ⟨x, xs, hx, hxs, rfl⟩ := h
    obtain ⟨hform, hrest⟩ := List.forall_mem_cons.mp hw
    exact .cons (fun text hs => hx.isSpelledAs hform hs) (ih hrest hxs)

/-- **A value that represents a form is laid out**, if the form can be written. -/
theorem Represents.isLaidOut {form : Form} {v : Value} (hw : form.Writable) (h : form.Represents v) :
    v.IsLaidOut := by
  cases form with
  | nil | bool | num | text =>
    obtain rfl := h
    exact Value.isLaidOut_of_node?_eq_none rfl
  | keyword | symbol =>
    obtain ⟨_, rfl⟩ := h
    exact Value.isLaidOut_of_node?_eq_none rfl
  | marked style gap form =>
    obtain ⟨id, head, x, hx, rfl⟩ := h
    have hgaps : ∀ g ∈ ["", gap, ""], Token.Gap false g := by
      simpa using ⟨.empty, hw.isWritable.2, .empty⟩
    have hform : form.Writable := hw.child (i := 1) rfl
    have hspells : SpellsEach [none, form.oddSpelling?] [.symbol head style.name, x] :=
      .cons nofun (.cons (fun text hs => hx.isSpelledAs hform hs) .nil)
    exact Value.isLaidOut_of_lays rfl (.kept (Style.spaces_of_gaps style rfl hgaps) hspells fun _ => rfl)
  | seq shape gaps items =>
    obtain ⟨id, vs, hvs, rfl⟩ := h
    have hlen : gaps.length = vs.length + 1 := by rw [hw.isWritable.1, hvs.length]
    exact Value.isLaidOut_of_lays rfl
      (.kept (Style.spaces_of_gaps .plain hlen hw.isWritable.2) (hvs.spellsEach hw.items) nofun)
  | map gaps entries =>
    obtain ⟨id, es, hes, rfl⟩ := h
    have hlen : ∀ node, gaps.length = (Value.map node es).children.length + 1 := by
      intro node
      rw [Value.length_children_map, hes.length, hw.isWritable.1]
    rw [entrySpellings_eq]
    exact Value.isLaidOut_of_lays rfl
      (.kept (Style.spaces_of_gaps .plain (hlen _) hw.isWritable.2) (hes.each.spellsEach hw.entries) nofun)

end Form

/-! ## Reading -/

variable {R : Registry}

theorem keeps_toKey (key : FormKey) : Keeps R (liftM key.toKey) fun R' k =>
    R'.KnownKey k ∧ key.Represents k := by
  cases key with
  | keyword name =>
    unfold FormKey.toKey
    dsimp only
    rw [lift_bind]
    refine Keeps.bind (keeps_intern name) fun R' k _ hk => Keeps.pure ⟨hk.1, k.id, ?_⟩
    rw [← hk.2]
  | text content spelling =>
    unfold FormKey.toKey
    exact Keeps.pure ⟨trivial, rfl⟩

mutual

/-- **The value of a form is known and represents the form.** -/
theorem keeps_toValue {R : Registry} (form : Form) (hf : form.Fits) (hw : form.Writable) :
    Keeps R (liftM form.toValue) fun R' v => R'.Known v ∧ form.Represents v := by
  match form with
  | .nil | .bool _ | .num _ _ | .text _ _ =>
    unfold Form.toValue Form.Represents
    exact Keeps.pure ⟨trivial, rfl⟩
  | .keyword name =>
    unfold Form.toValue Form.Represents
    rw [lift_bind]
    refine Keeps.bind (keeps_intern name) fun R' k _ hk => Keeps.pure ⟨hk.1, k.id, ?_⟩
    rw [← hk.2]
  | .symbol name =>
    unfold Form.toValue Form.Represents
    exact keeps_namedSymbol name
  | .marked style gap form =>
    unfold Form.toValue Form.Represents
    unfold Form.Fits at hf
    rw [lift_bind]
    refine Keeps.bind (keeps_namedSymbol style.name) fun R₁ head _ hhead => ?_
    obtain ⟨hknown, head, rfl⟩ := hhead
    rw [lift_bind]
    refine Keeps.bind (keeps_toValue form hf.2 (hw.child (i := 1) rfl)) fun R₂ v hle hv => ?_
    rw [lift_bind]
    have hparts : R₂.AllKnown [.symbol head style.name, v] :=
      allKnown_cons.mpr ⟨hknown.mono hle, allKnown_cons.mpr ⟨hv.1, allKnown_nil⟩⟩
    refine Keeps.bind (keeps_freshId (k := fun id => .seq .list
      ⟨id, style, some ["", gap, ""], keptSpellings [none, form.oddSpelling?]⟩
      [.symbol head style.name, v]) (fun _ => hparts)
      fun id => Form.Represents.isLaidOut hw ⟨id, head, v, hv.2, rfl⟩) fun R₃ id _ hid => ?_
    exact Keeps.pure ⟨hid, id, head, v, hv.2, rfl⟩
  | .seq shape gaps items =>
    unfold Form.toValue Form.Represents
    unfold Form.Fits at hf
    rw [lift_bind]
    refine Keeps.bind (keeps_toValues items hf.2 hw.items #[] allKnown_nil) fun R₁ vs _ hvs => ?_
    obtain ⟨hknown, hadded⟩ := hvs
    have hrep := of_added_to_nothing hadded
    rw [lift_bind]
    refine Keeps.bind (keeps_freshId (k := fun id => .seq shape
      ⟨id, .plain, some gaps, keptSpellings (items.map Form.oddSpelling?)⟩ vs) (fun _ => hknown)
      fun id => Form.Represents.isLaidOut hw ⟨id, vs, hrep, rfl⟩) fun R₂ id _ hid => ?_
    exact Keeps.pure ⟨hid, id, vs, hrep, rfl⟩
  | .map gaps entries =>
    unfold Form.toValue Form.Represents
    unfold Form.Fits at hf
    rw [lift_bind]
    refine Keeps.bind (keeps_toEntries entries hf.2.2 hw.entries #[] nofun) fun R₁ es _ hes => ?_
    obtain ⟨hknown, hadded⟩ := hes
    have hrep := of_added_to_nothing hadded
    rw [lift_bind]
    have hnodup : (Entries.names es).Nodup := hrep.names ▸ hf.2.1
    refine Keeps.bind (keeps_freshId (k := fun id => .map
      ⟨id, .plain, some gaps, keptSpellings (Form.entrySpellings entries)⟩ es) (fun _ => ⟨hnodup, hknown⟩)
      fun id => Form.Represents.isLaidOut hw ⟨id, es, hrep, rfl⟩) fun R₂ id _ hid => ?_
    exact Keeps.pure ⟨hid, id, es, hrep, rfl⟩

/-- `keeps_toValue` for forms. -/
theorem keeps_toValues {R : Registry} (forms : List Form) (hf : Form.FitsEach forms)
    (hw : ∀ form ∈ forms, form.Writable) (done : Array Value) (hd : R.AllKnown done.toList) :
    Keeps R (liftM (Form.toValues done forms)) fun R' vs =>
      R'.AllKnown vs ∧ ∃ ws, vs = done.toList ++ ws ∧ Form.RepresentsEach forms ws := by
  match forms with
  | [] =>
    unfold Form.toValues Form.RepresentsEach
    exact Keeps.pure ⟨hd, [], (List.append_nil _).symm, rfl⟩
  | form :: rest =>
    unfold Form.toValues Form.RepresentsEach
    unfold Form.FitsEach at hf
    obtain ⟨hform, hrest⟩ := List.forall_mem_cons.mp hw
    rw [lift_bind]
    refine Keeps.bind (keeps_toValue form hf.1 hform) fun R₁ v hle hv => ?_
    have hd' := allKnown_push (hd.mono hle) hv.1
    refine Keeps.mono (keeps_toValues rest hf.2 hrest _ hd') fun R₂ vs _ hvs => ?_
    obtain ⟨hknown, ws, rfl, hrep⟩ := hvs
    refine ⟨hknown, v :: ws, ?_, v, ws, hv.2, hrep, rfl⟩
    rw [Array.toList_push, List.append_assoc, List.singleton_append]

/-- `keeps_toValue` for entries. -/
theorem keeps_toEntries {R : Registry} (entries : List (FormKey × Form)) (hf : Form.FitsEntries entries)
    (hw : ∀ form ∈ Form.entryForms entries, form.Writable) (done : Array (Key × Value))
    (hd : R.EntriesKnown done.toList) :
    Keeps R (liftM (Form.toEntries done entries)) fun R' es =>
      R'.EntriesKnown es ∧ ∃ ws, es = done.toList ++ ws ∧ Form.RepresentsEntries entries ws := by
  match entries with
  | [] =>
    unfold Form.toEntries Form.RepresentsEntries
    exact Keeps.pure ⟨hd, [], (List.append_nil _).symm, rfl⟩
  | (key, form) :: rest =>
    unfold Form.toEntries Form.RepresentsEntries
    unfold Form.FitsEntries at hf
    obtain ⟨-, hparts⟩ := List.forall_mem_cons.mp hw
    obtain ⟨hform, hrest⟩ := List.forall_mem_cons.mp hparts
    rw [lift_bind]
    refine Keeps.bind (keeps_toKey key) fun R₁ k hle hk => ?_
    rw [lift_bind]
    refine Keeps.bind (keeps_toValue form hf.1 hform) fun R₂ v hle' hv => ?_
    have hd' := entriesKnown_push ((hd.mono hle).mono hle') (hk.1.mono hle') hv.1
    refine Keeps.mono (keeps_toEntries rest hf.2 hrest _ hd') fun R₃ es _ hes => ?_
    obtain ⟨hknown, ws, rfl, hrep⟩ := hes
    refine ⟨hknown, (k, v) :: ws, ?_, k, v, ws, hk.2, hv.2, hrep, rfl⟩
    rw [Array.toList_push, List.append_assoc, List.singleton_append]

end

/-! ## Drawing -/

/-- Two rows of spellings give every element the same one. -/
def SameSpellings (a b : List (Option String)) : Prop := ∀ i : Nat, a[i]?.join = b[i]?.join

theorem SameSpellings.tail {a b : List (Option String)} (h : SameSpellings a b) :
    SameSpellings a.tail b.tail := by
  intro i
  rw [List.getElem?_tail, List.getElem?_tail]
  exact h (i + 1)

theorem SameSpellings.first {a b : List (Option String)} (h : SameSpellings a b) :
    firstSpelling a = firstSpelling b := by
  unfold firstSpelling
  rw [List.head?_eq_getElem?, List.head?_eq_getElem?]
  exact h 0

/-- The spellings that a node keeps are those of its elements. -/
theorem sameSpellings_kept (spellings : List (Option String)) :
    SameSpellings ((keptSpellings spellings).getD []) spellings := by
  intro i
  unfold keptSpellings
  split
  · rfl
  · rename_i h
    rw [Option.getD_none, List.getElem?_nil]
    cases hs : spellings[i]? with
    | none => rfl
    | some s =>
      cases s with
      | none => rfl
      | some text =>
        exact absurd (List.any_eq_true.mpr ⟨_, List.mem_of_getElem? hs, rfl⟩) h

/-- The text of a leaf that keeps its spelling where that is odd is the spelling. -/
theorem spelledOr_odd (usual spelling : String) :
    spelledOr true (if usual = spelling then none else some spelling) usual = spelling := by
  split
  · rename_i h
    exact h
  · rfl

/-- A key is printed as it was written. -/
theorem FormKey.Represents.print {key : FormKey} {k : Key} (h : key.Represents k) :
    k.print true key.oddSpelling? = key.source := by
  cases key with
  | keyword name =>
    obtain ⟨id, rfl⟩ := h
    rfl
  | text content spelling =>
    cases h
    exact spelledOr_odd _ _

namespace Form

mutual

/-- **A value that represents a form is drawn as the form was written, and no atom stands in it.** -/
theorem draw_of_represents (texts : Bool → AtomId → String) {v : Value} (form : Form) (hf : form.Fits)
    (h : form.Represents v) :
    v.isFrozen ∧ v.draw texts true form.oddSpelling? = form.source := by
  match form with
  | .nil | .bool _ =>
    unfold Represents at h
    rw [h]
    exact ⟨rfl, rfl⟩
  | .num x spelling | .text content spelling =>
    unfold Represents at h
    rw [h]
    exact ⟨rfl, spelledOr_odd _ _⟩
  | .keyword name | .symbol name =>
    unfold Represents at h
    obtain ⟨id, rfl⟩ := h
    exact ⟨rfl, rfl⟩
  | .marked style gap form =>
    unfold Represents at h
    unfold Fits at hf
    obtain ⟨id, head, x, hx, rfl⟩ := h
    obtain ⟨hfrozen, hdraw⟩ := draw_of_represents texts form hf.2 hx
    obtain ⟨mark, hm⟩ := Option.isSome_iff_exists.mp hf.1
    refine ⟨?_, ?_⟩
    · rw [Value.isFrozen_marked hm]
      exact hfrozen
    · have hspelling : ((keptSpellings [none, form.oddSpelling?]).getD []).getD 1 none =
          form.oddSpelling? := by
        have hsame := sameSpellings_kept [none, form.oddSpelling?] 1
        rw [List.getD_eq_getElem?_getD]
        cases hs : ((keptSpellings [none, form.oddSpelling?]).getD [])[1]? with
        | none =>
          rw [hs] at hsame
          exact hsame
        | some spelling =>
          rw [hs] at hsame
          exact hsame
      rw [Value.draw_seq, Value.draw_marked hm, Node.drawnGaps_of_gaps rfl rfl]
      dsimp only
      rw [hspelling, hdraw, source, hm]
      rfl
  | .seq shape gaps items =>
    unfold Represents at h
    unfold Fits at hf
    obtain ⟨id, vs, hvs, rfl⟩ := h
    obtain ⟨hfrozen, hdraw⟩ := draw_of_representsEach texts items hf.2 hvs
    have hgaps : Node.drawnGaps ⟨id, .plain, some gaps, keptSpellings (items.map oddSpelling?)⟩
        vs.length = gaps := Node.drawnGaps_of_gaps rfl (by rw [hvs.length, hf.1])
    refine ⟨by rw [Value.isFrozen_bracketed fun _ _ _ hm => by cases hm]; exact hfrozen, ?_⟩
    rw [Value.draw_seq, Value.draw_bracketed (fun _ _ _ hm => by cases hm), hgaps,
      hdraw _ _ _ (sameSpellings_kept _)]
    cases shape <;> (unfold source; rfl)
  | .map gaps entries =>
    unfold Represents at h
    unfold Fits at hf
    obtain ⟨id, es, hes, rfl⟩ := h
    obtain ⟨hfrozen, hdraw⟩ := draw_of_representsEntries texts entries hf.2.2 hes
    have hgaps : Node.drawnGaps ⟨id, .plain, some gaps, keptSpellings (entrySpellings entries)⟩
        (2 * es.length) = gaps := Node.drawnGaps_of_gaps rfl (by rw [hes.length, hf.1])
    refine ⟨hfrozen, ?_⟩
    unfold Value.draw source
    dsimp only
    rw [hgaps, hdraw _ _ _ (sameSpellings_kept _)]

/-- `draw_of_represents` for forms. -/
theorem draw_of_representsEach (texts : Bool → AtomId → String) {vs : List Value} (forms : List Form)
    (hf : FitsEach forms) (h : RepresentsEach forms vs) : Value.areFrozen vs ∧ ∀ gaps spellings done,
      SameSpellings spellings (forms.map oddSpelling?) →
        Value.drawItems texts true gaps spellings done vs = sourceItems gaps done forms := by
  match forms with
  | [] =>
    unfold RepresentsEach at h
    rw [h]
    exact ⟨rfl, fun _ _ _ _ => rfl⟩
  | form :: rest =>
    unfold RepresentsEach at h
    unfold FitsEach at hf
    obtain ⟨x, xs, hx, hxs, rfl⟩ := h
    obtain ⟨hfrozen, hdraw⟩ := draw_of_represents texts form hf.1 hx
    obtain ⟨hfrozen', hdraw'⟩ := draw_of_representsEach texts rest hf.2 hxs
    refine ⟨?_, fun gaps spellings done hs => ?_⟩
    · unfold Value.areFrozen
      rw [hfrozen, hfrozen']
      rfl
    · have hfirst : firstSpelling spellings = form.oddSpelling? := hs.first
      unfold Value.drawItems sourceItems
      rw [hfirst, hdraw, hdraw' _ _ _ hs.tail]

/-- `draw_of_represents` for entries. -/
theorem draw_of_representsEntries (texts : Bool → AtomId → String) {es : Entries}
    (entries : List (FormKey × Form)) (hf : FitsEntries entries) (h : RepresentsEntries entries es) :
    Value.entriesFrozen es ∧ ∀ gaps spellings done,
      SameSpellings spellings (entrySpellings entries) →
        Value.drawEntries texts true gaps spellings done es = sourceEntries gaps done entries := by
  match entries with
  | [] =>
    unfold RepresentsEntries at h
    rw [h]
    exact ⟨rfl, fun _ _ _ _ => rfl⟩
  | (key, form) :: rest =>
    unfold RepresentsEntries at h
    unfold FitsEntries at hf
    obtain ⟨k, x, xs, hk, hx, hxs, rfl⟩ := h
    obtain ⟨hfrozen, hdraw⟩ := draw_of_represents texts form hf.1 hx
    obtain ⟨hfrozen', hdraw'⟩ := draw_of_representsEntries texts rest hf.2 hxs
    refine ⟨?_, fun gaps spellings done hs => ?_⟩
    · unfold Value.entriesFrozen
      rw [hfrozen, hfrozen']
      rfl
    · have hfirst : firstSpelling spellings = key.oddSpelling? := hs.first
      have hsecond : firstSpelling spellings.tail = form.oddSpelling? := hs.tail.first
      unfold Value.drawEntries sourceEntries
      rw [hfirst, hsecond, hk.print, hdraw, hdraw' _ _ _ hs.tail.tail]

end

end Form

/-! ## Parts -/

/-- The node that a path of child indices leads to. -/
def Value.at? (v : Value) : List Nat → Option Value
  | [] => some v
  | i :: path =>
    match v.children[i]? with
    | some child => child.at? path
    | none => none

/-- A path leads to the symbol that a mark stands for, which is not written. -/
def Value.IsImplied (v : Value) (path : List Nat) : Prop :=
  ∃ above shape node items, path = above ++ [0] ∧ v.at? above = some (.seq shape node items) ∧
    node.style.mark?.isSome

theorem Value.IsImplied.cons {v child : Value} {i : Nat} {path : List Nat}
    (hc : v.children[i]? = some child) (h : child.IsImplied path) : v.IsImplied (i :: path) := by
  obtain ⟨above, shape, node, items, rfl, ha, hm⟩ := h
  refine ⟨i :: above, shape, node, items, rfl, ?_, hm⟩
  unfold at?
  rw [hc]
  exact ha

namespace Form

theorem RepresentsEach.getElem? {forms : List Form} {vs : List Value} (h : RepresentsEach forms vs)
    {i : Nat} {v : Value} (hv : vs[i]? = some v) :
    ∃ form, forms[i]? = some form ∧ form.Represents v := by
  induction forms generalizing vs i with
  | nil =>
    unfold RepresentsEach at h
    rw [h] at hv
    cases hv
  | cons form rest ih =>
    unfold RepresentsEach at h
    obtain ⟨x, xs, hx, hxs, rfl⟩ := h
    cases i with
    | zero =>
      cases hv
      exact ⟨form, rfl, hx⟩
    | succ i => exact ih hxs hv

/-- A child of a value that represents a form represents a part of the form, or is the symbol that a mark
stands for. -/
theorem Represents.child {form : Form} (hf : form.Fits) {v child : Value} (h : form.Represents v) {i : Nat}
    (hc : v.children[i]? = some child) :
    (v.IsImplied [i] ∧ child.children = []) ∨
      ∃ part, form.child? i = some part ∧ part.Represents child := by
  cases form with
  | nil | bool | num | text =>
    unfold Represents at h
    rw [h] at hc
    cases hc
  | keyword | symbol =>
    unfold Represents at h
    obtain ⟨id, rfl⟩ := h
    cases hc
  | marked style gap form =>
    unfold Represents at h
    unfold Fits at hf
    obtain ⟨id, head, x, hx, rfl⟩ := h
    match i with
    | 0 =>
      cases hc
      exact Or.inl ⟨⟨[], _, _, _, rfl, rfl, hf.1⟩, rfl⟩
    | 1 =>
      cases hc
      exact Or.inr ⟨form, rfl, hx⟩
    | i + 2 => cases hc
  | seq shape gaps items =>
    unfold Represents at h
    obtain ⟨id, vs, hvs, rfl⟩ := h
    exact Or.inr (hvs.getElem? hc)
  | map gaps entries =>
    unfold Represents at h
    obtain ⟨id, es, hes, rfl⟩ := h
    exact Or.inr (hes.each.getElem? hc)

/-- **The nodes of a value that represents a form represent the parts of the form**, but for the symbols
that marks stand for. -/
theorem Represents.at {form : Form} {v u : Value} {path : List Nat} (hf : form.Fits)
    (h : form.Represents v) (hu : v.at? path = some u) :
    v.IsImplied path ∨ ∃ part, form.at? path = some part ∧ part.Represents u := by
  induction path generalizing form v with
  | nil =>
    cases hu
    exact Or.inr ⟨form, rfl, h⟩
  | cons i path ih =>
    unfold Value.at? at hu
    split at hu
    · rename_i child hc
      rcases h.child hf hc with ⟨himplied, hempty⟩ | ⟨part, hpart, hrep⟩
      · cases path with
        | nil => exact Or.inl himplied
        | cons j path =>
          unfold Value.at? at hu
          rw [hempty] at hu
          cases hu
      · rcases ih (hf.child hpart) hrep hu with himplied | ⟨deep, hdeep, hrep'⟩
        · exact Or.inl (himplied.cons hc)
        · refine Or.inr ⟨deep, ?_, hrep'⟩
          unfold Form.at?
          rw [hpart]
          exact hdeep
    · cases hu

end Form

/-! ## Programs -/

/-- A value has the structure and the layout of a program. -/
def Program.Represents (p : Program) (v : Value) : Prop :=
  ∃ id vs, Form.RepresentsEach p.forms vs ∧
    v = .seq .list ⟨id, .program, some p.gaps, keptSpellings (p.forms.map Form.oddSpelling?)⟩ vs

/-- A value that represents a program is laid out, if the program can be written. -/
theorem Program.Represents.isLaidOut {p : Program} {v : Value} (hw : p.Writable) (h : p.Represents v) :
    v.IsLaidOut := by
  obtain ⟨id, vs, hvs, rfl⟩ := h
  have hspaces : Style.program.Spaces vs.length p.gaps := hvs.length ▸ hw.gaps.spaces
  exact Value.isLaidOut_of_lays rfl (.kept hspaces (hvs.spellsEach hw.forms) nofun)

/-- The value of a program is known and represents it. -/
theorem keeps_programValue {p : Program} (hw : p.Writable) :
    Keeps R (liftM p.toValue) fun R' v => R'.Known v ∧ p.Represents v := by
  unfold Program.toValue
  rw [lift_bind]
  have hfits := Form.fitsEach_of_forall hw.fits
  refine Keeps.bind (keeps_toValues p.forms hfits hw.forms #[] allKnown_nil) fun R₁ vs _ hvs => ?_
  obtain ⟨hknown, hadded⟩ := hvs
  have hrep := of_added_to_nothing hadded
  rw [lift_bind]
  refine Keeps.bind (keeps_freshId (k := fun id => .seq .list
    ⟨id, .program, some p.gaps, keptSpellings (p.forms.map Form.oddSpelling?)⟩ vs) (fun _ => hknown)
    fun id => Program.Represents.isLaidOut hw ⟨id, vs, hrep, rfl⟩) fun R₂ id _ hid => ?_
  exact Keeps.pure ⟨hid, id, vs, hrep, rfl⟩

/-- A text that holds a program is read as one. -/
theorem readProgram_of_ofSource {src : String} {p : Program} (h : Program.ofSource src = .ok p) (w : World) :
    ∃ v w', readProgram src w = (.ok v, w') := by
  have hread : (Reading.ofSource src).program = .ok p := h
  unfold readProgram
  rw [hread]
  exact ⟨_, _, rfl⟩

/-- A text that holds one form is read as one. -/
theorem readForm_of_ofSource {src : String} {p : Program} {form : Form} (h : Program.ofSource src = .ok p)
    (hforms : p.forms = [form]) (w : World) : ∃ v w', readForm src w = (.ok v, w') := by
  have hread : (Reading.ofSource src).program = .ok p := h
  unfold readForm
  rw [hread]
  simp only [hforms]
  exact ⟨_, _, rfl⟩

/-- **What is read is known and represents what was written.** -/
theorem keeps_readProgram (src : String) : Keeps R (liftM (readProgram src)) fun R' r =>
    ∀ v, r = .ok v → R'.Known v ∧ ∃ p, Program.ofSource src = .ok p ∧ p.Represents v := by
  unfold readProgram
  rw [lift_bind]
  refine Keeps.bind (keeps_internAll _) fun R₁ _ _ _ => ?_
  cases hp : (Reading.ofSource src).program with
  | error e => exact Keeps.pure nofun
  | ok p =>
    dsimp only
    rw [lift_bind]
    refine Keeps.bind (keeps_programValue (Program.writable_ofSource hp)) fun R₂ v _ hv => ?_
    refine Keeps.pure fun u hu => ?_
    cases hu
    exact ⟨hv.1, p, hp, hv.2⟩

theorem keeps_readForm (src : String) : Keeps R (liftM (readForm src)) fun R' r =>
    ∀ v, r = .ok v → R'.Known v ∧ ∃ p form, Program.ofSource src = .ok p ∧ p.forms = [form] ∧
      form.Represents v := by
  unfold readForm
  rw [lift_bind]
  refine Keeps.bind (keeps_internAll _) fun R₁ _ _ _ => ?_
  cases hp : (Reading.ofSource src).program with
  | error e => exact Keeps.pure nofun
  | ok p =>
    have hwritable : p.Writable := Program.writable_ofSource hp
    dsimp only
    split
    · rename_i form hforms
      have hmem : form ∈ p.forms := hforms ▸ List.mem_cons_self
      have hfits := hwritable.fits form hmem
      have hform := hwritable.forms form hmem
      rw [lift_bind]
      refine Keeps.bind (keeps_toValue form hfits hform) fun R₂ v _ hv => Keeps.pure fun u hu => ?_
      cases hu
      exact ⟨hv.1, p, form, hp, hforms, hv.2⟩
    · exact Keeps.pure nofun
    · exact Keeps.pure nofun

/-- **A value that represents a program is drawn as the text that the program was read from.** -/
theorem Program.draw_of_represents {src : String} {p : Program} {v : Value}
    (h : Program.ofSource src = .ok p) (hv : p.Represents v) :
    v.isFrozen ∧ ∀ texts, v.draw texts true none = src := by
  have hfits := Program.fits_ofSource h
  obtain ⟨id, vs, hvs, rfl⟩ := hv
  refine ⟨?_, fun texts => ?_⟩
  · rw [Value.isFrozen_bracketed fun _ _ _ hm => by cases hm]
    exact (Form.draw_of_representsEach (fun _ _ => "") p.forms hfits.2 hvs).1
  have hdraw := (Form.draw_of_representsEach texts p.forms hfits.2 hvs).2
  rw [Value.draw_bracketed (fun _ _ _ hm => by cases hm),
    Node.drawnGaps_of_gaps rfl (by rw [hvs.length, hfits.1]), hdraw _ _ _ (sameSpellings_kept _),
    ← source_ofSource h]
  show Form.sourceItems p.gaps.tail ("" ++ p.gaps.headD "") p.forms ++ "" = p.source
  rw [String.append_empty, String.empty_append]
  rfl

end EditableLisp
