import EditableLisp.Proofs.Locality
import EditableLisp.Proofs.Numerals
import EditableLisp.Proofs.Rereading

/-!
# What a value is written as

`Form.Represents` is about values as they are read. `Form.Describes form spelling v` is about values that
were edited since: the form is what the value is written as, in a place that has a spelling. A number is
written as one that is equal to it, a node may have forgotten spellings, and the symbol that a mark stands for
may have become anything.

What is read is written as what was read (`Form.Represents.describes`), edits keep what is written
(`Form.Describes.edited`), and the text of a value is that of the form (`Form.Describes.draw`). Programs have
the same three theorems.
-/

namespace EditableLisp

open Registry

/-! ## Places -/

/-- Lists of the same length have elements in the same places. -/
theorem exists_of_length_eq {α β : Type} {as : List α} {bs : List β} (h : as.length = bs.length) {i : Nat} {b : β}
    (hb : bs[i]? = some b) : ∃ a, as[i]? = some a := by
  obtain ⟨hi, -⟩ := List.getElem?_eq_some_iff.mp hb
  exact exists_getElem? (h ▸ hi)

/-- A spelling that was forgotten is no longer there. -/
theorem join_set_none (spellings : List (Option String)) (i : Nat) : (spellings.set i none)[i]?.join = none := by
  rw [List.getElem?_set_self']
  cases spellings[i]? <;> rfl

/-- A sequence without a mark is written with brackets. -/
theorem Node.bracketed_of_style (node : Node) (h : node.style.mark? = none) (items : List Value) :
    ∀ mark head form, node.style.mark? = some mark → items = [head, form] → False := by
  rw [h]
  nofun

/-! ## Descriptions -/

namespace Form

/-- A leaf is what a value is written as, in a place that has a spelling. -/
def IsLeafOf (spelling : Option String) : Form → Value → Prop
  | nil, v => v = .nil
  | bool b, v => v = .bool b
  | num x written, v => ∃ y, v = .num y ∧ x.equal y = true ∧ spelling.getD (Number.format y) = written
  | text content written, v => v = .text content ∧ spelling.getD (Text.quote content) = written
  | keyword name, v => ∃ id, v = .keyword ⟨id, name⟩
  | symbol name, v => ∃ id, v = .symbol id name
  | _, _ => False

/-- A form is what a value is written as, in a place that has a spelling. It can be written itself. -/
inductive Describes : Form → Option String → Value → Prop where
  | leaf {form : Form} {spelling : Option String} {v : Value} : form.IsWritable →
      form.IsLeafOf spelling v → Describes form spelling v
  | marked {gap : String} {form : Form} {spelling : Option String} {node : Node} {head v : Value} :
      IsWritable (.marked node.style gap form) → node.drawnGaps 2 = ["", gap, ""] →
      Describes form (node.spellings.getD [])[1]?.join v →
      Describes (.marked node.style gap form) spelling (.seq .list node [head, v])
  | seq {shape : Shape} {gaps : List String} {items : List Form} {spelling : Option String} {node : Node}
      {vs : List Value} : IsWritable (.seq shape gaps items) → node.style = .plain →
      node.drawnGaps vs.length = gaps → vs.length = items.length → (∀ (i : Nat) part v, items[i]? = some part → vs[i]? = some v →
        Describes part (node.spellings.getD [])[i]?.join v) →
      Describes (.seq shape gaps items) spelling (.seq shape node vs)
  | map {gaps : List String} {entries : List (FormKey × Form)} {spelling : Option String} {node : Node}
      {es : Entries} : IsWritable (.map gaps entries) → node.drawnGaps (2 * es.length) = gaps →
      es.length = entries.length → (∀ (i : Nat) part v, (entryForms entries)[i]? = some part →
        (Value.map node es).children[i]? = some v → Describes part (node.spellings.getD [])[i]?.join v) →
      Describes (.map gaps entries) spelling (.map node es)

/-- Forms are what values are written as, with the spellings of a node. -/
def DescribesEach (spellings : List (Option String)) (forms : List Form) (vs : List Value) : Prop :=
  vs.length = forms.length ∧ ∀ (i : Nat) part v, forms[i]? = some part → vs[i]? = some v →
    Describes part spellings[i]?.join v

/-- A collection is not a leaf. -/
theorem IsLeafOf.children {form : Form} {spelling : Option String} {v : Value} (h : form.IsLeafOf spelling v) :
    v.children = [] := by
  cases form with
  | num | keyword | symbol =>
    obtain ⟨_, rfl, -⟩ := h
    rfl
  | text =>
    obtain ⟨rfl, -⟩ := h
    rfl
  | nil | bool =>
    obtain rfl := h
    rfl
  | _ => cases h

/-! ## What was read -/

theorem ofString?_of_ofAtom {text spelling : String} {x : Number} (h : ofAtom text = .ok (.num x spelling)) :
    Number.ofString? text = some x := by
  cases ofAtom_iff.mp h with
  | num _ hx => exact hx

/-- **A value that represents a form is written as the form.** -/
theorem Represents.describes {form : Form} {v : Value} (hw : form.Writable) (h : form.Represents v) :
    form.Describes form.oddSpelling? v := by
  induction hw generalizing v with
  | @intro form hw _ ih =>
    cases form with
    | nil | bool =>
      unfold Represents at h
      exact .leaf hw h
    | num x written =>
      unfold Represents at h
      exact .leaf hw ⟨x, h, Number.equal_self_of_ofString? (ofString?_of_ofAtom hw.2), spelledOr_odd _ _⟩
    | text content written =>
      unfold Represents at h
      exact .leaf hw ⟨h, spelledOr_odd _ _⟩
    | keyword | symbol =>
      unfold Represents at h
      exact .leaf hw h
    | marked style gap form =>
      unfold Represents at h
      obtain ⟨id, head, x, hx, rfl⟩ := h
      refine @Describes.marked gap form _ ⟨id, style, some ["", gap, ""], _⟩ _ _ hw rfl ?_
      have hspelling := sameSpellings_kept [none, form.oddSpelling?] 1
      dsimp only
      rw [hspelling]
      exact ih 1 form rfl hx
    | seq shape gaps items =>
      unfold Represents at h
      obtain ⟨id, vs, hvs, rfl⟩ := h
      have hgaps : Node.drawnGaps ⟨id, .plain, some gaps, keptSpellings (items.map Form.oddSpelling?)⟩ vs.length =
          gaps := Node.drawnGaps_of_gaps rfl (by rw [hvs.length, hw.1])
      refine .seq hw rfl hgaps hvs.length fun i part v hpart hv => ?_
      obtain ⟨part', hpart', hrep⟩ := hvs.getElem? hv
      rw [hpart] at hpart'
      cases hpart'
      have hspelling := sameSpellings_kept (items.map Form.oddSpelling?) i
      dsimp only
      rw [hspelling, List.getElem?_map, hpart]
      exact ih i part hpart hrep
    | map gaps entries =>
      unfold Represents at h
      obtain ⟨id, es, hes, rfl⟩ := h
      have hgaps : Node.drawnGaps ⟨id, .plain, some gaps, keptSpellings (entrySpellings entries)⟩
          (2 * es.length) = gaps := Node.drawnGaps_of_gaps rfl (by rw [hes.length, hw.1])
      refine .map hw hgaps hes.length fun i part v hpart hv => ?_
      obtain ⟨part', hpart', hrep⟩ := hes.each.getElem? hv
      rw [hpart] at hpart'
      cases hpart'
      have hspelling := sameSpellings_kept (entrySpellings entries) i
      dsimp only
      rw [hspelling, entrySpellings_eq, List.getElem?_map, hpart]
      exact ih i part hpart hrep

/-! ## Text -/

/-- Values that are drawn as forms were written are so in a row. -/
theorem drawItems_eq_sourceItems {texts : Bool → AtomId → String} {forms : List Form} {vs : List Value}
    {spellings : List (Option String)} (hlen : vs.length = forms.length)
    (h : ∀ (i : Nat) part v, forms[i]? = some part → vs[i]? = some v →
      v.draw texts true spellings[i]?.join = part.source) (gaps : List String) (done : String) :
    Value.drawItems texts true gaps spellings done vs = sourceItems gaps done forms := by
  induction forms generalizing vs spellings gaps done with
  | nil =>
    obtain rfl := List.length_eq_zero_iff.mp hlen
    rfl
  | cons form rest ih =>
    cases vs with
    | nil => cases hlen
    | cons v vs =>
      have hfirst : v.draw texts true (firstSpelling spellings) = form.source := by
        rw [firstSpelling, List.head?_eq_getElem?]
        exact h 0 form v rfl rfl
      unfold Value.drawItems sourceItems
      rw [hfirst]
      refine ih (Nat.succ.inj hlen) (fun i part u hpart hu => ?_) _ _
      rw [List.getElem?_tail]
      exact h (i + 1) part u hpart hu

/-- Values without atoms that are drawn as forms were written are so in a row. -/
theorem drawn_each {forms : List Form} {vs : List Value} {spellings : List (Option String)}
    (hlen : vs.length = forms.length) (h : ∀ (i : Nat) part v, forms[i]? = some part → vs[i]? = some v →
      v.isFrozen ∧ ∀ texts, v.draw texts true spellings[i]?.join = part.source) :
    (∀ v ∈ vs, v.isFrozen) ∧ ∀ texts gaps done,
      Value.drawItems texts true gaps spellings done vs = sourceItems gaps done forms := by
  refine ⟨fun v hv => ?_, fun texts gaps done => ?_⟩
  · obtain ⟨i, hi⟩ := List.mem_iff_getElem?.mp hv
    obtain ⟨part, hpart⟩ := exists_of_length_eq hlen.symm hi
    exact (h i part v hpart hi).1
  · exact drawItems_eq_sourceItems hlen (fun i part v hpart hv => (h i part v hpart hv).2 texts) gaps done

/-- **A value is drawn as what it is written as, and no atom stands in it.** -/
theorem Describes.draw {form : Form} {spelling : Option String} {v : Value} (h : form.Describes spelling v) :
    v.isFrozen ∧ ∀ texts, v.draw texts true spelling = form.source := by
  induction h with
  | @leaf form spelling v hw hv =>
    cases form with
    | nil | bool =>
      obtain rfl := hv
      exact ⟨rfl, fun _ => rfl⟩
    | num x written =>
      obtain ⟨y, rfl, -, rfl⟩ := hv
      exact ⟨rfl, fun _ => rfl⟩
    | text content written =>
      obtain ⟨rfl, rfl⟩ := hv
      exact ⟨rfl, fun _ => rfl⟩
    | keyword | symbol =>
      obtain ⟨id, rfl⟩ := hv
      exact ⟨rfl, fun _ => rfl⟩
    | _ => cases hv
  | @marked gap form spelling node head v hw hgaps _ ih =>
    obtain ⟨mark, hm⟩ := Option.isSome_iff_exists.mp hw.1
    refine ⟨by rw [Value.isFrozen_marked hm]; exact ih.1, fun texts => ?_⟩
    rw [Value.draw_seq, Value.draw_marked hm, hgaps, getD_none, ih.2, source, hm]
    rfl
  | @seq shape gaps items spelling node vs hw hstyle hgaps hlen _ ih =>
    obtain ⟨hfrozen, hdrawn⟩ := drawn_each hlen ih
    have hb := node.bracketed_of_style (by rw [hstyle]; rfl) vs
    refine ⟨?_, fun texts => ?_⟩
    · rw [Value.isFrozen_bracketed hb]
      exact Value.areFrozen_iff.mpr hfrozen
    · rw [Value.draw_seq, Value.draw_bracketed hb, hgaps, hdrawn, hstyle]
      cases shape <;> (unfold source; rfl)
  | @map gaps entries spelling node es hw hgaps hlen _ ih =>
    have hlen' : (Value.map node es).children.length = (entryForms entries).length := by
      rw [Value.length_children_map, length_entryForms, hlen]
    obtain ⟨hfrozen, hdrawn⟩ := drawn_each hlen' ih
    refine ⟨Value.isFrozen_map.mpr fun e he => ?_, fun texts => ?_⟩
    · exact hfrozen e.2 (List.mem_flatMap.mpr ⟨e, he, List.mem_cons_of_mem _ List.mem_cons_self⟩)
    · rw [Value.draw_map, Value.draw_entries, hgaps, hdrawn, source, sourceEntries_eq]

/-! ## Edits -/

/-- Another form is what is written in one place, without a spelling. -/
theorem DescribesEach.set {spellings : List (Option String)} {forms : List Form} {vs : List Value}
    (h : DescribesEach spellings forms vs) {part : Form} {v : Value} (hv : part.Describes none v) (i : Nat) :
    DescribesEach (spellings.set i none) (forms.set i part) (vs.set i v) := by
  refine ⟨by rw [List.length_set, List.length_set, h.1], fun j part' v' hpart hv' => ?_⟩
  by_cases hij : i = j
  · subst hij
    rw [List.getElem?_set, if_pos rfl] at hpart hv'
    split at hpart
    · split at hv'
      · cases hpart
        cases hv'
        rwa [join_set_none]
      · cases hv'
    · cases hpart
  · rw [List.getElem?_set_ne hij] at hpart hv' ⊢
    exact h.2 j part' v' hpart hv'

/-- Replacing the key of an entry replaces it among the keys and forms in turn. -/
theorem entryForms_set_key {entries : List (FormKey × Form)} {i : Nat} {key : FormKey} {form : Form}
    (h : entries[i]? = some (key, form)) (key' : FormKey) :
    entryForms (entries.set i (key', form)) = (entryForms entries).set (2 * i) key'.toForm := by
  induction entries generalizing i with
  | nil => cases h
  | cons first rest ih =>
    cases i with
    | zero =>
      cases h
      rfl
    | succ i =>
      show first.1.toForm :: first.2 :: entryForms (rest.set i (key', form)) = _
      rw [ih h]
      rfl

/-- Replacing the form of an entry replaces it among the keys and forms in turn. -/
theorem entryForms_set_form {entries : List (FormKey × Form)} {i : Nat} {key : FormKey} {form : Form}
    (h : entries[i]? = some (key, form)) (form' : Form) :
    entryForms (entries.set i (key, form')) = (entryForms entries).set (2 * i + 1) form' := by
  induction entries generalizing i with
  | nil => cases h
  | cons first rest ih =>
    cases i with
    | zero =>
      cases h
      rfl
    | succ i =>
      show first.1.toForm :: first.2 :: entryForms (rest.set i (key, form')) = _
      rw [ih h]
      rfl

/-- What a key is written as is the form of a key. -/
theorem Describes.exists_key {form : Form} {spelling : Option String} {v : Value}
    (h : form.Describes spelling v) {k : Key} (hk : v.key? = some k) :
    ∃ key : FormKey, key.toForm = form ∧ key.name = k.name := by
  cases h with
  | leaf _ hv =>
    cases form with
    | keyword name =>
      obtain ⟨id, rfl⟩ := hv
      cases hk
      exact ⟨.keyword name, rfl, rfl⟩
    | text content written =>
      obtain ⟨rfl, -⟩ := hv
      cases hk
      exact ⟨.text content written, rfl, rfl⟩
    | nil | bool =>
      obtain rfl := hv
      cases hk
    | num | symbol =>
      obtain ⟨_, rfl, -⟩ := hv
      cases hk
    | _ => cases hv
  | _ => cases hk

variable {R : Registry} {w : World} {form : Form} {spelling : Option String}

/-- **A collection made anew is written as a form if the new child is**, where the child is written at all. -/
theorem Describes.remade {owner owner' child child' : Value} {id : NodeId} {i : Nat} (hw : R.Ok w)
    (hknown : R.Known owner) (h : form.Describes spelling owner) (hc : owner.children[i]? = some child)
    (hr : Remade w id i child' owner owner')
    (hnew : (form.child? i).isSome → ∃ part : Form, part.Describes none child') :
    ∃ form' : Form, form'.Describes none owner' := by
  have hchildren := hr.children
  cases h with
  | leaf _ hv =>
    rw [hv.children] at hc
    cases hc
  | @marked gap form _ node head v hwritable hgaps hv =>
    cases hr with
    | item hi =>
      have hgaps' : (node.remade w 2 i id).drawnGaps 2 = ["", gap, ""] :=
        (drawsAs_gaps hw hknown rfl id).gaps.trans hgaps
      match i, hc with
      | 0, _ =>
        refine ⟨.marked node.style gap form,
          @Describes.marked gap form none (node.remade w 2 0 id) _ _ hwritable hgaps' ?_⟩
        have hsame : ((node.remade w 2 0 id).spellings.getD [])[1]?.join = (node.spellings.getD [])[1]?.join := by
          rw [Node.remade, getD_map_set, List.getElem?_set_ne (by decide)]
        rwa [hsame]
      | 1, _ =>
        obtain ⟨part, hpart⟩ := hnew rfl
        refine ⟨.marked node.style gap part,
          @Describes.marked gap part none (node.remade w 2 1 id) _ _ hwritable hgaps' ?_⟩
        rwa [Node.remade, getD_map_set, join_set_none]
      | i + 2, hc => cases hc
  | @seq shape gaps items _ node vs hwritable hstyle hgaps hlen hparts =>
    cases hr with
    | item hi =>
      obtain ⟨part, hpart⟩ := exists_of_length_eq hlen.symm hc
      have hnew : ∃ part : Form, part.Describes none child' := hnew (Option.isSome_iff_exists.mpr ⟨part, hpart⟩)
      obtain ⟨part', hpart'⟩ := hnew
      have heach := DescribesEach.set ⟨hlen, hparts⟩ hpart' i
      have hgaps' : (node.remade w vs.length i id).drawnGaps (vs.set i child').length = gaps := by
        rw [List.length_set]
        exact (drawsAs_gaps hw hknown rfl id).gaps.trans hgaps
      refine ⟨.seq shape gaps (items.set i part'), @Describes.seq shape gaps _ none (node.remade w vs.length i id) _
        ?_ hstyle hgaps' heach.1 ?_⟩
      · exact ⟨by rw [List.length_set]; exact hwritable.1, hwritable.2⟩
      · rw [Node.remade, getD_map_set]
        exact heach.2
  | @map gaps entries _ node es hwritable hgaps hlen hparts =>
    have hlen' : (Value.map node es).children.length = (entryForms entries).length := by
      rw [Value.length_children_map, length_entryForms, hlen]
    obtain ⟨part, hpart⟩ := exists_of_length_eq hlen'.symm hc
    have hnew : ∃ part : Form, part.Describes none child' := hnew (Option.isSome_iff_exists.mpr ⟨part, hpart⟩)
    obtain ⟨part', hpart'⟩ := hnew
    have heach := DescribesEach.set ⟨hlen', hparts⟩ hpart' i
    have hmap : ∀ (entries' : List (FormKey × Form)) (es' : Entries),
        owner' = .map (node.remade w (2 * es.length) i id) es' → es'.length = es.length →
        entries'.length = entries.length → entryForms entries' = (entryForms entries).set i part' →
        ∃ form' : Form, form'.Describes none owner' := by
      rintro entries' es' rfl hes' hentries' hforms
      refine ⟨.map gaps entries', @Describes.map gaps entries' none (node.remade w (2 * es.length) i id) es'
        ⟨by rw [hentries']; exact hwritable.1, hwritable.2⟩ ?_ (by rw [hes', hentries', hlen]) ?_⟩
      · rw [hes']
        exact (drawsAs_gaps hw hknown rfl id).gaps.trans hgaps
      · rw [hforms, hchildren, Node.remade, getD_map_set]
        exact heach.2
    cases hr with
    | key hi he hk _ =>
      obtain ⟨⟨_, form⟩, hentry⟩ := exists_of_length_eq hlen.symm he
      obtain ⟨key, rfl, -⟩ := hpart'.exists_key hk
      refine hmap _ _ rfl List.length_set List.length_set ((entryForms_set_key hentry key).trans ?_)
      rw [hi]
    | value hi he =>
      obtain ⟨⟨key, _⟩, hentry⟩ := exists_of_length_eq hlen.symm he
      refine hmap _ _ rfl List.length_set List.length_set ((entryForms_set_form hentry part').trans ?_)
      rw [hi]

/-- A child is written as the part of the form in its place, if there is one. -/
theorem Describes.child {v child : Value} {part : Form} {i : Nat} (h : form.Describes spelling v)
    (hc : v.children[i]? = some child) (hpart : form.child? i = some part) :
    part.Describes (v.spelling? i) child := by
  cases h with
  | leaf _ hv =>
    rw [hv.children] at hc
    cases hc
  | marked _ _ hv =>
    match i, hc, hpart with
    | 1, hc, hpart =>
      cases hc
      cases hpart
      exact hv
  | seq _ _ _ _ hparts => exact hparts i part child hpart hc
  | map _ _ _ hparts => exact hparts i part child hpart hc

/-- **An edited value is written as a form if the new value is.** -/
theorem Describes.edited {v v' new : Value} {path : List Nat} (hw : R.Ok w) (hknown : R.Known v)
    (h : form.Describes spelling v) (he : Edited w new path v v') (hnew : ∃ part : Form, part.Describes none new) :
    ∃ form' : Form, form'.Describes none v' := by
  induction he generalizing form spelling with
  | here => exact hnew
  | there hc _ hr ih =>
    refine h.remade hw hknown hc hr fun hsome => ?_
    obtain ⟨part, hpart⟩ := Option.isSome_iff_exists.mp hsome
    exact ih (hw.known_children hknown _ (List.mem_of_getElem? hc)) (h.child hc hpart)

end Form

/-! ## Programs -/

/-- A program is what a value is written as. -/
inductive Program.Describes (p : Program) : Value → Prop where
  | intro {node : Node} {vs : List Value} : p.IsWritable → node.style = .program →
      node.drawnGaps vs.length = p.gaps → Form.DescribesEach (node.spellings.getD []) p.forms vs → p.Describes (.seq .list node vs)

namespace Program

variable {p : Program} {R : Registry} {w : World}

/-- **A value that represents a program is written as the program.** -/
theorem Represents.describes {src : String} {v : Value} (h : ofSource src = .ok p) (hv : p.Represents v) :
    p.Describes v := by
  obtain ⟨hwritable, hforms, -⟩ := writable_ofSource h
  obtain ⟨id, vs, hvs, rfl⟩ := hv
  have hgaps : Node.drawnGaps ⟨id, .program, some p.gaps, keptSpellings (p.forms.map Form.oddSpelling?)⟩
      vs.length = p.gaps := Node.drawnGaps_of_gaps rfl (by rw [hvs.length, hwritable.length])
  refine .intro hwritable rfl hgaps ⟨hvs.length, fun i part v hpart hv => ?_⟩
  obtain ⟨part', hpart', hrep⟩ := hvs.getElem? hv
  rw [hpart] at hpart'
  cases hpart'
  have hspelling := sameSpellings_kept (p.forms.map Form.oddSpelling?) i
  dsimp only
  rw [hspelling, List.getElem?_map, hpart]
  exact hrep.describes (hforms part (List.mem_of_getElem? hpart))

/-- **An edited program is written as a program**, if the edit is not at the root. -/
theorem Describes.edited {v v' new : Value} {path : List Nat} (hw : R.Ok w) (hknown : R.Known v)
    (h : p.Describes v) (he : Edited w new path v v') (hne : path ≠ [])
    (hnew : ∃ part : Form, part.Describes none new) : ∃ p' : Program, p'.Describes v' := by
  cases he with
  | here => exact absurd rfl hne
  | @there i path _ _ child child' hc he hr =>
    cases h with
    | @intro node vs hwritable hstyle hgaps heach =>
      have hchild : R.Known child := hw.known_children hknown child (List.mem_of_getElem? hc)
      cases hr with
      | item hi =>
        obtain ⟨part, hpart⟩ := exists_of_length_eq heach.1.symm hc
        obtain ⟨part', hpart'⟩ := (heach.2 i part child hpart hc).edited hw hchild he hnew
        have hgaps' : ∀ id, (node.remade w vs.length i id).drawnGaps vs.length = p.gaps := fun id =>
          (drawsAs_gaps hw hknown rfl id).gaps.trans hgaps
        refine ⟨⟨p.gaps, p.forms.set i part'⟩, @Describes.intro _ (node.remade w vs.length i _) _ ?_ hstyle ?_ ?_⟩
        · exact ⟨by rw [List.length_set]; exact hwritable.length, hwritable.leads, hwritable.last⟩
        · rw [List.length_set]
          exact hgaps' _
        · rw [Node.remade, getD_map_set]
          exact heach.set hpart' i

/-- **A value is drawn as the program that it is written as, and no atom stands in it.** -/
theorem Describes.draw {v : Value} (h : p.Describes v) :
    v.isFrozen ∧ ∀ texts, v.draw texts true none = p.source := by
  cases h with
  | @intro node vs hwritable hstyle hgaps heach =>
    obtain ⟨hfrozen, hdrawn⟩ := Form.drawn_each heach.1 fun i part v hpart hv => (heach.2 i part v hpart hv).draw
    have hb := node.bracketed_of_style (by rw [hstyle]; rfl) vs
    refine ⟨?_, fun texts => ?_⟩
    · rw [Value.isFrozen_bracketed hb]
      exact Value.areFrozen_iff.mpr hfrozen
    · rw [Value.draw_bracketed hb, hgaps, hdrawn, hstyle]
      show Form.sourceItems p.gaps.tail ("" ++ p.gaps.headD "") p.forms ++ "" = p.source
      rw [String.append_empty, String.empty_append]
      rfl

end Program

end EditableLisp
