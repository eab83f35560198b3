import EditableLisp.Source.Reader
import EditableLisp.Value.Entries
import EditableLisp.Proofs.Drawing
import EditableLisp.Proofs.Rereading

/-!
# Layouts

A node that was read keeps how it was written: the gaps around its elements, and the spellings of those that
print otherwise. `Node.Lays node parts` says that what a node keeps is a layout of its elements:

* there is one gap more than there are elements, and all of them are blank text. Only the last gap of a
  program may end inside a comment (`Style.Spaces`);
* there is a place for the spelling of each element. Only numbers and strings have one, and read on its own it
  gives the very element (`SpellsEach`);
* what is written with a mark has two elements.

A form that is read has a layout (`Node.Lays.kept`). New nodes are made of old ones in three ways, and a layout
stays one in each: where an element takes the place of another and has no spelling (`Node.Lays.replaced`), where
elements are put in and all spellings are dropped (`Node.Lays.mapped`), and where the numbers and strings stay
what they are (`Node.Lays.copied`).
-/

namespace EditableLisp

/-! ## Gaps -/

/-- Gaps stand around so many elements. Only the last one of a program may end inside a comment. -/
structure Style.Spaces (style : Style) (count : Nat) (gaps : List String) : Prop where
  length : gaps.length = count + 1
  blank : ∀ (i : Nat) gap, gaps[i]? = some gap →
    ∃ inside, Token.Gap inside gap ∧ (inside = true → style = .program ∧ i = count)

/-- Gaps whose comments all end with their lines may stand anywhere. -/
theorem Style.spaces_of_gaps {gaps : List String} {count : Nat} (style : Style)
    (hlen : gaps.length = count + 1) (hg : ∀ gap ∈ gaps, Token.Gap false gap) : style.Spaces count gaps where
  length := hlen
  blank _ gap hi := ⟨false, hg gap (List.mem_of_getElem? hi), nofun⟩

theorem gap_defaultGaps (style : Style) (count : Nat) : ∀ gap ∈ defaultGaps style count, Token.Gap false gap := by
  have hspace : Token.Gap false " " := @Token.Gap.blank "" ' ' .empty rfl
  intro gap hgap
  unfold defaultGaps at hgap
  split at hgap
  · rw [List.mem_singleton.mp hgap]
    exact .empty
  · simp only [List.cons_append, List.mem_cons, List.mem_append, List.mem_replicate, List.not_mem_nil,
      or_false] at hgap
    rcases hgap with rfl | ⟨-, rfl⟩ | rfl
    · exact .empty
    · split
      · exact .empty
      · exact hspace
    · exact .empty

/-- The gaps that a world holds for a node are the default ones if they are not those that it was read with. -/
theorem Style.Spaces.held {w : World} {node : Node} {count : Nat}
    (h : ∀ gaps, node.gaps = some gaps → node.style.Spaces count gaps) :
    ∀ gaps, w.gaps? node count = some gaps → node.style.Spaces count gaps := by
  intro gaps hgaps
  unfold World.gaps? at hgaps
  split at hgaps
  · cases hgaps
    exact Style.spaces_of_gaps _ (length_defaultGaps _ _) (gap_defaultGaps _ _)
  · exact h gaps hgaps

/-- The gaps of a program that can be written stand around its forms. -/
theorem Program.IsWritable.spaces {p : Program} (h : p.IsWritable) :
    Style.program.Spaces p.forms.length p.gaps where
  length := h.length
  blank i gap hi := by
    obtain ⟨inside, hlast⟩ := h.last
    obtain ⟨hlt, -⟩ := List.getElem?_eq_some_iff.mp hi
    have hlen := h.length
    by_cases hi' : i = p.forms.length
    · have heq : p.gaps.getLastD "" = gap := by
        rw [List.getLastD_eq_getLast?, List.getLast?_eq_getElem?, hlen, Nat.add_sub_cancel, ← hi', hi]
        rfl
      exact ⟨inside, heq ▸ hlast, fun _ => ⟨rfl, hi'⟩⟩
    · have hlead : p.gaps.dropLast[i]? = some gap := by
        rw [List.getElem?_dropLast, if_pos (by omega), hi]
      exact ⟨false, h.leads gap (List.mem_of_getElem? hlead), nofun⟩

/-! ## Spellings -/

/-- A value is a number or a string, and a text that is read on its own gives this very value. -/
def Value.IsSpelledAs (v : Value) (text : String) : Prop :=
  ((∃ x, v = .num x) ∨ ∃ content, v = .text content) ∧ ∀ w, readForm text w = (.ok v, w)

/-- There is a place for the spelling of each element, and what stands there spells the element. -/
structure SpellsEach (spellings : List (Option String)) (parts : List Value) : Prop where
  length : spellings.length = parts.length
  spelled : ∀ (i : Nat) text, spellings[i]? = some (some text) → ∃ v, parts[i]? = some v ∧ v.IsSpelledAs text

/-- A clear form without keywords is read from its text, wherever this is done. -/
theorem Form.readForm_source {form : Form} (h : form.Writable) (hf : form.Fits) (hc : form.Clear)
    (hk : form.keywords = []) (w : World) :
    readForm form.source w = (.ok (form.toValue w).1, (form.toValue w).2) := by
  have hsource := Form.ofSource_source h hf hc
  have hread : (Reading.ofSource form.source).program = .ok ⟨["", ""], [form]⟩ := hsource
  have hkeywords : (Reading.ofSource form.source).keywords = [] := by
    rw [keywords_ofSource hsource]
    exact List.append_eq_nil_iff.mpr ⟨hk, rfl⟩
  unfold readForm
  rw [hread, hkeywords]
  rfl

/-- A number that can be written is spelled as it was. -/
theorem Form.Writable.isSpelledAs_num {x : Number} {spelling : String} (h : (num x spelling).Writable) :
    (Value.num x).IsSpelledAs spelling := by
  refine ⟨Or.inl ⟨x, rfl⟩, fun w => ?_⟩
  have hread := readForm_source h trivial (clear_of_isLeaf rfl) rfl w
  rwa [source, toValue] at hread

/-- A string that can be written is spelled as it was. -/
theorem Form.Writable.isSpelledAs_text {content spelling : String} (h : (text content spelling).Writable) :
    (Value.text content).IsSpelledAs spelling := by
  refine ⟨Or.inr ⟨content, rfl⟩, fun w => ?_⟩
  have hread := readForm_source h trivial (clear_of_isLeaf rfl) rfl w
  rwa [source, toValue] at hread

/-- A number or a string, as it is. -/
def Value.literal? : Value → Option Value
  | .num x => some (.num x)
  | .text s => some (.text s)
  | _ => none

theorem Value.eq_of_literal? {u v : Value} (h : u.literal? = some v) : u = v := by
  cases u with
  | num | text => exact Option.some.inj h
  | _ => cases h

theorem Value.IsSpelledAs.literal? {v : Value} {text : String} (h : v.IsSpelledAs text) : v.literal? = some v := by
  rcases h.1 with ⟨x, rfl⟩ | ⟨content, rfl⟩
  · rfl
  · rfl

namespace SpellsEach

variable {spellings : List (Option String)} {parts parts' : List Value}

theorem nil : SpellsEach [] [] := ⟨rfl, nofun⟩

theorem cons {spelling : Option String} {v : Value} (hv : ∀ text, spelling = some text → v.IsSpelledAs text)
    (h : SpellsEach spellings parts) : SpellsEach (spelling :: spellings) (v :: parts) where
  length := congrArg Nat.succ h.length
  spelled i text hi := by
    cases i with
    | zero => exact ⟨v, rfl, hv text (Option.some.inj hi)⟩
    | succ i => exact h.spelled i text hi

/-- Another element may stand where a spelling is forgotten. -/
theorem set (h : SpellsEach spellings parts) (index : Nat) (child : Value) :
    SpellsEach (spellings.set index none) (parts.set index child) where
  length := by rw [List.length_set, List.length_set, h.length]
  spelled i text hi := by
    by_cases he : index = i
    · subst he
      rw [List.getElem?_set_self'] at hi
      cases hs : spellings[index]? <;> rw [hs] at hi <;> cases hi
    · rw [List.getElem?_set_ne he] at hi ⊢
      exact h.spelled i text hi

/-- Elements with the same numbers and strings in the same places have the same spellings. -/
theorem of_literals (h : SpellsEach spellings parts) (hp : parts'.map Value.literal? = parts.map Value.literal?) :
    SpellsEach spellings parts' where
  length := by
    have hlen := congrArg List.length hp
    rw [List.length_map, List.length_map] at hlen
    rw [hlen, h.length]
  spelled i text hi := by
    -- what has a spelling is a literal, so in its place stands the same
    obtain ⟨v, hv, hspelled⟩ := h.spelled i text hi
    have hat := congrArg (fun l => l[i]?) hp
    rw [List.getElem?_map, List.getElem?_map, hv, Option.map_some, hspelled.literal?, Option.map_eq_some_iff] at hat
    obtain ⟨v', hv', hl⟩ := hat
    rw [Value.eq_of_literal? hl] at hv'
    exact ⟨v, hv', hspelled⟩

end SpellsEach

/-! ## Nodes -/

/-- What a node keeps is a layout of its elements. -/
structure Node.Lays (node : Node) (parts : List Value) : Prop where
  gaps : ∀ gaps, node.gaps = some gaps → node.style.Spaces parts.length gaps
  spellings : ∀ spellings, node.spellings = some spellings → SpellsEach spellings parts
  marked : node.style.mark?.isSome → parts.length = 2

namespace Node.Lays

variable {node : Node} {parts parts' : List Value} {count : Nat}

/-- A node without a layout may have any elements. -/
theorem bare (id : NodeId) (parts : List Value) : (Node.bare id).Lays parts := ⟨nofun, nofun, nofun⟩

/-- A node that is read keeps all gaps, and the spellings if there is one. -/
theorem kept {id : NodeId} {style : Style} {gaps : List String} {spellings : List (Option String)}
    (hg : style.Spaces parts.length gaps) (hs : SpellsEach spellings parts)
    (hm : style.mark?.isSome → parts.length = 2) :
    Node.Lays ⟨id, style, some gaps, keptSpellings spellings⟩ parts where
  gaps _ h := Option.some.inj h ▸ hg
  spellings kept h := by
    have heq : keptSpellings spellings = some kept := h
    unfold keptSpellings at heq
    split at heq
    · exact Option.some.inj heq ▸ hs
    · cases heq
  marked := hm

/-- Another element takes the place of one, and the layout of the others stays. -/
theorem replaced (h : node.Lays parts) (hc : parts.length = count) (w : World) (id : NodeId) (index : Nat)
    (child : Value) :
    Node.Lays ⟨id, node.style, w.gaps? node count, node.spellings.map fun s => s.set index none⟩
      (parts.set index child) where
  gaps := by
    rw [List.length_set, hc]
    exact Style.Spaces.held (hc ▸ h.gaps)
  spellings spellings hs := by
    obtain ⟨old, hold, rfl⟩ := Option.map_eq_some_iff.mp hs
    exact (h.spellings old hold).set index child
  marked hm := by
    rw [List.length_set]
    exact h.marked hm

/-- As many other elements have the same gaps. -/
theorem mapped (h : node.Lays parts) (hc : parts.length = count) (w : World) (id : NodeId)
    (hlen : parts'.length = parts.length) :
    Node.Lays ⟨id, node.style, w.gaps? node count, none⟩ parts' where
  gaps := by
    rw [hlen, hc]
    exact Style.Spaces.held (hc ▸ h.gaps)
  spellings := nofun
  marked hm := hlen.trans (h.marked hm)

/-- Elements with the same numbers and strings have the same layout. -/
theorem copied (h : node.Lays parts) (hc : parts.length = count) (w : World) (id : NodeId)
    (hp : parts'.map Value.literal? = parts.map Value.literal?) :
    Node.Lays ⟨id, node.style, w.gaps? node count, node.spellings⟩ parts' := by
  have hlen : parts'.length = parts.length := by
    have := congrArg List.length hp
    rwa [List.length_map, List.length_map] at this
  refine ⟨?_, fun spellings hs => (h.spellings spellings hs).of_literals hp, fun hm => hlen.trans (h.marked hm)⟩
  rw [hlen, hc]
  exact Style.Spaces.held (hc ▸ h.gaps)

end Node.Lays

/-! ## Collections -/

namespace Value

/-- The node of a collection. -/
def node? : Value → Option Node
  | seq _ node _ => some node
  | map node _ => some node
  | _ => none

theorem length_children_map (node : Node) (es : Entries) : (map node es).children.length = 2 * es.length := by
  induction es with
  | nil => rfl
  | cons e rest ih =>
    show ((map node rest).children).length + 1 + 1 = 2 * (rest.length + 1)
    omega

/-- What the node of a collection keeps is a layout of the elements. -/
def IsLaidOut (v : Value) : Prop := ∀ node, v.node? = some node → node.Lays v.children

variable {v : Value}

theorem isLaidOut_of_node?_eq_none (h : v.node? = none) : v.IsLaidOut := by
  intro node hn
  rw [h] at hn
  cases hn

/-- A collection is laid out if what its node keeps is a layout of its elements. -/
theorem isLaidOut_of_lays {node : Node} (hn : v.node? = some node) (h : node.Lays v.children) : v.IsLaidOut := by
  intro other ho
  rw [hn] at ho
  cases ho
  exact h

/-- A collection that was not read is laid out. -/
theorem isLaidOut_of_bare {id : NodeId} (h : v.node? = some (.bare id)) : v.IsLaidOut :=
  isLaidOut_of_lays h (.bare id _)

end Value

end EditableLisp
