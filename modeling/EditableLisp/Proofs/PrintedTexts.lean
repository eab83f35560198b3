import Mathlib.Data.List.Forall2
import EditableLisp.Proofs.Containing
import EditableLisp.Proofs.Copying

/-!
# The text that is printed

Printing a value uses the texts that are kept, right or not, and keeps more. `Value.shown` is the text that comes
out, as a function of the texts that are kept before. It is what is printed, if the atoms in the value are nested
no deeper than there are atoms (**`printWith_eq`**): a text that is kept on the way is the one that its node is
shown with anyway (`Filled`). With no text kept it is the text that is drawn (`textWith_none`).

Collections are shown alike if they are laid out alike and their elements are shown alike (`shown_seq_congr`,
`shown_map_congr`). How far atoms are followed does not matter beyond the depth to which they are nested
(`Nested.shown_eq`), and only the contents of the atoms in a value matter (`shown_of_contents`).
-/

namespace EditableLisp

open Registry

/-! ## Texts -/

namespace Value

mutual

/-- The text of a value that was read with a spelling, given the texts that are kept and those of atoms. -/
def shown (kept : NodeId → Option String) (texts : Bool → AtomId → String) (readably : Bool)
    (spelling : Option String) : Value → String
  | nil => "nil"
  | bool b => if b then "true" else "false"
  | num x => spelledOr readably spelling (Number.format x)
  | text s => spelledOr readably spelling (stringText readably s)
  | keyword k => ":" ++ k.name
  | symbol _ name => name
  | seq shape node items =>
    match if readably then kept node.id else none with
    | some own => own
    | none =>
      let gaps := node.drawnGaps items.length
      let spellings := node.spellings.getD []
      match node.style.mark?, items with
      | some mark, [_, form] =>
        mark ++ gaps.getD 1 "" ++ shown kept texts readably (spellings.getD 1 none) form
      | _, items =>
        let (opening, closing) := brackets node.style shape
        shownItems kept texts readably gaps.tail spellings (opening ++ gaps.headD "") items ++ closing
  | map node entries =>
    match if readably then kept node.id else none with
    | some own => own
    | none =>
      let gaps := node.drawnGaps (2 * entries.length)
      shownEntries kept texts readably gaps.tail (node.spellings.getD []) ("\x7b" ++ gaps.headD "") entries ++
        "\x7d"
  | builtin _ code _ => "#<native " ++ code.name ++ ">"
  | closure _ kind params body _ _ =>
    "(" ++ kind.word ++ " " ++ shown kept texts true none params ++ " " ++ shown kept texts true none body ++ ")"
  | atom id => "(atom " ++ texts readably id ++ ")"

/-- Adds the texts of elements, each with the gap after it. -/
def shownItems (kept : NodeId → Option String) (texts : Bool → AtomId → String) (readably : Bool)
    (gaps : List String) (spellings : List (Option String)) (done : String) : List Value → String
  | [] => done
  | v :: rest =>
    shownItems kept texts readably gaps.tail spellings.tail
      (done ++ shown kept texts readably (firstSpelling spellings) v ++ gaps.headD "") rest

/-- Adds the texts of entries, with the gap after each key and each value. -/
def shownEntries (kept : NodeId → Option String) (texts : Bool → AtomId → String) (readably : Bool)
    (gaps : List String) (spellings : List (Option String)) (done : String) : List (Key × Value) → String
  | [] => done
  | (k, v) :: rest =>
    shownEntries kept texts readably gaps.tail.tail spellings.tail.tail
      (done ++ k.print readably (firstSpelling spellings) ++ gaps.headD "" ++
        shown kept texts readably (firstSpelling spellings.tail) v ++ gaps.tail.headD "") rest

end

variable {kept kept' : NodeId → Option String} {texts texts' : Bool → AtomId → String} {readably : Bool}

/-! ## Values that are shown alike -/

/-- Two values have the same text, with every spelling. -/
def ShownAlike (kept : NodeId → Option String) (texts : Bool → AtomId → String) (kept' : NodeId → Option String)
    (texts' : Bool → AtomId → String) (readably : Bool) (v v' : Value) : Prop :=
  ∀ spelling, v'.shown kept' texts' readably spelling = v.shown kept texts readably spelling

theorem shownItems_congr {items items' : List Value}
    (h : List.Forall₂ (ShownAlike kept texts kept' texts' readably) items items') (gaps : List String)
    (spellings : List (Option String)) (done : String) :
    shownItems kept' texts' readably gaps spellings done items' =
      shownItems kept texts readably gaps spellings done items := by
  induction h generalizing gaps spellings done with
  | nil => rfl
  | cons hv _ ih =>
    unfold shownItems
    rw [hv, ih]

theorem shownEntries_congr {entries entries' : List (Key × Value)}
    (h : List.Forall₂ (fun e e' => e'.1 = e.1 ∧ ShownAlike kept texts kept' texts' readably e.2 e'.2) entries
      entries') (gaps : List String) (spellings : List (Option String)) (done : String) :
    shownEntries kept' texts' readably gaps spellings done entries' =
      shownEntries kept texts readably gaps spellings done entries := by
  induction h generalizing gaps spellings done with
  | nil => rfl
  | @cons e e' _ _ he _ ih =>
    obtain ⟨hk, hv⟩ := he
    unfold shownEntries
    rw [hk, hv, ih]

/-- A collection has the same text with every spelling. -/
theorem shown_seq (shape : Shape) (node : Node) (items : List Value) (spelling : Option String) :
    (seq shape node items).shown kept texts readably spelling =
      (seq shape node items).shown kept texts readably none := by
  unfold shown
  rfl

theorem shown_map (node : Node) (entries : List (Key × Value)) (spelling : Option String) :
    (map node entries).shown kept texts readably spelling = (map node entries).shown kept texts readably none := by
  unfold shown
  rfl

/-- **Sequences are shown alike** if as much is kept of them, and they are laid out alike and have elements that
are shown alike. -/
theorem shown_seq_congr {node node' : Node} {items items' : List Value} (hkept : kept' node'.id = kept node.id)
    (hn : node'.DrawsAs node items.length)
    (h : List.Forall₂ (ShownAlike kept texts kept' texts' readably) items items') (shape : Shape) :
    ShownAlike kept texts kept' texts' readably (seq shape node items) (seq shape node' items') := by
  intro spelling
  unfold shown
  rw [hkept, hn.style, hn.spellings, ← h.length_eq, hn.gaps]
  split
  · rfl
  · have hitems := shownItems_congr h
    cases node.style.mark? with
    | none =>
      dsimp only
      rw [hitems]
    | some mark =>
      -- only a list of two is written with its mark
      rcases h with _ | ⟨hhead, _ | ⟨hform, _ | ⟨hnext, hrest⟩⟩⟩
      case cons.cons.nil =>
        dsimp only
        rw [hform]
      all_goals
        dsimp only
        rw [hitems]

/-- **Maps are shown alike** if as much is kept of them, and they are laid out alike and have entries that are
shown alike. -/
theorem shown_map_congr {node node' : Node} {entries entries' : List (Key × Value)}
    (hkept : kept' node'.id = kept node.id) (hn : node'.DrawsAs node (2 * entries.length))
    (h : List.Forall₂ (fun e e' => e'.1 = e.1 ∧ ShownAlike kept texts kept' texts' readably e.2 e'.2) entries
      entries') : ShownAlike kept texts kept' texts' readably (map node entries) (map node' entries') := by
  intro spelling
  unfold shown
  rw [hkept, hn.spellings, ← h.length_eq, hn.gaps]
  split
  · rfl
  · dsimp only
    rw [shownEntries_congr h]

/-! ## Nothing kept -/

theorem shownItems_none {items : List Value}
    (h : ∀ u ∈ items, ∀ spelling, u.shown (fun _ => none) texts readably spelling = u.draw texts readably spelling)
    (gaps : List String) (spellings : List (Option String)) (done : String) :
    shownItems (fun _ => none) texts readably gaps spellings done items =
      drawItems texts readably gaps spellings done items := by
  induction items generalizing gaps spellings done with
  | nil => rfl
  | cons u rest ih =>
    obtain ⟨hu, hrest⟩ := List.forall_mem_cons.mp h
    unfold shownItems drawItems
    rw [hu, ih hrest]

theorem shownEntries_none {entries : List (Key × Value)}
    (h : ∀ e ∈ entries, ∀ spelling,
      e.2.shown (fun _ => none) texts readably spelling = e.2.draw texts readably spelling)
    (gaps : List String) (spellings : List (Option String)) (done : String) :
    shownEntries (fun _ => none) texts readably gaps spellings done entries =
      drawEntries texts readably gaps spellings done entries := by
  induction entries generalizing gaps spellings done with
  | nil => rfl
  | cons e rest ih =>
    obtain ⟨he, hrest⟩ := List.forall_mem_cons.mp h
    unfold shownEntries drawEntries
    rw [he, ih hrest]

/-- **With no text kept a value is shown as it is drawn.** -/
theorem shown_none (v : Value) (readably : Bool) (spelling : Option String) :
    v.shown (fun _ => none) texts readably spelling = v.draw texts readably spelling := by
  induction v using ofParts generalizing readably spelling with
  | nil | bool | num | text | keyword | symbol | builtin =>
    unfold shown draw
    rfl
  | seq shape node items ih =>
    have hitems : ∀ u ∈ items, ∀ spelling, u.shown (fun _ => none) texts readably spelling =
        u.draw texts readably spelling := fun u hu => ih u hu readably
    rw [draw_seq, shown_seq]
    unfold shown
    rw [ite_self]
    dsimp only
    split
    · rename_i mark head form hm
      rw [draw_marked hm, hitems form (List.mem_cons_of_mem _ List.mem_cons_self)]
      rfl
    · rename_i hb
      rw [draw_bracketed hb, shownItems_none hitems]
  | map node entries ih =>
    unfold shown draw
    rw [ite_self]
    dsimp only
    rw [shownEntries_none fun e he => ih e he readably]
  | closure id kind params body env data hparams hbody _ =>
    unfold shown draw
    rw [hparams, hbody]
  | atom id =>
    unfold shown draw
    rfl

end Value

theorem Node.drawsAs_self (node : Node) (count : Nat) : node.DrawsAs node count := ⟨rfl, rfl, rfl⟩

namespace World

/-- The text of an atom's content, through at most so many atoms. -/
def contentShown (w : World) (kept : NodeId → Option String) : Nat → Bool → AtomId → String
  | 0, _, _ => ""
  | depth + 1, readably, id => (w.content id).shown kept (w.contentShown kept depth) readably none

/-- The text of a value in a world, given the texts that are kept. -/
def textWith (w : World) (kept : NodeId → Option String) (readably : Bool) (v : Value) : String :=
  v.shown kept (w.contentShown kept w.atoms.size) readably none

/-- The text of a value, were nothing kept. -/
def freshText (w : World) (readably : Bool) (v : Value) : String := v.draw (w.atomText w.atoms.size) readably none

section

variable {w w' : World} {v : Value} {kept kept' : NodeId → Option String} {texts texts' : Bool → AtomId → String}

/-- **Only the texts of the atoms in a value matter**, and what is kept of the nodes in it. -/
theorem shown_of_texts (hkept : ∀ u id, w.Within true v u → u.nodeId? = some id → kept' id = kept id)
    (h : ∀ id, w.Within true v (.atom id) → ∀ readably, texts' readably id = texts readably id) (readably : Bool) :
    Value.ShownAlike kept texts kept' texts' readably v v := by
  induction v using Value.ofParts generalizing readably with
  | nil | bool | num | text | keyword | symbol | builtin => exact fun _ => rfl
  | seq shape node items ih =>
    refine Value.shown_seq_congr (hkept _ node.id .refl rfl) (Node.drawsAs_self node _)
      (List.forall₂_same.mpr fun u hu => ?_) shape
    exact ih u hu (fun x id hx => hkept x id (.of_part hu hx)) (fun id hid => h id (.of_part hu hid)) readably
  | map node entries ih =>
    refine Value.shown_map_congr (hkept _ node.id .refl rfl) (Node.drawsAs_self node _)
      (List.forall₂_same.mpr fun e he => ⟨rfl, ?_⟩)
    have hpart : e.2 ∈ w.partsOf true (.map node entries) := List.mem_map_of_mem he
    exact ih e he (fun x id hx => hkept x id (.of_part hpart hx)) (fun id hid => h id (.of_part hpart hid)) readably
  | closure id kind params body env data hparams hbody _ =>
    have hp : params ∈ w.partsOf true (.closure id kind params body env data) := List.mem_cons_self
    have hb : body ∈ w.partsOf true (.closure id kind params body env data) :=
      List.mem_cons_of_mem _ List.mem_cons_self
    intro spelling
    unfold Value.shown
    rw [hparams (fun x id hx => hkept x id (.of_part hp hx)) (fun id hid => h id (.of_part hp hid)),
      hbody (fun x id hx => hkept x id (.of_part hb hx)) (fun id hid => h id (.of_part hb hid))]
  | atom id =>
    intro spelling
    unfold Value.shown
    rw [h id .refl]

/-- **Only the contents of the atoms in a value matter**, and what is kept of the nodes in it. -/
theorem shown_of_contents (hkept : ∀ u id, w.Within true v u → u.nodeId? = some id → kept' id = kept id)
    (h : ∀ id, w.Within true v (.atom id) → w'.content id = w.content id) (depth : Nat) (readably : Bool) :
    Value.ShownAlike kept (w.contentShown kept depth) kept' (w'.contentShown kept' depth) readably v v := by
  induction depth generalizing v readably with
  | zero => exact shown_of_texts hkept (fun _ _ _ => rfl) readably
  | succ depth ih =>
    refine shown_of_texts hkept (fun id hid readably => ?_) readably
    have hcontent : w.Within true v (w.content id) := hid.part (List.mem_singleton.mpr rfl)
    unfold contentShown
    rw [h id hid]
    exact ih (fun u id' hu => hkept u id' (hcontent.trans hu)) (fun id' hid' => h id' (hcontent.trans hid')) readably
      none

theorem contentShown_none (w : World) (depth : Nat) : w.contentShown (fun _ => none) depth = w.atomText depth := by
  induction depth with
  | zero => rfl
  | succ depth ih =>
    funext readably id
    unfold contentShown atomText
    rw [Value.shown_none, ih]

theorem textWith_none (w : World) (readably : Bool) (v : Value) :
    w.textWith (fun _ => none) readably v = w.freshText readably v := by
  unfold textWith
  rw [Value.shown_none, contentShown_none]
  rfl

theorem freshText_congr (hsize : w'.atoms.size = w.atoms.size)
    (h : ∀ id, w.Within true v (.atom id) → w'.content id = w.content id) (readably : Bool) :
    w'.freshText readably v = w.freshText readably v := by
  rw [← textWith_none, ← textWith_none]
  unfold textWith
  rw [hsize]
  exact shown_of_contents (fun _ _ _ _ => rfl) h _ readably none

/-- **Following atoms further than they are nested makes no difference.** -/
theorem Nested.shown_eq {n depth depth' : Nat} (h : w.Nested n v) (hn : n ≤ depth) (hn' : n ≤ depth')
    (readably : Bool) :
    Value.ShownAlike kept (w.contentShown kept depth) kept (w.contentShown kept depth') readably v v := by
  induction h generalizing depth depth' readably with
  | @parts n v no_atom _ ih =>
    cases v with
    | nil | bool | num | text | keyword | symbol | builtin => exact fun _ => rfl
    | seq shape node items =>
      refine Value.shown_seq_congr rfl (Node.drawsAs_self node _) (List.forall₂_same.mpr fun u hu => ?_) shape
      exact ih u hu hn hn' readably
    | map node entries =>
      refine Value.shown_map_congr rfl (Node.drawsAs_self node _) (List.forall₂_same.mpr fun e he => ⟨rfl, ?_⟩)
      exact ih e.2 (List.mem_map_of_mem he) hn hn' readably
    | closure id kind params body env data =>
      intro spelling
      unfold Value.shown
      rw [ih params List.mem_cons_self hn hn', ih body (List.mem_cons_of_mem _ List.mem_cons_self) hn hn']
    | atom id => exact absurd rfl (no_atom id)
  | @atom n id _ _ ih =>
    obtain ⟨depth, rfl⟩ := Nat.exists_eq_add_of_lt hn
    obtain ⟨depth', rfl⟩ := Nat.exists_eq_add_of_lt hn'
    intro spelling
    unfold Value.shown contentShown
    rw [ih (Nat.le_add_right n depth) (Nat.le_add_right n depth')]

end

end World

/-! ## Printing -/

/-- The text that is printed of a value, in a world. -/
def World.printed (w : World) (readably : Bool) (v : Value) : String := w.textWith w.texts.get? readably v

/-- A world differs from another by default layouts of nodes that have none that fits, and by texts that their
nodes are shown with anyway. -/
structure Filled (R : Registry) (w₀ w : World) : Prop where
  atoms : w.atoms = w₀.atoms
  spaced : ∀ id, w.spaced.has id → ∃ v, R.node id = some v ∧ ¬ v.Fits
  texts : ∀ id, w.texts.get? id = w₀.texts.get? id ∨
    w₀.texts.get? id = none ∧ ∃ v, R.node id = some v ∧ w.texts.get? id = some (w₀.printed true v)

/-- A change fills the world, and its result is as `Q` says. -/
def Fills (R : Registry) (w₀ : World) {α : Type} (change : Change α) (Q : α → Prop) : Prop :=
  ∀ w, Filled R w₀ w → Filled R w₀ (change w).2 ∧ Q (change w).1

section

variable {R : Registry} {w₀ w : World} {α β : Type} {P Q : α → Prop} {v u : Value}

theorem filled_refl (hw : R.Ok w) : Filled R w w := ⟨rfl, hw.spaced, fun _ => .inl rfl⟩

namespace Fills

theorem pure {a : α} (h : Q a) : Fills R w₀ (Pure.pure a : Change α) Q := fun _ hw => ⟨hw, h⟩

theorem mono {change : Change α} (h : Fills R w₀ change P) (hq : ∀ a, P a → Q a) : Fills R w₀ change Q :=
  fun w hw => ⟨(h w hw).1, hq _ (h w hw).2⟩

theorem bind {change : Change α} {f : α → Change β} {Q : β → Prop} (h : Fills R w₀ change P)
    (hf : ∀ a, P a → Fills R w₀ (f a) Q) : Fills R w₀ (change >>= f) Q := by
  intro w hw
  obtain ⟨hw', ha⟩ := h w hw
  exact hf _ ha _ hw'

theorem get : Fills R w₀ get (Filled R w₀) := fun _ hw => ⟨hw, hw⟩

end Fills

theorem fills_setSpaced {id : NodeId} (hnode : R.node id = some u) (hn : ¬ u.Fits) :
    Fills R w₀ (setSpaced id) fun _ => True := by
  intro w hw
  refine ⟨⟨hw.atoms, fun other ho => ?_, hw.texts⟩, trivial⟩
  rcases Table.has_set ho with rfl | ho
  · exact ⟨u, hnode, hn⟩
  · exact hw.spaced other ho

/-- A registered collection is laid out as it is drawn. -/
theorem fills_layout {node : Node} {count : Nat} (hnode : R.node node.id = some u)
    (hc : u.Fits = node.Fits count) : Fills R w₀ (layout node count) fun gaps => gaps = node.drawnGaps count := by
  intro w hw
  have hs : w.spaced.has node.id → ¬ node.Fits count := by
    intro hs
    obtain ⟨x, hx, hn⟩ := hw.spaced node.id hs
    rw [hnode] at hx
    cases hx
    rwa [hc] at hn
  rcases layout_eq hs with h | ⟨hn, h⟩
  · rw [h]
    exact ⟨hw, rfl⟩
  · rw [h]
    exact ⟨(fills_setSpaced hnode (by rw [hc]; exact hn) w hw).1, rfl⟩

/-- The text that is kept under a registered node is the one that it is shown with. -/
theorem fills_keptText {id : NodeId} (hnode : R.node id = some u)
    (hkept : ∀ text, w₀.texts.get? id = some text → w₀.printed true u = text) (readably : Bool) :
    Fills R w₀ (keptText readably id) fun kept =>
      kept = none ∧ (if readably then w₀.texts.get? id else none) = none ∨
        readably = true ∧ kept = some (w₀.printed true u) := by
  unfold keptText
  cases readably with
  | false => exact Fills.pure (.inl ⟨rfl, rfl⟩)
  | true =>
    rw [if_pos rfl]
    refine Fills.bind Fills.get fun w hw => Fills.pure ?_
    rcases hw.texts id with h | ⟨-, v, hv, h⟩
    · rw [h]
      cases ht : w₀.texts.get? id with
      | none => exact .inl ⟨rfl, rfl⟩
      | some text => exact .inr ⟨rfl, congrArg some (hkept text ht).symm⟩
    · rw [hnode] at hv
      cases hv
      exact .inr ⟨rfl, h⟩

theorem fills_keepText {id : NodeId} (hnode : R.node id = some u) {readably : Bool} {r : Rendered}
    (hnone : (if readably then w₀.texts.get? id else none) = none) (hr : readably = true → r.text = w₀.printed true u) :
    Fills R w₀ (keepText readably id r) fun r' => r'.text = r.text := by
  unfold keepText
  split
  · rename_i hkeep
    obtain rfl : readably = true := (Bool.and_eq_true _ _ ▸ hkeep).1
    refine Fills.bind (P := fun _ => True) ?_ fun _ _ => Fills.pure rfl
    intro w hw
    refine ⟨⟨hw.atoms, hw.spaced, fun other => ?_⟩, trivial⟩
    show (w.texts.set id r.text).get? other = _ ∨ _ ∧ ∃ v, _ ∧ (w.texts.set id r.text).get? other = _
    rw [Table.get?_set]
    by_cases ho : other = id
    · subst ho
      rw [if_pos rfl, hr rfl]
      exact .inr ⟨hnone, u, hnode, rfl⟩
    · rw [if_neg ho]
      exact hw.texts other
  · exact Fills.pure rfl

/-! ## Trees -/

variable {atomText : Bool → AtomId → Change String} {readably : Bool}

/-- The texts of atoms, with the texts that are kept. -/
def World.printedContent (w : World) : Bool → AtomId → String := w.contentShown w.texts.get? w.atoms.size

/-- The rendered text of a value is the one that it is shown with. -/
def IsShown (w₀ : World) (readably : Bool) (spelling : Option String) (v : Value) (r : Rendered) : Prop :=
  r.text = v.shown w₀.texts.get? w₀.printedContent readably spelling

theorem fills_renderItems {items : List Value}
    (h : ∀ x ∈ items, ∀ spelling, Fills R w₀ (render atomText readably spelling x)
      (IsShown w₀ readably spelling x))
    (gaps : List String) (spellings : List (Option String)) (done : Rendered) :
    Fills R w₀ (renderItems atomText readably gaps spellings done items) fun r =>
      r.text = Value.shownItems w₀.texts.get? w₀.printedContent readably gaps spellings done.text items := by
  induction items generalizing gaps spellings done with
  | nil => exact Fills.pure rfl
  | cons x rest ih =>
    obtain ⟨hx, hrest⟩ := List.forall_mem_cons.mp h
    unfold renderItems Value.shownItems
    refine Fills.bind (hx _) fun r hr => (ih hrest _ _ _).mono fun r' hr' => ?_
    rw [hr', hr]

theorem fills_renderEntries {entries : List (Key × Value)}
    (h : ∀ e ∈ entries, ∀ spelling, Fills R w₀ (render atomText readably spelling e.2)
      (IsShown w₀ readably spelling e.2))
    (gaps : List String) (spellings : List (Option String)) (done : Rendered) :
    Fills R w₀ (renderEntries atomText readably gaps spellings done entries) fun r =>
      r.text = Value.shownEntries w₀.texts.get? w₀.printedContent readably gaps spellings done.text entries := by
  induction entries generalizing gaps spellings done with
  | nil => exact Fills.pure rfl
  | cons e rest ih =>
    obtain ⟨he, hrest⟩ := List.forall_mem_cons.mp h
    unfold renderEntries Value.shownEntries
    refine Fills.bind (he _) fun r hr => (ih hrest _ _ _).mono fun r' hr' => ?_
    rw [hr', hr]

/-- A collection that is rendered may be kept, and its text is right for every spelling. -/
theorem fills_keepText_of_isShown {id : NodeId} (hnode : R.node id = some u)
    (hnone : (if readably then w₀.texts.get? id else none) = none) {r : Rendered}
    (hr : IsShown w₀ readably none u r) : Fills R w₀ (keepText readably id r) (IsShown w₀ readably none u) := by
  refine (fills_keepText hnode hnone fun hreadably => ?_).mono fun r' hr' => hr'.trans hr
  subst hreadably
  exact hr

/-- A sequence renders as it is shown if its elements do. -/
theorem fills_render_seq {shape : Shape} {node : Node} {items : List Value}
    (hknown : R.Known (.seq shape node items))
    (h : ∀ x ∈ items, ∀ spelling, Fills R w₀ (render atomText readably spelling x)
      (IsShown w₀ readably spelling x)) (spelling : Option String) :
    Fills R w₀ (render atomText readably spelling (.seq shape node items))
      (IsShown w₀ readably spelling (.seq shape node items)) := by
  have hkept : ∀ text, w₀.texts.get? node.id = some text → w₀.printed true (.seq shape node items) = text := by
    intro text ht
    unfold World.printed World.textWith Value.shown
    rw [if_pos rfl, ht]
  unfold IsShown
  simp only [Value.shown_seq shape node items spelling]
  unfold render
  refine Fills.bind (fills_keptText hknown hkept readably) fun kept hk => ?_
  rcases hk with ⟨rfl, hnone⟩ | ⟨rfl, rfl⟩
  · dsimp only
    refine Fills.bind (fills_layout hknown rfl) fun gaps hgaps => ?_
    subst hgaps
    split
    · rename_i mark head form hm
      refine Fills.bind (h form (List.mem_cons_of_mem _ List.mem_cons_self) _) fun r hr =>
        fills_keepText_of_isShown hknown hnone ?_
      unfold IsShown Value.shown
      rw [hnone]
      dsimp only
      rw [hm]
      dsimp only
      rw [hr]
    · rename_i hb
      refine Fills.bind (fills_renderItems h _ _ _) fun r hr => fills_keepText_of_isShown hknown hnone ?_
      unfold IsShown Value.shown
      rw [hnone]
      dsimp only
      split
      · rename_i mark head form hm
        exact (hb mark head form hm rfl).elim
      · rw [hr]
  · exact Fills.pure rfl

/-- A map renders as it is shown if its values do. -/
theorem fills_render_map {node : Node} {entries : List (Key × Value)} (hknown : R.Known (.map node entries))
    (h : ∀ e ∈ entries, ∀ spelling, Fills R w₀ (render atomText readably spelling e.2)
      (IsShown w₀ readably spelling e.2)) (spelling : Option String) :
    Fills R w₀ (render atomText readably spelling (.map node entries))
      (IsShown w₀ readably spelling (.map node entries)) := by
  have hkept : ∀ text, w₀.texts.get? node.id = some text → w₀.printed true (.map node entries) = text := by
    intro text ht
    unfold World.printed World.textWith Value.shown
    rw [if_pos rfl, ht]
  unfold IsShown
  simp only [Value.shown_map node entries spelling]
  unfold render
  refine Fills.bind (fills_keptText hknown hkept readably) fun kept hk => ?_
  rcases hk with ⟨rfl, hnone⟩ | ⟨rfl, rfl⟩
  · dsimp only
    refine Fills.bind (fills_layout hknown rfl) fun gaps hgaps => ?_
    subst hgaps
    refine Fills.bind (fills_renderEntries h _ _ _) fun r hr => fills_keepText_of_isShown hknown hnone ?_
    unfold IsShown Value.shown
    rw [hnone, hr]
  · exact Fills.pure rfl

/-- **A value renders as it is shown**, if atoms are followed as deep as they are nested in it. -/
theorem fills_render (hw : R.Ok w₀) {n : Nat} (h : w₀.Nested n v) (hn : n ≤ w₀.atoms.size) (hknown : R.Known v)
    {depth : Nat} (hdepth : n ≤ depth) (readably : Bool) (spelling : Option String) :
    Fills R w₀ (render (renderContent depth) readably spelling v) (IsShown w₀ readably spelling v) := by
  induction h generalizing depth readably spelling with
  | @parts n v no_atom _ ih =>
    have hparts := hw.partsKnown hknown
    cases v with
    | nil | bool | num | text | keyword | symbol | builtin =>
      unfold render
      exact Fills.pure rfl
    | seq shape node items =>
      have hparts : R.AllKnown items := hparts
      exact fills_render_seq hknown (fun x hx => ih x hx hn (hparts x hx) hdepth readably) spelling
    | map node entries =>
      refine fills_render_map hknown (fun e he => ?_) spelling
      exact ih e.2 (List.mem_map_of_mem he) hn (hparts.2 e he).2 hdepth readably
    | closure id kind params body env data =>
      unfold render
      refine Fills.bind (ih params List.mem_cons_self hn hparts.1 hdepth true none) fun p hp => ?_
      refine Fills.bind (ih body (List.mem_cons_of_mem _ List.mem_cons_self) hn hparts.2.1 hdepth true none)
        fun b hb => Fills.pure ?_
      unfold IsShown Value.shown
      rw [hp, hb]
    | atom id => exact absurd rfl (no_atom id)
  | @atom n id _ content ih =>
    obtain ⟨depth, rfl⟩ := Nat.exists_eq_add_of_lt hdepth
    obtain ⟨k, hk⟩ := Nat.exists_eq_add_of_lt hn
    have hcontent : w₀.printedContent readably id =
        (w₀.content id).shown w₀.texts.get? w₀.printedContent readably none := by
      unfold World.printedContent
      rw [hk, World.contentShown, ← hk]
      exact content.shown_eq (Nat.le_of_lt hn) (Nat.le_add_right n k) readably none
    unfold render renderContent
    refine Fills.bind (P := fun text => text = w₀.printedContent readably id) ?_ fun text ht => Fills.pure ?_
    · refine Fills.bind Fills.get fun w hfilled => ?_
      have hsame : w.content id = w₀.content id := by
        unfold World.content
        rw [hfilled.atoms]
      rw [hsame]
      exact Fills.bind (ih (Nat.le_of_lt hn) (hw.known_content id) (Nat.le_add_right n depth) readably none)
        fun r hr => Fills.pure (hr.trans hcontent.symm)
    · unfold IsShown Value.shown
      rw [ht]

end

/-- **A value prints as it is shown with the texts that are kept**, if its atoms are nested no deeper than there
are atoms. -/
theorem printWith_eq {R : Registry} {w : World} (hw : R.Ok w) {v : Value} (hknown : R.Known v)
    (h : w.Nested w.atoms.size v) (readably : Bool) : (printWith readably v w).1 = w.printed readably v :=
  (fills_render hw h (Nat.le_refl _) hknown (Nat.le_refl _) readably none w (filled_refl hw)).2

end EditableLisp
