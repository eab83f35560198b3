import EditableLisp.Printer

/-!
# Drawing

`Value.draw` is the text of a value as a function of the value and of the texts of atoms. It reads neither
the kept texts nor the default layouts that the world holds. Where no atom stands in a value
(`Value.isFrozen`) it is the text of the value whatever the atoms hold, and what is kept in the world under
the nodes of such a value can only agree with it.

A text is kept when no atom stands in the value outside of its functions (`Value.isStable`). The two differ
where a function has an atom in its parameters or body, so `World.Settled` asks of a value that no function
that is printed with it does.
-/

namespace EditableLisp

/-! ## Layout -/

/-- The gaps that a node was read with fit so many elements. -/
def Node.Fits (node : Node) (count : Nat) : Prop :=
  ∃ gaps, node.gaps = some gaps ∧ gaps.length = count + 1

/-- The gaps that a node is drawn with: those that it was read with if they fit, else the default. -/
def Node.drawnGaps (node : Node) (count : Nat) : List String :=
  match node.gaps with
  | some gaps => if gaps.length = count + 1 then gaps else defaultGaps node.style count
  | none => defaultGaps node.style count

/-- The default gaps fit. -/
theorem length_defaultGaps (style : Style) (count : Nat) :
    (defaultGaps style count).length = count + 1 := by
  unfold defaultGaps
  split
  · rename_i h
    rw [h]
    rfl
  · simp only [List.length_append, List.length_cons, List.length_replicate, List.length_nil]
    omega

theorem Node.drawnGaps_of_gaps {node : Node} {gaps : List String} {count : Nat}
    (h : node.gaps = some gaps) (hl : gaps.length = count + 1) : node.drawnGaps count = gaps := by
  unfold Node.drawnGaps
  rw [h]
  exact if_pos hl

theorem Node.drawnGaps_of_not_fits {node : Node} {count : Nat} (h : ¬ node.Fits count) :
    node.drawnGaps count = defaultGaps node.style count := by
  unfold Node.drawnGaps
  split
  · rename_i gaps hg
    exact if_neg fun hl => h ⟨gaps, hg, hl⟩
  · rfl

/-- The number of gaps that a collection is drawn with, less one. -/
def Value.count : Value → Nat
  | .seq _ _ items => items.length
  | .map _ entries => 2 * entries.length
  | _ => 0

/-- The gaps that a collection was read with fit it. -/
def Value.Fits : Value → Prop
  | .seq _ node items => node.Fits items.length
  | .map node entries => node.Fits (2 * entries.length)
  | _ => True

/-- The elements of a sequence that are written: the symbol that a mark stands for is not. -/
def Node.written (node : Node) (items : List Value) : List Value :=
  match node.style.mark?, items with
  | some _, [_, form] => [form]
  | _, items => items

namespace Value

/-! ## Values without atoms -/

mutual

/-- No atom stands in what is written of a value, the parameters and bodies of its functions included. -/
def isFrozen : Value → Bool
  | seq _ node items =>
    match node.style.mark?, items with
    | some _, [_, form] => isFrozen form
    | _, items => areFrozen items
  | map _ entries => entriesFrozen entries
  | closure _ _ params body _ _ => isFrozen params && isFrozen body
  | atom _ => false
  | _ => true

/-- `isFrozen` for all of some values. -/
def areFrozen : List Value → Bool
  | [] => true
  | v :: rest => isFrozen v && areFrozen rest

/-- `isFrozen` for the values of entries. -/
def entriesFrozen : List (Key × Value) → Bool
  | [] => true
  | (_, v) :: rest => isFrozen v && entriesFrozen rest

end

mutual

/-- No atom stands in what is written of a value outside of its functions. -/
def isStable : Value → Bool
  | seq _ node items =>
    match node.style.mark?, items with
    | some _, [_, form] => isStable form
    | _, items => areStable items
  | map _ entries => entriesStable entries
  | atom _ => false
  | _ => true

/-- `isStable` for all of some values. -/
def areStable : List Value → Bool
  | [] => true
  | v :: rest => isStable v && areStable rest

/-- `isStable` for the values of entries. -/
def entriesStable : List (Key × Value) → Bool
  | [] => true
  | (_, v) :: rest => isStable v && entriesStable rest

end

/-! ## Text -/

mutual

/-- The text of a value that was read with a spelling, given the texts of atoms. -/
def draw (texts : Bool → AtomId → String) (readably : Bool) (spelling : Option String) : Value → String
  | nil => "nil"
  | bool b => if b then "true" else "false"
  | num x => spelledOr readably spelling (Number.format x)
  | text s => spelledOr readably spelling (stringText readably s)
  | keyword k => ":" ++ k.name
  | symbol _ name => name
  | seq shape node items =>
    let gaps := node.drawnGaps items.length
    let spellings := node.spellings.getD []
    match node.style.mark?, items with
    | some mark, [_, form] =>
      mark ++ gaps.getD 1 "" ++ draw texts readably (spellings.getD 1 none) form
    | _, items =>
      let (opening, closing) := brackets node.style shape
      drawItems texts readably gaps.tail spellings (opening ++ gaps.headD "") items ++ closing
  | map node entries =>
    let gaps := node.drawnGaps (2 * entries.length)
    drawEntries texts readably gaps.tail (node.spellings.getD []) ("\x7b" ++ gaps.headD "") entries ++ "\x7d"
  | builtin _ code _ => "#<native " ++ code.name ++ ">"
  | closure _ kind params body _ _ =>
    "(" ++ kind.word ++ " " ++ draw texts true none params ++ " " ++ draw texts true none body ++ ")"
  | atom id => "(atom " ++ texts readably id ++ ")"

/-- Adds the texts of elements, each with the gap after it. -/
def drawItems (texts : Bool → AtomId → String) (readably : Bool) (gaps : List String)
    (spellings : List (Option String)) (done : String) : List Value → String
  | [] => done
  | v :: rest =>
    drawItems texts readably gaps.tail spellings.tail
      (done ++ draw texts readably (firstSpelling spellings) v ++ gaps.headD "") rest

/-- Adds the texts of entries, with the gap after each key and each value. -/
def drawEntries (texts : Bool → AtomId → String) (readably : Bool) (gaps : List String)
    (spellings : List (Option String)) (done : String) : List (Key × Value) → String
  | [] => done
  | (k, v) :: rest =>
    drawEntries texts readably gaps.tail.tail spellings.tail.tail
      (done ++ k.print readably (firstSpelling spellings) ++ gaps.headD "" ++
        draw texts readably (firstSpelling spellings.tail) v ++ gaps.tail.headD "") rest

end

variable {texts texts' : Bool → AtomId → String}

/-- A collection has the same text with every spelling. -/
theorem draw_seq (shape : Shape) (node : Node) (items : List Value) (readably : Bool)
    (spelling : Option String) :
    (seq shape node items).draw texts readably spelling = (seq shape node items).draw texts readably none := by
  unfold draw
  rfl

theorem draw_map (node : Node) (entries : List (Key × Value)) (readably : Bool)
    (spelling : Option String) :
    (map node entries).draw texts readably spelling = (map node entries).draw texts readably none := by
  unfold draw
  rfl

/-! ## Marks and brackets -/

/-- A list is written with a mark, or a sequence in brackets. -/
theorem marked_or_bracketed (node : Node) (items : List Value) :
    (∃ mark head form, node.style.mark? = some mark ∧ items = [head, form]) ∨
      ∀ mark head form, node.style.mark? = some mark → items = [head, form] → False := by
  by_cases h : ∃ mark head form, node.style.mark? = some mark ∧ items = [head, form]
  · exact Or.inl h
  · exact Or.inr fun mark head form hm he => h ⟨mark, head, form, hm, he⟩

/-- The text of a list that is written with a mark. -/
theorem draw_marked {node : Node} {mark : String} (hm : node.style.mark? = some mark)
    (shape : Shape) (head form : Value) (readably : Bool) :
    (seq shape node [head, form]).draw texts readably none =
      mark ++ (node.drawnGaps 2).getD 1 "" ++
        form.draw texts readably ((node.spellings.getD []).getD 1 none) := by
  rw [draw]
  · rfl
  · exact hm

/-- The text of a sequence in brackets. -/
theorem draw_bracketed {node : Node} {items : List Value}
    (h : ∀ mark head form, node.style.mark? = some mark → items = [head, form] → False) (shape : Shape)
    (readably : Bool) :
    (seq shape node items).draw texts readably none =
      drawItems texts readably (node.drawnGaps items.length).tail (node.spellings.getD [])
        ((brackets node.style shape).1 ++ (node.drawnGaps items.length).headD "") items ++
      (brackets node.style shape).2 := by
  unfold draw
  dsimp only
  split
  · rename_i mark head form hm
    exact (h mark head form hm rfl).elim
  · rfl

theorem written_marked {node : Node} {mark : String} (hm : node.style.mark? = some mark)
    (head form : Value) : node.written [head, form] = [form] := by
  unfold Node.written
  rw [hm]

theorem written_bracketed {node : Node} {items : List Value}
    (h : ∀ mark head form, node.style.mark? = some mark → items = [head, form] → False) :
    node.written items = items := by
  unfold Node.written
  split
  · rename_i mark head form hm
    exact (h mark head form hm rfl).elim
  · rfl

/-- What is written of a sequence is among its elements. -/
theorem written_subset (node : Node) (items : List Value) : node.written items ⊆ items := by
  rcases marked_or_bracketed node items with ⟨mark, head, form, hm, rfl⟩ | h
  · rw [written_marked hm]
    exact List.subset_cons_self _ _
  · rw [written_bracketed h]
    exact List.Subset.refl _

/-! ## Parts without atoms -/

theorem areFrozen_iff {items : List Value} : areFrozen items ↔ ∀ v ∈ items, v.isFrozen := by
  induction items with
  | nil => exact ⟨nofun, fun _ => rfl⟩
  | cons v rest ih =>
    unfold areFrozen
    rw [Bool.and_eq_true, ih, List.forall_mem_cons]

theorem areStable_iff {items : List Value} : areStable items ↔ ∀ v ∈ items, v.isStable := by
  induction items with
  | nil => exact ⟨nofun, fun _ => rfl⟩
  | cons v rest ih =>
    unfold areStable
    rw [Bool.and_eq_true, ih, List.forall_mem_cons]

theorem isFrozen_marked {node : Node} {mark : String} (hm : node.style.mark? = some mark) {shape : Shape}
    {head form : Value} : (seq shape node [head, form]).isFrozen = form.isFrozen := by
  rw [isFrozen]
  · exact mark
  · exact hm

theorem isFrozen_bracketed {node : Node} {items : List Value}
    (h : ∀ mark head form, node.style.mark? = some mark → items = [head, form] → False) {shape : Shape} :
    (seq shape node items).isFrozen = areFrozen items := by
  rw [isFrozen]
  exact h

theorem isFrozen_seq {shape : Shape} {node : Node} {items : List Value} :
    (seq shape node items).isFrozen ↔ ∀ v ∈ node.written items, v.isFrozen := by
  rcases marked_or_bracketed node items with ⟨mark, head, form, hm, rfl⟩ | hb
  · rw [written_marked hm, List.forall_mem_singleton, isFrozen_marked hm]
  · rw [written_bracketed hb, isFrozen_bracketed hb, areFrozen_iff]

theorem isStable_marked {node : Node} {mark : String} (hm : node.style.mark? = some mark) {shape : Shape}
    {head form : Value} : (seq shape node [head, form]).isStable = form.isStable := by
  rw [isStable]
  · exact mark
  · exact hm

theorem isStable_bracketed {node : Node} {items : List Value}
    (h : ∀ mark head form, node.style.mark? = some mark → items = [head, form] → False) {shape : Shape} :
    (seq shape node items).isStable = areStable items := by
  rw [isStable]
  exact h

theorem isStable_seq {shape : Shape} {node : Node} {items : List Value} :
    (seq shape node items).isStable ↔ ∀ v ∈ node.written items, v.isStable := by
  rcases marked_or_bracketed node items with ⟨mark, head, form, hm, rfl⟩ | hb
  · rw [written_marked hm, List.forall_mem_singleton, isStable_marked hm]
  · rw [written_bracketed hb, isStable_bracketed hb, areStable_iff]

theorem isFrozen_map {node : Node} {entries : List (Key × Value)} :
    (map node entries).isFrozen ↔ ∀ e ∈ entries, e.2.isFrozen := by
  show entriesFrozen entries ↔ _
  induction entries with
  | nil => exact ⟨nofun, fun _ => rfl⟩
  | cons e rest ih =>
    unfold entriesFrozen
    rw [Bool.and_eq_true, ih, List.forall_mem_cons]

theorem isStable_map {node : Node} {entries : List (Key × Value)} :
    (map node entries).isStable ↔ ∀ e ∈ entries, e.2.isStable := by
  show entriesStable entries ↔ _
  induction entries with
  | nil => exact ⟨nofun, fun _ => rfl⟩
  | cons e rest ih =>
    unfold entriesStable
    rw [Bool.and_eq_true, ih, List.forall_mem_cons]

/-! ## Texts of atoms -/

/-- Elements of the same texts are drawn alike. -/
theorem drawItems_congr_texts {items : List Value} {readably : Bool}
    (h : ∀ v ∈ items, ∀ spelling, v.draw texts readably spelling = v.draw texts' readably spelling)
    (gaps : List String) (spellings : List (Option String)) (done : String) :
    drawItems texts readably gaps spellings done items =
      drawItems texts' readably gaps spellings done items := by
  induction items generalizing gaps spellings done with
  | nil => rfl
  | cons v rest ih =>
    obtain ⟨hv, hrest⟩ := List.forall_mem_cons.mp h
    unfold drawItems
    rw [hv, ih hrest]

theorem drawEntries_congr_texts {entries : List (Key × Value)} {readably : Bool}
    (h : ∀ e ∈ entries, ∀ spelling, e.2.draw texts readably spelling = e.2.draw texts' readably spelling)
    (gaps : List String) (spellings : List (Option String)) (done : String) :
    drawEntries texts readably gaps spellings done entries =
      drawEntries texts' readably gaps spellings done entries := by
  induction entries generalizing gaps spellings done with
  | nil => rfl
  | cons e rest ih =>
    obtain ⟨he, hrest⟩ := List.forall_mem_cons.mp h
    unfold drawEntries
    rw [he, ih hrest]

/-- Sequences of elements of the same texts are drawn alike. -/
theorem draw_seq_congr_texts {node : Node} {items : List Value} {readably : Bool}
    (h : ∀ v ∈ node.written items, ∀ spelling,
      v.draw texts readably spelling = v.draw texts' readably spelling)
    (shape : Shape) (spelling : Option String) :
    (seq shape node items).draw texts readably spelling =
      (seq shape node items).draw texts' readably spelling := by
  rw [draw_seq, draw_seq shape node items readably spelling]
  rcases marked_or_bracketed node items with ⟨mark, head, form, hm, rfl⟩ | hb
  · rw [written_marked hm] at h
    rw [draw_marked hm, draw_marked hm, h form List.mem_cons_self]
  · rw [written_bracketed hb] at h
    rw [draw_bracketed hb, draw_bracketed hb, drawItems_congr_texts h]

/-- **A value without atoms is drawn alike whatever the texts of atoms.** -/
theorem draw_of_frozen {v : Value} (h : v.isFrozen) (readably : Bool) (spelling : Option String) :
    v.draw texts readably spelling = v.draw texts' readably spelling := by
  induction v using ofParts generalizing readably spelling with
  | nil | bool | num | text | keyword | symbol | builtin => rfl
  | seq shape node items ih =>
    have hitems := isFrozen_seq.mp h
    refine draw_seq_congr_texts (fun v hv spelling => ?_) _ _
    exact ih v (written_subset node items hv) (hitems v hv) readably spelling
  | map node entries ih =>
    have hentries := isFrozen_map.mp h
    unfold draw
    dsimp only
    rw [drawEntries_congr_texts fun e he spelling => ih e he (hentries e he) readably spelling]
  | closure id kind params body env data hparams hbody _ =>
    have hparts : (params.isFrozen && body.isFrozen) = true := h
    rw [Bool.and_eq_true] at hparts
    unfold draw
    rw [hparams hparts.1, hbody hparts.2]
  | atom => cases h

end Value

/-! ## What is printed with a value -/

namespace World

/-- The values whose texts are parts of the text of a value. -/
def printedParts (w : World) : Value → List Value
  | .seq _ node items => node.written items
  | .map _ entries => entries.map Prod.snd
  | .closure _ _ params body _ _ => [params, body]
  | .atom id => [w.content id]
  | _ => []

/-- A value is printed with another. -/
inductive Shows (w : World) (v : Value) : Value → Prop where
  | self : Shows w v v
  | part {u x : Value} : Shows w v u → x ∈ w.printedParts u → Shows w v x

variable {w : World} {v u x : Value}

theorem Shows.trans (h : w.Shows v u) (h' : w.Shows u x) : w.Shows v x := by
  induction h' with
  | self => exact h
  | part _ hx ih => exact ih.part hx

/-- No atom stands in a function that is printed with a value. -/
def Settled (w : World) (v : Value) : Prop := ∀ u, w.Shows v u → u.functionId?.isSome → u.isFrozen

theorem Settled.shown (hs : w.Settled v) (h : w.Shows v u) : w.Settled u :=
  fun x hx hf => hs x (h.trans hx) hf

theorem Settled.part (hs : w.Settled v) (h : x ∈ w.printedParts v) : w.Settled x :=
  hs.shown (Shows.self.part h)

/-- What is printed with a value without atoms is without atoms. -/
theorem isFrozen_of_shows (hv : v.isFrozen) (h : w.Shows v u) : u.isFrozen := by
  induction h with
  | self => exact hv
  | @part u x _ hx ih =>
    cases u with
    | seq => exact Value.isFrozen_seq.mp ih x hx
    | map =>
      obtain ⟨e, he, rfl⟩ := List.mem_map.mp hx
      exact Value.isFrozen_map.mp ih e he
    | closure id kind params body =>
      have hparts : (params.isFrozen && body.isFrozen) = true := ih
      rw [Bool.and_eq_true] at hparts
      rcases List.mem_cons.mp hx with rfl | hx
      · exact hparts.1
      · rw [List.mem_singleton.mp hx]
        exact hparts.2
    | atom => cases ih
    | _ => cases hx

theorem settled_of_frozen (hv : v.isFrozen) : w.Settled v := fun _ hu _ => isFrozen_of_shows hv hu

/-- A settled value whose text is kept is one without atoms. -/
theorem Settled.isFrozen (hs : w.Settled v) (hv : v.isStable) : v.isFrozen := by
  induction v using Value.ofParts with
  | nil | bool | num | text | keyword | symbol | builtin => rfl
  | seq shape node items ih =>
    have hitems := Value.isStable_seq.mp hv
    refine Value.isFrozen_seq.mpr fun v hv => ?_
    exact ih v (Value.written_subset node items hv) (hs.part hv) (hitems v hv)
  | map node entries ih =>
    have hentries := Value.isStable_map.mp hv
    refine Value.isFrozen_map.mpr fun e he => ?_
    exact ih e he (hs.part (List.mem_map_of_mem he)) (hentries e he)
  | closure => exact hs _ .self rfl
  | atom => cases hv

/-- A collection that is printed with a value and counts as stable has no atom in it, so its text may be
kept: it stays right whatever becomes of the atoms. -/
def Durable (w : World) (v : Value) : Prop := ∀ u, w.Shows v u → u.nodeId?.isSome → u.isStable → u.isFrozen

theorem Durable.part (hd : w.Durable v) (h : x ∈ w.printedParts v) : w.Durable x :=
  fun u hu => hd u ((Shows.self.part h).trans hu)

theorem durable_of_frozen (hv : v.isFrozen) : w.Durable v := fun _ hu _ _ => isFrozen_of_shows hv hu

theorem Settled.durable (hs : w.Settled v) : w.Durable v := fun _ hu _ hstable => (hs.shown hu).isFrozen hstable

/-- The text of an atom's content, through at most so many atoms. -/
def atomText (w : World) : Nat → Bool → AtomId → String
  | 0, _, _ => ""
  | depth + 1, readably, id => (w.content id).draw (w.atomText depth) readably none

/-- The readable text of a value in a world, were nothing kept. -/
def textOf (w : World) (v : Value) : String := v.draw (w.atomText w.atoms.size) true none

/-- The texts of atoms are the same in worlds of the same atoms. -/
theorem atomText_congr {w' : World} (h : w'.atoms = w.atoms) (depth : Nat) :
    w'.atomText depth = w.atomText depth := by
  induction depth with
  | zero => rfl
  | succ depth ih =>
    funext readably id
    have hcontent : w'.content id = w.content id := by
      unfold content
      rw [h]
    unfold atomText
    rw [hcontent, ih]

/-- The text of a value is the same in worlds of the same atoms. -/
theorem textOf_congr {w' : World} (h : w'.atoms = w.atoms) (v : Value) : w'.textOf v = w.textOf v := by
  unfold textOf
  rw [h, atomText_congr h]

end World

end EditableLisp
