import EditableLisp.Proofs.Replacing
import EditableLisp.Proofs.RoundTrip

/-!
# Edits are local in the text

Where a tree is settled, an edit changes in its text the text of the node that is replaced, and nothing else
(`Session.print_replace`). On the way to the node every collection keeps its brackets and gaps, forgets the
spelling of one child and has no kept text (`Remade.draw`), so the text before and after that child is the
same; along the path the pieces add up (`Edited.draw`).

Two things stand in the way of a wider statement. The symbol that a mark stands for is not written, so an
edit there does not show. And the text of a function is kept even where an atom stands in the function; once
the content of the atom has changed, an edit beside the function brings the kept text up to date
(`Session.stale_text`).
-/

namespace EditableLisp

open Registry

/-! ## Texts of children -/

namespace Value

variable {texts : Bool → AtomId → String} {readably : Bool}

/-- What is drawn before some elements stands before their texts. -/
theorem drawItems_done (items : List Value) (gaps : List String) (spellings : List (Option String))
    (done : String) : drawItems texts readably gaps spellings done items =
      done ++ drawItems texts readably gaps spellings "" items := by
  induction items generalizing gaps spellings done with
  | nil =>
    unfold drawItems
    exact (String.append_empty).symm
  | cons v rest ih =>
    unfold drawItems
    rw [ih, ih _ _ ("" ++ _ ++ _), String.empty_append]
    simp only [String.append_assoc]

/-- **Elements are drawn with the same text before and after one of them**, whatever it is, if only its own
spelling is forgotten. -/
theorem exists_drawItems (texts : Bool → AtomId → String) {items : List Value} {i : Nat} {child : Value}
    (h : items[i]? = some child) (gaps : List String) (spellings : List (Option String)) (done : String) : ∃ a b,
      drawItems texts true gaps spellings done items =
        a ++ child.draw texts true spellings[i]?.join ++ b ∧
      ∀ child', drawItems texts true gaps (spellings.set i none) done (items.set i child') =
        a ++ child'.draw texts true none ++ b := by
  induction items generalizing i gaps spellings done with
  | nil => cases h
  | cons v rest ih =>
    cases i with
    | zero =>
      cases h
      refine ⟨done, gaps.headD "" ++ drawItems texts true gaps.tail spellings.tail "" rest, ?_, ?_⟩
      · rw [drawItems, drawItems_done, firstSpelling, List.head?_eq_getElem?]
        simp only [String.append_assoc]
      · intro child'
        have hfirst : firstSpelling (spellings.set 0 none) = none := by cases spellings <;> rfl
        have htail : (spellings.set 0 none).tail = spellings.tail := by cases spellings <;> rfl
        show drawItems texts true gaps (spellings.set 0 none) done (child' :: rest) = _
        rw [drawItems, drawItems_done, hfirst, htail]
        simp only [String.append_assoc]
    | succ i =>
      obtain ⟨a, b, hold, hnew⟩ := ih h gaps.tail spellings.tail
        (done ++ v.draw texts true (firstSpelling spellings) ++ gaps.headD "")
      refine ⟨a, b, ?_, fun child' => ?_⟩
      · unfold drawItems
        rw [hold, List.getElem?_tail]
      · have hfirst : firstSpelling (spellings.set (i + 1) none) = firstSpelling spellings := by
          cases spellings <;> rfl
        have htail : (spellings.set (i + 1) none).tail = spellings.tail.set i none := by
          cases spellings <;> rfl
        show drawItems texts true gaps (spellings.set (i + 1) none) done (v :: rest.set i child') = _
        rw [drawItems, hfirst, htail, hnew]

/-- Entries are drawn as their keys and values in turn. -/
theorem drawEntries_eq (entries : List (Key × Value)) (gaps : List String)
    (spellings : List (Option String)) (done : String) :
    drawEntries texts readably gaps spellings done entries =
      drawItems texts readably gaps spellings done (entries.flatMap fun (k, v) => [k.toValue, v]) := by
  induction entries generalizing gaps spellings done with
  | nil => rfl
  | cons e rest ih =>
    obtain ⟨k, v⟩ := e
    have hkey : ∀ spelling, k.toValue.draw texts readably spelling = k.print readably spelling := by
      intro spelling
      cases k <;> rfl
    show _ = drawItems texts readably gaps spellings done
      (k.toValue :: v :: rest.flatMap fun (k, v) => [k.toValue, v])
    rw [drawEntries, drawItems, drawItems, hkey, ih]

/-- The spelling that a collection keeps for a child. -/
def spelling? : Value → Nat → Option String
  | seq _ node _, i => (node.spellings.getD [])[i]?.join
  | map node _, i => (node.spellings.getD [])[i]?.join
  | _, _ => none

/-- A child is not written: it is the symbol that a mark stands for, or stands in its place. -/
def Hides (v : Value) (i : Nat) : Prop :=
  i = 0 ∧ ∃ shape node head form, v = .seq shape node [head, form] ∧ node.style.mark?.isSome

end Value

/-- A sequence that is written with brackets is so with another element. -/
theorem Node.bracketed_set {node : Node} {items : List Value}
    (hb : ∀ mark head form, node.style.mark? = some mark → items = [head, form] → False) (i : Nat) (v : Value) :
    ∀ mark head form, node.style.mark? = some mark → items.set i v = [head, form] → False := by
  intro mark head form hm he
  have hlen : items.length = 2 := by simpa using congrArg List.length he
  match items, hlen with
  | [_, _], _ => exact hb mark _ _ hm rfl

/-- An element that is written after another took a place was written before, or is that other. -/
theorem Node.mem_written_set (node : Node) {items : List Value} {i : Nat} {v u : Value}
    (h : u ∈ node.written (items.set i v)) : u ∈ node.written items ∨ u = v := by
  rcases Value.marked_or_bracketed node items with ⟨mark, head, form, hm, rfl⟩ | hb
  · rw [Value.written_marked hm]
    match i with
    | 0 =>
      rw [List.set_cons_zero, Value.written_marked hm] at h
      exact Or.inl h
    | 1 =>
      rw [List.set_cons_succ, List.set_cons_zero, Value.written_marked hm] at h
      exact Or.inr (List.mem_singleton.mp h)
    | i + 2 =>
      have h : u ∈ node.written [head, form] := h
      rw [Value.written_marked hm] at h
      exact Or.inl h
  · rw [Value.written_bracketed hb]
    rw [Value.written_bracketed (Node.bracketed_set hb i v)] at h
    exact List.mem_or_eq_of_mem_set h

/-- Forgetting one spelling. -/
theorem getD_map_set (spellings : Option (List (Option String))) (i : Nat) :
    (spellings.map fun s => s.set i none).getD [] = (spellings.getD []).set i none := by
  cases spellings <;> rfl

/-- A slot that is not there has no spelling. -/
theorem getD_none (spellings : List (Option String)) (i : Nat) :
    spellings.getD i none = spellings[i]?.join := by
  rw [List.getD_eq_getElem?_getD]
  cases spellings[i]? <;> rfl

variable {R : Registry} {w : World} {texts : Bool → AtomId → String}

/-- The text of a map. -/
theorem Value.draw_entries (node : Node) (entries : Entries) (readably : Bool) :
    (Value.map node entries).draw texts readably none =
      drawItems texts readably (node.drawnGaps (2 * entries.length)).tail (node.spellings.getD [])
        ("\x7b" ++ (node.drawnGaps (2 * entries.length)).headD "") (Value.map node entries).children ++
      "\x7d" := by
  unfold draw
  dsimp only
  rw [drawEntries_eq]
  rfl

/-- **A collection made anew is drawn like the old one but for the child.** -/
theorem Remade.draw (texts : Bool → AtomId → String) (hw : R.Ok w) {id : NodeId} {i : Nat} {child child' owner owner' : Value}
    (hknown : R.Known owner) (h : Remade w id i child' owner owner') (hc : owner.children[i]? = some child)
    (hh : ¬ owner.Hides i) : ∃ a b,
      owner.draw texts true none = a ++ child.draw texts true (owner.spelling? i) ++ b ∧
      owner'.draw texts true none = a ++ child'.draw texts true none ++ b := by
  have hchildren := h.children
  have hmap : ∀ {node : Node} {entries entries' : Entries}, owner = .map node entries →
      owner' = .map (node.remade w (2 * entries.length) i id) entries' →
      entries'.length = entries.length → ∃ a b,
        owner.draw texts true none = a ++ child.draw texts true (owner.spelling? i) ++ b ∧
        owner'.draw texts true none = a ++ child'.draw texts true none ++ b := by
    rintro node entries entries' rfl rfl hlen
    have hgaps : (node.remade w (2 * entries.length) i id).drawnGaps (2 * entries.length) =
        node.drawnGaps (2 * entries.length) := (drawsAs_gaps hw hknown rfl id).gaps
    obtain ⟨a, b, hold, hnew⟩ := Value.exists_drawItems texts hc
      (node.drawnGaps (2 * entries.length)).tail (node.spellings.getD [])
      ("\x7b" ++ (node.drawnGaps (2 * entries.length)).headD "")
    refine ⟨a, b ++ "\x7d", ?_, ?_⟩
    · rw [Value.draw_entries, hold]
      simp only [String.append_assoc]
      rfl
    · rw [Value.draw_entries, hlen, hgaps, hchildren, Node.remade, getD_map_set, hnew]
      simp only [String.append_assoc]
  cases h with
  | key _ _ _ _ => exact hmap rfl rfl List.length_set
  | value _ _ => exact hmap rfl rfl List.length_set
  | @item shape node items hi =>
    have hgaps : (node.remade w items.length i id).drawnGaps items.length =
        node.drawnGaps items.length := (drawsAs_gaps hw hknown rfl id).gaps
    rcases Value.marked_or_bracketed node items with ⟨mark, head, form, hm, rfl⟩ | hb
    · have hm' : (node.remade w 2 i id).style.mark? = some mark := hm
      have hgaps : (node.remade w 2 i id).drawnGaps 2 = node.drawnGaps 2 := hgaps
      match i, hc with
      | 0, hc => exact absurd ⟨rfl, shape, node, head, form, rfl, by rw [hm]; rfl⟩ hh
      | 1, hc =>
        cases hc
        refine ⟨mark ++ (node.drawnGaps 2).getD 1 "", "", ?_, ?_⟩
        · rw [Value.draw_marked hm, String.append_empty, getD_none]
          rfl
        · show (Value.seq shape (node.remade w 2 1 id) [head, child']).draw texts true none = _
          rw [Value.draw_marked hm', hgaps, Node.remade, getD_map_set, String.append_empty, getD_none,
            List.getElem?_set_self']
          cases (node.spellings.getD [])[1]? <;> rfl
      | i + 2, hc => cases hc
    · have hb' : ∀ mark head form, (node.remade w items.length i id).style.mark? = some mark →
          items.set i child' = [head, form] → False := Node.bracketed_set hb i child'
      have hc : items[i]? = some child := hc
      obtain ⟨a, b, hold, hnew⟩ := Value.exists_drawItems texts hc
        (node.drawnGaps items.length).tail (node.spellings.getD [])
        ((brackets node.style shape).1 ++ (node.drawnGaps items.length).headD "")
      refine ⟨a, b ++ (brackets node.style shape).2, ?_, ?_⟩
      · rw [Value.draw_bracketed hb, hold]
        simp only [String.append_assoc]
        rfl
      · rw [Value.draw_bracketed hb', List.length_set, hgaps, Node.remade, getD_map_set]
        dsimp only
        rw [hnew]
        simp only [String.append_assoc]

/-! ## Texts along a path -/

namespace Value

/-- The spelling that is kept for the value a path leads to, if one is, under a value that has a spelling. -/
def spellingAt? (v : Value) (spelling : Option String) : List Nat → Option String
  | [] => spelling
  | i :: path =>
    match v.children[i]? with
    | some child => child.spellingAt? (v.spelling? i) path
    | none => none

/-- The text of a value in its place: the spelling if it is a number or a string that has one, else the text
of the value alone. -/
def inPlace (v : Value) (spelling : Option String) (text : String) : String :=
  match v with
  | num _ | Value.text _ => spelling.getD text
  | _ => text

/-- A path leads to what is not written, or to a part of it. -/
def IsUnwritten (v : Value) (path : List Nat) : Prop :=
  ∃ above i below owner, path = above ++ i :: below ∧ v.at? above = some owner ∧ owner.Hides i

theorem IsUnwritten.cons {v child : Value} {i : Nat} {path : List Nat} (hc : v.children[i]? = some child)
    (h : child.IsUnwritten path) : v.IsUnwritten (i :: path) := by
  obtain ⟨above, j, below, owner, rfl, hat, hh⟩ := h
  exact ⟨i :: above, j, below, owner, rfl, at?_cons hc hat, hh⟩

theorem Hides.isUnwritten {v : Value} {i : Nat} (h : v.Hides i) (path : List Nat) : v.IsUnwritten (i :: path) :=
  ⟨[], i, path, v, rfl, rfl, h⟩

theorem not_isUnwritten_nil (v : Value) : ¬ v.IsUnwritten [] := by
  rintro ⟨above, i, below, -, habove, -⟩
  exact absurd habove.symm (List.append_ne_nil_of_right_ne_nil above (List.cons_ne_nil i below))

theorem IsUnwritten.of_cons {v child : Value} {i : Nat} {path : List Nat} (hc : v.children[i]? = some child)
    (h : v.IsUnwritten (i :: path)) : v.Hides i ∨ child.IsUnwritten path := by
  obtain ⟨above, j, below, owner, hpath, hat, hh⟩ := h
  cases above with
  | nil =>
    cases hat
    obtain ⟨rfl, -⟩ := List.cons.inj hpath
    exact Or.inl hh
  | cons k above =>
    rw [List.cons_append] at hpath
    obtain ⟨rfl, hrest⟩ := List.cons.inj hpath
    obtain ⟨u, hu, hat⟩ := exists_child hat
    rw [hc] at hu
    cases hu
    exact Or.inr ⟨above, j, below, owner, hrest, hat, hh⟩

/-- A spelling shows in the text of a number or a string alone. -/
theorem draw_eq_inPlace (v : Value) (spelling : Option String) :
    v.draw texts true spelling = v.inPlace spelling (v.draw texts true none) := by
  cases v with
  | seq shape node items =>
    rw [draw_seq]
    rfl
  | map node entries =>
    rw [draw_map]
    rfl
  | _ => rfl

/-- A collection has no spelling. -/
theorem draw_of_child {v child : Value} {i : Nat} (hc : v.children[i]? = some child)
    (spelling : Option String) : v.draw texts true spelling = v.draw texts true none := by
  cases v with
  | seq | map =>
    rw [draw_eq_inPlace]
    rfl
  | _ => cases hc

end Value

variable {v v' new old : Value} {path : List Nat}

/-- **An edited value is drawn like the old one but for the node that was replaced**, if that node is
written. -/
theorem Edited.draw (texts : Bool → AtomId → String) (hw : R.Ok w) (hknown : R.Known v) (h : Edited w new path v v')
    (hold : v.at? path = some old) (hh : ¬ v.IsUnwritten path) (spelling : Option String) : ∃ a b,
      v.draw texts true spelling = a ++ old.draw texts true (v.spellingAt? spelling path) ++ b ∧
      v'.draw texts true none = a ++ new.draw texts true none ++ b := by
  induction h generalizing spelling with
  | here =>
    cases hold
    refine ⟨"", "", ?_, ?_⟩
    · rw [String.empty_append, String.append_empty, Value.spellingAt?]
    · rw [String.empty_append, String.append_empty]
  | @there i path v v' child child' hc _ hr ih =>
    obtain ⟨u, hu, hat⟩ := Value.exists_child hold
    rw [hc] at hu
    cases hu
    have hchild : R.Known child := hw.known_children hknown child (List.mem_of_getElem? hc)
    obtain ⟨a, b, hv, hv'⟩ := hr.draw texts hw hknown hc fun hn => hh (hn.isUnwritten path)
    obtain ⟨a', b', hold', hnew⟩ := ih hchild hat (fun hn => hh (hn.cons hc)) (v.spelling? i)
    refine ⟨a ++ a', b' ++ b, ?_, ?_⟩
    · rw [Value.draw_of_child hc, hv, hold', Value.spellingAt?, hc]
      simp only [String.append_assoc]
    · rw [hv', hnew]
      simp only [String.append_assoc]

/-! ## Edits of settled trees -/

namespace World

/-- What is printed with a value is the value, or is printed with a part of it. -/
theorem Shows.part_of_ne {x : Value} (h : w.Shows v x) (hne : x ≠ v) :
    ∃ u ∈ w.printedParts v, w.Shows u x := by
  induction h with
  | self => exact absurd rfl hne
  | @part u x hu hx ih =>
    by_cases he : u = v
    · rw [he] at hx
      exact ⟨x, hx, .self⟩
    · obtain ⟨part, hpart, hshows⟩ := ih he
      exact ⟨part, hpart, hshows.part hx⟩

theorem Shows.congr {w' : World} {x : Value} (ha : w'.atoms = w.atoms) (h : w'.Shows v x) : w.Shows v x := by
  induction h with
  | self => exact .self
  | @part u x _ hx ih =>
    refine ih.part ?_
    cases u with
    | atom id =>
      have hcontent : w'.content id = w.content id := by
        unfold content
        rw [ha]
      show x ∈ [w.content id]
      rw [← hcontent]
      exact hx
    | _ => exact hx

/-- What is settled depends on the contents of atoms alone. -/
theorem Settled.congr {w' : World} (ha : w'.atoms = w.atoms) (h : w.Settled v) : w'.Settled v :=
  fun u hu hf => h u (hu.congr ha) hf

/-- A value that is not a function is settled if its printed parts are. -/
theorem settled_of_parts (hv : v.functionId? = none) (h : ∀ u ∈ w.printedParts v, w.Settled u) :
    w.Settled v := by
  intro x hx hf
  by_cases he : x = v
  · rw [he, hv] at hf
    cases hf
  · obtain ⟨u, hu, hshows⟩ := hx.part_of_ne he
    exact h u hu x hshows hf

end World

/-- A collection made anew with a settled child is settled if the old one is. -/
theorem Remade.settled {id : NodeId} {i : Nat} {child' owner owner' : Value}
    (h : Remade w id i child' owner owner') (hs : w.Settled owner) (hc : w.Settled child') :
    w.Settled owner' := by
  cases h with
  | @item shape node items _ =>
    refine World.settled_of_parts rfl fun u hu => ?_
    rcases Node.mem_written_set node hu with hm | rfl
    · exact hs.part hm
    · exact hc
  | @key node entries i k key v _ he _ _ =>
    refine World.settled_of_parts rfl fun u hu => ?_
    obtain ⟨e, hm, rfl⟩ := List.mem_map.mp hu
    rcases List.mem_or_eq_of_mem_set hm with hm | rfl
    · exact hs.part (List.mem_map_of_mem hm)
    · have hv : v ∈ w.printedParts (.map node entries) :=
        List.mem_map_of_mem (f := Prod.snd) (List.mem_of_getElem? he)
      exact hs.part hv
  | value _ _ =>
    refine World.settled_of_parts rfl fun u hu => ?_
    obtain ⟨e, hm, rfl⟩ := List.mem_map.mp hu
    rcases List.mem_or_eq_of_mem_set hm with hm | rfl
    · exact hs.part (List.mem_map_of_mem hm)
    · exact hc

/-- The children of a settled collection that are written are settled. -/
theorem World.Settled.child {i : Nat} {child : Value} (hs : w.Settled v) (hc : v.children[i]? = some child)
    (hh : ¬ v.Hides i) : w.Settled child := by
  cases v with
  | seq shape node items =>
    have hc : items[i]? = some child := hc
    refine hs.part ?_
    show child ∈ node.written items
    rcases Value.marked_or_bracketed node items with ⟨mark, head, form, hm, rfl⟩ | hb
    · rw [Value.written_marked hm]
      match i, hc with
      | 0, _ => exact absurd ⟨rfl, shape, node, head, form, rfl, by rw [hm]; rfl⟩ hh
      | 1, hc =>
        cases hc
        exact List.mem_cons_self
      | i + 2, hc => cases hc
    · rw [Value.written_bracketed hb]
      exact List.mem_of_getElem? hc
  | map node entries =>
    obtain ⟨k, v, he, rfl⟩ := Entries.child_eq hc
    split
    · exact World.settled_of_frozen (by cases k <;> rfl)
    · have hv : v ∈ w.printedParts (.map node entries) :=
        List.mem_map_of_mem (f := Prod.snd) (List.mem_of_getElem? he)
      exact hs.part hv
  | _ => cases hc

/-- The values that a path leads to in a settled value are settled where they are written. -/
theorem World.Settled.at {u : Value} (hs : w.Settled v) (hu : v.at? path = some u)
    (hh : ¬ v.IsUnwritten path) : w.Settled u := by
  induction path generalizing v with
  | nil =>
    cases hu
    exact hs
  | cons i path ih =>
    obtain ⟨child, hc, hat⟩ := Value.exists_child hu
    exact ih (hs.child hc fun hn => hh (hn.isUnwritten path)) hat fun hn => hh (hn.cons hc)

/-- **A settled value stays settled when a settled one takes the place of a node** that is written. -/
theorem Edited.settled (h : Edited w new path v v') (hs : w.Settled v) (hn : w.Settled new)
    (hh : ¬ v.IsUnwritten path) : w.Settled v' := by
  induction h with
  | here => exact hn
  | @there i path v v' child child' hc _ hr ih =>
    have hchild := hs.child hc fun hn => hh (hn.isUnwritten path)
    exact hr.settled hs (ih hchild fun hn => hh (hn.cons hc))

/-! ## Edits by number -/

/-- An edit that succeeds comes to the tree of an edited root. -/
theorem Tree.edited_of_replace {root : Value} {id newId : Nat} {t : Tree} {w' : World}
    (h : (ofValue root).replace id new w = .ok (t, newId) w') : ∃ root',
      Edited w new ((ofValue root).path id) root root' ∧ t = ofValue root' ∧
        w' = w.advance ((ofValue root).path id).length := by
  by_cases hsize : (ofValue root).size ≤ id
  · rw [replace_of_size_le hsize] at h
    cases h
  · by_cases hr : (ofValue root).Rejects id new
    · obtain ⟨f, hf⟩ := replace_of_rejects (Nat.not_le.mp hsize) hr w
      rw [hf] at h
      cases h
    · obtain ⟨root', _, hedited, -, hreplace⟩ := replace_of_not_rejects (Nat.not_le.mp hsize) hr w
      rw [hreplace] at h
      cases h
      exact ⟨root', hedited, rfl, rfl⟩

/-- An edit by path that succeeds is one by number. -/
theorem Tree.replace_of_replaceAt {root root' : Value} {path : List Nat} {id : Nat} {w' : World}
    (hid : (ofValue root).atPath? path = some id) (h : root.replaceAt path new w = .ok root' w') :
    ∃ newId, (ofValue root).replace id new w = .ok (ofValue root', newId) w' := by
  obtain ⟨old, hold, -⟩ := value?_of_atPath? hid
  by_cases hr : (ofValue root).Rejects id new
  · obtain ⟨f, hf⟩ := replaceAt_of_rejects hold ((rejects_iff hid).mp hr) w
    rw [hf] at h
    cases h
  · obtain ⟨_, newId, hedited, -, hreplace⟩ := replace_of_not_rejects (lt_size_of_atPath? hid) hr w
    have hedit := hedited.replaceAt
    rw [path_of_atPath? hid] at hedit hreplace
    rw [h] at hedit
    cases hedit
    exact ⟨newId, hreplace⟩

namespace Session

/-- **An edit is local in the text.** In every tree that a host can come to, by reading and editing or
otherwise, and with every value: printed before and after an edit at a node that is written, the tree has the
same text around the node, whose text in its place becomes the text of the new value. The tree and the new
value are settled. -/
theorem print_replace {s : Session} (hs : s.Reachable) {root old v : Value} (hroot : s.Has root)
    (hv : s.Has v) {id newId : Nat} (hold : (Tree.ofValue root).value? id = some old)
    (hwritten : ¬ root.IsUnwritten ((Tree.ofValue root).path id)) (hsettled : s.world.Settled root)
    (hsettled' : s.world.Settled v) {t : Tree} {w : World}
    (hreplace : (Tree.ofValue root).replace id v (EditableLisp.print root s.world).2 = .ok (t, newId) w) :
    ∃ a b,
      (EditableLisp.print root s.world).1 = a ++
        old.inPlace (root.spellingAt? none ((Tree.ofValue root).path id))
          (EditableLisp.print old s.world).1 ++ b ∧
      (EditableLisp.print t.root w).1 = a ++ (EditableLisp.print v w).1 ++ b := by
  obtain ⟨R, hsound⟩ := hs.exists_sound
  have hknown := hsound.known hroot
  have hv := hsound.known hv
  have hat := Tree.at?_path hold
  have hprinted := printed_print hsound.world hknown
  have hw₁ : R.Ok (EditableLisp.print root s.world).2 := (steady_print hknown s.world hsound.world).1
  obtain ⟨R', hle, hdone⟩ := Tree.keeps_replace hknown hv id _ hw₁
  rw [hreplace] at hdone
  obtain ⟨hw, hroot'⟩ := hdone
  obtain ⟨root', hedited, rfl, rfl⟩ := Tree.edited_of_replace hreplace
  rw [Tree.root_ofValue] at hroot' ⊢
  have hatoms : (World.advance (EditableLisp.print root s.world).2
      ((Tree.ofValue root).path id).length).atoms = s.world.atoms := hprinted.atoms
  obtain ⟨a, b, hbefore, hafter⟩ := hedited.draw (s.world.atomText s.world.atoms.size) hw₁ hknown
    hat hwritten none
  have hsettled₂ := hedited.settled (hsettled.congr hprinted.atoms) (hsettled'.congr hprinted.atoms) hwritten
  refine ⟨a, b, ?_, ?_⟩
  · rw [print_of_settled hsound.world hknown hsettled,
      print_of_settled hsound.world (hsound.world.known_at hknown hat) (hsettled.at hat hwritten)]
    unfold World.textOf
    rw [hbefore, Value.draw_eq_inPlace]
  · rw [print_of_settled hw hroot' (hsettled₂.congr (hatoms.trans hprinted.atoms.symm)),
      print_of_settled hw (hv.mono hle) (hsettled'.congr hatoms), World.textOf_congr hatoms,
      World.textOf_congr hatoms]
    exact hafter

/-- A vector with a spelled number is read, and nothing in it can change its text. -/
def readsSpelled : Bool :=
  match EditableLisp.readProgram "[1.50 'x]" World.initial with
  | (.ok (.seq shape node [.seq shape' node' [old, v]]), w) =>
    let p : Value := .seq shape node [.seq shape' node' [old, v]]
    p.isFrozen && v.isFrozen &&
      old.inPlace (p.spellingAt? none [0, 0]) (EditableLisp.print old w).1 == "1.50" &&
      node'.style.mark?.isNone
  | _ => false

/-- A vector with a spelled number, as it is read into an empty world: the number is replaced by the marked
form after it. -/
theorem print_replace_spelled : ∃ p old v w id t newId w',
    EditableLisp.readProgram "[1.50 'x]" World.initial = (.ok p, w) ∧
      p.at? [0, 1] = some v ∧ (Tree.ofValue p).value? id = some old ∧ (Tree.ofValue p).path id = [0, 0] ∧
      (Tree.ofValue p).replace id v (EditableLisp.print p w).2 = .ok (t, newId) w' ∧
      old.inPlace (p.spellingAt? none [0, 0]) (EditableLisp.print old w).1 = "1.50" ∧ ∃ a b,
        (EditableLisp.print p w).1 = a ++ "1.50" ++ b ∧
        (EditableLisp.print t.root w').1 = a ++ (EditableLisp.print v w').1 ++ b := by
  have test : readsSpelled = true := by decide +kernel
  unfold readsSpelled at test
  split at test
  · rename_i shape node shape' node' old v w hr
    simp only [Bool.and_eq_true, beq_iff_eq] at test
    obtain ⟨⟨⟨hp, hv⟩, hplace⟩, hmark⟩ := test
    let p : Value := .seq shape node [.seq shape' node' [old, v]]
    let read : Session := ⟨w, [p], [], []⟩
    have hread : read.Reachable := Reachable.bare.step (Step.read hr)
    have hhas : read.Has p := Has.held List.mem_cons_self
    have hvector : read.Has (.seq shape' node' [old, v]) := hhas.item List.mem_cons_self
    have hat : p.at? [0, 0] = some old := rfl
    obtain ⟨id, hid, hold⟩ := Tree.exists_atPath? hat
    have hpath := Tree.path_of_atPath? hid
    have hwritten : ¬ p.IsUnwritten [0, 0] := by
      intro hn
      rcases hn.of_cons rfl with ⟨-, _, _, _, _, he, -⟩ | hn
      · have hone : [Value.seq shape' node' [old, v]] = [_, _] := congrArg Value.children he
        cases hone
      · rcases hn.of_cons rfl with ⟨-, _, _, _, _, he, hm⟩ | hn
        · cases he
          rw [Option.isNone_iff_eq_none.mp hmark] at hm
          cases hm
        · exact old.not_isUnwritten_nil hn
    have hrejects : ¬ (Tree.ofValue p).Rejects id v := by
      rw [Tree.rejects_iff hid]
      rintro ⟨above, i, owner, habove, howner, _, _, he, -⟩
      have hlast : [0] ++ [0] = above ++ [i] := habove
      obtain ⟨rfl, -⟩ := List.append_inj' hlast rfl
      cases howner
      cases he
    obtain ⟨root', newId, -, -, hreplace⟩ := Tree.replace_of_not_rejects (Tree.lt_size_of_atPath? hid)
      hrejects (EditableLisp.print p w).2
    obtain ⟨a, b, hbefore, hafter⟩ := print_replace hread hhas
      (hvector.item (List.mem_cons_of_mem _ List.mem_cons_self)) hold (by rwa [hpath])
      (World.settled_of_frozen hp) (World.settled_of_frozen hv) hreplace
    rw [hpath] at hbefore
    have hbefore : (EditableLisp.print p w).1 = a ++ "1.50" ++ b := by rw [← hplace]; exact hbefore
    exact ⟨p, old, v, w, id, _, newId, _, hr, rfl, hold, hpath, hreplace, hplace, a, b, hbefore, hafter⟩
  · cases test

/-- Texts that differ in two characters do not differ in one place of one character alone. -/
private theorem not_local {before after : String} {k : Nat} {c d : Char}
    (hk : ∀ i < k, (after.toList.set i c) ≠ before.toList) (hl : after.toList.length = k) :
    ¬ ∃ a b, before = a ++ String.singleton c ++ b ∧ after = a ++ String.singleton d ++ b := by
  rintro ⟨a, b, rfl, rfl⟩
  simp only [String.toList_append, String.toList_singleton] at hk hl
  refine hk a.toList.length ?_ ?_
  · rw [← hl]
    simp only [List.length_append, List.length_singleton]
    omega
  · simp

/-- A function with an atom in its body is put into a vector and printed, the atom is reset, and the other
element is replaced. -/
def printsStale (first : World) : Bool :=
  match EditableLisp.readProgram "[x y]" first with
  | (.ok (.seq shape node [.seq shape' node' [x, y]]), w₁) =>
    match EditableLisp.readProgram "(eval (list 'fn [] (def a (atom 1)))) (reset! a 2)" w₁ with
    | (.ok (.seq _ _ [make, reset]), w₂) =>
      match evalIn 100 make .global w₂ with
      | .ok f w₃ =>
        match (Value.seq shape node [.seq shape' node' [x, y]]).replaceAt [0, 0] f w₃ with
        | .ok (.seq shape₁ node₁ [.seq shape₂ node₂ [g, z]]) w₄ =>
          let root : Value := .seq shape₁ node₁ [.seq shape₂ node₂ [g, z]]
          match evalIn 100 reset .global (EditableLisp.print root w₄).2 with
          | .ok _ w₅ =>
            match root.replaceAt [0, 1] x (EditableLisp.print root w₅).2 with
            | .ok root' w₆ =>
              (EditableLisp.print root w₅).1 == "[(fn [] (atom 1)) y]" &&
                (EditableLisp.print root' w₆).1 == "[(fn [] (atom 2)) x]" &&
                z.inPlace (root.spellingAt? none [0, 1]) (EditableLisp.print z w₅).1 == "y" &&
                (EditableLisp.print x w₆).1 == "x"
            | _ => false
          | _ => false
        | _ => false
      | _ => false
    | _ => false
  | _ => false

/-- **An edit beside a function may show what the function was printed without.** The function has an atom in
its body, and the text that the tree keeps was made before the atom was reset. Printed before and after an
edit of the second element of the vector, the tree differs in the function too. -/
theorem stale_text : ∃ (s : Session) (root old v : Value) (id newId : Nat) (t : Tree) (w : World),
    s.Reachable ∧ s.Has root ∧ s.Has v ∧ (Tree.ofValue root).value? id = some old ∧
      ¬ root.IsUnwritten ((Tree.ofValue root).path id) ∧
      (Tree.ofValue root).replace id v (EditableLisp.print root s.world).2 = .ok (t, newId) w ∧
      (EditableLisp.print root s.world).1 = "[(fn [] (atom 1)) y]" ∧
      (EditableLisp.print t.root w).1 = "[(fn [] (atom 2)) x]" ∧
      ¬ ∃ a b, (EditableLisp.print root s.world).1 = a ++
          old.inPlace (root.spellingAt? none ((Tree.ofValue root).path id))
            (EditableLisp.print old s.world).1 ++ b ∧
        (EditableLisp.print t.root w).1 = a ++ (EditableLisp.print v w).1 ++ b := by
  have test : printsStale World.full = true := by decide +kernel
  -- from here on the world is any one in which the test succeeds
  have hfirst := Reachable.full
  generalize World.full = first at test hfirst
  unfold printsStale at test
  split at test
  · rename_i shape node shape' node' x y w₁ hp
    split at test
    · rename_i shapeq nodeq make reset w₂ hq
      split at test
      · rename_i f w₃ hf
        split at test
        · rename_i shape₁ node₁ shape₂ node₂ g z w₄ hroot
          dsimp only at test
          split at test
          · rename_i c w₅ hc
            split at test
            · rename_i root' w₆ hroot'
              simp only [Bool.and_eq_true, beq_iff_eq] at test
              obtain ⟨⟨⟨hbefore, hafter⟩, hold⟩, hnew⟩ := test
              let p : Value := .seq shape node [.seq shape' node' [x, y]]
              let q : Value := .seq shapeq nodeq [make, reset]
              let root : Value := .seq shape₁ node₁ [.seq shape₂ node₂ [g, z]]
              let s₃ : Session := ⟨w₃, [f, q, p], [], []⟩
              let s₄ : Session := ⟨w₄, [root, f, q, p], [], []⟩
              let text : Value := .text (EditableLisp.print root w₄).1
              let s₅ : Session := ⟨(EditableLisp.print root w₄).2, [text, root, f, q, p], [], []⟩
              let s₆ : Session := ⟨w₅, [c, text, root, f, q, p], [], []⟩
              have hx : p.at? [0, 0] = some x := rfl
              obtain ⟨id, hid, -⟩ := Tree.exists_atPath? hx
              obtain ⟨newId, hreplace⟩ := Tree.replace_of_replaceAt hid hroot
              have hz : root.at? [0, 1] = some z := rfl
              obtain ⟨id', hid', hvalue⟩ := Tree.exists_atPath? hz
              obtain ⟨newId', hreplace'⟩ := Tree.replace_of_replaceAt hid' hroot'
              have hpath := Tree.path_of_atPath? hid'
              have h₃ : s₃.Reachable := ((hfirst.step (.read hp)).step (.read hq)).step
                (.evaluate (.item (.held List.mem_cons_self) List.mem_cons_self) .global hf)
              have h₄ : s₃.Step s₄ := by
                have hedit := @Step.replaceNode s₃ _ _ _ _ _ _ (.held (List.mem_of_getElem? (i := 2) rfl))
                  (.held List.mem_cons_self) hreplace
                rwa [Tree.root_ofValue] at hedit
              have h₅ : s₄.Step s₅ := .print (.held List.mem_cons_self)
              have h₆ : s₅.Step s₆ := .evaluate
                (.item (.held (List.mem_of_getElem? (i := 3) rfl)) (List.mem_of_getElem? (i := 1) rfl)) .global hc
              have hhas : s₆.Has x :=
                .item (.item (.held (List.mem_of_getElem? (i := 5) rfl)) List.mem_cons_self) List.mem_cons_self
              refine ⟨s₆, root, z, x, id', newId', _, w₆, ((h₃.step h₄).step h₅).step h₆,
                .held (List.mem_of_getElem? (i := 2) rfl), hhas, hvalue, ?_, hreplace', hbefore, ?_, ?_⟩
              · rw [hpath]
                intro hn
                rcases hn.of_cons rfl with ⟨-, _, _, _, _, he, -⟩ | hn
                · have hone : [Value.seq shape₂ node₂ [g, z]] = [_, _] := congrArg Value.children he
                  cases hone
                · rcases hn.of_cons rfl with ⟨hone, -⟩ | hn
                  · cases hone
                  · exact z.not_isUnwritten_nil hn
              · rw [Tree.root_ofValue]
                exact hafter
              · have hold : z.inPlace (root.spellingAt? none [0, 1]) (EditableLisp.print z s₆.world).1 = "y" := hold
                have hbefore : (EditableLisp.print root s₆.world).1 = "[(fn [] (atom 1)) y]" := hbefore
                rw [hpath, Tree.root_ofValue, hold, hnew, hbefore, hafter]
                exact not_local (c := 'y') (d := 'x') (by decide : ∀ i < 20, _) rfl
            · cases test
          · cases test
        · cases test
      · cases test
    · cases test
  · cases test

end Session

end EditableLisp
