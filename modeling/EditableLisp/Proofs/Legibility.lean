import EditableLisp.Value.Equality
import EditableLisp.Proofs.Describing

/-!
# Values that can be told from their texts

`Value.isLegible` computes whether a value can be told from its text: no element runs on into the next one,
no tilde stands before an at sign, and behind every mark stands what the mark is for.

A value is legible exactly if the form that it is written as is clear and a value that represents the form is
equal to it (`Form.Describes.isLegible_iff`). So is a program (`Program.Describes.isLegible_iff`).
-/

namespace EditableLisp

open Registry

/-! ## Legible values -/

namespace Value

/-- The texts of elements, with the spellings of a node. What is read holds no atoms. -/
def drawEach (spellings : List (Option String)) : List Value → List String
  | [] => []
  | v :: rest => v.draw (fun _ _ => "") true (firstSpelling spellings) :: drawEach spellings.tail rest

/-- A value is a symbol of a name. -/
def isNamed (name : String) : Value → Bool
  | symbol _ other => other == name
  | _ => false

/-- A sequence can be told from its text: behind a mark stands what the mark is for, and after a tilde no at
sign; in brackets no element runs on into the next one. -/
def isClear (node : Node) (items : List Value) : Bool :=
  let gaps := node.drawnGaps items.length
  let texts := drawEach (node.spellings.getD []) items
  match node.style.mark?, items with
  | some _, [head, _] => head.isNamed node.style.name &&
      (node.style != .unquote || (gaps.getD 1 "" ++ texts.getD 1 "").toList.head? != some '@')
  | _, _ => Token.apart gaps texts

mutual

/-- A value can be told from its text. -/
def isLegible : Value → Bool
  | seq _ node items => isClear node items && areLegible items
  | map node entries =>
    Token.apart (node.drawnGaps (2 * entries.length))
      (drawEach (node.spellings.getD []) (entries.flatMap fun (k, v) => [k.toValue, v])) &&
    entriesLegible entries
  | _ => true

/-- `isLegible` for all of some values. -/
def areLegible : List Value → Bool
  | [] => true
  | v :: rest => isLegible v && areLegible rest

/-- `isLegible` for the values of entries. -/
def entriesLegible : List (Key × Value) → Bool
  | [] => true
  | (_, v) :: rest => isLegible v && entriesLegible rest

end

theorem areLegible_iff {items : List Value} : areLegible items ↔ ∀ v ∈ items, v.isLegible := by
  induction items with
  | nil => exact ⟨nofun, fun _ => rfl⟩
  | cons v rest ih =>
    unfold areLegible
    rw [Bool.and_eq_true, ih, List.forall_mem_cons]

theorem entriesLegible_iff {entries : Entries} : entriesLegible entries ↔ ∀ e ∈ entries, e.2.isLegible := by
  induction entries with
  | nil => exact ⟨nofun, fun _ => rfl⟩
  | cons e rest ih =>
    unfold entriesLegible
    rw [Bool.and_eq_true, ih, List.forall_mem_cons]

/-- A sequence is legible if it is clear and its elements are legible. -/
theorem isLegible_seq {shape : Shape} {node : Node} {items : List Value} :
    (seq shape node items).isLegible ↔ isClear node items ∧ ∀ v ∈ items, v.isLegible := by
  rw [isLegible, Bool.and_eq_true, areLegible_iff]

/-- A map is legible if its keys and values stand apart and its values are legible. -/
theorem isLegible_map {node : Node} {es : Entries} : (map node es).isLegible ↔
    Token.apart (node.drawnGaps (2 * es.length)) (drawEach (node.spellings.getD []) (map node es).children) ∧
      ∀ e ∈ es, e.2.isLegible := by
  rw [isLegible, Bool.and_eq_true, entriesLegible_iff]
  exact Iff.rfl

/-- A symbol is equal to the symbols of its name. -/
theorem symbol_equal_iff {id : NodeId} {name : String} {v : Value} :
    (symbol id name).equal v ↔ v.isNamed name := by
  cases v with
  | symbol id' other =>
    show (name == other) = true ↔ (other == name) = true
    rw [beq_iff_eq, beq_iff_eq, eq_comm]
  | _ => exact Iff.rfl

theorem isLegible_of_isNamed {v : Value} {name : String} (h : v.isNamed name) : v.isLegible := by
  cases v with
  | symbol => rfl
  | _ => cases h

theorem isClear_marked {node : Node} {head v : Value} {mark : String} (hm : node.style.mark? = some mark) :
    isClear node [head, v] ↔ head.isNamed node.style.name ∧ (node.style = .unquote →
      ((node.drawnGaps 2).getD 1 "" ++
        v.draw (fun _ _ => "") true (node.spellings.getD [])[1]?.join).toList.head? ≠ some '@') := by
  have hspelling : (node.spellings.getD [])[1]?.join = firstSpelling (node.spellings.getD []).tail := by
    rw [firstSpelling, List.head?_eq_getElem?, List.getElem?_tail]
  unfold isClear
  rw [hm, hspelling]
  dsimp only
  rw [Bool.and_eq_true, Bool.or_eq_true, bne_iff_ne, bne_iff_ne]
  exact and_congr_right' Decidable.imp_iff_not_or.symm

theorem isClear_bracketed {node : Node} {items : List Value}
    (hb : ∀ mark head form, node.style.mark? = some mark → items = [head, form] → False) :
    isClear node items ↔ Token.apart (node.drawnGaps items.length)
      (drawEach (node.spellings.getD []) items) := by
  unfold isClear
  dsimp only
  split
  · rename_i mark head form hm
    exact (hb mark head form hm rfl).elim
  · exact Iff.rfl

end Value

/-! ## Texts of parts -/

theorem FormKey.eq_of_toForm {key key' : FormKey} (h : key.toForm = key'.toForm) : key = key' := by
  cases key <;> cases key' <;> cases h <;> rfl

/-- What is made of pairs in turn. -/
theorem getElem?_flatMap_pair {α β : Type} (f g : α → β) (as : List α) (i : Nat) :
    (as.flatMap fun a => [f a, g a])[2 * i]? = as[i]?.map f ∧
      (as.flatMap fun a => [f a, g a])[2 * i + 1]? = as[i]?.map g := by
  induction as generalizing i with
  | nil => exact ⟨rfl, rfl⟩
  | cons a rest ih =>
    cases i with
    | zero => exact ⟨rfl, rfl⟩
    | succ i => exact ih i

/-- The value of an entry stands behind its key. -/
theorem getElem?_values {es : Entries} {i : Nat} {e : Key × Value} (h : es[i]? = some e) :
    (es.flatMap fun (k, v) => [k.toValue, v])[2 * i + 1]? = some e.2 := by
  have hpair := (getElem?_flatMap_pair (fun e : Key × Value => e.1.toValue) Prod.snd es i).2
  rwa [h] at hpair

namespace Form

variable {R : Registry} {w : World} {form : Form} {spelling : Option String} {v : Value}

/-- The texts of values are those of the forms that they are written as. -/
theorem DescribesEach.drawEach {spellings : List (Option String)} {forms : List Form} {vs : List Value}
    (h : DescribesEach spellings forms vs) : Value.drawEach spellings vs = forms.map source := by
  induction forms generalizing spellings vs with
  | nil =>
    obtain rfl := List.length_eq_zero_iff.mp h.1
    rfl
  | cons form rest ih =>
    cases vs with
    | nil => cases h.1
    | cons v vs =>
      have hfirst : v.draw (fun _ _ => "") true (firstSpelling spellings) = form.source := by
        rw [firstSpelling, List.head?_eq_getElem?]
        exact (h.2 0 form v rfl rfl).draw.2 _
      have hrest : DescribesEach spellings.tail rest vs := by
        refine ⟨Nat.succ.inj h.1, fun i part u hpart hu => ?_⟩
        rw [List.getElem?_tail]
        exact h.2 (i + 1) part u hpart hu
      unfold Value.drawEach
      rw [hfirst, ih hrest]
      rfl

/-- The keys of a map have the names that are written. -/
theorem names_of_describes {entries : List (FormKey × Form)} {node : Node} {es : Entries}
    (hlen : es.length = entries.length) (h : ∀ (i : Nat) part v, (entryForms entries)[i]? = some part →
      (Value.map node es).children[i]? = some v → part.Describes (node.spellings.getD [])[i]?.join v) :
    Entries.names es = entries.map fun e => e.1.name := by
  refine List.ext_getElem? fun i => ?_
  rw [Entries.names, List.getElem?_map, List.getElem?_map]
  cases he : es[i]? with
  | none =>
    have hnone : entries[i]? = none := by
      rw [List.getElem?_eq_none_iff] at he ⊢
      omega
    rw [hnone]
    rfl
  | some e =>
    obtain ⟨entry, hentry⟩ := exists_of_length_eq hlen.symm he
    have hpart := (getElem?_flatMap_pair (fun e : FormKey × Form => e.1.toForm) Prod.snd entries i).1
    have hkey := (getElem?_flatMap_pair (fun e : Key × Value => e.1.toValue) Prod.snd es i).1
    rw [hentry] at hpart
    rw [he] at hkey
    have hk : e.1.toValue.key? = some e.1 := by cases e.1 <;> rfl
    obtain ⟨key, hto, hname⟩ := (h (2 * i) _ _ hpart hkey).exists_key hk
    rw [hentry, Option.map_some, Option.map_some, ← hname, FormKey.eq_of_toForm hto]

/-- **The form that a known value is written as can be written**, and the keys of its maps differ. -/
theorem Describes.writable (hw : R.Ok w) (hknown : R.Known v) (h : form.Describes spelling v) :
    form.Writable ∧ form.Fits := by
  induction h with
  | @leaf form spelling v hwritable hv =>
    refine ⟨.intro hwritable fun i part hpart => ?_, ?_⟩
    · cases form <;> first | cases hpart | cases hv
    · cases form <;> trivial
  | @marked gap form spelling node head v hwritable _ _ ih =>
    obtain ⟨hform, hfits⟩ := ih (hw.known_children hknown v (List.mem_cons_of_mem _ List.mem_cons_self))
    refine ⟨.intro hwritable fun i part hpart => ?_, hwritable.1, hfits⟩
    match i, hpart with
    | 1, hpart =>
      cases hpart
      exact hform
  | @seq shape gaps items spelling node vs hwritable _ _ hlen _ ih =>
    have hparts : ∀ (i : Nat) part, items[i]? = some part → part.Writable ∧ part.Fits := fun i part hpart => by
      obtain ⟨v, hv⟩ := exists_of_length_eq hlen hpart
      exact ih i part v hpart hv (hw.known_children hknown v (List.mem_of_getElem? hv))
    refine ⟨.intro hwritable fun i part hpart => (hparts i part hpart).1, hwritable.1,
      fitsEach_of_forall fun part hpart => ?_⟩
    obtain ⟨i, hi⟩ := List.mem_iff_getElem?.mp hpart
    exact (hparts i part hi).2
  | @map gaps entries spelling node es hwritable _ hlen hdescribes ih =>
    have hlen' : (Value.map node es).children.length = (entryForms entries).length := by
      rw [Value.length_children_map, length_entryForms, hlen]
    have hparts : ∀ (i : Nat) part, (entryForms entries)[i]? = some part → part.Writable ∧ part.Fits :=
      fun i part hpart => by
        obtain ⟨v, hv⟩ := exists_of_length_eq hlen' hpart
        exact ih i part v hpart hv (hw.known_children hknown v (List.mem_of_getElem? hv))
    have hnodup := (hw.partsKnown hknown).1
    rw [names_of_describes hlen hdescribes] at hnodup
    refine ⟨.intro hwritable fun i part hpart => (hparts i part hpart).1, hwritable.1, hnodup,
      fitsEntries_of_forall fun part hpart => ?_⟩
    obtain ⟨i, hi⟩ := List.mem_iff_getElem?.mp hpart
    exact (hparts i part hi).2

end Form

/-! ## Equality -/

namespace Value

/-- Values in a row are equal to others if they are equal to them in every place. -/
theorem equalItems_iff {us vs : List Value} (hlen : us.length = vs.length) : equalItems us vs ↔
    ∀ (i : Nat) u v, us[i]? = some u → vs[i]? = some v → u.equal v := by
  induction us generalizing vs with
  | nil =>
    obtain rfl := List.length_eq_zero_iff.mp hlen.symm
    exact ⟨fun _ _ _ _ => nofun, fun _ => rfl⟩
  | cons u us ih =>
    cases vs with
    | nil => cases hlen
    | cons v vs =>
      rw [equalItems, Bool.and_eq_true, ih (Nat.succ.inj hlen)]
      refine ⟨fun h i x y hx hy => ?_, fun h => ⟨h 0 u v rfl rfl, fun i => h (i + 1)⟩⟩
      cases i with
      | zero =>
        cases hx
        cases hy
        exact h.1
      | succ i => exact h.2 i x y hx hy

/-- Entries are equal to others if every one has an equal one of its name among them. -/
theorem equalEntries_iff {us vs : Entries} : equalEntries us vs ↔
    ∀ d ∈ us, ∃ e, vs.find? (fun e => e.1.name == d.1.name) = some e ∧ d.2.equal e.2 := by
  induction us with
  | nil => exact ⟨fun _ => nofun, fun _ => rfl⟩
  | cons d rest ih =>
    obtain ⟨k, v⟩ := d
    rw [equalEntries, Bool.and_eq_true, ih, List.forall_mem_cons]
    refine and_congr_left' ?_
    cases vs.find? (fun e => e.1.name == k.name) with
    | none => exact ⟨nofun, fun h => nomatch h⟩
    | some e => exact ⟨fun h => ⟨e, rfl, h⟩, fun ⟨_, he, h⟩ => by cases he; exact h⟩

/-- Entries with the names of others are equal to them if they are equal to them in every place. -/
theorem equalEntries_iff_of_names {us vs : Entries} (hnames : Entries.names us = Entries.names vs)
    (hn : (Entries.names vs).Nodup) : equalEntries us vs ↔
      ∀ (i : Nat) d e, us[i]? = some d → vs[i]? = some e → d.2.equal e.2 := by
  have hplace : ∀ {i : Nat} {d e : Key × Value}, us[i]? = some d → vs[i]? = some e →
      vs.find? (fun e => e.1.name == d.1.name) = some e := by
    intro i d e hd he
    have hname : (Entries.names us)[i]? = (Entries.names vs)[i]? := by rw [hnames]
    rw [Entries.names, Entries.names, List.getElem?_map, List.getElem?_map, hd, he] at hname
    have hname : d.1.name = e.1.name := Option.some.inj hname
    rw [hname]
    exact Entries.find?_name hn (List.mem_of_getElem? he)
  rw [equalEntries_iff]
  refine ⟨fun h i d e hd he => ?_, fun h d hd => ?_⟩
  · obtain ⟨e', he', hequal⟩ := h d (List.mem_of_getElem? hd)
    rw [hplace hd he] at he'
    cases he'
    exact hequal
  · obtain ⟨i, hi⟩ := List.mem_iff_getElem?.mp hd
    have hlen : us.length = vs.length := by
      have hmap := congrArg List.length hnames
      rwa [Entries.names, Entries.names, List.length_map, List.length_map] at hmap
    obtain ⟨e, he⟩ := exists_of_length_eq hlen.symm hi
    exact ⟨e, hplace hi he, h i d e hi he⟩

end Value

/-- Known keywords of the same name are the same keyword. -/
theorem Registry.Ok.keyword_inj {R : Registry} {w : World} (hw : R.Ok w) {i j : Nat} {name : String}
    (hi : R.keyword i = some name) (hj : R.keyword j = some name) : i = j := by
  rw [← hw.keywords, Array.getElem?_toList.symm] at hi hj
  exact (List.getElem?_inj (List.getElem?_eq_some_iff.mp hi).1 hw.names).mp (hi.trans hj.symm)

namespace Form

variable {R : Registry} {w : World} {form : Form} {spelling : Option String} {u v : Value}

/-- What represents a leaf is equal to what is written as the leaf. -/
theorem IsLeafOf.equal (hw : R.Ok w) (hv : form.IsLeafOf spelling v) (hknown : R.Known v)
    (hu : form.Represents u) (hknown' : R.Known u) : u.equal v := by
  cases form with
  | nil =>
    unfold Represents at hu
    obtain rfl := hv
    subst hu
    rfl
  | bool b =>
    unfold Represents at hu
    obtain rfl := hv
    subst hu
    exact beq_self_eq_true b
  | num x written =>
    unfold Represents at hu
    obtain ⟨y, rfl, heq, -⟩ := hv
    subst hu
    exact heq
  | text content written =>
    unfold Represents at hu
    obtain ⟨rfl, -⟩ := hv
    subst hu
    exact beq_self_eq_true content
  | keyword name =>
    unfold Represents at hu
    obtain ⟨i, rfl⟩ := hu
    obtain ⟨j, rfl⟩ := hv
    exact beq_iff_eq.mpr (hw.keyword_inj hknown' hknown)
  | symbol name =>
    unfold Represents at hu
    obtain ⟨i, rfl⟩ := hu
    obtain ⟨j, rfl⟩ := hv
    exact beq_self_eq_true name
  | _ => cases hv

theorem RepresentsEach.exists_value {forms : List Form} {us : List Value} (h : RepresentsEach forms us) {i : Nat}
    {part : Form} (hpart : forms[i]? = some part) : ∃ u, us[i]? = some u ∧ part.Represents u := by
  obtain ⟨u, hu⟩ := exists_of_length_eq h.length hpart
  obtain ⟨part', hpart', hrep⟩ := h.getElem? hu
  rw [hpart] at hpart'
  cases hpart'
  exact ⟨u, hu, hrep⟩

/-- Values are legible exactly if the forms that they are written as are clear and what represents the forms is
equal to them, if this is so of each. -/
theorem legible_each {forms : List Form} {us vs : List Value} (hus : RepresentsEach forms us)
    (hlen : vs.length = forms.length) (h : ∀ (i : Nat) part u v, forms[i]? = some part → us[i]? = some u →
      vs[i]? = some v → part.Represents u → (v.isLegible ↔ part.Clear ∧ u.equal v)) :
    (∀ v ∈ vs, v.isLegible) ↔ (∀ part ∈ forms, part.Clear) ∧
      ∀ (i : Nat) u v, us[i]? = some u → vs[i]? = some v → u.equal v := by
  refine ⟨fun hall => ⟨fun part hpart => ?_, fun i u v hu hv => ?_⟩, fun ⟨hclear, hequal⟩ v hv => ?_⟩
  · obtain ⟨i, hi⟩ := List.mem_iff_getElem?.mp hpart
    obtain ⟨v, hv⟩ := exists_of_length_eq hlen hi
    obtain ⟨u, hu, hrep⟩ := hus.exists_value hi
    exact ((h i part u v hi hu hv hrep).mp (hall v (List.mem_of_getElem? hv))).1
  · obtain ⟨part, hpart, hrep⟩ := hus.getElem? hu
    exact ((h i part u v hpart hu hv hrep).mp (hall v (List.mem_of_getElem? hv))).2
  · obtain ⟨i, hi⟩ := List.mem_iff_getElem?.mp hv
    obtain ⟨part, hpart⟩ := exists_of_length_eq hlen.symm hi
    obtain ⟨u, hu, hrep⟩ := hus.exists_value hpart
    exact (h i part u v hpart hu hi hrep).mpr ⟨hclear part (List.mem_of_getElem? hpart), hequal i u v hu hi⟩

/-- `legible_each` for entries; all keys are legible. -/
theorem legible_entries {entries : List (FormKey × Form)} {us es : Entries} (node : Node)
    (hus : RepresentsEntries entries us) (hlen : es.length = entries.length)
    (h : ∀ (i : Nat) part x y, (entryForms entries)[i]? = some part →
      (us.flatMap fun (k, v) => [k.toValue, v])[i]? = some x → (Value.map node es).children[i]? = some y →
      part.Represents x → (y.isLegible ↔ part.Clear ∧ x.equal y)) :
    (∀ e ∈ es, e.2.isLegible) ↔ (∀ part ∈ entryForms entries, part.Clear) ∧
      ∀ (i : Nat) d e, us[i]? = some d → es[i]? = some e → d.2.equal e.2 := by
  have hlen' : (Value.map node es).children.length = (entryForms entries).length := by
    rw [Value.length_children_map, length_entryForms, hlen]
  refine ⟨fun hl => ?_, fun ⟨hclear, hequal⟩ e he => ?_⟩
  · have hall : ∀ child ∈ (Value.map node es).children, child.isLegible := by
      intro child hc
      obtain ⟨e, he, hm⟩ := List.mem_flatMap.mp hc
      rcases List.mem_cons.mp hm with rfl | hm
      · cases e.1 <;> rfl
      · rw [List.mem_singleton.mp hm]
        exact hl e he
    obtain ⟨hclear, hequal⟩ := (legible_each hus.each hlen' h).mp hall
    exact ⟨hclear, fun i d e hd he => hequal (2 * i + 1) d.2 e.2 (getElem?_values hd) (getElem?_values he)⟩
  · obtain ⟨i, hi⟩ := List.mem_iff_getElem?.mp he
    obtain ⟨d, hd⟩ := exists_of_length_eq (hus.length.trans hlen.symm) hi
    obtain ⟨part, hpart, hrep⟩ := hus.each.getElem? (getElem?_values hd)
    exact (h (2 * i + 1) part d.2 e.2 hpart (getElem?_values hd) (getElem?_values hi) hrep).mpr
      ⟨hclear part (List.mem_of_getElem? hpart), hequal i d e hd hi⟩

/-- **A value is legible exactly if the form that it is written as is clear and what represents the form is
equal to it.** -/
theorem Describes.isLegible_iff (hw : R.Ok w) (h : form.Describes spelling v) (hknown : R.Known v)
    (hu : form.Represents u) (hknown' : R.Known u) : v.isLegible ↔ form.Clear ∧ u.equal v := by
  induction h generalizing u with
  | @leaf form spelling v _ hv =>
    have hequal := hv.equal hw hknown hu hknown'
    have hleaf : form.isLeaf ∧ v.isLegible := by
      cases form with
      | nil | bool =>
        obtain rfl := hv
        exact ⟨rfl, rfl⟩
      | num | keyword | symbol =>
        obtain ⟨_, rfl, -⟩ := hv
        exact ⟨rfl, rfl⟩
      | text =>
        obtain ⟨rfl, -⟩ := hv
        exact ⟨rfl, rfl⟩
      | _ => cases hv
    exact ⟨fun _ => ⟨clear_of_isLeaf hleaf.1, hequal⟩, fun _ => hleaf.2⟩
  | @marked gap form spelling node head v hwritable hgaps hv ih =>
    unfold Represents at hu
    obtain ⟨id, name, x, hx, rfl⟩ := hu
    have hmem : ∀ {a b : Value}, b ∈ [a, b] := List.mem_cons_of_mem _ List.mem_cons_self
    have hform := ih (hw.known_children hknown v hmem) hx (hw.known_children hknown' x hmem)
    obtain ⟨mark, hm⟩ := Option.isSome_iff_exists.mp hwritable.1
    rw [Value.isLegible_seq, Value.isClear_marked hm, hgaps, hv.draw.2, clear_marked, List.forall_mem_cons,
      List.forall_mem_singleton, hform]
    show _ ↔ _ ∧ ((Value.symbol name node.style.name).equal head && (x.equal v && true)) = true
    rw [Bool.and_true, Bool.and_eq_true, Value.symbol_equal_iff]
    exact ⟨fun ⟨⟨hhead, hat⟩, _, hclear, hequal⟩ => ⟨⟨hat, hclear⟩, hhead, hequal⟩,
      fun ⟨⟨hat, hclear⟩, hhead, hequal⟩ => ⟨⟨hhead, hat⟩, Value.isLegible_of_isNamed hhead, hclear, hequal⟩⟩
  | @seq shape gaps items spelling node vs hwritable hstyle hgaps hlen hparts ih =>
    unfold Represents at hu
    obtain ⟨id, us, hus, rfl⟩ := hu
    have hb := node.bracketed_of_style (by rw [hstyle]; rfl) vs
    have heach : DescribesEach (node.spellings.getD []) items vs := ⟨hlen, hparts⟩
    have hequal : Value.equal (.seq shape ⟨id, .plain, some gaps, keptSpellings (items.map oddSpelling?)⟩ us)
        (.seq shape node vs) ↔ ∀ (i : Nat) x y, us[i]? = some x → vs[i]? = some y → x.equal y :=
      Value.equalItems_iff (hus.length.trans hlen.symm)
    rw [Value.isLegible_seq, Value.isClear_bracketed hb, heach.drawEach, hgaps,
      clear_iff_of_child? (fun _ => rfl), hequal, and_assoc]
    refine and_congr_right' (legible_each hus hlen fun i part x y hpart hx hy hrep => ?_)
    exact ih i part y hpart hy (hw.known_children hknown y (List.mem_of_getElem? hy)) hrep
      (hw.known_children hknown' x (List.mem_of_getElem? hx))
  | @map gaps entries spelling node es hwritable hgaps hlen hparts ih =>
    unfold Represents at hu
    obtain ⟨id, us, hus, rfl⟩ := hu
    have hlen' : (Value.map node es).children.length = (entryForms entries).length := by
      rw [Value.length_children_map, length_entryForms, hlen]
    have heach : DescribesEach (node.spellings.getD []) (entryForms entries) (Value.map node es).children :=
      ⟨hlen', hparts⟩
    have hnames : Entries.names us = Entries.names es := hus.names.trans (names_of_describes hlen hparts).symm
    have hnodup : (Entries.names es).Nodup := (hw.partsKnown hknown).1
    have hequal : Value.equal (.map ⟨id, .plain, some gaps, keptSpellings (entrySpellings entries)⟩ us)
        (.map node es) ↔ ∀ (i : Nat) d e, us[i]? = some d → es[i]? = some e → d.2.equal e.2 := by
      rw [← Value.equalEntries_iff_of_names hnames hnodup]
      show (us.length == es.length && Value.equalEntries us es) = true ↔ _
      rw [hus.length.trans hlen.symm, beq_self_eq_true, Bool.true_and]
    rw [Value.isLegible_map, heach.drawEach, hgaps, clear_iff_of_child? (fun _ => rfl), hequal, and_assoc]
    refine and_congr_right' (legible_entries node hus hlen fun i part x y hpart hx hy hrep => ?_)
    exact ih i part y hpart hy (hw.known_children hknown y (List.mem_of_getElem? hy)) hrep
      (hw.known_children hknown' x (List.mem_of_getElem? hx))

end Form

namespace Program

variable {p : Program} {R : Registry} {w : World} {u v : Value}

/-- **The program that a known value is written as can be written.** -/
theorem Describes.writable (hw : R.Ok w) (hknown : R.Known v) (h : p.Describes v) : p.Writable := by
  cases h with
  | @intro node vs hwritable _ _ heach =>
    have hforms : ∀ form ∈ p.forms, form.Writable ∧ form.Fits := fun form hform => by
      obtain ⟨i, hi⟩ := List.mem_iff_getElem?.mp hform
      obtain ⟨v, hv⟩ := exists_of_length_eq heach.1 hi
      exact (heach.2 i form v hi hv).writable hw (hw.known_children hknown v (List.mem_of_getElem? hv))
    exact ⟨hwritable, fun form hform => (hforms form hform).1, fun form hform => (hforms form hform).2⟩

/-- **A program is legible exactly if what it is written as is clear and represents what is equal to it.** -/
theorem Describes.isLegible_iff (hw : R.Ok w) (h : p.Describes v) (hknown : R.Known v) (hu : p.Represents u)
    (hknown' : R.Known u) : v.isLegible ↔ p.Clear ∧ u.equal v := by
  cases h with
  | @intro node vs hwritable hstyle hgaps heach =>
    obtain ⟨id, us, hus, rfl⟩ := hu
    have hb := node.bracketed_of_style (by rw [hstyle]; rfl) vs
    have hequal : Value.equal (.seq .list ⟨id, .program, some p.gaps,
        keptSpellings (p.forms.map Form.oddSpelling?)⟩ us) (.seq .list node vs) ↔ ∀ (i : Nat) x y, us[i]? = some x → vs[i]? = some y → x.equal y :=
      Value.equalItems_iff (hus.length.trans heach.1.symm)
    rw [Value.isLegible_seq, Value.isClear_bracketed hb, heach.drawEach, hgaps, Clear, hequal,
      and_assoc]
    refine and_congr_right' (Form.legible_each hus heach.1 fun i part x y hpart hx hy hrep => ?_)
    exact (heach.2 i part y hpart hy).isLegible_iff hw (hw.known_children hknown y (List.mem_of_getElem? hy)) hrep
      (hw.known_children hknown' x (List.mem_of_getElem? hx))

/-- A program that can be written is represented by a value. -/
theorem Writable.exists_represents (hw : R.Ok w) (h : p.Writable) :
    ∃ R' w' u, R ≤ R' ∧ R'.Ok w' ∧ R'.Known u ∧ p.Represents u := by
  obtain ⟨R', hle, hdone⟩ := keeps_programValue h w hw
  rw [@lift_of_eq _ p.toValue w _ _ rfl] at hdone
  exact ⟨R', _, _, hle, hdone⟩

end Program

end EditableLisp
