import EditableLisp.Proofs.Legibility
import EditableLisp.Proofs.Session

/-!
# Data that was made at run time

`Value.IsData` says of a value that it is a datum without a layout of its own: strings, names and numbers that
can be told from their texts, and lists, vectors and maps of data, which are printed with the default gaps.

A datum is written as a form (`Value.IsData.exists_describes`) and is legible (`Value.IsData.isLegible`), so it
reads back equal (`Form.Describes.exists_readForm`), with the same kinds in the same places
(`Value.IsData.kinds_eq`). **`Session.readForm_print`** says so of all data within reach in a session.
-/

namespace EditableLisp

open Registry

/-! ## Data -/

/-- A text is cut into one name or number. -/
def Token.IsAtom (text : String) : Prop :=
  ∃ t tail size, Token.scan text = .ok ⟨[t], tail, size⟩ ∧ t.kind = .atom ∧ t.lexeme = text

/-- A value made at run time, without a layout, whose names and numbers can be told from their texts. -/
inductive Value.IsData : Value → Prop where
  | nil : IsData .nil
  | bool (b : Bool) : IsData (.bool b)
  | num {x y : Number} : Number.ofString? (Number.format x) = some y → y.equal x → IsData (.num x)
  | text (s : String) : IsData (.text s)
  | keyword {k : Keyword} : k.name ≠ "" → (∀ c ∈ k.name.toList, Token.endsAtom c = false) → IsData (.keyword k)
  | symbol {id : NodeId} {name : String} : Token.IsAtom name → name ∉ ["nil", "true", "false"] →
      name.toList.head? ≠ some ':' → ¬ Number.looksNumeric name.toList → IsData (.symbol id name)
  | seq {shape : Shape} {id : NodeId} {items : List Value} : (∀ v ∈ items, IsData v) →
      IsData (.seq shape (.bare id) items)
  | map {id : NodeId} {entries : Entries} : (∀ e ∈ entries, IsData e.1.toValue) →
      (∀ e ∈ entries, IsData e.2) → IsData (.map (.bare id) entries)

theorem Token.IsAtom.isLexeme {text : String} (h : Token.IsAtom text) : Token.IsLexeme .atom text := by
  obtain ⟨t, tail, size, hscan, hk, rfl⟩ := h
  have ht := ((Token.wellFormed_scan hscan).1 t List.mem_cons_self).lexeme
  rwa [hk] at ht

/-- A word that looks like a number is a name or number. -/
theorem Token.isLexeme_of_looksNumeric {text : String} (hn : Number.looksNumeric text.toList)
    (hw : ∀ c ∈ text.toList, Token.endsAtom c = false) : Token.IsLexeme .atom text := by
  cases hl : text.toList with
  | nil =>
    rw [hl] at hn
    cases hn
  | cons c cs =>
    rw [hl] at hn hw
    obtain ⟨hc, hcs⟩ := List.forall_mem_cons.mp hw
    have hne : ∀ d : Char, (∀ ds, Number.looksNumeric (d :: ds) = false) → c ≠ d := by
      rintro d hd rfl
      rw [hd] at hn
      cases hn
    refine Token.isLexeme_atom hl ?_ hcs
    have hmark : Token.markOf? c = none := by
      unfold Token.markOf?
      rw [if_neg (hne '\'' fun ds => by cases ds <;> rfl), if_neg (hne '\x60' fun ds => by cases ds <;> rfl),
        if_neg (hne '@' fun ds => by cases ds <;> rfl)]
    have htilde : c ≠ '~' := hne '~' fun ds => by cases ds <;> rfl
    simp [Token.startsAtom, hc, hmark, htilde]

/-! ## Default gaps -/

/-- Elements with spaces between them stand apart. -/
theorem Token.apart_replicate (first last : String) {texts : List String} {n : Nat} (h : texts.length = n + 1) :
    Token.apart (first :: (List.replicate n " " ++ [last])) texts := by
  induction texts generalizing first n with
  | nil => rfl
  | cons left rest ih =>
    match n, rest, h with
    | 0, [], _ => rfl
    | n + 1, right :: rest, h =>
      refine Token.apart_cons.mpr ⟨Token.runsOn_of_head ?_ left, ih " " (Nat.succ.inj h)⟩
      rintro c hc
      rw [Token.head?_append (by decide)] at hc
      cases hc
      rfl

/-- **The default gaps keep elements apart**, whatever these are. -/
theorem Token.apart_defaultGaps (texts : List String) :
    Token.apart (defaultGaps .plain texts.length) texts := by
  cases texts with
  | nil => rfl
  | cons text rest => exact Token.apart_replicate "" "" rfl

/-! ## Legible data -/

namespace Value

theorem length_drawEach (spellings : List (Option String)) (items : List Value) :
    (drawEach spellings items).length = items.length := by
  induction items generalizing spellings with
  | nil => rfl
  | cons v rest ih => exact congrArg Nat.succ (ih _)

/-- **Data can be told from its text.** -/
theorem IsData.isLegible {v : Value} (h : v.IsData) : v.isLegible := by
  induction h with
  | nil | bool | num | text | keyword | symbol => rfl
  | @seq shape id items _ ih =>
    rw [isLegible_seq, isClear_bracketed (Node.bracketed_of_style _ rfl items)]
    refine ⟨?_, ih⟩
    have hapart := Token.apart_defaultGaps (drawEach [] items)
    rwa [length_drawEach] at hapart
  | @map id entries _ _ _ ih =>
    rw [isLegible_map]
    refine ⟨?_, ih⟩
    have hapart := Token.apart_defaultGaps (drawEach [] (Value.map (Node.bare id) entries).children)
    rwa [length_drawEach, length_children_map] at hapart

/-- What is in data is data. -/
theorem IsData.child {v child : Value} (h : v.IsData) (hc : child ∈ v.children) : child.IsData := by
  cases h with
  | seq hitems => exact hitems child hc
  | map hkeys hvalues =>
    obtain ⟨e, he, hm⟩ := List.mem_flatMap.mp hc
    rcases List.mem_cons.mp hm with rfl | hm
    · exact hkeys e he
    · rw [List.mem_singleton.mp hm]
      exact hvalues e he
  | _ => cases hc

/-! ## What data is written as -/

theorem describesEach_of_pairs {pairs : List (Value × Form)} (h : ∀ p ∈ pairs, p.2.Describes none p.1) :
    Form.DescribesEach [] (pairs.map Prod.snd) (pairs.map Prod.fst) := by
  refine ⟨by simp, fun i part v hpart hv => ?_⟩
  rw [List.getElem?_map] at hpart hv
  cases hp : pairs[i]? with
  | none =>
    rw [hp] at hv
    cases hv
  | some p =>
    rw [hp] at hpart hv
    cases hpart
    cases hv
    exact h p (List.mem_of_getElem? hp)

theorem describesEach_of_entries (node : Node) {pairs : List ((Key × Value) × (FormKey × Form))}
    (h : ∀ p ∈ pairs, p.2.1.toForm.Describes none p.1.1.toValue ∧ p.2.2.Describes none p.1.2) :
    Form.DescribesEach [] (Form.entryForms (pairs.map Prod.snd)) (map node (pairs.map Prod.fst)).children := by
  have heach : ∀ p ∈ pairs.flatMap fun p => [(p.1.1.toValue, p.2.1.toForm), (p.1.2, p.2.2)],
      p.2.Describes none p.1 := by
    intro q hq
    obtain ⟨p, hp, hm⟩ := List.mem_flatMap.mp hq
    obtain ⟨hkey, hvalue⟩ := h p hp
    rcases List.mem_cons.mp hm with rfl | hm
    · exact hkey
    · rw [List.mem_singleton.mp hm]
      exact hvalue
  have hpairs := describesEach_of_pairs heach
  rw [List.map_flatMap, List.map_flatMap] at hpairs
  rw [Form.entryForms, children, List.flatMap_map, List.flatMap_map]
  exact hpairs

/-- **Data is written as a form.** -/
theorem IsData.exists_describes {v : Value} (h : v.IsData) : ∃ form : Form, form.Describes none v := by
  induction h with
  | nil =>
    have hatom : Token.IsAtom "nil" := ⟨⟨.atom, "", "nil", 0, 3⟩, "", 3, rfl, rfl, rfl⟩
    exact ⟨.nil, .leaf ⟨hatom.isLexeme, Form.ofAtom_iff.mpr .nil⟩ rfl⟩
  | bool b =>
    have hatom : Token.IsAtom (if b then "true" else "false") := by
      cases b with
      | true => exact ⟨⟨.atom, "", "true", 0, 4⟩, "", 4, rfl, rfl, rfl⟩
      | false => exact ⟨⟨.atom, "", "false", 0, 5⟩, "", 5, rfl, rfl, rfl⟩
    exact ⟨.bool b, .leaf ⟨hatom.isLexeme, Form.ofAtom_iff.mpr (.bool b)⟩ rfl⟩
  | @num x y hread hequal =>
    have hliteral : Number.IsLiteral (Number.format x).toList := by
      rw [← Number.isSome_ofChars?_iff, ← Option.isSome_map (f := Number.Numeral.toNumber)]
      exact Option.isSome_of_eq_some hread
    have hn := Number.looksNumeric_of_isLiteral hliteral
    have hl := Token.isLexeme_of_looksNumeric hn fun c => Number.endsAtom_of_mem_format
    exact ⟨.num y (Number.format x), .leaf ⟨hl, Form.ofAtom_iff.mpr (.num hn hread)⟩ ⟨x, rfl, hequal, rfl⟩⟩
  | text s => exact ⟨.text s (Text.quote s), .leaf (Token.isLexeme_quote s) ⟨rfl, rfl⟩⟩
  | @keyword k hne hends =>
    have hl := Token.isLexeme_atom (Form.toList_keyword k.name) (by decide) hends
    exact ⟨.keyword k.name, .leaf ⟨hl, Form.ofAtom_iff.mpr (.keyword hne)⟩ ⟨k.id, rfl⟩⟩
  | @symbol id name hatom hword hcolon hn =>
    exact ⟨.symbol name, .leaf ⟨hatom.isLexeme, Form.ofAtom_iff.mpr (.symbol hword hcolon hn)⟩ ⟨id, rfl⟩⟩
  | @seq shape id items _ ih =>
    obtain ⟨pairs, rfl, hpairs⟩ := exists_pairs ih
    have heach := describesEach_of_pairs hpairs
    refine ⟨.seq shape (defaultGaps .plain (pairs.map Prod.fst).length) (pairs.map Prod.snd),
      .seq ⟨?_, gap_defaultGaps _ _⟩ rfl rfl heach.1 heach.2⟩
    rw [length_defaultGaps, heach.1]
  | @map id entries _ _ ihkeys ihvalues =>
    have hentries : ∀ e ∈ entries, ∃ d : FormKey × Form,
        d.1.toForm.Describes none e.1.toValue ∧ d.2.Describes none e.2 := by
      intro e he
      obtain ⟨form, hform⟩ := ihkeys e he
      obtain ⟨value, hvalue⟩ := ihvalues e he
      have hkey : e.1.toValue.key? = some e.1 := by cases e.1 <;> rfl
      obtain ⟨key, rfl, -⟩ := hform.exists_key hkey
      exact ⟨(key, value), hform, hvalue⟩
    obtain ⟨pairs, rfl, hpairs⟩ := exists_pairs hentries
    have heach := describesEach_of_entries (Node.bare id) hpairs
    refine ⟨.map (defaultGaps .plain (2 * (pairs.map Prod.fst).length)) (pairs.map Prod.snd),
      .map ⟨?_, gap_defaultGaps _ _⟩ rfl (by simp) heach.2⟩
    rw [length_defaultGaps, List.length_map, List.length_map]

/-! ## Kinds -/

/-- What represents a form is of the kind of what is written as the form. -/
theorem kind_eq_of_describes {form : Form} {spelling : Option String} {u v : Value}
    (h : form.Describes spelling v) (hu : form.Represents u) : u.kind = v.kind := by
  cases h with
  | leaf _ hv =>
    cases form with
    | nil | bool =>
      obtain rfl := hv
      obtain rfl := hu
      rfl
    | num =>
      obtain ⟨y, rfl, -⟩ := hv
      obtain rfl := hu
      rfl
    | text =>
      obtain ⟨rfl, -⟩ := hv
      obtain rfl := hu
      rfl
    | keyword | symbol =>
      obtain ⟨_, rfl⟩ := hv
      obtain ⟨_, rfl⟩ := hu
      rfl
    | _ => cases hv
  | marked =>
    obtain ⟨_, _, _, -, rfl⟩ := hu
    rfl
  | @seq shape =>
    obtain ⟨_, _, -, rfl⟩ := hu
    cases shape <;> rfl
  | map =>
    obtain ⟨_, _, -, rfl⟩ := hu
    rfl

/-- In the same places stand a value that represents a form and a value that is written as the form. -/
def Matches (us vs : List Value) : Prop :=
  us.length = vs.length ∧ ∀ (i : Nat) x y, us[i]? = some x → vs[i]? = some y →
    ∃ (part : Form) (spelling : Option String), part.Describes spelling y ∧ part.Represents x

theorem matches_each {forms : List Form} {us vs : List Value} {spellings : List (Option String)}
    (h : Form.DescribesEach spellings forms vs) (hu : Form.RepresentsEach forms us) : Matches us vs := by
  refine ⟨hu.length.trans h.1.symm, fun i x y hx hy => ?_⟩
  obtain ⟨part, hpart, hrep⟩ := hu.getElem? hx
  exact ⟨part, _, h.2 i part y hpart hy, hrep⟩

theorem IsData.matches_children {form : Form} {spelling : Option String} {u v : Value} (hd : v.IsData)
    (h : form.Describes spelling v) (hu : form.Represents u) : Matches u.children v.children := by
  cases h with
  | leaf _ hv =>
    have hempty : u.children = [] := by
      cases form with
      | nil | bool | num | text =>
        obtain rfl := hu
        rfl
      | keyword | symbol =>
        obtain ⟨_, rfl⟩ := hu
        rfl
      | _ => cases hv
    rw [hempty, hv.children]
    exact ⟨rfl, nofun⟩
  | marked hw =>
    -- data has no marks
    cases hd
    cases hw.1
  | seq _ _ _ hlen hparts =>
    obtain ⟨_, us, hus, rfl⟩ := hu
    exact matches_each ⟨hlen, hparts⟩ hus
  | @map gaps entries _ node es _ _ hlen hparts =>
    obtain ⟨_, us, hus, rfl⟩ := hu
    have hlen' : (Value.map node es).children.length = (Form.entryForms entries).length := by
      rw [length_children_map, Form.length_entryForms, hlen]
    exact matches_each ⟨hlen', hparts⟩ hus.each

/-- **What represents the form that data is written as has the same kinds in the same places.** -/
theorem IsData.kinds_eq {form : Form} {spelling : Option String} {u v : Value} (hd : v.IsData)
    (h : form.Describes spelling v) (hu : form.Represents u) (path : List Nat) :
    (u.at? path).map kind = (v.at? path).map kind := by
  induction path generalizing form spelling u v with
  | nil => exact congrArg some (kind_eq_of_describes h hu)
  | cons i path ih =>
    obtain ⟨hlen, hchildren⟩ := hd.matches_children h hu
    unfold at?
    cases hy : v.children[i]? with
    | none =>
      have hx : u.children[i]? = none := by
        rw [List.getElem?_eq_none_iff] at hy ⊢
        omega
      rw [hx]
    | some y =>
      obtain ⟨x, hx⟩ := exists_of_length_eq hlen hy
      obtain ⟨part, _, hpart, hrep⟩ := hchildren i x y hx hy
      rw [hx]
      exact ih (hd.child (List.mem_of_getElem? hy)) hpart hrep

end Value

/-! ## Reading back -/

/-- **What can be told from its text is read back from the form that it is written as, and comes out equal.** -/
theorem Form.Describes.exists_readForm {R : Registry} {w : World} {form : Form} {v : Value} (hw : R.Ok w)
    (hknown : R.Known v) (h : form.Describes none v) (hl : v.isLegible) :
    ∃ u w', readForm form.source w = (.ok u, w') ∧ u.equal v ∧ form.Represents u := by
  obtain ⟨hwritable, hfits⟩ := h.writable hw hknown
  -- that the form is clear is known only by a value that represents it
  obtain ⟨R₁, hle, hw₁, hknown₁, hrep₁⟩ := keeps_toValue form hfits hwritable w hw
  have hclear := ((h.isLegible_iff hw₁ (hknown.mono hle) hrep₁ hknown₁).mp hl).1
  have hsource := Form.ofSource_source hwritable hfits hclear
  obtain ⟨u, w', hread⟩ := readForm_of_ofSource hsource rfl w
  obtain ⟨R₂, hle₂, hdone⟩ := keeps_readForm form.source w hw
  rw [lift_of_eq hread] at hdone
  obtain ⟨hknown', p, form', hp', hforms, hrep⟩ := hdone.2 u rfl
  rw [hsource] at hp'
  cases hp'
  cases hforms
  exact ⟨u, w', hread, ((h.isLegible_iff hdone.1 (hknown.mono hle₂) hrep hknown').mp hl).2, hrep⟩

namespace Session

/-- **Data reads back from what is printed**, as an equal value with the same kinds in the same places. -/
theorem readForm_print {s : Session} {v : Value} (hs : s.Reachable) (hv : s.Has v) (hd : v.IsData) :
    ∃ u w, EditableLisp.readForm (EditableLisp.print v s.world).1 (EditableLisp.print v s.world).2 = (.ok u, w) ∧
      u.equal v ∧ ∀ path, (u.at? path).map Value.kind = (v.at? path).map Value.kind := by
  obtain ⟨R, hsound⟩ := hs.exists_sound
  have hknown := hsound.known hv
  obtain ⟨form, hform⟩ := hd.exists_describes
  have htext : (EditableLisp.print v s.world).1 = form.source := by
    rw [print_of_frozen hsound.world hknown hform.draw.1 fun _ _ => "", hform.draw.2]
  have hw : R.Ok (EditableLisp.print v s.world).2 := (steady_print hknown s.world hsound.world).1
  obtain ⟨u, w, hread, hequal, hrep⟩ := hform.exists_readForm hw hknown hd.isLegible
  rw [htext]
  exact ⟨u, w, hread, hequal, hd.kinds_eq hform hrep⟩

/-- A name, a string with a quote and a number are read and put into a list, and the list into a map. -/
def printsBuiltMap : Bool :=
  match EditableLisp.readForm "[:k x \"a\\\"b\"   1.50]" World.initial with
  | (.ok (.seq _ _ [.keyword k, .symbol id name, .text content, .num x]), w) =>
    let list := newSeq .list [.symbol id name, .text content, .num x] w
    let map := newMap (Entries.ofPairs [(.keyword k, list.1)]) list.2
    k.name == "k" && name == "x" && ((Number.ofString? (Number.format x)).any fun y => y.equal x) &&
      (EditableLisp.print map.1 map.2).1 == "\x7b:k (x \"a\\\"b\" 1.5)\x7d"
  | _ => false

/-- A map with a list of a name, a string with a quote and a number, which were read, in a new layout. -/
theorem readForm_print_map : ∃ (s : Session) (v u : Value) (w : World), s.Reachable ∧ s.Has v ∧ v.IsData ∧
    (EditableLisp.print v s.world).1 = "\x7b:k (x \"a\\\"b\" 1.5)\x7d" ∧
      EditableLisp.readForm (EditableLisp.print v s.world).1 (EditableLisp.print v s.world).2 = (.ok u, w) ∧
      u.equal v ∧ ∀ path, (u.at? path).map Value.kind = (v.at? path).map Value.kind := by
  have test : printsBuiltMap = true := by decide +kernel
  unfold printsBuiltMap at test
  split at test
  · rename_i shape node k id name content x w hread
    simp only [Bool.and_eq_true, beq_iff_eq] at test
    obtain ⟨⟨⟨hk, rfl⟩, hnumber⟩, htext⟩ := test
    let read : Session := ⟨w, [.seq shape node [.keyword k, .symbol id "x", .text content, .num x]], [], []⟩
    let items : List Value := [.symbol id "x", .text content, .num x]
    let listed : Session := { read with
      world := (newSeq .list items w).2, held := (newSeq .list items w).1 :: read.held }
    let pairs : Entries := [(.keyword k, (newSeq .list items w).1)]
    let mapped : Session := { listed with
      world := (newMap (Entries.ofPairs pairs) listed.world).2
      held := (newMap (Entries.ofPairs pairs) listed.world).1 :: listed.held }
    have hall : ∀ v ∈ [.keyword k, .symbol id "x", .text content, .num x], read.Has v := fun v hv =>
      .item (.held List.mem_cons_self) hv
    have hlisted : read.Step listed := .served (r := .sequence .list items)
      (fun v hv => hall v (List.mem_cons_of_mem _ hv)) nofun rfl
    have hkey : listed.Has (.keyword k) :=
      .item (.held (List.mem_cons_of_mem _ List.mem_cons_self)) List.mem_cons_self
    have hmapped : listed.Step mapped := .served (r := .map pairs)
      (List.forall_mem_cons.mpr ⟨hkey, List.forall_mem_singleton.mpr (.held List.mem_cons_self)⟩) nofun rfl
    have hreachable : mapped.Reachable := ((Reachable.bare.step (.readForm hread)).step hlisted).step hmapped
    have hnum : (Value.num x).IsData := by
      cases hy : Number.ofString? (Number.format x) with
      | none =>
        rw [hy] at hnumber
        cases hnumber
      | some y =>
        rw [hy] at hnumber
        exact .num hy hnumber
    have hsymbol : (Value.symbol id "x").IsData :=
      .symbol ⟨⟨.atom, "", "x", 0, 1⟩, "", 1, rfl, rfl, rfl⟩ (by decide) (by decide) (by decide)
    have hkeyword : (Value.keyword k).IsData := .keyword (by rw [hk]; decide)
      (by rw [hk]; exact List.forall_mem_singleton.mpr rfl)
    have hdata : (newMap (Entries.ofPairs pairs) listed.world).1.IsData := .map
      (List.forall_mem_singleton.mpr hkeyword)
      (List.forall_mem_singleton.mpr (.seq (List.forall_mem_cons.mpr ⟨hsymbol, List.forall_mem_cons.mpr
        ⟨.text content, List.forall_mem_singleton.mpr hnum⟩⟩)))
    have hhas : mapped.Has (newMap (Entries.ofPairs pairs) listed.world).1 := .held List.mem_cons_self
    obtain ⟨u, w', hreread, hequal, hkinds⟩ := readForm_print hreachable hhas hdata
    exact ⟨mapped, _, u, w', hreachable, hhas, hdata, htext, hreread, hequal, hkinds⟩
  · cases test

end Session

end EditableLisp
