import EditableLisp.Proofs.Lexing
import EditableLisp.Proofs.Parts

/-!
# Texts that read back

`Form.Writable` says of a form that its leaves, gaps and marks can be written, and `Form.Clear` that no two
of its neighbours run together. The text of a program that can be written and is clear reads back as the same
program (`Program.ofSource_source`), and so does that of a form (`Form.ofSource_source`).

A form that can be written is derived from tokens that have its text (`Form.Writable.exists_tokens`). They do
not run together exactly if the form is clear (`Derives.cut_iff`), and then a scan finds them there. Tokens
that a form is derived from are assembled to the form, wherever they stand (`Derives.shifts`).
-/

namespace EditableLisp

/-! ## Assembly -/

/-- Wherever these tokens stand, taking them puts a form where it belongs. -/
def Shifts (ts : List Token) (form : Form) : Prop :=
  ∀ (a : Assembly) (us : List Token), a.shiftAll (ts ++ us) =
    (Assembly.place a.gaps a.forms (Token.lead ts) form a.opened).shiftAll us

theorem Assembly.shiftAll_of_shift {a a' : Assembly} {t : Token} (h : a.shift t = .ok a') (us : List Token) :
    a.shiftAll (t :: us) = a'.shiftAll us := by
  rw [shiftAll, h]

/-- Runs of tokens put their forms one after the other, into a collection or outside of all. -/
theorem shiftAll_allTokens {runs : List Run} (h : ∀ r ∈ runs, Shifts r.tokens r.form)
    (inside : List String → List Form → Assembly)
    (hplace : ∀ gaps forms blank form, Assembly.place (inside gaps forms).gaps (inside gaps forms).forms blank
      form (inside gaps forms).opened = inside (blank :: gaps) (form :: forms))
    (gaps : List String) (forms : List Form) (us : List Token) :
    (inside gaps forms).shiftAll (Run.allTokens runs ++ us) =
      (inside ((Run.gaps runs).reverse ++ gaps) ((Run.forms runs).reverse ++ forms)).shiftAll us := by
  induction runs generalizing gaps forms with
  | nil => rfl
  | cons r rest ih =>
    obtain ⟨hr, hrest⟩ := List.forall_mem_cons.mp h
    have htokens : Run.allTokens (r :: rest) ++ us = r.tokens ++ (Run.allTokens rest ++ us) := by
      rw [Run.allTokens, List.flatMap_cons, List.append_assoc]
      rfl
    rw [htokens, hr, hplace, ih hrest, Run.gaps, Run.gaps, Run.forms, Run.forms, List.map_cons, List.map_cons,
      List.reverse_cons, List.reverse_cons, List.append_assoc, List.append_assoc]
    rfl

/-- **Tokens that a form is derived from are assembled to the form.** -/
theorem Derives.shifts {ts : List Token} {form : Form} (h : Derives ts form) : Shifts ts form := by
  induction h with
  | @text t content hk =>
    intro a us
    refine Assembly.shiftAll_of_shift ?_ us
    unfold Assembly.shift
    rw [hk]
    rfl
  | @atom t form hk hf =>
    intro a us
    refine Assembly.shiftAll_of_shift ?_ us
    unfold Assembly.shift
    rw [hk]
    dsimp only
    rw [hf]
    rfl
  | @marked t style ts form hk _ ih =>
    intro a us
    have hshift : a.shift t = .ok { a with opened := .mark style t.blank :: a.opened } := by
      unfold Assembly.shift
      rw [hk]
    rw [List.cons_append, Assembly.shiftAll_of_shift hshift, ih]
    rfl
  | @collection o c b runs form ho _ hc hclose ih =>
    intro a us
    have hopen : a.shift o = .ok { a with opened := .collection b o.blank o.start [] [] :: a.opened } := by
      unfold Assembly.shift
      rw [ho]
    have hruns := shiftAll_allTokens ih
      (fun gaps forms => ⟨.collection b o.blank o.start gaps forms :: a.opened, a.gaps, a.forms⟩)
      (fun _ _ _ _ => rfl) [] [] (c :: us)
    have hlast : Assembly.shift ⟨.collection b o.blank o.start ((Run.gaps runs).reverse ++ [])
        ((Run.forms runs).reverse ++ []) :: a.opened, a.gaps, a.forms⟩ c =
          .ok (Assembly.place a.gaps a.forms o.blank form a.opened) := by
      unfold Assembly.shift
      rw [hc]
      dsimp only
      rw [if_pos rfl, List.append_nil, List.append_nil, List.reverse_cons, List.reverse_reverse,
        List.reverse_reverse, hclose]
    rw [List.cons_append, List.append_assoc, List.singleton_append, Assembly.shiftAll_of_shift hopen, hruns,
      Assembly.shiftAll_of_shift hlast]
    rfl

/-- **Derived forms whose tokens are those of a text are the program of the text.** -/
theorem Program.ofSource_of_derives {src tail : String} {size : Nat} {runs : List Run}
    (hs : Token.scan src = .ok ⟨Run.allTokens runs, tail, size⟩)
    (hr : ∀ r ∈ runs, Derives r.tokens r.form) :
    Program.ofSource src = .ok ⟨Run.gaps runs ++ [tail], Run.forms runs⟩ := by
  have hruns := shiftAll_allTokens (fun r hm => (hr r hm).shifts)
    (fun gaps forms => ⟨[], gaps, forms⟩) (fun _ _ _ _ => rfl) [] [] []
  rw [List.append_nil, List.append_nil, List.append_nil] at hruns
  have hall : Assembly.initial.shiftAll (Run.allTokens runs) =
      .ok ⟨[], (Run.gaps runs).reverse, (Run.forms runs).reverse⟩ := hruns
  unfold Program.ofSource Reading.ofSource
  rw [hs]
  dsimp only
  rw [hall]
  show Except.ok (Program.mk (tail :: (Run.gaps runs).reverse).reverse (Run.forms runs).reverse.reverse) = _
  rw [List.reverse_cons, List.reverse_reverse, List.reverse_reverse]

/-! ## Forms that can be written -/

namespace Form

/-- A form can be written, as far as its leaf, its gaps or its mark go. -/
def IsWritable : Form → Prop
  | text content spelling => Token.IsLexeme (.text content) spelling
  | marked style gap _ => style.mark?.isSome ∧ Token.Gap false gap
  | seq _ gaps items => gaps.length = items.length + 1 ∧ ∀ gap ∈ gaps, Token.Gap false gap
  | map gaps entries => gaps.length = 2 * entries.length + 1 ∧ ∀ gap ∈ gaps, Token.Gap false gap
  | form => Token.IsLexeme .atom form.source ∧ ofAtom form.source = .ok form

/-- A form can be written, and so can its parts. -/
inductive Writable : Form → Prop where
  | intro {form : Form} : form.IsWritable → (∀ i part, form.child? i = some part → Writable part) →
      Writable form

theorem Writable.isWritable {form : Form} (h : form.Writable) : form.IsWritable := by
  cases h with
  | intro hw => exact hw

/-- The parts of a form that can be written can be written. -/
theorem Writable.child {form part : Form} (h : form.Writable) {i : Nat} (hc : form.child? i = some part) :
    part.Writable := by
  cases h with
  | intro _ hparts => exact hparts i part hc

/-- The items of a sequence that can be written can be written. -/
theorem Writable.items {shape : Shape} {gaps : List String} {items : List Form}
    (h : (seq shape gaps items).Writable) : ∀ form ∈ items, form.Writable := by
  intro form hm
  obtain ⟨i, hi⟩ := List.mem_iff_getElem?.mp hm
  exact h.child hi

/-- The keys and forms of a map that can be written can be written. -/
theorem Writable.entries {gaps : List String} {entries : List (FormKey × Form)}
    (h : (map gaps entries).Writable) : ∀ form ∈ entryForms entries, form.Writable := by
  intro form hm
  obtain ⟨i, hi⟩ := List.mem_iff_getElem?.mp hm
  exact h.child hi

theorem ofAtom_ne_text (text content spelling : String) : ofAtom text ≠ .ok (.text content spelling) := by
  intro h
  cases ofAtom_iff.mp h

/-- What a name or number is read as can be written as it was. -/
theorem writable_ofAtom {text : String} {form : Form} (h : ofAtom text = .ok form)
    (hl : Token.IsLexeme .atom text) : form.Writable := by
  have hleaf := isLeaf_ofAtom h
  have hsource := source_ofAtom h
  rw [← hsource] at h hl
  refine .intro ?_ fun i part hpart => ?_
  · cases form with
    | text content spelling => exact absurd h (ofAtom_ne_text _ content spelling)
    | marked | seq | map => cases hleaf
    | _ => exact ⟨hl, h⟩
  · rw [child?_of_isLeaf hleaf] at hpart
    cases hpart

end Form

theorem isWritable_close {b : Bracket} {gaps : List String} {forms : List Form} {form : Form}
    (h : Assembly.close b gaps forms = .ok form) (hlen : gaps.length = forms.length + 1)
    (hgaps : ∀ gap ∈ gaps, Token.Gap false gap) : form.IsWritable := by
  cases b with
  | round | square =>
    cases h
    exact ⟨hlen, hgaps⟩
  | curly =>
    obtain ⟨entries, rfl, hforms, -⟩ := exists_entries_of_close h
    refine ⟨?_, hgaps⟩
    rw [hlen, ← hforms, Form.length_entryForms]

/-- **A form that is derived from the tokens of a text can be written**, and the text before it is a gap. -/
theorem Derives.writable {ts : List Token} {form : Form} (h : Derives ts form)
    (hw : ∀ t ∈ ts, t.WellFormed) : form.Writable ∧ Token.Gap false (Token.lead ts) := by
  induction h with
  | @text t content hk =>
    have ht := hw t List.mem_cons_self
    have hl := ht.lexeme
    rw [hk] at hl
    exact ⟨.intro hl nofun, ht.gap⟩
  | @atom t form hk hf =>
    have ht := hw t List.mem_cons_self
    have hl := ht.lexeme
    rw [hk] at hl
    exact ⟨Form.writable_ofAtom hf hl, ht.gap⟩
  | @marked t style ts form hk _ ih =>
    have ht := hw t List.mem_cons_self
    have hmark : style.mark? = some t.lexeme := by
      have hs := ht.lexeme.spelled
      rwa [hk] at hs
    obtain ⟨hform, hgap⟩ := ih fun u hu => hw u (List.mem_cons_of_mem _ hu)
    refine ⟨.intro ⟨by rw [hmark]; rfl, hgap⟩ fun i part hpart => ?_, ht.gap⟩
    match i, hpart with
    | 1, hpart =>
      cases hpart
      exact hform
  | @collection o c b runs form ho _ hc hclose ih =>
    have hlast := hw c (List.mem_cons_of_mem _ (List.mem_append_right _ List.mem_cons_self))
    have hruns : ∀ r ∈ runs, r.form.Writable ∧ Token.Gap false (Token.lead r.tokens) := fun r hr =>
      ih r hr fun t ht => hw t (List.mem_cons_of_mem _ (List.mem_append_left _
        (List.mem_flatMap.mpr ⟨r, hr, ht⟩)))
    refine ⟨.intro (isWritable_close hclose ?_ fun gap hgap => ?_) fun i part hpart => ?_,
      (hw o List.mem_cons_self).gap⟩
    · rw [List.length_append, Run.gaps, Run.forms, List.length_map, List.length_map]
      rfl
    · rcases List.mem_append.mp hgap with hm | hm
      · obtain ⟨r, hr, rfl⟩ := List.mem_map.mp hm
        exact (hruns r hr).2
      · rw [List.mem_singleton.mp hm]
        exact hlast.gap
    · rw [child?_close hclose] at hpart
      obtain ⟨r, hr, rfl⟩ := List.mem_map.mp (List.mem_of_getElem? hpart)
      exact (hruns r hr).1

/-! ## Clear forms -/

namespace Form

/-- No form runs on into the next one; the gaps are those before the forms. -/
def Apart (gaps : List String) (forms : List Form) : Prop := Token.apart gaps (forms.map source)

/-- The parts of a form stand apart. After a tilde stands no at sign: the two would be one mark. -/
def IsClear : Form → Prop
  | marked style gap form => style = .unquote → (gap ++ form.source).toList.head? ≠ some '@'
  | seq _ gaps items => Apart gaps items
  | map gaps entries => Apart gaps (entryForms entries)
  | _ => True

/-- No two tokens of a form run together. -/
inductive Clear : Form → Prop where
  | intro {form : Form} : form.IsClear → (∀ i part, form.child? i = some part → Clear part) → Clear form

theorem clear_iff {form : Form} :
    form.Clear ↔ form.IsClear ∧ ∀ i part, form.child? i = some part → part.Clear :=
  ⟨fun h => by cases h with | intro hclear hparts => exact ⟨hclear, hparts⟩, fun h => .intro h.1 h.2⟩

theorem clear_of_isLeaf {form : Form} (h : form.isLeaf) : form.Clear := by
  refine .intro ?_ fun i part hpart => ?_
  · cases form <;> trivial
  · rw [child?_of_isLeaf h] at hpart
    cases hpart

/-- A collection is clear if its parts stand apart and are clear. -/
theorem clear_iff_of_child? {form : Form} {parts : List Form} (h : ∀ i, form.child? i = parts[i]?) :
    form.Clear ↔ form.IsClear ∧ ∀ part ∈ parts, part.Clear := by
  refine clear_iff.trans (and_congr_right' ⟨fun hall part hpart => ?_, fun hall i part hpart => ?_⟩)
  · obtain ⟨i, hi⟩ := List.mem_iff_getElem?.mp hpart
    exact hall i part ((h i).trans hi)
  · exact hall part (List.mem_of_getElem? ((h i).symm.trans hpart))

theorem clear_marked {style : Style} {gap : String} {form : Form} : (marked style gap form).Clear ↔
    (style = .unquote → (gap ++ form.source).toList.head? ≠ some '@') ∧ form.Clear := by
  refine clear_iff.trans (and_congr_right' ⟨fun h => h 1 form rfl, fun h i part hpart => ?_⟩)
  match i, hpart with
  | 1, hpart =>
    cases hpart
    exact h

/-- A form that can be written has a text. -/
theorem Writable.ne_empty {form : Form} (h : form.Writable) : form.source.toList ≠ [] := by
  have hbracket : ∀ (text : String) (c : Char), (text ++ String.singleton c).toList ≠ [] := by
    intro text c
    rw [String.toList_append, String.toList_singleton]
    exact List.append_ne_nil_of_right_ne_nil _ (List.cons_ne_nil _ _)
  induction h with
  | @intro form hw _ ih =>
    cases form with
    | text content spelling => exact Token.IsLexeme.ne_empty hw
    | marked style gap form =>
      have hform := ih 1 form rfl
      rw [source, String.toList_append]
      exact List.append_ne_nil_of_right_ne_nil _ hform
    | seq shape =>
      cases shape with
      | list => exact hbracket _ ')'
      | vector => exact hbracket _ ']'
    | map => exact hbracket _ '\x7d'
    | _ => exact Token.IsLexeme.ne_empty hw.1

end Form

theorem isClear_close {b : Bracket} {gaps : List String} {forms : List Form} {form : Form}
    (h : Assembly.close b gaps forms = .ok form) : form.IsClear ↔ Form.Apart gaps forms := by
  cases b with
  | round | square =>
    cases h
    exact Iff.rfl
  | curly =>
    obtain ⟨entries, rfl, hforms, -⟩ := exists_entries_of_close h
    show Form.Apart gaps (Form.entryForms entries) ↔ _
    rw [hforms]

/-- The last character of a collection ends names. -/
theorem runsOn_close {b : Bracket} {gaps : List String} {forms : List Form} {form : Form}
    (h : Assembly.close b gaps forms = .ok form) (tail : String) : Token.runsOn form.source tail = false := by
  unfold Token.runsOn
  rw [source_close h, String.toList_append, String.toList_singleton, List.getLast?_concat]
  cases b <;> rfl

/-! ## Cuts -/

/-- The tokens of a row of forms do not run together exactly if those of each form do not and the forms stand
apart. -/
theorem cut_allTokens {runs : List Run} (hd : ∀ r ∈ runs, Derives r.tokens r.form)
    (hw : ∀ t ∈ Run.allTokens runs, t.WellFormed)
    (h : ∀ r ∈ runs, ∀ tail, Token.Cut tail r.tokens ↔ r.form.Clear ∧ Token.runsOn r.form.source tail = false)
    {tail : String} (htail : ∀ c, tail.toList.head? = some c → Token.endsAtom c = true) :
    Token.Cut tail (Run.allTokens runs) ↔
      Form.Apart (Run.gaps runs) (Run.forms runs) ∧ ∀ r ∈ runs, r.form.Clear := by
  induction runs with
  | nil => exact ⟨fun _ => ⟨rfl, nofun⟩, fun _ => trivial⟩
  | cons r rest ih =>
    obtain ⟨hr, hrest⟩ := List.forall_mem_cons.mp h
    have htokens : Run.allTokens (r :: rest) = r.tokens ++ Run.allTokens rest := rfl
    have htwo := ih (List.forall_mem_cons.mp hd).2 (fun t ht => hw t (List.mem_append_right _ ht)) hrest
    rw [htokens, Token.cut_append, hr, htwo, List.forall_mem_cons]
    cases rest with
    | nil =>
      rw [Run.allTokens, List.flatMap_nil, Token.textOf, String.empty_append]
      exact ⟨fun hc => ⟨rfl, hc.1.1, hc.2.2⟩, fun hc => ⟨⟨hc.2.1, Token.runsOn_of_head htail _⟩, rfl, hc.2.2⟩⟩
    | cons next more =>
      -- what follows starts with the next gap and the next form
      have hnext : ∀ t ∈ next.tokens, t.WellFormed := fun t ht =>
        hw t (List.mem_append_right _ (List.mem_append_left _ ht))
      have hderives := hd next (List.mem_cons_of_mem _ List.mem_cons_self)
      have htext := hderives.source fun t ht => (hnext t ht).lexeme.spelled
      have hne : (Token.lead next.tokens ++ next.form.source).toList ≠ [] := by
        rw [String.toList_append]
        exact List.append_ne_nil_of_right_ne_nil _ (hderives.writable hnext).1.ne_empty
      have hmore : Run.allTokens (next :: more) = next.tokens ++ Run.allTokens more := rfl
      have hapart : Form.Apart (Run.gaps (r :: next :: more)) (Run.forms (r :: next :: more)) ↔
          Token.runsOn r.form.source (Token.lead next.tokens ++ next.form.source) = false ∧
            Form.Apart (Run.gaps (next :: more)) (Run.forms (next :: more)) := Token.apart_cons
      rw [hmore, Token.textOf_append, ← htext, String.append_assoc, Token.runsOn_append_right hne, hapart]
      exact ⟨fun hc => ⟨⟨hc.1.2, hc.2.1⟩, hc.1.1, hc.2.2⟩, fun hc => ⟨⟨hc.2.1, hc.1.1⟩, hc.1.2, hc.2.2⟩⟩

/-- A closing bracket after a gap starts with a character that ends names. -/
theorem endsAtom_closing {last : String} (h : Token.Gap false last) {b : Bracket} {tail : String} {c : Char}
    (hc : (last ++ String.singleton b.closing ++ tail).toList.head? = some c) : Token.endsAtom c = true := by
  rw [String.append_assoc] at hc
  cases hl : last.toList.head? with
  | some e =>
    rw [String.toList_append, List.head?_append, hl, Option.some_or] at hc
    cases hc
    exact (h.head hl).1
  | none =>
    rw [String.toList_append, List.head?_append, hl, Option.none_or, String.toList_append,
      String.toList_singleton] at hc
    cases hc
    cases b <;> rfl

/-- **The tokens of a form do not run together exactly if the form is clear**, and it does not run on into
what follows. -/
theorem Derives.cut_iff {ts : List Token} {form : Form} (h : Derives ts form) (hw : ∀ t ∈ ts, t.WellFormed)
    (tail : String) : Token.Cut tail ts ↔ form.Clear ∧ Token.runsOn form.source tail = false := by
  induction h generalizing tail with
  | @text t content hk =>
    have hl := (hw t List.mem_cons_self).lexeme
    rw [hk] at hl
    refine ⟨fun _ => ⟨Form.clear_of_isLeaf rfl, hl.runsOn_text tail⟩, fun _ => ⟨fun c _ => ?_, trivial⟩⟩
    rw [hk]
    exact Token.endsBefore_text content c
  | @atom t form hk hf =>
    have hl := (hw t List.mem_cons_self).lexeme
    rw [hk] at hl
    have hclear : form.Clear := Form.clear_of_isLeaf (Form.isLeaf_ofAtom hf)
    rw [Form.source_ofAtom hf, hl.runsOn_atom_iff, Token.Cut, Token.textOf, String.empty_append, hk]
    simp only [Token.endsBefore_atom]
    exact ⟨fun hcut => ⟨hclear, hcut.1⟩, fun hends => ⟨hends.2, trivial⟩⟩
  | @marked t style ts form hk hd ih =>
    have hts : ∀ u ∈ ts, u.WellFormed := fun u hu => hw u (List.mem_cons_of_mem _ hu)
    have hne := (hd.writable hts).1.ne_empty
    have hne' : (Token.lead ts ++ form.source).toList ≠ [] := by
      rw [String.toList_append]
      exact List.append_ne_nil_of_right_ne_nil _ hne
    have htext := hd.source fun u hu => (hts u hu).lexeme.spelled
    have hhead : (∀ c, (Token.textOf ts ++ tail).toList.head? = some c → Token.EndsBefore t.kind c) ↔
        (style = .unquote → (Token.lead ts ++ form.source).toList.head? ≠ some '@') := by
      rw [← htext, Token.head?_append hne', hk]
      simp only [Token.endsBefore_mark]
      refine ⟨fun hc hs hat => hc '@' hat hs rfl, fun hc c hhead hs hat => ?_⟩
      subst hat
      exact hc hs hhead
    rw [Token.Cut, hhead, ih hts, Form.clear_marked, Form.source, Token.runsOn_append_left hne, and_assoc]
  | @collection o c b runs form ho hd hc hclose ih =>
    have hruns : ∀ r ∈ runs, ∀ t ∈ r.tokens, t.WellFormed := fun r hr t ht =>
      hw t (List.mem_cons_of_mem _ (List.mem_append_left _ (List.mem_flatMap.mpr ⟨r, hr, ht⟩)))
    have hclast := hw c (List.mem_cons_of_mem _ (List.mem_append_right _ List.mem_cons_self))
    have hspelled := hclast.lexeme.spelled
    rw [hc] at hspelled
    have hlexeme : c.lexeme = String.singleton b.closing := hspelled
    have htext : Token.textOf [c] = c.blank ++ String.singleton b.closing := by
      rw [Token.textOf, Token.textOf, hlexeme]
      exact String.append_empty
    have hrow := @cut_allTokens runs hd (fun t ht => hw t (List.mem_cons_of_mem _ (List.mem_append_left _ ht)))
      (fun r hr tail => ih r hr (hruns r hr) tail) (Token.textOf [c] ++ tail)
      fun d hhead => endsAtom_closing hclast.gap (htext ▸ hhead)
    have hopen : ∀ d, Token.EndsBefore o.kind d := ho ▸ Token.endsBefore_opening b
    have hclose' : ∀ d, Token.EndsBefore c.kind d := hc ▸ Token.endsBefore_closing b
    have hapart : Form.Apart (Run.gaps runs ++ [c.blank]) (Run.forms runs) ↔
        Form.Apart (Run.gaps runs) (Run.forms runs) := by
      unfold Form.Apart
      rw [Token.apart_append (by rw [Run.gaps, Run.forms, List.length_map, List.length_map, List.length_map])]
    rw [Form.clear_iff_of_child? (child?_close hclose), isClear_close hclose, hapart, Run.forms,
      List.forall_mem_map, ← Run.forms, ← hrow, Token.Cut, Token.cut_append]
    exact ⟨fun hcut => ⟨hcut.2.1, runsOn_close hclose tail⟩,
      fun hcut => ⟨fun d _ => hopen d, hcut.1, fun d _ => hclose' d, trivial⟩⟩

/-! ## Tokens of forms -/

/-- Tokens from a byte offset on that a form is made of, after some blank text. -/
structure Tokenized (pos : Nat) (lead : String) (form : Form) (ts : List Token) : Prop where
  derives : Derives ts form
  lead : Token.lead ts = lead
  placed : Token.Placed pos ts
  wellFormed : ∀ t ∈ ts, t.WellFormed

/-- Tokens of a row of forms, each after its gap. -/
structure TokenizedEach (pos : Nat) (gaps : List String) (forms : List Form) (runs : List Run) : Prop where
  gaps : Run.gaps runs = gaps
  forms : Run.forms runs = forms
  derives : ∀ r ∈ runs, Derives r.tokens r.form
  placed : Token.Placed pos (Run.allTokens runs)
  wellFormed : ∀ t ∈ Run.allTokens runs, t.WellFormed

/-- A token that stands at a byte offset after some blank text. -/
def Token.at (pos : Nat) (kind : TokenKind) (blank lexeme : String) : Token :=
  ⟨kind, blank, lexeme, pos + blank.utf8ByteSize, pos + blank.utf8ByteSize + lexeme.utf8ByteSize⟩

/-- A word is one token. -/
theorem tokenized_atom {form : Form} (hl : Token.IsLexeme .atom form.source)
    (hf : Form.ofAtom form.source = .ok form) {lead : String} (hg : Token.Gap false lead) (pos : Nat) :
    Tokenized pos lead form [Token.at pos .atom lead form.source] where
  derives := .atom rfl hf
  lead := rfl
  placed := ⟨rfl, rfl, trivial⟩
  wellFormed := List.forall_mem_singleton.mpr ⟨hg, hl⟩

/-- A string is one token. -/
theorem tokenized_text {content spelling : String} (hl : Token.IsLexeme (.text content) spelling)
    {lead : String} (hg : Token.Gap false lead) (pos : Nat) :
    Tokenized pos lead (.text content spelling) [Token.at pos (.text content) lead spelling] where
  derives := .text rfl
  lead := rfl
  placed := ⟨rfl, rfl, trivial⟩
  wellFormed := List.forall_mem_singleton.mpr ⟨hg, hl⟩

/-- A mark stands before the tokens of its form. -/
theorem Tokenized.marked {style : Style} {gap mark lead : String} {form : Form} {ts : List Token} {pos : Nat}
    (hm : style.mark? = some mark) (hg : Token.Gap false lead)
    (h : Tokenized (Token.at pos (.mark style) lead mark).stop gap form ts) :
    Tokenized pos lead (.marked style gap form) (Token.at pos (.mark style) lead mark :: ts) where
  derives := by
    have hd := Derives.marked (t := Token.at pos (.mark style) lead mark) rfl h.derives
    rwa [h.lead] at hd
  lead := rfl
  placed := ⟨rfl, rfl, h.placed⟩
  wellFormed := List.forall_mem_cons.mpr ⟨⟨hg, Token.isLexeme_mark hm⟩, h.wellFormed⟩

/-- Forms that have tokens have them in a row. -/
theorem exists_tokenizedEach {gaps : List String} {forms : List Form} (hlen : gaps.length = forms.length)
    (hg : ∀ gap ∈ gaps, Token.Gap false gap)
    (h : ∀ form ∈ forms, ∀ lead, Token.Gap false lead → ∀ pos, ∃ ts, Tokenized pos lead form ts) (pos : Nat) :
    ∃ runs, TokenizedEach pos gaps forms runs := by
  induction forms generalizing gaps pos with
  | nil =>
    obtain rfl := List.length_eq_zero_iff.mp hlen
    exact ⟨[], ⟨rfl, rfl, nofun, trivial, nofun⟩⟩
  | cons form rest ih =>
    cases gaps with
    | nil => cases hlen
    | cons gap gaps =>
      obtain ⟨hgap, hgaps⟩ := List.forall_mem_cons.mp hg
      obtain ⟨hform, hrest⟩ := List.forall_mem_cons.mp h
      obtain ⟨ts, hts⟩ := hform gap hgap pos
      obtain ⟨runs, hruns⟩ := ih (Nat.succ.inj hlen) hgaps hrest (pos + (Token.textOf ts).utf8ByteSize)
      have htokens : Run.allTokens (⟨ts, form⟩ :: runs) = ts ++ Run.allTokens runs := rfl
      refine ⟨⟨ts, form⟩ :: runs, ?_, ?_, ?_, ?_, ?_⟩
      · rw [Run.gaps, List.map_cons, hts.lead, ← hruns.gaps]
        rfl
      · rw [Run.forms, List.map_cons, ← hruns.forms]
        rfl
      · exact List.forall_mem_cons.mpr ⟨hts.derives, hruns.derives⟩
      · rw [htokens]
        exact Token.placed_append.mpr ⟨hts.placed, hruns.placed⟩
      · rw [htokens]
        exact List.forall_mem_append.mpr ⟨hts.wellFormed, hruns.wellFormed⟩

/-- Brackets stand around the tokens of what is in them. -/
theorem TokenizedEach.collection {b : Bracket} {gaps : List String} {last lead : String} {forms : List Form}
    {form : Form} {runs : List Run} {pos : Nat} (hg : Token.Gap false lead) (hlast : Token.Gap false last)
    (hclose : Assembly.close b (gaps ++ [last]) forms = .ok form)
    (h : TokenizedEach (Token.at pos (.opening b) lead (String.singleton b.opening)).stop gaps forms runs) :
    ∃ ts, Tokenized pos lead form ts := by
  let o := Token.at pos (.opening b) lead (String.singleton b.opening)
  let c := Token.at (o.stop + (Token.textOf (Run.allTokens runs)).utf8ByteSize) (.closing b) last
    (String.singleton b.closing)
  refine ⟨o :: (Run.allTokens runs ++ [c]), ?_, rfl, ?_, ?_⟩
  · refine Derives.collection (o := o) (c := c) rfl h.derives rfl ?_
    rw [h.gaps, h.forms]
    exact hclose
  · exact ⟨rfl, rfl, Token.placed_append.mpr ⟨h.placed, rfl, rfl, trivial⟩⟩
  · exact List.forall_mem_cons.mpr ⟨⟨hg, .opening b⟩, List.forall_mem_append.mpr
      ⟨h.wellFormed, List.forall_mem_singleton.mpr ⟨hlast, .closing b⟩⟩⟩

namespace Form

/-- Keys and forms in turn make the entries that they were taken from. -/
theorem entriesOf_entryForms {seen : List String} {entries : List (FormKey × Form)}
    (h : (entries.map fun e => e.1.name).Nodup) (hs : ∀ e ∈ entries, e.1.name ∉ seen) :
    entriesOf seen (entryForms entries) = .ok entries := by
  induction entries generalizing seen with
  | nil => rfl
  | cons e rest ih =>
    obtain ⟨key, form⟩ := e
    obtain ⟨hkey, hrest⟩ := List.forall_mem_cons.mp hs
    obtain ⟨hnew, hnodup⟩ := List.nodup_cons.mp h
    have hask : key.toForm.asKey seen = .ok key := by
      cases key with
      | keyword | text => exact if_neg fun hm => hkey (List.contains_iff_mem.mp hm)
    have hseen : ∀ e ∈ rest, e.1.name ∉ key.name :: seen := by
      intro e he hm
      rcases List.mem_cons.mp hm with hname | hm
      · exact hnew (List.mem_map.mpr ⟨e, he, hname⟩)
      · exact hrest e he hm
    have htail := ih hnodup hseen
    show (key.toForm.asKey seen >>= fun k => entriesOf (k.name :: seen) (entryForms rest) >>= fun es =>
      Except.ok ((k, form) :: es)) = _
    rw [hask]
    show (entriesOf (key.name :: seen) (entryForms rest) >>= fun es => Except.ok ((key, form) :: es)) = _
    rw [htail]
    rfl

/-- A map is closed as it was opened if its keys differ. -/
theorem close_map {gaps : List String} {entries : List (FormKey × Form)}
    (h : (entries.map fun e => e.1.name).Nodup) :
    Assembly.close .curly gaps (entryForms entries) = .ok (.map gaps entries) := by
  have heven : ¬ (entryForms entries).length % 2 = 1 := by
    rw [length_entryForms]
    omega
  unfold Assembly.close
  dsimp only
  rw [if_neg heven, entriesOf_entryForms h fun _ _ => List.not_mem_nil]
  rfl

/-- A collection of forms that have tokens has tokens. -/
theorem exists_tokenized_collection {b : Bracket} {gaps : List String} {forms : List Form} {form : Form}
    (hclose : Assembly.close b gaps forms = .ok form) (hlen : gaps.length = forms.length + 1)
    (hgaps : ∀ gap ∈ gaps, Token.Gap false gap)
    (h : ∀ part ∈ forms, ∀ lead, Token.Gap false lead → ∀ pos, ∃ ts, Tokenized pos lead part ts)
    {lead : String} (hlead : Token.Gap false lead) (pos : Nat) : ∃ ts, Tokenized pos lead form ts := by
  obtain rfl | ⟨leads, last, rfl⟩ := List.eq_nil_or_concat gaps
  · cases hlen
  · rw [List.concat_eq_append] at hclose hlen hgaps
    rw [List.length_append, List.length_singleton, Nat.add_right_cancel_iff] at hlen
    obtain ⟨hleads, hlast⟩ := List.forall_mem_append.mp hgaps
    obtain ⟨runs, hruns⟩ := exists_tokenizedEach hlen hleads h _
    exact hruns.collection hlead (List.forall_mem_singleton.mp hlast) hclose

/-- **A form that can be written has tokens**, wherever it stands, if the keys of its maps differ. -/
theorem Writable.exists_tokens {form : Form} (h : form.Writable) (hf : form.Fits) {lead : String}
    (hlead : Token.Gap false lead) (pos : Nat) : ∃ ts, Tokenized pos lead form ts := by
  induction h generalizing lead pos with
  | @intro form hw hparts ih =>
    have hfits : ∀ i part, form.child? i = some part → part.Fits := fun i part hpart => hf.child hpart
    cases form with
    | text content spelling => exact ⟨_, tokenized_text hw hlead pos⟩
    | marked style gap form =>
      obtain ⟨mark, hm⟩ := Option.isSome_iff_exists.mp hw.1
      obtain ⟨ts, hts⟩ := ih 1 form rfl (hfits 1 form rfl) hw.2 (Token.at pos (.mark style) lead mark).stop
      exact ⟨_, hts.marked hm hlead⟩
    | seq shape gaps items =>
      have htokens : ∀ part ∈ items, ∀ lead, Token.Gap false lead → ∀ pos, ∃ ts,
          Tokenized pos lead part ts := fun part hm => by
        obtain ⟨i, hi⟩ := List.mem_iff_getElem?.mp hm
        exact fun _ => ih i part hi (hfits i part hi)
      cases shape with
      | list => exact exists_tokenized_collection (b := .round) rfl hw.1 hw.2 htokens hlead pos
      | vector => exact exists_tokenized_collection (b := .square) rfl hw.1 hw.2 htokens hlead pos
    | map gaps entries =>
      unfold Fits at hf
      refine exists_tokenized_collection (close_map hf.2.1) (by rw [hw.1, length_entryForms]) hw.2
        (fun part hm => ?_) hlead pos
      obtain ⟨i, hi⟩ := List.mem_iff_getElem?.mp hm
      exact fun _ => ih i part hi (hfits i part hi)
    | _ => exact ⟨_, tokenized_atom hw.1 hw.2 hlead pos⟩

end Form

/-! ## Programs -/

namespace Program

/-- The gaps of a program can be written, the last one perhaps with a comment that does not end. -/
structure IsWritable (p : Program) : Prop where
  length : p.gaps.length = p.forms.length + 1
  leads : ∀ gap ∈ p.gaps.dropLast, Token.Gap false gap
  last : ∃ inside, Token.Gap inside (p.gaps.getLastD "")

/-- A program can be written, and so can its forms. -/
structure Writable (p : Program) : Prop where
  gaps : p.IsWritable
  forms : ∀ form ∈ p.forms, form.Writable
  fits : ∀ form ∈ p.forms, form.Fits

/-- No two tokens of a program run together. -/
def Clear (p : Program) : Prop := Form.Apart p.gaps p.forms ∧ ∀ form ∈ p.forms, form.Clear

/-- **A program that is read can be written.** -/
theorem writable_ofSource {src : String} {p : Program} (h : ofSource src = .ok p) : p.Writable := by
  have hfits := (fits_ofSource h).2.of_mem
  obtain ⟨scanned, runs, hscan, htokens, hruns, rfl⟩ := derives_ofSource h
  obtain ⟨hw, inside, htail⟩ := Token.wellFormed_scan hscan
  have hrun : ∀ r ∈ runs, r.form.Writable ∧ Token.Gap false (Token.lead r.tokens) := fun r hr =>
    (hruns r hr).writable fun t ht => hw t (htokens ▸ List.mem_flatMap.mpr ⟨r, hr, ht⟩)
  refine ⟨⟨?_, fun gap hgap => ?_, inside, ?_⟩, fun form hform => ?_, hfits⟩
  · rw [List.length_append, Run.gaps, Run.forms, List.length_map, List.length_map]
    rfl
  · rw [List.dropLast_concat] at hgap
    obtain ⟨r, hr, rfl⟩ := List.mem_map.mp hgap
    exact (hrun r hr).2
  · rwa [List.getLastD_concat]
  · obtain ⟨r, hr, rfl⟩ := List.mem_map.mp hform
    exact (hrun r hr).1

end Program

section

variable {leads : List String} {last : String} {inside : Bool} {forms : List Form} {runs : List Run}

/-- The text of a program is that of its tokens and the gap after them. -/
theorem TokenizedEach.source (h : TokenizedEach 0 leads forms runs) (last : String) :
    Program.source ⟨leads ++ [last], forms⟩ = Token.textOf (Run.allTokens runs) ++ last := by
  have hitems := sourceItems_runs last "" fun r hr =>
    (h.derives r hr).source fun t ht => (h.wellFormed t (List.mem_flatMap.mpr ⟨r, hr, ht⟩)).lexeme.spelled
  rwa [String.empty_append, String.empty_append, h.gaps, h.forms] at hitems

/-- The tokens of a program do not run together exactly if the program is clear. -/
theorem TokenizedEach.cut_iff (h : TokenizedEach 0 leads forms runs) (hlast : Token.Gap inside last) :
    Token.Cut last (Run.allTokens runs) ↔ Program.Clear ⟨leads ++ [last], forms⟩ := by
  obtain ⟨rfl, rfl, hd, -, hw⟩ := h
  have hrow := cut_allTokens hd hw
    (fun r hr tail => (hd r hr).cut_iff (fun t ht => hw t (List.mem_flatMap.mpr ⟨r, hr, ht⟩)) tail)
    fun c hc => (hlast.head hc).1
  refine hrow.trans ?_
  unfold Program.Clear Form.Apart
  rw [Token.apart_append (by rw [Run.gaps, Run.forms, List.length_map, List.length_map, List.length_map]),
    Run.forms, List.forall_mem_map]

end

namespace Program

/-- A program that can be written has tokens. -/
theorem Writable.exists_tokens {p : Program} (h : p.Writable) : ∃ leads last inside runs,
    p = ⟨leads ++ [last], p.forms⟩ ∧ TokenizedEach 0 leads p.forms runs ∧ Token.Gap inside last := by
  obtain ⟨gaps, forms⟩ := p
  obtain ⟨⟨hlen, hleads, inside, hlast⟩, hwritable, hfits⟩ := h
  obtain rfl | ⟨leads, last, rfl⟩ := List.eq_nil_or_concat gaps
  · cases hlen
  · dsimp only at hlen hleads hlast hwritable hfits
    rw [List.concat_eq_append] at hlen hleads hlast ⊢
    rw [List.length_append, List.length_singleton, Nat.add_right_cancel_iff] at hlen
    rw [List.dropLast_concat] at hleads
    rw [List.getLastD_concat] at hlast
    obtain ⟨runs, hruns⟩ := exists_tokenizedEach hlen hleads
      (fun form hm _ hlead pos => (hwritable form hm).exists_tokens (hfits form hm) hlead pos) 0
    exact ⟨leads, last, inside, runs, rfl, hruns, hlast⟩

/-- **The text of a clear program reads back as the program.** -/
theorem ofSource_source {p : Program} (h : p.Writable) (hc : p.Clear) : ofSource p.source = .ok p := by
  obtain ⟨leads, last, inside, runs, hp, hruns, hlast⟩ := h.exists_tokens
  rw [hp] at hc ⊢
  obtain ⟨size, hscan⟩ := Token.scan_textOf hruns.placed hruns.wellFormed ((hruns.cut_iff hlast).mpr hc) hlast
  rw [hruns.source, ofSource_of_derives hscan hruns.derives, hruns.gaps, hruns.forms]

end Program

/-- The text of a clear form reads back as the form alone. -/
theorem Form.ofSource_source {form : Form} (h : form.Writable) (hf : form.Fits) (hc : form.Clear) :
    Program.ofSource form.source = .ok ⟨["", ""], [form]⟩ := by
  have hp : Program.Writable ⟨["", ""], [form]⟩ := by
    refine ⟨⟨rfl, ?_, false, .empty⟩, List.forall_mem_singleton.mpr h, List.forall_mem_singleton.mpr hf⟩
    exact List.forall_mem_singleton.mpr .empty
  have hsource := Program.ofSource_source hp ⟨rfl, List.forall_mem_singleton.mpr hc⟩
  have htext : Program.source ⟨["", ""], [form]⟩ = form.source := by
    show "" ++ form.source ++ "" = _
    rw [String.append_empty, String.empty_append]
  rwa [htext] at hsource

end EditableLisp
