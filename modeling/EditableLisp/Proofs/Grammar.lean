import EditableLisp.Source.Form
import EditableLisp.Proofs.Tiling

/-!
# The grammar of source texts

`Form.IsWord` says what names and numbers are read as (`Form.ofAtom_iff`), and `Derives tokens form` that a
form is made of exactly these tokens. A program is a row of derived forms
that takes up all tokens of its text (`derives_ofSource`). It follows that

* the text of a program is the text that it was read from (`source_ofSource`);
* the layout of every form fits its elements, and the keys of a map differ (`Derives.fits`);
* the keywords that are met in a program are those of its forms (`keywords_ofSource`).
-/

namespace EditableLisp

/-! ## Words -/

namespace Form

/-- What a word is read as. -/
inductive IsWord : String → Form → Prop where
  | nil : IsWord "nil" .nil
  | bool (b : Bool) : IsWord (if b then "true" else "false") (.bool b)
  | keyword {name : String} : name ≠ "" → IsWord (":" ++ name) (.keyword name)
  | num {text : String} {x : Number} : Number.looksNumeric text.toList → Number.ofString? text = some x →
      IsWord text (.num x text)
  | symbol {text : String} : text ∉ ["nil", "true", "false"] → text.toList.head? ≠ some ':' →
      ¬ Number.looksNumeric text.toList → IsWord text (.symbol text)

theorem toList_keyword (name : String) : (":" ++ name).toList = ':' :: name.toList := String.toList_append

/-- Words that start with a colon do not look like numbers. -/
theorem looksNumeric_colon (cs : List Char) : Number.looksNumeric (':' :: cs) = false := by
  cases cs <;> rfl

theorem ofAtom_of_not_mem {text : String} (h : text ∉ ["nil", "true", "false"])
    (hcolon : text.toList.head? ≠ some ':') : ofAtom text =
      if Number.looksNumeric text.toList then
        match Number.ofString? text with
        | some x => .ok (.num x text)
        | none => .error (.invalidNumber text)
      else .ok (.symbol text) := by
  simp only [List.mem_cons, List.not_mem_nil, or_false, not_or] at h
  unfold ofAtom
  rw [if_neg h.1, if_neg h.2.1, if_neg h.2.2]
  split
  · rename_i hl
    rw [hl] at hcolon
    exact absurd rfl hcolon
  · rfl

theorem ofAtom_keyword (name : String) : ofAtom (":" ++ name) =
    if name.toList.isEmpty then .error .emptyKeyword else .ok (.keyword name) := by
  have hne : ∀ word : String, word.toList.head? ≠ some ':' → ":" ++ name ≠ word := by
    rintro word hw rfl
    exact hw (by rw [toList_keyword]; rfl)
  unfold ofAtom
  rw [if_neg (hne "nil" (by decide)), if_neg (hne "true" (by decide)), if_neg (hne "false" (by decide)),
    toList_keyword]
  show (if name.toList.isEmpty then Except.error ReadCause.emptyKeyword
    else Except.ok (keyword (String.ofList name.toList))) = _
  rw [String.ofList_toList]

/-- Words that look like numbers are none of the words for other things. -/
theorem not_mem_of_looksNumeric {text : String} (h : Number.looksNumeric text.toList) :
    text ∉ ["nil", "true", "false"] ∧ text.toList.head? ≠ some ':' := by
  constructor
  · simp only [List.mem_cons, List.not_mem_nil, or_false]
    rintro (rfl | rfl | rfl) <;> exact absurd h (by decide)
  · intro hcolon
    obtain ⟨cs, hl⟩ := List.head?_eq_some_iff.mp hcolon
    rw [hl, looksNumeric_colon] at h
    cases h

/-- **Words are read as names and numbers in exactly these ways.** -/
theorem ofAtom_iff {text : String} {form : Form} : ofAtom text = .ok form ↔ IsWord text form := by
  constructor
  · intro h
    by_cases hword : text ∈ ["nil", "true", "false"]
    · simp only [List.mem_cons, List.not_mem_nil, or_false] at hword
      rcases hword with rfl | rfl | rfl <;> cases h
      · exact .nil
      · exact .bool true
      · exact .bool false
    · by_cases hcolon : text.toList.head? = some ':'
      · obtain ⟨cs, hl⟩ := List.head?_eq_some_iff.mp hcolon
        obtain rfl : text = ":" ++ String.ofList cs := by
          rw [← String.toList_inj, hl, toList_keyword, String.toList_ofList]
        rw [ofAtom_keyword] at h
        split at h
        · cases h
        · rename_i hn
          cases h
          exact .keyword fun he => hn (by rw [he]; rfl)
      · rw [ofAtom_of_not_mem hword hcolon] at h
        split at h
        · rename_i hn
          split at h
          · rename_i hx
            cases h
            exact .num hn hx
          · cases h
        · rename_i hn
          cases h
          exact .symbol hword hcolon hn
  · intro h
    cases h with
    | nil => rfl
    | bool b => cases b <;> rfl
    | @keyword name hn =>
      rw [ofAtom_keyword, if_neg (by simpa using hn)]
    | num hn hx =>
      obtain ⟨hword, hcolon⟩ := not_mem_of_looksNumeric hn
      rw [ofAtom_of_not_mem hword hcolon, if_pos hn, hx]
    | symbol hword hcolon hn => rw [ofAtom_of_not_mem hword hcolon, if_neg hn]

end Form

/-! ## Derivations -/

/-- The blank text before the first of some tokens. -/
def Token.lead : List Token → String
  | [] => ""
  | t :: _ => t.blank

/-- A form with the tokens that it is made of. -/
structure Run where
  tokens : List Token
  form : Form

namespace Run

/-- The tokens of some runs in a row. -/
def allTokens (runs : List Run) : List Token := runs.flatMap tokens

/-- The blank texts before some runs. -/
def gaps (runs : List Run) : List String := runs.map fun r => Token.lead r.tokens

/-- The forms of some runs. -/
def forms (runs : List Run) : List Form := runs.map form

end Run

/-- A form is made of these tokens. -/
inductive Derives : List Token → Form → Prop where
  | text {t : Token} {content : String} : t.kind = .text content →
      Derives [t] (.text content t.lexeme)
  | atom {t : Token} {form : Form} : t.kind = .atom → Form.ofAtom t.lexeme = .ok form → Derives [t] form
  | marked {t : Token} {style : Style} {ts : List Token} {form : Form} : t.kind = .mark style →
      Derives ts form → Derives (t :: ts) (.marked style (Token.lead ts) form)
  | collection {o c : Token} {b : Bracket} {runs : List Run} {form : Form} : o.kind = .opening b →
      (∀ r ∈ runs, Derives r.tokens r.form) → c.kind = .closing b →
      Assembly.close b (Run.gaps runs ++ [c.blank]) (Run.forms runs) = .ok form →
      Derives (o :: (Run.allTokens runs ++ [c])) form

theorem Derives.ne_nil {ts : List Token} {form : Form} (h : Derives ts form) : ts ≠ [] := by
  cases h <;> exact List.cons_ne_nil _ _

/-! ## Assembly -/

/-- What was read so far is made of the tokens that were taken. -/
inductive Assembly.Holds : List Opened → List String → List Form → List Token → Prop where
  | outside {runs : List Run} : (∀ r ∈ runs, Derives r.tokens r.form) →
      Holds [] (Run.gaps runs).reverse (Run.forms runs).reverse (Run.allTokens runs)
  | mark {rest : List Opened} {gaps : List String} {forms : List Form} {ts : List Token} {t : Token}
      {style : Style} : Holds rest gaps forms ts → t.kind = .mark style →
      Holds (.mark style t.blank :: rest) gaps forms (ts ++ [t])
  | collection {rest : List Opened} {gaps : List String} {forms : List Form} {ts : List Token}
      {o : Token} {b : Bracket} {runs : List Run} : Holds rest gaps forms ts → o.kind = .opening b →
      (∀ r ∈ runs, Derives r.tokens r.form) →
      Holds (.collection b o.blank o.start (Run.gaps runs).reverse (Run.forms runs).reverse :: rest)
        gaps forms (ts ++ o :: Run.allTokens runs)

namespace Assembly

theorem derives_snoc {runs : List Run} {us : List Token} {form : Form}
    (hr : ∀ r ∈ runs, Derives r.tokens r.form) (hd : Derives us form) :
    ∀ r ∈ runs ++ [⟨us, form⟩], Derives r.tokens r.form := by
  intro r hm
  rcases List.mem_append.mp hm with hold | hnew
  · exact hr r hold
  · rw [List.mem_singleton] at hnew
    rw [hnew]
    exact hd

/-- A derived form goes where it belongs. -/
theorem Holds.place {opened : List Opened} {gaps : List String} {forms : List Form}
    {ts us : List Token} {form : Form} (h : Holds opened gaps forms ts) (hd : Derives us form) :
    Holds (Assembly.place gaps forms (Token.lead us) form opened).opened
      (Assembly.place gaps forms (Token.lead us) form opened).gaps
      (Assembly.place gaps forms (Token.lead us) form opened).forms (ts ++ us) := by
  induction h generalizing us form with
  | @outside runs hr =>
    have := Holds.outside (derives_snoc hr hd)
    simpa [Assembly.place, Run.gaps, Run.forms, Run.allTokens] using this
  | @mark rest gaps forms ts t style _ hk ih =>
    have := ih (Derives.marked hk hd)
    rwa [List.append_cons] at this
  | @collection rest gaps forms ts o b runs h hk hr _ =>
    have := Holds.collection h hk (derives_snoc hr hd)
    simpa [Assembly.place, Run.gaps, Run.forms, Run.allTokens] using this

/-- Taking a token keeps what holds. -/
theorem Holds.shift {a a' : Assembly} {ts : List Token} {t : Token}
    (h : Holds a.opened a.gaps a.forms ts) (e : a.shift t = .ok a') :
    Holds a'.opened a'.gaps a'.forms (ts ++ [t]) := by
  unfold Assembly.shift at e
  split at e
  · rename_i b hk
    cases e
    exact @Holds.collection _ _ _ _ _ b [] h hk nofun
  · rename_i style hk
    cases e
    exact Holds.mark h hk
  · rename_i content hk
    cases e
    exact h.place (Derives.text hk)
  · rename_i hk
    split at e
    · rename_i form hf
      cases e
      exact h.place (Derives.atom hk hf)
    · cases e
  · rename_i b hk
    obtain ⟨opened, gaps, forms⟩ := a
    cases h with
    | outside => cases e
    | mark => cases e
    | @collection rest _ _ ts o b' runs h ho hr =>
      dsimp only at e
      split at e
      · rename_i hb
        subst hb
        split at e
        · rename_i form hc
          cases e
          rw [List.reverse_cons, List.reverse_reverse, List.reverse_reverse] at hc
          have hd := Derives.collection ho hr hk hc
          have := h.place hd
          simpa [Token.lead] using this
        · cases e
      · cases e

theorem Holds.shiftAll {a a' : Assembly} {ts us : List Token}
    (h : Holds a.opened a.gaps a.forms ts) (e : a.shiftAll us = .ok a') :
    Holds a'.opened a'.gaps a'.forms (ts ++ us) := by
  induction us generalizing a ts with
  | nil =>
    cases e
    rwa [List.append_nil]
  | cons t us ih =>
    unfold Assembly.shiftAll at e
    split at e
    · rename_i a₁ hs
      have := ih (h.shift hs) e
      rwa [← List.append_cons] at this
    · cases e

end Assembly

/-- **A program is a row of derived forms that takes up all tokens of its text.** -/
theorem derives_ofSource {src : String} {p : Program} (h : Program.ofSource src = .ok p) :
    ∃ scanned runs, Token.scan src = .ok scanned ∧ scanned.tokens = Run.allTokens runs ∧
      (∀ r ∈ runs, Derives r.tokens r.form) ∧ p = ⟨Run.gaps runs ++ [scanned.tail], Run.forms runs⟩ := by
  unfold Program.ofSource Reading.ofSource at h
  cases hs : Token.scan src with
  | error e =>
    rw [hs] at h
    cases h
  | ok scanned =>
    rw [hs] at h
    dsimp only at h
    cases ha : Assembly.initial.shiftAll scanned.tokens with
    | error stuck =>
      rw [ha] at h
      cases h
    | ok a =>
      rw [ha] at h
      have hi : Assembly.Holds Assembly.initial.opened Assembly.initial.gaps
          Assembly.initial.forms [] := @Assembly.Holds.outside [] nofun
      have hh := hi.shiftAll ha
      rw [List.nil_append] at hh
      generalize ht : scanned.tokens = tokens at hh
      obtain ⟨opened, gaps, forms⟩ := a
      cases hh with
      | mark => cases h
      | collection => cases h
      | @outside runs hr =>
        have hp : p = ⟨(scanned.tail :: (Run.gaps runs).reverse).reverse,
            (Run.forms runs).reverse.reverse⟩ := (Except.ok.inj h).symm
        rw [List.reverse_cons, List.reverse_reverse, List.reverse_reverse] at hp
        exact ⟨scanned, runs, rfl, ht, hr, hp⟩

/-! ## Text -/

/-- A key as a form. -/
def FormKey.toForm : FormKey → Form
  | .keyword name => .keyword name
  | .text content spelling => .text content spelling

/-- The keys and forms of entries in turn. -/
def Form.entryForms (entries : List (FormKey × Form)) : List Form :=
  entries.flatMap fun e => [e.1.toForm, e.2]

theorem FormKey.source_toForm (key : FormKey) : key.toForm.source = key.source := by
  cases key <;> rfl

/-- The text of entries is that of their keys and forms in turn. -/
theorem Form.sourceEntries_eq (entries : List (FormKey × Form)) (gaps : List String) (done : String) :
    sourceEntries gaps done entries = sourceItems gaps done (entryForms entries) := by
  induction entries generalizing gaps done with
  | nil => rfl
  | cons e rest ih =>
    obtain ⟨key, form⟩ := e
    unfold sourceEntries
    rw [ih, ← key.source_toForm]
    rfl

theorem Form.toForm_of_asKey {seen : List String} {form : Form} {key : FormKey}
    (h : form.asKey seen = .ok key) : key.toForm = form ∧ key.name ∉ seen := by
  unfold Form.asKey at h
  split at h
  · split at h
    · cases h
    · rename_i hn
      cases h
      exact ⟨rfl, fun hm => hn (List.contains_iff_mem.mpr hm)⟩
  · split at h
    · cases h
    · rename_i hn
      cases h
      exact ⟨rfl, fun hm => hn (List.contains_iff_mem.mpr hm)⟩
  · cases h

/-- Entries hold the forms that they were made of, under pairwise different names. -/
theorem Form.entryForms_of_entriesOf {seen : List String} {forms : List Form}
    {entries : List (FormKey × Form)} (h : Form.entriesOf seen forms = .ok entries)
    (he : forms.length % 2 = 0) :
    entryForms entries = forms ∧ (entries.map fun e => e.1.name).Nodup ∧
      ∀ name ∈ seen, name ∉ entries.map fun e => e.1.name := by
  induction seen, forms using Form.entriesOf.induct generalizing entries with
  | case1 seen key form rest ih =>
    unfold Form.entriesOf at h
    cases hk : key.asKey seen with
    | error c =>
      rw [hk] at h
      cases h
    | ok k =>
      rw [hk] at h
      cases hr : Form.entriesOf (k.name :: seen) rest with
      | error c =>
        simp only [bind, Except.bind, hr] at h
        cases h
      | ok entries' =>
        simp only [bind, Except.bind, hr] at h
        cases h
        have he' : rest.length % 2 = 0 := by
          simp only [List.length_cons] at he
          omega
        obtain ⟨hforms, hnodup, hseen⟩ := ih k hr he'
        obtain ⟨hto, hfresh⟩ := Form.toForm_of_asKey hk
        refine ⟨?_, ?_, ?_⟩
        · show k.toForm :: form :: entryForms entries' = _
          rw [hto, hforms]
        · exact List.nodup_cons.mpr ⟨hseen k.name List.mem_cons_self, hnodup⟩
        · intro name hm hin
          rcases List.mem_cons.mp hin with rfl | hin
          · exact hfresh hm
          · exact hseen name (List.mem_cons_of_mem _ hm) hin
  | case2 forms seen hf =>
    have hnil : forms = [] := by
      match forms, hf, he with
      | [], _, _ => rfl
      | [a], _, he => simp at he
      | a :: b :: rest, hf, _ => exact (hf a b rest rfl).elim
    subst hnil
    cases h
    exact ⟨rfl, List.nodup_nil, fun _ _ => List.not_mem_nil⟩

/-- Braces are closed around the keys and forms of a map, whose names differ. -/
theorem exists_entries_of_close {gaps : List String} {forms : List Form} {form : Form}
    (h : Assembly.close .curly gaps forms = .ok form) : ∃ entries, form = .map gaps entries ∧
      Form.entryForms entries = forms ∧ (entries.map fun e => e.1.name).Nodup := by
  unfold Assembly.close at h
  dsimp only at h
  split at h
  · cases h
  · cases he : Form.entriesOf [] forms with
    | error c =>
      rw [he] at h
      cases h
    | ok entries =>
      rw [he] at h
      cases h
      obtain ⟨hforms, hnodup, -⟩ := Form.entryForms_of_entriesOf he (by omega)
      exact ⟨entries, rfl, hforms, hnodup⟩

/-- A name or number has the text that it was made of. -/
theorem Form.source_ofAtom {text : String} {form : Form} (h : Form.ofAtom text = .ok form) :
    form.source = text := by
  cases ofAtom_iff.mp h <;> rfl

/-- A form without parts. -/
def Form.isLeaf : Form → Bool
  | .marked .. => false
  | .seq .. => false
  | .map .. => false
  | _ => true

theorem Form.isLeaf_ofAtom {text : String} {form : Form} (h : Form.ofAtom text = .ok form) :
    form.isLeaf := by
  cases ofAtom_iff.mp h <;> rfl

/-- Forms that have the text of their tokens have it in a collection, too. -/
theorem sourceItems_runs {runs : List Run} (last done : String)
    (h : ∀ r ∈ runs, Token.lead r.tokens ++ r.form.source = Token.textOf r.tokens) :
    Form.sourceItems (Run.gaps runs ++ [last]).tail (done ++ (Run.gaps runs ++ [last]).headD "")
      (Run.forms runs) = done ++ Token.textOf (Run.allTokens runs) ++ last := by
  induction runs generalizing done with
  | nil =>
    show done ++ last = done ++ "" ++ last
    rw [String.append_empty]
  | cons r rest ih =>
    have hr := h r List.mem_cons_self
    have hi := ih (done ++ Token.lead r.tokens ++ r.form.source)
      fun r' hm => h r' (List.mem_cons_of_mem _ hm)
    show Form.sourceItems (Run.gaps rest ++ [last]).tail (done ++ Token.lead r.tokens ++ r.form.source ++
      (Run.gaps rest ++ [last]).headD "") (Run.forms rest) =
        done ++ Token.textOf (r.tokens ++ Run.allTokens rest) ++ last
    rw [hi, Token.textOf_append, ← hr]
    simp only [String.append_assoc]

theorem source_close {b : Bracket} {gaps : List String} {forms : List Form} {form : Form}
    (h : Assembly.close b gaps forms = .ok form) :
    form.source = Form.sourceItems gaps.tail (String.singleton b.opening ++ gaps.headD "") forms ++
      String.singleton b.closing := by
  cases b with
  | round =>
    cases h
    rfl
  | square =>
    cases h
    rfl
  | curly =>
    obtain ⟨entries, rfl, hforms, -⟩ := exists_entries_of_close h
    unfold Form.source
    rw [Form.sourceEntries_eq, hforms]
    rfl

/-- **A derived form has the text of its tokens.** -/
theorem Derives.source {ts : List Token} {form : Form} (h : Derives ts form)
    (hs : ∀ t ∈ ts, Token.Spelled t.kind t.lexeme) :
    Token.lead ts ++ form.source = Token.textOf ts := by
  induction h with
  | @text t content hk => rw [Token.textOf, Token.textOf, String.append_empty]; rfl
  | @atom t form hk hf =>
    rw [Form.source_ofAtom hf, Token.textOf, Token.textOf, String.append_empty]
    rfl
  | @marked t style ts form hk _ ih =>
    have hm := hs t List.mem_cons_self
    rw [hk] at hm
    have hmark : style.mark? = some t.lexeme := hm
    have hi := ih fun u hu => hs u (List.mem_cons_of_mem _ hu)
    show t.blank ++ (style.mark?.getD "" ++ Token.lead ts ++ form.source) = _
    rw [hmark, Token.textOf, ← hi, Option.getD_some]
    simp only [String.append_assoc]
  | @collection o c b runs form ho _ hc hclose ih =>
    have hopen := hs o List.mem_cons_self
    have hlast := hs c (List.mem_cons_of_mem _ (List.mem_append_right _ List.mem_cons_self))
    rw [ho] at hopen
    rw [hc] at hlast
    have hopen' : o.lexeme = String.singleton b.opening := hopen
    have hlast' : c.lexeme = String.singleton b.closing := hlast
    have hruns : ∀ r ∈ runs, Token.lead r.tokens ++ r.form.source = Token.textOf r.tokens := by
      intro r hr
      refine ih r hr fun t ht => hs t (List.mem_cons_of_mem _ (List.mem_append_left _ ?_))
      exact List.mem_flatMap.mpr ⟨r, hr, ht⟩
    show o.blank ++ form.source = Token.textOf (o :: (Run.allTokens runs ++ [c]))
    rw [source_close hclose, sourceItems_runs c.blank _ hruns, Token.textOf, Token.textOf_append,
      Token.textOf, Token.textOf, hopen', hlast', String.append_empty]
    simp only [String.append_assoc]

/-- **The text of a program is the text that it was read from.** -/
theorem source_ofSource {src : String} {p : Program} (h : Program.ofSource src = .ok p) :
    p.source = src := by
  obtain ⟨scanned, runs, hscan, htokens, hruns, rfl⟩ := derives_ofSource h
  have hspelled := Token.spelled_scan hscan
  rw [htokens] at hspelled
  have hr : ∀ r ∈ runs, Token.lead r.tokens ++ r.form.source = Token.textOf r.tokens := fun r hm =>
    (hruns r hm).source fun t ht => hspelled t (List.mem_flatMap.mpr ⟨r, hm, ht⟩)
  have hs := sourceItems_runs scanned.tail "" hr
  rw [String.empty_append, String.empty_append, ← htokens, Token.textOf_scan hscan] at hs
  exact hs

/-! ## Layout -/

namespace Form

mutual

/-- The gaps of every collection fit its elements, marks can be written, and the keys of a map differ. -/
def Fits : Form → Prop
  | marked style _ form => style.mark?.isSome ∧ Fits form
  | seq _ gaps items => gaps.length = items.length + 1 ∧ FitsEach items
  | map gaps entries =>
    gaps.length = 2 * entries.length + 1 ∧ (entries.map fun e => e.1.name).Nodup ∧ FitsEntries entries
  | _ => True

/-- `Fits` for forms. -/
def FitsEach : List Form → Prop
  | [] => True
  | form :: rest => Fits form ∧ FitsEach rest

/-- `Fits` for the forms of entries. -/
def FitsEntries : List (FormKey × Form) → Prop
  | [] => True
  | (_, form) :: rest => Fits form ∧ FitsEntries rest

end

theorem fitsEach_of_forall {forms : List Form} (h : ∀ form ∈ forms, form.Fits) : FitsEach forms := by
  induction forms with
  | nil => trivial
  | cons form rest ih =>
    exact ⟨h form List.mem_cons_self, ih fun f hf => h f (List.mem_cons_of_mem _ hf)⟩

theorem fitsEntries_of_forall {entries : List (FormKey × Form)}
    (h : ∀ form ∈ entryForms entries, form.Fits) : FitsEntries entries := by
  induction entries with
  | nil => trivial
  | cons e rest ih =>
    refine ⟨h e.2 (List.mem_cons_of_mem _ List.mem_cons_self), ih fun f hf => h f ?_⟩
    exact List.mem_cons_of_mem _ (List.mem_cons_of_mem _ hf)

theorem length_entryForms (entries : List (FormKey × Form)) :
    (entryForms entries).length = 2 * entries.length := by
  induction entries with
  | nil => rfl
  | cons e rest ih =>
    show (entryForms rest).length + 1 + 1 = 2 * (rest.length + 1)
    omega

end Form

/-- The layout of a derived form fits it. -/
theorem Derives.fits {ts : List Token} {form : Form} (h : Derives ts form)
    (hs : ∀ t ∈ ts, Token.Spelled t.kind t.lexeme) : form.Fits := by
  induction h with
  | text => trivial
  | @atom t form hk hf =>
    have hl := Form.isLeaf_ofAtom hf
    cases form <;> trivial
  | @marked t style ts form hk _ ih =>
    have hm := hs t List.mem_cons_self
    rw [hk] at hm
    have hmark : style.mark? = some t.lexeme := hm
    exact ⟨by rw [hmark]; rfl, ih fun u hu => hs u (List.mem_cons_of_mem _ hu)⟩
  | @collection o c b runs form _ _ _ hclose ih =>
    have hall : ∀ f ∈ Run.forms runs, f.Fits := by
      intro f hf
      obtain ⟨r, hr, rfl⟩ := List.mem_map.mp hf
      refine ih r hr fun t ht => hs t (List.mem_cons_of_mem _ (List.mem_append_left _ ?_))
      exact List.mem_flatMap.mpr ⟨r, hr, ht⟩
    have hlen : (Run.gaps runs ++ [c.blank]).length = (Run.forms runs).length + 1 := by
      rw [List.length_append, Run.gaps, Run.forms, List.length_map, List.length_map]
      rfl
    cases b with
    | round =>
      cases hclose
      exact ⟨hlen, Form.fitsEach_of_forall hall⟩
    | square =>
      cases hclose
      exact ⟨hlen, Form.fitsEach_of_forall hall⟩
    | curly =>
      obtain ⟨entries, rfl, hforms, hnodup⟩ := exists_entries_of_close hclose
      rw [← hforms] at hall
      refine ⟨?_, hnodup, Form.fitsEntries_of_forall hall⟩
      rw [hlen, ← hforms, Form.length_entryForms]

/-- The layout of a program fits its forms. -/
def Program.Fits (p : Program) : Prop := p.gaps.length = p.forms.length + 1 ∧ Form.FitsEach p.forms

/-- The layout of what is read fits. -/
theorem Program.fits_ofSource {src : String} {p : Program} (h : Program.ofSource src = .ok p) :
    p.Fits := by
  obtain ⟨scanned, runs, hscan, htokens, hruns, rfl⟩ := derives_ofSource h
  have hspelled := Token.spelled_scan hscan
  rw [htokens] at hspelled
  refine ⟨?_, Form.fitsEach_of_forall fun form hf => ?_⟩
  · rw [List.length_append, Run.gaps, Run.forms, List.length_map, List.length_map]
    rfl
  · obtain ⟨r, hr, rfl⟩ := List.mem_map.mp hf
    exact (hruns r hr).fits fun t ht => hspelled t (List.mem_flatMap.mpr ⟨r, hr, ht⟩)

/-! ## Keywords -/

/-- The names of the keywords in a key. -/
def FormKey.keywords : FormKey → List String
  | .keyword name => [name]
  | .text .. => []

namespace Form

mutual

/-- The names of the keywords in a form, in order. -/
def keywords : Form → List String
  | keyword name => [name]
  | marked _ _ form => keywords form
  | seq _ _ items => keywordsEach items
  | map _ entries => keywordsEntries entries
  | _ => []

/-- `keywords` for forms. -/
def keywordsEach : List Form → List String
  | [] => []
  | form :: rest => keywords form ++ keywordsEach rest

/-- `keywords` for entries. -/
def keywordsEntries : List (FormKey × Form) → List String
  | [] => []
  | (key, form) :: rest => key.keywords ++ keywords form ++ keywordsEntries rest

end

theorem keywordsEach_append (forms more : List Form) :
    keywordsEach (forms ++ more) = keywordsEach forms ++ keywordsEach more := by
  induction forms with
  | nil => rfl
  | cons form rest ih => simp [keywordsEach, ih]

theorem keywordsEntries_eq (entries : List (FormKey × Form)) :
    keywordsEntries entries = keywordsEach (entryForms entries) := by
  induction entries with
  | nil => rfl
  | cons e rest ih =>
    obtain ⟨key, form⟩ := e
    have hforms : entryForms ((key, form) :: rest) = key.toForm :: form :: entryForms rest := rfl
    have hkey : key.toForm.keywords = key.keywords := by cases key <;> rfl
    simp [keywordsEntries, keywordsEach, hforms, hkey, ih]

/-- The keyword that a word is, if it is one. -/
theorem keyword?_of_isWord {t : Token} {form : Form} (hk : t.kind = .atom) (h : IsWord t.lexeme form) :
    t.keyword?.toList = form.keywords := by
  obtain ⟨kind, blank, lexeme, start, stop⟩ := t
  obtain rfl : kind = .atom := hk
  have hnone : lexeme.toList.head? ≠ some ':' → Token.keyword? ⟨.atom, blank, lexeme, start, stop⟩ = none := by
    intro hcolon
    unfold Token.keyword?
    split
    · rename_i hl
      exact absurd (congrArg List.head? hl) hcolon
    · rfl
  have hsome : ∀ name, name ≠ "" → Token.keyword? ⟨.atom, blank, ":" ++ name, start, stop⟩ = some name := by
    intro name hn
    obtain ⟨c, cs, hl⟩ := List.exists_cons_of_ne_nil (mt String.toList_eq_nil_iff.mp hn)
    simp only [Token.keyword?, toList_keyword, hl]
    rw [← hl, String.ofList_toList]
  cases h with
  | nil =>
    rw [hnone (by decide)]
    rfl
  | bool b =>
    rw [hnone (by cases b <;> decide)]
    rfl
  | @keyword name hn => exact congrArg Option.toList (hsome name hn)
  | num hn hx =>
    rw [hnone (not_mem_of_looksNumeric hn).2]
    rfl
  | symbol _ hcolon _ =>
    rw [hnone hcolon]
    rfl

theorem keywords_close {b : Bracket} {gaps : List String} {forms : List Form} {form : Form}
    (h : Assembly.close b gaps forms = .ok form) : form.keywords = keywordsEach forms := by
  cases b with
  | round | square =>
    cases h
    rfl
  | curly =>
    obtain ⟨entries, rfl, rfl, -⟩ := exists_entries_of_close h
    exact keywordsEntries_eq entries

end Form

theorem Token.keyword?_of_kind {t : Token} (h : t.kind ≠ .atom) : t.keyword? = none := by
  unfold Token.keyword?
  split
  · rename_i hk _
    exact absurd hk h
  · rfl

theorem filterMap_allTokens {runs : List Run}
    (h : ∀ r ∈ runs, r.form.keywords = r.tokens.filterMap Token.keyword?) :
    Form.keywordsEach (Run.forms runs) = (Run.allTokens runs).filterMap Token.keyword? := by
  induction runs with
  | nil => rfl
  | cons r rest ih =>
    obtain ⟨hr, hrest⟩ := List.forall_mem_cons.mp h
    show r.form.keywords ++ Form.keywordsEach (Run.forms rest) =
      (r.tokens ++ Run.allTokens rest).filterMap Token.keyword?
    rw [List.filterMap_append, hr, ih hrest]

/-- **The keywords of a form are those among its tokens.** -/
theorem Derives.keywords {ts : List Token} {form : Form} (h : Derives ts form) :
    form.keywords = ts.filterMap Token.keyword? := by
  induction h with
  | text hk => simp [Form.keywords, Token.keyword?_of_kind, hk]
  | @atom t form hk hf =>
    rw [← Form.keyword?_of_isWord hk (Form.ofAtom_iff.mp hf), List.filterMap_cons]
    cases t.keyword? <;> rfl
  | marked hk _ ih => simp [Form.keywords, Token.keyword?_of_kind, hk, ih]
  | collection ho _ hc hclose ih =>
    simp [Form.keywords_close hclose, filterMap_allTokens ih, Token.keyword?_of_kind, ho, hc]

/-- The keywords that are met in a program are those of its forms. -/
theorem keywords_ofSource {src : String} {p : Program} (h : Program.ofSource src = .ok p) :
    (Reading.ofSource src).keywords = Form.keywordsEach p.forms := by
  obtain ⟨scanned, runs, hscan, htokens, hruns, rfl⟩ := derives_ofSource h
  have hkeywords := filterMap_allTokens fun r hr => (hruns r hr).keywords
  unfold Program.ofSource Reading.ofSource at h
  unfold Reading.ofSource
  rw [hscan] at h ⊢
  dsimp only at h ⊢
  rw [hkeywords, ← htokens]
  cases e : Assembly.initial.shiftAll scanned.tokens with
  | ok a => rfl
  | error stuck =>
    rw [e] at h
    cases h

end EditableLisp
