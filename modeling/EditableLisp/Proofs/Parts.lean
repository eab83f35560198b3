import EditableLisp.Proofs.Grammar

/-!
# Parts of source texts

A part of a form is found by a path of indices, as a node of a value is. `Derives.Part` says which tokens
the part at a path is made of (`Derives.part`), and `ReadFrom` which tokens of a text the part at a path of
a program was read from. A part has the text that stands in the source from its first token to its last
one (`ReadFrom.isSlice`).
-/

namespace EditableLisp

namespace Form

/-- The part of a form at an index: an element, or the form behind a mark, which comes after the hidden
symbol of the mark. The keys and forms of a map come in turn. -/
def child? : Form → Nat → Option Form
  | marked _ _ form, 1 => some form
  | seq _ _ items, i => items[i]?
  | map _ entries, i => (entryForms entries)[i]?
  | _, _ => none

/-- The part of a form that a path of indices leads to. -/
def at? (form : Form) : List Nat → Option Form
  | [] => some form
  | i :: path =>
    match form.child? i with
    | some part => part.at? path
    | none => none

theorem FitsEach.of_mem {forms : List Form} (h : FitsEach forms) : ∀ form ∈ forms, form.Fits := by
  induction forms with
  | nil => exact nofun
  | cons form rest ih => exact List.forall_mem_cons.mpr ⟨h.1, ih h.2⟩

/-- The layout of the parts of a form fits them. -/
theorem Fits.child {form part : Form} (h : form.Fits) {i : Nat} (hc : form.child? i = some part) :
    part.Fits := by
  cases form with
  | marked style gap form =>
    unfold child? at hc
    split at hc
    · rename_i heq
      cases heq
      cases hc
      exact h.2
    · rename_i heq
      cases heq
    · rename_i heq
      cases heq
    · cases hc
  | seq shape gaps items =>
    unfold Fits at h
    exact h.2.of_mem part (List.mem_of_getElem? hc)
  | map gaps entries =>
    unfold Fits at h
    have hmem : part ∈ entryForms entries := List.mem_of_getElem? hc
    have hall : ∀ entries : List (FormKey × Form), FitsEntries entries →
        ∀ form ∈ entryForms entries, form.Fits := by
      intro entries
      induction entries with
      | nil => exact fun _ => nofun
      | cons e rest ih =>
        intro he
        have hkey : e.1.toForm.Fits := by cases e.1 <;> trivial
        exact List.forall_mem_cons.mpr ⟨hkey, List.forall_mem_cons.mpr ⟨he.1, ih he.2⟩⟩
    exact hall entries h.2.2 part hmem
  | _ => cases hc

end Form

theorem child?_close {b : Bracket} {gaps : List String} {forms : List Form} {form : Form}
    (h : Assembly.close b gaps forms = .ok form) (i : Nat) : form.child? i = forms[i]? := by
  cases b with
  | round =>
    cases h
    rfl
  | square =>
    cases h
    rfl
  | curly =>
    obtain ⟨entries, rfl, hforms, -⟩ := exists_entries_of_close h
    show (Form.entryForms entries)[i]? = _
    rw [hforms]

theorem child?_of_isLeaf {form : Form} (h : form.isLeaf) (i : Nat) : form.child? i = none := by
  cases form <;> first | rfl | cases h

/-- A choice for each element of a list is a list of pairs. -/
theorem exists_pairs {α β : Type} {P : α → β → Prop} {as : List α} (h : ∀ a ∈ as, ∃ b, P a b) :
    ∃ pairs : List (α × β), pairs.map Prod.fst = as ∧ ∀ p ∈ pairs, P p.1 p.2 := by
  induction as with
  | nil => exact ⟨[], rfl, nofun⟩
  | cons a rest ih =>
    obtain ⟨ha, hrest⟩ := List.forall_mem_cons.mp h
    obtain ⟨b, hb⟩ := ha
    obtain ⟨pairs, rfl, hpairs⟩ := ih hrest
    exact ⟨(a, b) :: pairs, rfl, List.forall_mem_cons.mpr ⟨hb, hpairs⟩⟩

/-- A run among others is a part of their tokens. -/
theorem exists_append_of_mem {runs : List Run} {r : Run} (h : r ∈ runs) :
    ∃ before after, Run.allTokens runs = before ++ r.tokens ++ after := by
  obtain ⟨left, right, rfl⟩ := List.append_of_mem h
  refine ⟨Run.allTokens left, Run.allTokens right, ?_⟩
  simp only [Run.allTokens, List.flatMap_append, List.flatMap_cons, List.append_assoc]

/-- The part at a path of a derived form is made of these tokens. -/
inductive Derives.Part : List Token → Form → List Nat → List Token → Form → Prop where
  | whole {ts : List Token} {form : Form} : Derives ts form → Part ts form [] ts form
  | behind {t : Token} {style : Style} {gap : String} {ts run : List Token} {form part : Form}
      {path : List Nat} : Part ts form path run part →
      Part (t :: ts) (.marked style gap form) (1 :: path) run part
  | inside {o c : Token} {b : Bracket} {gaps : List String} {runs : List Run} {form part : Form}
      {i : Nat} {r : Run} {path : List Nat} {run : List Token} :
      Assembly.close b gaps (Run.forms runs) = .ok form → runs[i]? = some r →
      Part r.tokens r.form path run part →
      Part (o :: (Run.allTokens runs ++ [c])) form (i :: path) run part

/-- The part at a path of a program was read from these tokens of its text. -/
def ReadFrom (src : String) (path : List Nat) (run : List Token) (part : Form) : Prop :=
  ∃ scanned runs i r rest, Token.scan src = .ok scanned ∧ scanned.tokens = Run.allTokens runs ∧
    path = i :: rest ∧ runs[i]? = some r ∧ Derives.Part r.tokens r.form rest run part

theorem Derives.Part.derives {ts run : List Token} {form part : Form} {path : List Nat}
    (h : Derives.Part ts form path run part) : Derives run part := by
  induction h with
  | whole h => exact h
  | behind _ ih => exact ih
  | inside _ _ _ ih => exact ih

/-- The tokens of a part are a run of the tokens of the form. -/
theorem Derives.Part.exists_append {ts run : List Token} {form part : Form} {path : List Nat}
    (h : Derives.Part ts form path run part) : ∃ before after, ts = before ++ run ++ after := by
  induction h with
  | whole => exact ⟨[], [], (List.append_nil _).symm⟩
  | @behind t _ _ _ _ _ _ _ _ ih =>
    obtain ⟨before, after, rfl⟩ := ih
    exact ⟨t :: before, after, rfl⟩
  | @inside o c _ _ runs _ _ _ r _ _ _ hi _ ih =>
    obtain ⟨before, after, he⟩ := ih
    obtain ⟨left, right, hr⟩ := exists_append_of_mem (List.mem_of_getElem? hi)
    refine ⟨o :: left ++ before, after ++ right ++ [c], ?_⟩
    rw [hr, he]
    simp only [List.append_assoc, List.cons_append]

/-- **Every part of a derived form has its tokens.** -/
theorem Derives.part {ts : List Token} {form part : Form} {path : List Nat} (h : Derives ts form)
    (hp : form.at? path = some part) : ∃ run, Derives.Part ts form path run part := by
  induction path generalizing ts form with
  | nil =>
    cases hp
    exact ⟨ts, .whole h⟩
  | cons i path ih =>
    unfold Form.at? at hp
    split at hp
    · rename_i child hc
      cases h with
      | text => cases hc
      | atom _ hf =>
        rw [child?_of_isLeaf (Form.isLeaf_ofAtom hf)] at hc
        cases hc
      | @marked t style ts form _ hd =>
        unfold Form.child? at hc
        split at hc
        · rename_i heq
          cases heq
          cases hc
          obtain ⟨run, hrun⟩ := ih hd hp
          exact ⟨run, .behind hrun⟩
        · rename_i heq
          cases heq
        · rename_i heq
          cases heq
        · cases hc
      | @collection o c b runs form _ hr _ hclose =>
        rw [child?_close hclose, Run.forms, List.getElem?_map] at hc
        obtain ⟨r, hi, rfl⟩ := Option.map_eq_some_iff.mp hc
        obtain ⟨run, hrun⟩ := ih (hr r (List.mem_of_getElem? hi)) hp
        exact ⟨run, .inside hclose hi hrun⟩
    · cases hp

/-! ## Slices -/

/-- A text stands in a source between two byte offsets. -/
def IsSlice (src : String) (start stop : Nat) (text : String) : Prop :=
  ∃ before after, src = before ++ text ++ after ∧ before.utf8ByteSize = start ∧
    start + text.utf8ByteSize = stop

/-- The byte offset where the first of some tokens starts. -/
def Token.startOf : List Token → Nat
  | [] => 0
  | t :: _ => t.start

/-- The byte offset where the last of some tokens stops. -/
def Token.stopOf (ts : List Token) : Nat := (ts.getLast?.map Token.stop).getD 0

theorem Token.stopOf_of_placed {pos : Nat} {ts : List Token} (h : Token.Placed pos ts)
    (hne : ts ≠ []) : Token.stopOf ts = pos + (Token.textOf ts).utf8ByteSize := by
  obtain ⟨init, last, rfl⟩ : ∃ init last, ts = init ++ [last] :=
    ⟨ts.dropLast, ts.getLast hne, (List.dropLast_concat_getLast hne).symm⟩
  rw [Token.placed_append] at h
  obtain ⟨-, hstart, hstop, -⟩ := h
  unfold Token.stopOf
  rw [List.getLast?_append, Token.textOf_append, Token.textOf, Token.textOf, String.append_empty,
    String.utf8ByteSize_append, String.utf8ByteSize_append]
  show last.stop = _
  omega

/-- **A derived form has the text that stands in the source from its first token to its last one.** -/
theorem isSlice_of_derives {src : String} {scanned : Token.Scanned} (h : Token.scan src = .ok scanned)
    {before run after : List Token} (ht : scanned.tokens = before ++ run ++ after) {form : Form}
    (hd : Derives run form) : IsSlice src (Token.startOf run) (Token.stopOf run) form.source := by
  have hplaced := Token.placed_scan h
  rw [ht, List.append_assoc, Token.placed_append, Token.placed_append, Nat.zero_add] at hplaced
  obtain ⟨-, hrun, -⟩ := hplaced
  have hsource := hd.source fun t hm => Token.spelled_scan h t (by
    rw [ht]
    exact List.mem_append_left _ (List.mem_append_right _ hm))
  have hstop := Token.stopOf_of_placed hrun hd.ne_nil
  have htext := Token.textOf_scan h
  rw [ht, Token.textOf_append, Token.textOf_append, ← hsource] at htext
  have hstart : Token.startOf run =
      (Token.textOf before).utf8ByteSize + (Token.lead run).utf8ByteSize := by
    cases run with
    | nil => exact absurd rfl hd.ne_nil
    | cons t rest => exact hrun.1
  refine ⟨Token.textOf before ++ Token.lead run, Token.textOf after ++ scanned.tail, ?_, ?_, ?_⟩
  · rw [← htext]
    simp only [String.append_assoc]
  · rw [String.utf8ByteSize_append, hstart]
  · rw [hstop, ← hsource, String.utf8ByteSize_append, hstart, Nat.add_assoc]

/-- **The text of a part of a program is the slice of the source that it was read from.** -/
theorem ReadFrom.isSlice {src : String} {path : List Nat} {run : List Token} {part : Form}
    (h : ReadFrom src path run part) :
    IsSlice src (Token.startOf run) (Token.stopOf run) part.source := by
  obtain ⟨scanned, runs, i, r, rest, hscan, htokens, -, hi, hpart⟩ := h
  obtain ⟨before, after, hr⟩ := hpart.exists_append
  obtain ⟨left, right, hruns⟩ := exists_append_of_mem (List.mem_of_getElem? hi)
  refine @isSlice_of_derives _ _ hscan (left ++ before) _ (after ++ right) ?_ _ hpart.derives
  rw [htokens, hruns, hr]
  simp only [List.append_assoc]

/-- The layout of a part of a program fits it. -/
theorem ReadFrom.fits {src : String} {path : List Nat} {run : List Token} {part : Form}
    (h : ReadFrom src path run part) : part.Fits := by
  obtain ⟨scanned, runs, i, r, rest, hscan, htokens, -, hi, hpart⟩ := h
  obtain ⟨before, after, hr⟩ := hpart.exists_append
  refine hpart.derives.fits fun t ht => Token.spelled_scan hscan t ?_
  rw [htokens]
  refine List.mem_flatMap.mpr ⟨r, List.mem_of_getElem? hi, ?_⟩
  rw [hr]
  exact List.mem_append_left _ (List.mem_append_right _ ht)

/-- Every part of a program was read from tokens of its text. -/
theorem readFrom_of_at {src : String} {p : Program} (h : Program.ofSource src = .ok p) {i : Nat}
    {form part : Form} {rest : List Nat} (hi : p.forms[i]? = some form)
    (hp : form.at? rest = some part) : ∃ run, ReadFrom src (i :: rest) run part := by
  obtain ⟨scanned, runs, hscan, htokens, hruns, rfl⟩ := derives_ofSource h
  dsimp only at hi
  rw [Run.forms, List.getElem?_map] at hi
  obtain ⟨r, hr, rfl⟩ := Option.map_eq_some_iff.mp hi
  obtain ⟨run, hpart⟩ := (hruns r (List.mem_of_getElem? hr)).part hp
  exact ⟨run, scanned, runs, i, r, rest, hscan, htokens, rfl, hr, hpart⟩

end EditableLisp
