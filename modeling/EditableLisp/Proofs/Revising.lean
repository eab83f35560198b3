import EditableLisp.Proofs.Counting

/-!
# Edited programs read back

A program is *revised* when nodes below its root are replaced by forms that were read (`Session.Revised`).
Whatever the edits, a revised program is written as a program (`Session.Revised.describes`), so it has a text.
The text reads back as an equal program exactly if the revised one is legible (`Session.readProgram_print_iff`).

It need not be: a gap stays what it was when its neighbours change. Where two elements stood side by
side without a gap because one of them was a string, they run together once the string is replaced by a name
(`Session.read_run_together`).
-/

namespace EditableLisp

open Registry

/-! ## Single words -/

/-- A form that is read from a single word is written as the word. -/
theorem Program.source_of_word {text : String} {p : Program} {form : Form} (h : ofSource text = .ok p)
    (hforms : p.forms = [form]) (hword : ∀ c ∈ text.toList, Token.endsAtom c = false) : form.source = text := by
  obtain ⟨gaps, forms⟩ := p
  obtain ⟨hlen, hleads, inside, hlast⟩ := (writable_ofSource h).gaps
  have hsource := source_ofSource h
  obtain rfl : forms = [form] := hforms
  match gaps, hlen with
  | [lead, last], _ =>
    have hsource : lead ++ form.source ++ last = text := hsource
    -- no gap has a character, since its first one would end the word
    have hempty : ∀ {inside : Bool} {gap : String}, Token.Gap inside gap →
        (∀ c ∈ gap.toList, c ∈ text.toList) → gap = "" := by
      intro inside gap hgap hmem
      cases hc : gap.toList.head? with
      | none => exact String.toList_eq_nil_iff.mp (List.head?_eq_none_iff.mp hc)
      | some c =>
        have hends := (hgap.head hc).1
        rw [hword c (hmem c (List.mem_of_head? hc))] at hends
        cases hends
    have hmem : ∀ c, c ∈ text.toList ↔ (c ∈ lead.toList ∨ c ∈ form.source.toList) ∨ c ∈ last.toList := by
      intro c
      rw [← hsource, String.toList_append, String.toList_append, List.mem_append, List.mem_append]
    have hlead : lead = "" :=
      hempty (hleads lead List.mem_cons_self) fun c hc => (hmem c).mpr (Or.inl (Or.inl hc))
    have hlast : last = "" := hempty hlast fun c hc => (hmem c).mpr (Or.inr hc)
    rw [← hsource, hlead, hlast, String.empty_append, String.append_empty]

/-- What is equal to a number is a number. -/
theorem Value.exists_num_of_equal {u : Value} {y : Number} (h : u.equal (.num y)) :
    ∃ x, u = .num x ∧ x.equal y := by
  cases u with
  | num x => exact ⟨x, rfl, h⟩
  | _ => cases h

/-- What a number represents is a number. -/
theorem Form.Represents.exists_num {form : Form} {x : Number} (h : form.Represents (.num x)) :
    ∃ written, form = .num x written := by
  cases form with
  | num y written =>
    unfold Represents at h
    cases h
    exact ⟨written, rfl⟩
  | nil | bool | text =>
    unfold Represents at h
    cases h
  | keyword | symbol =>
    unfold Represents at h
    obtain ⟨_, h⟩ := h
    cases h
  | marked =>
    unfold Represents at h
    obtain ⟨_, _, _, -, h⟩ := h
    cases h
  | seq | map =>
    unfold Represents at h
    obtain ⟨_, _, -, h⟩ := h
    cases h

/-- An edit that succeeds is at the root only if it is by the number of the root. -/
theorem Tree.path_ne_nil {root v : Value} {id newId : Nat} {t : Tree} {w w' : World}
    (h : (ofValue root).replace id v w = .ok (t, newId) w') (hne : id ≠ 0) : (ofValue root).path id ≠ [] := by
  intro hnil
  by_cases hsize : (ofValue root).size ≤ id
  · rw [replace_of_size_le hsize] at h
    cases h
  · have hpath := atPath?_path (Nat.not_le.mp hsize)
    rw [hnil] at hpath
    cases hpath
    exact hne rfl

namespace Session

/-- A value was read as a form at some time before. -/
def WasRead (s : Session) (v : Value) : Prop := ∃ (first : Session) (src : String) (w : World),
  first.Reachable ∧ EditableLisp.readForm src first.world = (.ok v, w) ∧
    Later { first with world := w, held := v :: first.held } s

/-- Printed and read again, a value comes out equal. -/
def Rereads (s : Session) (v : Value) : Prop := ∃ u w,
  EditableLisp.readForm (EditableLisp.print v s.world).1 (EditableLisp.print v s.world).2 = (.ok u, w) ∧
    u.equal v

/-- A program that was read and edited since, any number of times: nodes below the root were replaced by forms
that were read and that come out equal, each by itself, when they are printed and read again. In between the
host may do anything. -/
inductive Revised : Session → Value → Prop where
  | read {s : Session} {src : String} {root : Value} {w : World} : s.Reachable →
      EditableLisp.readProgram src s.world = (.ok root, w) →
      Revised { s with world := w, held := root :: s.held } root
  | later {s s' : Session} {root : Value} : Revised s root → s.Later s' → Revised s' root
  | edit {s : Session} {root v : Value} {id newId : Nat} {t : Tree} {w : World} : Revised s root →
      s.WasRead v → s.Rereads v → id ≠ 0 → (Tree.ofValue root).replace id v s.world = .ok (t, newId) w →
      Revised { s with world := w, held := t.root :: s.held } t.root

variable {s : Session} {v root : Value}

/-- What is read as a form represents the form, which can be written. -/
theorem exists_form_of_readForm {R : Registry} {src : String} {w w' : World} (hw : R.Ok w)
    (h : EditableLisp.readForm src w = (.ok v, w')) : ∃ p form, Program.ofSource src = .ok p ∧ p.forms = [form] ∧
      form.Writable ∧ form.Represents v := by
  obtain ⟨R', -, hdone⟩ := keeps_readForm src w hw
  rw [lift_of_eq h] at hdone
  obtain ⟨-, p, form, hp, hforms, hrep⟩ := hdone.2 v rfl
  exact ⟨p, form, hp, hforms, (Program.writable_ofSource hp).forms form (hforms ▸ List.mem_cons_self), hrep⟩

/-- What was read as a form is still held, and represents a form that can be written. -/
theorem WasRead.represents (h : s.WasRead v) : v ∈ s.held ∧ ∃ form : Form, form.Writable ∧ form.Represents v := by
  obtain ⟨first, src, w, hs, hread, hl⟩ := h
  obtain ⟨R, hsound⟩ := hs.exists_sound
  obtain ⟨-, form, -, -, hwritable, hrep⟩ := exists_form_of_readForm hsound.world hread
  exact ⟨hl.held List.mem_cons_self, form, hwritable, hrep⟩

/-- **A form that was read and comes out equal is written as a form** wherever it is put. A number is written
as it is printed: what that text was read as is a number that is equal to it. -/
theorem exists_describes (hs : s.Reachable) (hv : s.WasRead v) (hr : s.Rereads v) :
    ∃ form : Form, form.Describes none v := by
  obtain ⟨-, form, hwritable, hrep⟩ := hv.represents
  by_cases hliteral : v.IsLiteral
  · cases v with
    | text content =>
      exact ⟨.text content (Text.quote content), .leaf (Token.isLexeme_quote content) ⟨rfl, rfl⟩⟩
    | num y =>
      obtain ⟨u, w, hread, hequal⟩ := hr
      have htext : (EditableLisp.print (.num y) s.world).1 = Number.format y := rfl
      obtain ⟨R, hsound⟩ := hs.exists_sound
      have hw : R.Ok (EditableLisp.print (.num y) s.world).2 :=
        (steady_print (v := .num y) trivial s.world hsound.world).1
      obtain ⟨p, form, hp, hforms, ⟨hwritable, -⟩, hrep⟩ := exists_form_of_readForm hw hread
      rw [htext] at hp
      have hsource := Program.source_of_word hp hforms fun c => Number.endsAtom_of_mem_format
      obtain ⟨x, rfl, hequal⟩ := Value.exists_num_of_equal hequal
      obtain ⟨written, rfl⟩ := hrep.exists_num
      exact ⟨.num x written, .leaf hwritable ⟨y, rfl, hequal, hsource.symm⟩⟩
    | _ => cases hliteral
  · have hdescribes := hrep.describes hwritable
    rw [hrep.oddSpelling? hliteral] at hdescribes
    exact ⟨form, hdescribes⟩

/-- **A revised program is written as a program.** -/
theorem Revised.describes (h : s.Revised root) :
    s.Reachable ∧ root ∈ s.held ∧ ∃ p : Program, p.Describes root := by
  induction h with
  | @read s src root w hs hread =>
    obtain ⟨R, hsound⟩ := hs.exists_sound
    obtain ⟨R', -, hdone⟩ := keeps_readProgram src s.world hsound.world
    rw [lift_of_eq hread] at hdone
    obtain ⟨-, p, hp, hrep⟩ := hdone.2 root rfl
    exact ⟨hs.step (.read hread), List.mem_cons_self, p, hrep.describes hp⟩
  | later _ hl ih =>
    obtain ⟨hs, hheld, hp⟩ := ih
    exact ⟨hs.later hl, hl.held hheld, hp⟩
  | @edit s root v id newId t w _ hv hr hne hreplace ih =>
    obtain ⟨hs, hheld, p, hp⟩ := ih
    obtain ⟨R, hsound⟩ := hs.exists_sound
    obtain ⟨root', hedited, rfl, rfl⟩ := Tree.edited_of_replace hreplace
    refine ⟨hs.step (.replaceNode (.held hheld) (.held hv.represents.1) hreplace), List.mem_cons_self, ?_⟩
    rw [Tree.root_ofValue]
    exact hp.edited hsound.world (hsound.held root hheld) hedited (Tree.path_ne_nil hreplace hne)
      (exists_describes hs hv hr)

/-- A form takes the place of a node as soon as it is read. -/
theorem Revised.read_at {src : String} {old root' : Value} {w w' : World} {path : List Nat}
    (h : s.Revised root) (hread : EditableLisp.readForm src s.world = (.ok v, w))
    (hr : Rereads { s with world := w, held := v :: s.held } v) (hold : root.at? path = some old)
    (hne : path ≠ []) (hreplace : root.replaceAt path v w = .ok root' w') :
    Revised { s with world := w', held := root' :: v :: s.held } root' := by
  have hstep : s.Step { s with world := w, held := v :: s.held } := .readForm hread
  obtain ⟨id, hid, -⟩ := Tree.exists_atPath? hold
  obtain ⟨newId, hreplace⟩ := Tree.replace_of_replaceAt hid hreplace
  have hnumber : id ≠ 0 := by
    rintro rfl
    have hroot : (Tree.ofValue root).path 0 = [] := Tree.path_of_atPath? rfl
    exact hne ((Tree.path_of_atPath? hid).symm.trans hroot)
  have hedit := Revised.edit (h.later (.step .refl hstep)) ⟨s, src, w, h.describes.1, hread, .refl⟩ hr hnumber
    hreplace
  rwa [Tree.root_ofValue] at hedit

/-- What is printed of a revised program is the text of the program that it is written as. -/
theorem Revised.print (h : s.Revised root) : ∃ (p : Program) (R : Registry), p.Describes root ∧ R.Known root ∧
    R.Ok (EditableLisp.print root s.world).2 ∧ (EditableLisp.print root s.world).1 = p.source := by
  obtain ⟨hs, hheld, p, hp⟩ := h.describes
  obtain ⟨R, hsound⟩ := hs.exists_sound
  have hknown := hsound.held root hheld
  refine ⟨p, R, hp, hknown, (steady_print hknown s.world hsound.world).1, ?_⟩
  rw [print_of_frozen hsound.world hknown hp.draw.1 fun _ _ => "", hp.draw.2]

/-- **An edited program says in text what it is in structure exactly if it is legible.** Whatever the program was
read from, whatever was edited below its root and whatever the host did in between: its text is read as a program
that is equal to it if and only if it is legible. -/
theorem readProgram_print_iff (h : s.Revised root) : (∃ u w,
    EditableLisp.readProgram (EditableLisp.print root s.world).1 (EditableLisp.print root s.world).2 =
      (.ok u, w) ∧ u.equal root) ↔ root.isLegible := by
  obtain ⟨p, R, hp, hknown, hw, htext⟩ := h.print
  have hwritable := hp.writable hw hknown
  -- what the text is read as represents the program of the text
  have hread : ∀ {u w}, EditableLisp.readProgram p.source (EditableLisp.print root s.world).2 = (.ok u, w) →
      ∃ R' : Registry, R'.Ok w ∧ R'.Known root ∧ R'.Known u ∧ ∃ p', Program.ofSource p.source = .ok p' ∧
        p'.Represents u := by
    intro u w hu
    obtain ⟨R', hle, hdone⟩ := keeps_readProgram p.source _ hw
    rw [lift_of_eq hu] at hdone
    obtain ⟨hknown', hp'⟩ := hdone.2 u rfl
    exact ⟨R', hdone.1, hknown.mono hle, hknown', hp'⟩
  rw [htext]
  refine ⟨fun ⟨u, w, hu, hequal⟩ => ?_, fun hl => ?_⟩
  · obtain ⟨R', hw', hknown, hknown', p', hp', hrep⟩ := hread hu
    have hclear := hp.clear_of_equal hw' hknown hp' hrep hknown' hequal
    rw [Program.ofSource_source hwritable hclear] at hp'
    cases hp'
    exact (hp.isLegible_iff hw' hknown hrep hknown').mpr ⟨hclear, hequal⟩
  · obtain ⟨R₁, w₁, u₁, hle, hw₁, hknown₁, hrep₁⟩ := hwritable.exists_represents hw
    have hclear := ((hp.isLegible_iff hw₁ (hknown.mono hle) hrep₁ hknown₁).mp hl).1
    have hsource := Program.ofSource_source hwritable hclear
    obtain ⟨u, w, hu⟩ := readProgram_of_ofSource hsource (EditableLisp.print root s.world).2
    obtain ⟨R', hw', hknown, hknown', p', hp', hrep⟩ := hread hu
    rw [hsource] at hp'
    cases hp'
    exact ⟨u, w, hu, ((hp.isLegible_iff hw' hknown hrep hknown').mp hl).2⟩

/-- A number that reads back takes the place of a spelled one. -/
def revisesNumber : Bool :=
  match EditableLisp.readProgram "(+ 1.50 'x)" World.initial with
  | (.ok (.seq shape node [.seq shape' node' [f, x, y]]), w₁) =>
    match EditableLisp.readForm "2.0" w₁ with
    | (.ok v, w₂) =>
      match EditableLisp.readForm (EditableLisp.print v w₂).1 (EditableLisp.print v w₂).2 with
      | (.ok u, _) =>
        match (Value.seq shape node [.seq shape' node' [f, x, y]]).replaceAt [0, 1] v w₂ with
        | .ok root w₃ =>
          u.equal v && root.isLegible && (EditableLisp.print root w₃).1 == "(+ 2 'x)"
        | _ => false
      | _ => false
    | _ => false
  | _ => false

/-- A call in which a spelled number was replaced by another one; the new number comes out in its usual
spelling. -/
theorem readProgram_print_number : ∃ (s : Session) (root u : Value) (w : World),
    s.Revised root ∧ root.isLegible ∧ (EditableLisp.print root s.world).1 = "(+ 2 'x)" ∧
      EditableLisp.readProgram (EditableLisp.print root s.world).1 (EditableLisp.print root s.world).2 =
        (.ok u, w) ∧ u.equal root := by
  have test : revisesNumber = true := by decide +kernel
  unfold revisesNumber at test
  split at test
  · rename_i shape node shape' node' f x y w₁ hp
    split at test
    · rename_i v w₂ hv
      split at test
      · rename_i u w hu
        split at test
        · rename_i root w₃ hroot
          simp only [Bool.and_eq_true, beq_iff_eq] at test
          obtain ⟨⟨hequal, hlegible⟩, htext⟩ := test
          let p : Value := .seq shape node [.seq shape' node' [f, x, y]]
          let s₁ : Session := ⟨w₁, [p], [], []⟩
          have h₁ : s₁.Revised p := .read .bare hp
          have h₂ := h₁.read_at hv ⟨u, w, hu, hequal⟩ rfl (List.cons_ne_nil 0 [1]) hroot
          obtain ⟨u', w', hreread, hequal'⟩ := (readProgram_print_iff h₂).mpr hlegible
          exact ⟨_, root, u', w', h₂, hlegible, htext, hreread, hequal'⟩
        · cases test
      · cases test
    · cases test
  · cases test

/-- A name that reads back takes the place of the string, and what is printed then is read as something else. -/
def runsTogether : Bool :=
  match EditableLisp.readProgram "(a\"s\")" World.initial with
  | (.ok (.seq shape node [.seq shape' node' [a, x]]), w₁) =>
    match EditableLisp.readForm "b" w₁ with
    | (.ok v, w₂) =>
      match EditableLisp.readForm (EditableLisp.print v w₂).1 (EditableLisp.print v w₂).2 with
      | (.ok u, _) =>
        match (Value.seq shape node [.seq shape' node' [a, x]]).replaceAt [0, 1] v w₂ with
        | .ok root w₃ =>
          match EditableLisp.readProgram (EditableLisp.print root w₃).1 (EditableLisp.print root w₃).2 with
          | (.ok other, _) =>
            u.equal v && (EditableLisp.print root w₃).1 == "(ab)" && !other.equal root
          | _ => false
        | _ => false
      | _ => false
    | _ => false
  | _ => false

/-- **A text may not say what the program is.** Nothing stands between the elements of the list, since the
second one is a string. Once the name `b` takes its place, the two are read as one name. -/
theorem read_run_together : ∃ (s : Session) (root : Value), s.Revised root ∧
    (EditableLisp.print root s.world).1 = "(ab)" ∧ ¬ ∃ u w,
      EditableLisp.readProgram (EditableLisp.print root s.world).1 (EditableLisp.print root s.world).2 =
        (.ok u, w) ∧ u.equal root := by
  have test : runsTogether = true := by decide +kernel
  unfold runsTogether at test
  split at test
  · rename_i shape node shape' node' a x w₁ hp
    split at test
    · rename_i v w₂ hv
      split at test
      · rename_i u w hu
        split at test
        · rename_i root w₃ hroot
          split at test
          · rename_i other w₄ hother
            simp only [Bool.and_eq_true, Bool.not_eq_true', beq_iff_eq] at test
            obtain ⟨⟨hequal, htext⟩, hdiffers⟩ := test
            let p : Value := .seq shape node [.seq shape' node' [a, x]]
            let s₁ : Session := ⟨w₁, [p], [], []⟩
            have h₁ : s₁.Revised p := .read .bare hp
            have h₂ := h₁.read_at hv ⟨u, w, hu, hequal⟩ rfl (List.cons_ne_nil 0 [1]) hroot
            refine ⟨_, root, h₂, htext, ?_⟩
            rintro ⟨u', w', hreread, hequal'⟩
            have hsame := hother.symm.trans hreread
            cases hsame
            rw [hdiffers] at hequal'
            cases hequal'
          · cases test
        · cases test
      · cases test
    · cases test
  · cases test

end Session

end EditableLisp
