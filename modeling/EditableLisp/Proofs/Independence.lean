import EditableLisp.Proofs.Coherence
import EditableLisp.Proofs.Duplicates
import EditableLisp.Proofs.Touching

/-!
# Deep copies are independent

In every session that can be reached, a deep copy of a value in which no atom stands inside itself is a duplicate
of it that prints the same texts, kept or not, is equal to it if there is no atom and no NaN in it, has no node and
no atom in common with it outside of functions, and carries nothing that the value was evaluated or expanded to
(**`Session.deepCopy_independent`**). From then on, direct changes of the one spare the other.

Functions are shared. If an atom stands in the value and in a function in it, a reset of the value's atom changes
what the copy prints, and printing the copy keeps texts under the nodes in the atom of the value
(`Session.exists_shared_deepCopy`).
-/

namespace EditableLisp

open Registry

section

variable {R R' : Registry} {w w' : World} {v c u : Value}

/-- What stands in a known value is known. -/
theorem World.Within.known (hw : R.Ok w) {inside : Bool} (h : w.Within inside v u) (hv : R.Known v) : R.Known u := by
  induction h with
  | refl => exact hv
  | @tail u x _ hx ih =>
    have hparts := hw.partsKnown ih
    cases u with
    | seq => exact hparts x hx
    | map =>
      obtain ⟨e, he, rfl⟩ := List.mem_map.mp hx
      exact (hparts.2 e he).2
    | closure =>
      cases inside with
      | false => cases hx
      | true =>
        rcases List.mem_cons.mp hx with rfl | hx
        · exact hparts.1
        · cases List.mem_singleton.mp hx
          exact hparts.2.1
    | atom =>
      cases List.mem_singleton.mp hx
      exact hw.known_content _
    | _ => cases hx

/-- **With no text kept a value prints as it is drawn**, if its atoms are nested no deeper than there are atoms. -/
theorem printWith_withoutTexts (hw : R.Ok w) (hknown : R.Known v) (h : w.Nested w.atoms.size v) (readably : Bool) :
    (printWith readably v w.withoutTexts).1 = w.freshText readably v := by
  have hatoms : w.withoutTexts.atoms = w.atoms := rfl
  have hnested : w.withoutTexts.Nested w.withoutTexts.atoms.size v := h.congr fun _ hid => ⟨hid, rfl⟩
  have hkept : w.withoutTexts.texts.get? = fun _ => none := funext fun _ => rfl
  rw [printWith_eq hw.withoutTexts hknown hnested]
  unfold World.printed
  rw [hkept, World.textWith_none]
  unfold World.freshText
  rw [World.atomText_congr hatoms, hatoms]

/-- A known value has the same text in a world that is extended, if as much is kept of its nodes. -/
theorem World.Extends.textWith (hext : w.Extends w') (hw : R.Ok w) (hknown : R.Known v)
    (h : w.Nested w.atoms.size v) {kept kept' : NodeId → Option String}
    (hkept : ∀ id, id < w.nextId → kept' id = kept id) (readably : Bool) :
    w'.textWith kept' readably v = w.textWith kept readably v := by
  have hold : ∀ u id, w.Within true v u → u.nodeId? = some id → kept' id = kept id := by
    intro u id hu hid
    exact hkept id (hasCell_of_known hw ((hu.known hw hknown).node_eq hid))
  calc w'.textWith kept' readably v
    _ = v.shown kept' (w'.contentShown kept' w.atoms.size) readably none :=
      (h.extends hext).shown_eq (Nat.le_refl _) hext.size readably none
    _ = w.textWith kept readably v :=
      World.shown_of_contents hold (fun id hid => hext.contents id (h.lt_size hid)) w.atoms.size readably none

theorem World.Extends.freshText_eq (hext : w.Extends w') (hw : R.Ok w) (hknown : R.Known v)
    (h : w.Nested w.atoms.size v) (readably : Bool) : w'.freshText readably v = w.freshText readably v := by
  rw [← World.textWith_none, ← World.textWith_none]
  exact hext.textWith hw hknown h (fun _ _ => rfl) readably

/-- **A known value prints the same in a world that is extended.** -/
theorem World.Extends.printWith_eq (hext : w.Extends w') (hw : R.Ok w) (hw' : R'.Ok w') (hknown : R.Known v)
    (hknown' : R'.Known v) (h : w.Nested w.atoms.size v) (readably : Bool) :
    (printWith readably v w').1 = (printWith readably v w).1 := by
  have h' : w'.Nested w'.atoms.size v := (h.extends hext).mono hext.size
  rw [EditableLisp.printWith_eq hw' hknown' h', EditableLisp.printWith_eq hw hknown h]
  exact hext.textWith hw hknown h hext.texts readably

theorem World.Copies.freshText_eq (hcopy : w.Copies w' v c) (readably : Bool) :
    w'.freshText readably c = w'.freshText readably v := by
  rw [← World.textWith_none, ← World.textWith_none]
  exact hcopy.textWith (fun _ _ _ => rfl) readably

/-- **A duplicate prints like its original.** -/
theorem World.Copies.printWith_eq (hcopy : w.Copies w' v c) (hw' : R'.Ok w') (hv : R'.Known v) (hc : R'.Known c)
    (h : w'.Nested w'.atoms.size v) (readably : Bool) : (printWith readably c w').1 = (printWith readably v w').1 := by
  rw [EditableLisp.printWith_eq hw' hc (hcopy.nested h), EditableLisp.printWith_eq hw' hv h]
  exact hcopy.textWith (fun _ _ hsame => hsame) readably

/-- Nothing is kept of what a duplicate was evaluated or expanded to. -/
theorem World.Copies.blank (hcopy : w.Copies w' v c) (hext : w.Extends w') (hw : R.Ok w)
    (hu : w'.Within false c u) {id : NodeId} (hid : u.nodeId? = some id) :
    w'.results.get? id = none ∧ w'.sites.get? id = none ∧ w'.expansions.get? id = none := by
  obtain ⟨x, -, hcopy⟩ := hcopy.exists_within hu
  have hblank := hw.blank (Nat.le_of_not_lt (hcopy.not_hasCell (Value.cell?_eq_node.mpr hid)))
  obtain ⟨_, _, _, rfl⟩ := hext.rest
  exact ⟨hblank.result, hblank.site, hblank.expansion⟩

end

/-! ## Copies -/

/-- The value `c`, made of `v` when the world went over from `w` into `w'`, is a faithful and independent copy. -/
structure World.CopiedApart (w : World) (v : Value) (w' : World) (c : Value) : Prop where
  extended : w.Extends w'
  duplicate : w.Copies w' v c
  printed : ∀ readably, (printWith readably c w').1 = (printWith readably v w').1 ∧
    (printWith readably v w').1 = (printWith readably v w).1
  fresh : ∀ readably, (printWith readably c w'.withoutTexts).1 = (printWith readably v w.withoutTexts).1 ∧
    (printWith readably c w'.withoutTexts).1 = w'.freshText readably c ∧
    (printWith readably v w'.withoutTexts).1 = w'.freshText readably v
  equal : (∀ id, ¬ w.Within false v (.atom id)) → ¬ v.HasNaN → v.equal c
  separate : w'.Separate v c
  blank : ∀ u id, w'.Within false c u → u.nodeId? = some id →
    w'.results.get? id = none ∧ w'.sites.get? id = none ∧ w'.expansions.get? id = none
  independent : ∀ w₁, w'.Rounds v c w₁ → ∀ t : Touch,
    (w₁.Within false v t.part → t.Spares w₁ c) ∧ (w₁.Within false c t.part → t.Spares w₁ v)

namespace Session

/-- **A deep copy is faithful and independent.** What was made in a session that can be reached of a value in which
no atom stands inside itself prints like it, is equal to it if there is no atom and no NaN in it, has no cell in
common with it outside of functions and was neither evaluated nor expanded. However the two are touched afterwards,
as long as nothing of the one is put into the other, a touch of the one spares the other. -/
theorem deepCopy_independent {s : Session} (hs : s.Reachable) {v : Value} (hv : s.Has v)
    (ha : s.world.Acyclic [] v) : s.world.CopiedApart v (deepCopy v s.world).2 (deepCopy v s.world).1 := by
  obtain ⟨R, hsound⟩ := hs.exists_sound
  have hw := hsound.world
  have hknown := hsound.known hv
  have hnested := ha.nested
  have hnames : v.HasNames := hs.hasNames hv
  obtain ⟨hext, hcopies⟩ := copies_deepCopy hw hnested hknown
  obtain ⟨R', hle, hw', hcopy', -⟩ := keeps_deepCopy hknown s.world hw
  replace hw' : R'.Ok (deepCopy v s.world).2 := hw'
  replace hcopy' : R'.Known (deepCopy v s.world).1 := hcopy'
  generalize deepCopy v s.world = r at *
  obtain ⟨c, w'⟩ := r
  generalize s.world = w at *
  have hknown' : R'.Known v := hknown.mono hle
  have hnested' : w'.Nested w'.atoms.size v := (hnested.extends hext).mono hext.size
  refine
    { extended := hext
      duplicate := hcopies
      printed := fun readably => ⟨hcopies.printWith_eq hw' hknown' hcopy' hnested' readably,
        hext.printWith_eq hw hw' hknown hknown' hnested readably⟩
      fresh := fun readably => ?_
      equal := fun hatom hnan => hcopies.equal (fun id hid => ?_) hnames hnan
      separate := hcopies.separate
      blank := fun u id hu hid => hcopies.blank hext hw hu hid
      independent := fun w₁ hrounds t => ?_ }
  · have hcopyFresh := printWith_withoutTexts hw' hcopy' (hcopies.nested hnested') readably
    refine ⟨?_, hcopyFresh, printWith_withoutTexts hw' hknown' hnested' readably⟩
    rw [hcopyFresh, printWith_withoutTexts hw hknown hnested, hcopies.freshText_eq,
      hext.freshText_eq hw hknown hnested]
  · exact hatom id ((World.within_congr fun id hid => absurd hid (hatom id)).mp hid)
  · have hs := hrounds.separate hcopies.separate
    exact ⟨fun ht => Touch.spares hs ht, fun ht => Touch.spares hs.symm ht⟩

/-- A host reads a form and evaluates it. The result is the value and the world. -/
def evaluated? (src : String) (first : World) : Option (Value × World) :=
  match EditableLisp.readForm src first with
  | (.ok form, w) =>
    match evalIn 100 form .global w with
    | .ok v w' => some (v, w')
    | .error .. => none
  | _ => none

/-- The host finds the value in a session that it reached. -/
theorem exists_evaluated {first : World} (hfirst : Reachable ⟨first, [], [], []⟩) {src : String} {v : Value}
    {w : World} (h : evaluated? src first = some (v, w)) :
    ∃ s : Session, s.Reachable ∧ s.Has v ∧ s.world = w := by
  unfold evaluated? at h
  split at h
  · rename_i form w₁ hread
    split at h
    · rename_i v' w₂ heval
      cases h
      let read : Session := ⟨w₁, [form], [], []⟩
      have hform : read.Has form := .held List.mem_cons_self
      have hmade : read.Step ⟨w, [v, form], [], []⟩ := .evaluate hform .global heval
      exact ⟨⟨w, [v, form], [], []⟩, (hfirst.step (.readForm hread)).step hmade, .held List.mem_cons_self, rfl⟩
    · cases h
  · cases h

/-- A list of a symbol, a vector, a map with an atom in it and a function is copied. -/
theorem deepCopy_independent_list : ∃ (s : Session) (v : Value), s.Reachable ∧ s.Has v ∧ s.world.Acyclic [] v ∧
    (EditableLisp.print (deepCopy v s.world).1 (deepCopy v s.world).2).1 = "(x [1] \x7b:a (atom nil)\x7d #<native +>)" ∧
    s.world.CopiedApart v (deepCopy v s.world).2 (deepCopy v s.world).1 := by
  have test : ((evaluated? "(list 'x [1] \x7b:a (atom nil)\x7d +)" World.full).any fun r =>
      r.2.acyclic? 10 [] r.1 && (EditableLisp.print (deepCopy r.1 r.2).1 (deepCopy r.1 r.2).2).1 ==
        "(x [1] \x7b:a (atom nil)\x7d #<native +>)") = true := by
    decide +kernel
  obtain ⟨⟨v, w⟩, hmade, hcheck⟩ := (Option.any_eq_true _ _).mp test
  rw [Bool.and_eq_true, beq_iff_eq] at hcheck
  obtain ⟨s, hs, hv, rfl⟩ := exists_evaluated .full hmade
  have ha : s.world.Acyclic [] v := World.acyclic_of_acyclic? hcheck.1
  exact ⟨s, v, hs, hv, ha, hcheck.2, deepCopy_independent hs hv ha⟩

/-- What a copy prints and keeps of a list of an atom and a function with the atom in its body. -/
def sharesAtom (v : Value) (first : World) : Bool :=
  match v, deepCopy v first with
  | .seq _ _ [.atom id, _], (.seq shape copy [.atom id', f], w) =>
    match w.content id with
    | .seq _ node _ =>
      let c : Value := .seq shape copy [.atom id', f]
      (printWith true c w.withoutTexts).1 == "((atom (1)) (fn [] (atom (1))))" &&
        (printWith true c ((Touch.reset id .nil).run w).withoutTexts).1 == "((atom (1)) (fn [] (atom nil)))" &&
        w.texts.get? node.id == none && ((Touch.print true c).run w).texts.get? node.id == some "(1)" &&
        match ((Touch.reset id (.atom id')).run w).content id with
        | .atom other => other == id'
        | _ => false
    | _ => false
  | _, _ => false

/-- **Functions are shared.** An atom stands in a list and in a function in it. If the atom is reset, the copy of the
list prints differently; if the copy is printed, a text is kept under a node in the atom; and if the atom of the copy
is put into it, that stands in both lists. -/
theorem exists_shared_deepCopy : ∃ (s : Session) (v c x : Value) (w : World) (id id' : AtomId) (node : NodeId),
    s.Reachable ∧ s.Has v ∧ s.world.Acyclic [] v ∧ deepCopy v s.world = (c, w) ∧
      (w.Within false v (.atom id) ∧
        (printWith true c w.withoutTexts).1 = "((atom (1)) (fn [] (atom (1))))" ∧
        (printWith true c ((Touch.reset id .nil).run w).withoutTexts).1 = "((atom (1)) (fn [] (atom nil)))") ∧
      (w.Within false v x ∧ x.nodeId? = some node ∧ w.texts.get? node = none ∧
        ((Touch.print true c).run w).texts.get? node = some "(1)") ∧
      w.Within false c (.atom id') ∧ ((Touch.reset id (.atom id')).run w).Within false v (.atom id') := by
  have test : ((evaluated? "(list (def a (atom (list 1))) (eval (list 'fn [] a)))" World.full).any fun r =>
      r.2.acyclic? 10 [] r.1 && sharesAtom r.1 r.2) = true := by
    decide +kernel
  obtain ⟨⟨v, w₀⟩, hmade, hcheck⟩ := (Option.any_eq_true _ _).mp test
  rw [Bool.and_eq_true] at hcheck
  obtain ⟨hacyclic, hcheck⟩ := hcheck
  obtain ⟨s, hs, hv, rfl⟩ := exists_evaluated .full hmade
  have ha : s.world.Acyclic [] v := World.acyclic_of_acyclic? hacyclic
  dsimp only at hcheck
  unfold sharesAtom at hcheck
  split at hcheck
  · rename_i shape₀ node₀ id f₀ shape copy id' f w hcopy
    split at hcheck
    · rename_i shape₁ node items hcontent
      dsimp only at hcheck
      split at hcheck
      · rename_i other hput
        simp only [Bool.and_eq_true, beq_iff_eq] at hcheck
        obtain ⟨⟨⟨⟨hbefore, hafter⟩, hnone⟩, hkept⟩, rfl⟩ := hcheck
        have hatom : ∀ w : World, w.Within false (.seq shape₀ node₀ [.atom id, f₀]) (.atom id) :=
          fun w => World.Within.refl.part List.mem_cons_self
        have hcell : w.Within false (.seq shape copy [.atom other, f]) (.atom other) :=
          World.Within.refl.part List.mem_cons_self
        refine ⟨s, _, _, .seq shape₁ node items, w, id, other, node.id, hs, hv, ha, hcopy,
          ⟨hatom w, hbefore, hafter⟩, ⟨?_, rfl, hnone, hkept⟩, hcell, ?_⟩
        · exact (hatom w).part (List.mem_singleton.mpr hcontent.symm)
        · exact (hatom _).part (List.mem_singleton.mpr hput.symm)
      · rw [Bool.and_false] at hcheck
        cases hcheck
    · cases hcheck
  · cases hcheck

end Session

end EditableLisp
