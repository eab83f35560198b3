import EditableLisp.Proofs.Locality

/-!
# Kept texts and atoms

The text of a collection is kept under its node and used again when the collection is printed, alone or
within another. In every session that can be reached, a value therefore prints as if nothing were kept, if
its text is durable: if no collection that is printed with it counts as stable although it holds an atom
(**`Session.print_eq_textOf`**). Lists, vectors and maps with an atom in them do not count as stable, so
they print with the contents of atoms as they are (`print_eq_textOf_atom`).

A function counts as stable whatever it holds. A collection of a function with an atom in its body prints
with the content that the atom had when the text was kept (`exists_print_ne_textOf`).
-/

namespace EditableLisp

open Registry

/-- The world with no text kept. -/
def World.withoutTexts (w : World) : World := { w with texts := .empty }

theorem Registry.Ok.withoutTexts {R : Registry} {w : World} (h : R.Ok w) : R.Ok w.withoutTexts :=
  { h with
    texts := fun id text e => by
      rw [World.withoutTexts, Table.get?_empty] at e
      cases e }

namespace World

variable {w w' : World} {v : Value}

/-- Whether a text is durable depends on the contents of atoms alone. -/
theorem Durable.congr (ha : w'.atoms = w.atoms) (h : w.Durable v) : w'.Durable v :=
  fun u hu => h u (hu.congr ha)

theorem durable_of_parts (hv : v.isStable → v.isFrozen) (h : ∀ u ∈ w.printedParts v, w.Durable u) :
    w.Durable v := by
  intro x hx hid hs
  by_cases he : x = v
  · rw [he] at hs ⊢
    exact hv hs
  · obtain ⟨u, hu, hshows⟩ := hx.part_of_ne he
    exact h u hu x hshows hid hs

/-- A value that does not count as stable is durable if its parts do not either and there is no atom in
what they hold. -/
theorem durable_of_all (hv : v.isStable = false)
    (h : ((w.printedParts v).all fun u => !u.isStable && (w.printedParts u).all Value.isFrozen) = true) :
    w.Durable v := by
  have unstable : ∀ {u : Value}, u.isStable = false → (∀ x ∈ w.printedParts u, w.Durable x) → w.Durable u :=
    fun hu => durable_of_parts fun hs => absurd hs (Bool.eq_false_iff.mp hu)
  refine unstable hv fun u hu => ?_
  have hparts := List.all_eq_true.mp h u hu
  rw [Bool.and_eq_true, Bool.not_eq_true'] at hparts
  exact unstable hparts.1 fun x hx => durable_of_frozen (List.all_eq_true.mp hparts.2 x hx)

end World

namespace Session

/-- **A value prints as if nothing were kept**, whatever was evaluated, written into atoms, edited, copied,
invalidated and printed before, if every collection that is printed with it and counts as stable is one
without atoms. -/
theorem print_eq_textOf {s : Session} (hs : s.Reachable) {v : Value} (hv : s.Has v)
    (hd : s.world.Durable v) :
    (EditableLisp.print v s.world).1 = (EditableLisp.print v s.world.withoutTexts).1 ∧
      (EditableLisp.print v s.world).1 = s.world.textOf v := by
  obtain ⟨R, hsound⟩ := hs.exists_sound
  have hknown := hsound.known hv
  have hatoms : s.world.withoutTexts.atoms = s.world.atoms := rfl
  have hkept := print_of_durable hsound.world hknown hd
  have hnone := print_of_durable hsound.world.withoutTexts hknown (hd.congr hatoms)
  exact ⟨by rw [hkept, hnone, World.textOf_congr hatoms], hkept⟩

/-- A host reads two forms, evaluates the first, prints its value and evaluates the second. The result is the
value, with the worlds before it was printed and in the end. -/
def printBetween (src : String) (first : World) : Option (Value × World × World) :=
  match EditableLisp.readProgram src first with
  | (.ok (.seq _ _ [make, update]), w) =>
    match evalIn 100 make .global w with
    | .ok v w₁ =>
      match evalIn 100 update .global (EditableLisp.print v w₁).2 with
      | .ok _ w₂ => some (v, w₁, w₂)
      | .error .. => none
    | .error .. => none
  | _ => none

theorem printBetween_eq_some {src : String} {first : World} {v : Value} {w₁ w₂ : World}
    (h : printBetween src first = some (v, w₁, w₂)) :
    ∃ shape node make update c w, EditableLisp.readProgram src first = (.ok (.seq shape node [make, update]), w) ∧
      evalIn 100 make .global w = .ok v w₁ ∧
      evalIn 100 update .global (EditableLisp.print v w₁).2 = .ok c w₂ := by
  unfold printBetween at h
  split at h
  · rename_i shape node make update w hread
    split at h
    · rename_i v' w' hmake
      split at h
      · rename_i c w'' hupdate
        cases h
        exact ⟨shape, node, make, update, c, w, hread, hmake, hupdate⟩
      · cases h
    · cases h
  · cases h

/-- The host finds the value in a session that it reached, and again in a later one. -/
theorem exists_later_print {first : World} (hfirst : Reachable ⟨first, [], [], []⟩) {src : String}
    {v : Value} {w₁ w₂ : World} (h : printBetween src first = some (v, w₁, w₂)) :
    ∃ earlier later : Session, earlier.Reachable ∧ earlier.Later later ∧ earlier.Has v ∧ later.Has v ∧
      earlier.world = w₁ ∧ later.world = w₂ := by
  obtain ⟨shape, node, make, update, c, w, hread, hmake, hupdate⟩ := printBetween_eq_some h
  let p : Value := .seq shape node [make, update]
  let read : Session := ⟨w, [p], [], []⟩
  let made : Session := ⟨w₁, [v, p], [], []⟩
  let printed : Session := ⟨(EditableLisp.print v w₁).2, [.text (EditableLisp.print v w₁).1, v, p], [], []⟩
  let updated : Session := ⟨w₂, [c, .text (EditableLisp.print v w₁).1, v, p], [], []⟩
  have hp : read.Has p := .held List.mem_cons_self
  have hmade : read.Step made := .evaluate (hp.item List.mem_cons_self) .global hmake
  have hprinted : made.Step printed := .print (.held List.mem_cons_self)
  have hp' : printed.Has p := .held (List.mem_of_getElem? (i := 2) rfl)
  have hupdated : printed.Step updated :=
    .evaluate (hp'.item (List.mem_of_getElem? (i := 1) rfl)) .global hupdate
  exact ⟨made, updated, (hfirst.step (.read hread)).step hmade, (Later.refl.step hprinted).step hupdated,
    .held List.mem_cons_self, .held (List.mem_of_getElem? (i := 2) rfl), rfl, rfl⟩

/-- A vector with an atom prints with the content that the atom has, also after it was printed with an
earlier one. -/
theorem print_eq_textOf_atom : ∃ (earlier s : Session) (v : Value),
    earlier.Reachable ∧ earlier.Later s ∧ s.Has v ∧ s.world.Durable v ∧
      (EditableLisp.print v earlier.world).1 = "[(atom 1)]" ∧
      (EditableLisp.print v s.world).1 = (EditableLisp.print v s.world.withoutTexts).1 ∧
      (EditableLisp.print v s.world).1 = "[(atom 2)]" := by
  have test : ((printBetween "(vector (def a (atom 1))) (reset! a 2)" World.full).any fun r =>
      !r.1.isStable &&
      ((r.2.2.printedParts r.1).all fun u => !u.isStable && (r.2.2.printedParts u).all Value.isFrozen) &&
      (EditableLisp.print r.1 r.2.1).1 == "[(atom 1)]" && r.2.2.textOf r.1 == "[(atom 2)]") = true := by
    decide +kernel
  obtain ⟨⟨v, w₁, w₂⟩, hrun, hcheck⟩ := (Option.any_eq_true _ _).mp test
  simp only [Bool.and_eq_true, beq_iff_eq, Bool.not_eq_true'] at hcheck
  obtain ⟨⟨⟨hstable, hparts⟩, hbefore⟩, hafter⟩ := hcheck
  obtain ⟨earlier, s, hreached, hlater, -, hv, rfl, rfl⟩ := exists_later_print .full hrun
  have hdurable : s.world.Durable v := World.durable_of_all hstable hparts
  obtain ⟨hnone, htext⟩ := print_eq_textOf (hreached.later hlater) hv hdurable
  exact ⟨earlier, s, v, hreached, hlater, hv, hdurable, hbefore, hnone, htext.trans hafter⟩

/-- **A function counts as stable although its text may change.** The vector holds a function with an atom in
its body. It is printed, the atom is reset, and it prints as it did before. -/
theorem exists_print_ne_textOf : ∃ (s : Session) (v : Value), s.Reachable ∧ s.Has v ∧
    (EditableLisp.print v s.world).1 = "[(fn [] (atom 1))]" ∧ s.world.textOf v = "[(fn [] (atom 2))]" ∧
    ¬ s.world.Durable v := by
  have test : ((printBetween "(vector (eval (list 'fn [] (def a (atom 1))))) (reset! a 2)" World.full).any fun r =>
      (EditableLisp.print r.1 r.2.2).1 == "[(fn [] (atom 1))]" &&
      r.2.2.textOf r.1 == "[(fn [] (atom 2))]") = true := by
    decide +kernel
  obtain ⟨⟨v, w₁, w₂⟩, hrun, hcheck⟩ := (Option.any_eq_true _ _).mp test
  rw [Bool.and_eq_true, beq_iff_eq, beq_iff_eq] at hcheck
  obtain ⟨earlier, s, hreached, hlater, -, hv, -, rfl⟩ := exists_later_print .full hrun
  refine ⟨s, v, hreached.later hlater, hv, hcheck.1, hcheck.2, fun hdurable => ?_⟩
  obtain ⟨R, hsound⟩ := (hreached.later hlater).exists_sound
  have htext := print_of_durable hsound.world (hsound.known hv) hdurable
  rw [hcheck.1, hcheck.2] at htext
  exact absurd htext (by decide)

end Session

end EditableLisp
