import EditableLisp.Proofs.Session

/-!
# What is read prints as it was written

A program prints byte for byte as the text that it was read from, at any later time in a session, and each
of its nodes prints as the slice of the text that it was read from (`Session.print_of_read`). What a number
or a string was spelled like is kept by the collection that holds it, so one that is printed alone may come
out in the usual spelling; and the symbol that a mark stands for has no text of its own.
-/

namespace EditableLisp

open Registry

/-- A number or a string. -/
def Value.IsLiteral : Value → Prop
  | .num _ => True
  | .text _ => True
  | _ => False

/-- Only a number or a string may have an odd spelling. -/
theorem Form.Represents.oddSpelling? {form : Form} {v : Value} (h : form.Represents v)
    (hv : ¬ v.IsLiteral) : form.oddSpelling? = none := by
  cases form with
  | num | text =>
    unfold Represents at h
    rw [h] at hv
    exact absurd trivial hv
  | _ => rfl

/-- The children of a known value are known. -/
theorem Registry.Ok.known_children {R : Registry} {w : World} (hw : R.Ok w) {v : Value} (hv : R.Known v) :
    R.AllKnown v.children := by
  have hparts := hw.partsKnown hv
  cases v with
  | seq => exact hparts
  | map => exact Session.entriesKnown_values hparts.2
  | _ => exact allKnown_nil

theorem Registry.Ok.known_at {R : Registry} {w : World} (hw : R.Ok w) {v u : Value} {path : List Nat}
    (hv : R.Known v) (hu : v.at? path = some u) : R.Known u := by
  induction path generalizing v with
  | nil =>
    cases hu
    exact hv
  | cons i path ih =>
    unfold Value.at? at hu
    split at hu
    · rename_i child hc
      exact ih (hw.known_children hv child (List.mem_of_getElem? hc)) hu
    · cases hu

/-- **The nodes of a program represent what was read in their place**, but for the symbols that marks
stand for. -/
theorem Program.Represents.at {src : String} {p : Program} (h : Program.ofSource src = .ok p) {v u : Value}
    (hv : p.Represents v) {path : List Nat} (hne : path ≠ []) (hu : v.at? path = some u)
    (hi : ¬ v.IsImplied path) : ∃ tokens form, ReadFrom src path tokens form ∧ form.Represents u := by
  obtain ⟨id, vs, hvs, rfl⟩ := hv
  cases path with
  | nil => exact absurd rfl hne
  | cons i rest =>
    have hat := hu
    unfold Value.at? at hu
    split at hu
    · rename_i child hc
      obtain ⟨form, hform, hrep⟩ := hvs.getElem? hc
      have hfits : form.Fits := (fits_ofSource h).2.of_mem form (List.mem_of_getElem? hform)
      rcases hrep.at hfits hu with himplied | ⟨part, hpart, hrep'⟩
      · exact absurd (himplied.cons hc) hi
      · obtain ⟨tokens, hread⟩ := readFrom_of_at h hform hpart
        exact ⟨tokens, part, hread, hrep'⟩
    · cases hu

namespace Session

/-- **A program prints as the text that it was read from, and each of its nodes as the slice of the text
that it was read from**, whatever the host did since. -/
theorem print_of_read {s s' : Session} {src : String} {p : Value} {w : World} (hs : s.Reachable)
    (hr : EditableLisp.readProgram src s.world = (.ok p, w))
    (hl : Later { s with world := w, held := p :: s.held } s') :
    (EditableLisp.print p s'.world).1 = src ∧
      ∀ path v, path ≠ [] → p.at? path = some v → ¬ p.IsImplied path → ¬ v.IsLiteral →
        ∃ tokens form, ReadFrom src path tokens form ∧ form.Represents v ∧
          IsSlice src (Token.startOf tokens) (Token.stopOf tokens)
            (EditableLisp.print v s'.world).1 := by
  obtain ⟨R, hsound⟩ := hs.exists_sound
  obtain ⟨R₁, hle, hdone⟩ := keeps_readProgram src s.world hsound.world
  rw [lift_of_eq hr] at hdone
  obtain ⟨hok, hread⟩ := hdone
  obtain ⟨hknown, program, hprogram, hrep⟩ := hread p rfl
  have hgrown := hsound.grow hle hok
  have hsound₁ : Sound R₁ { s with world := w, held := p :: s.held } :=
    { hgrown with held := List.forall_mem_cons.mpr ⟨hknown, hgrown.held⟩ }
  obtain ⟨R₂, hle', hsound₂⟩ := hl.exists_sound hsound₁
  have hknown₂ := hknown.mono hle'
  refine ⟨?_, fun path v hne hv hi hliteral => ?_⟩
  · obtain ⟨hfrozen, hdraw⟩ := Program.draw_of_represents hprogram hrep
    rw [print_of_frozen hsound₂.world hknown₂ hfrozen fun _ _ => "", hdraw]
  · obtain ⟨tokens, form, hfrom, hform⟩ := hrep.at hprogram hne hv hi
    obtain ⟨hfrozen, hdraw⟩ := Form.draw_of_represents (fun _ _ => "") form hfrom.fits hform
    refine ⟨tokens, form, hfrom, hform, ?_⟩
    rw [hform.oddSpelling? hliteral] at hdraw
    rw [print_of_frozen hsound₂.world (hsound₂.world.known_at hknown₂ hv) hfrozen, hdraw]
    exact hfrom.isSlice

/-- The program is read as an unmarked sequence that begins with a list. -/
def readsMarkedCall : Bool :=
  match EditableLisp.readProgram "(f 'x) " World.initial with
  | (.ok (.seq _ node items), _) => node.style.mark?.isNone && items.head?.any fun v => v.kind == .list
  | _ => false

/-- A call with a marked form, after it was printed plainly and invalidated. -/
theorem print_of_read_marked : ∃ p v w, EditableLisp.readProgram "(f 'x) " World.initial = (.ok p, w) ∧
    p.at? [0] = some v ∧
    let later := (EditableLisp.invalidate p (EditableLisp.printPlain v w).2).2
    (EditableLisp.print p later).1 = "(f 'x) " ∧ ∃ tokens form, ReadFrom "(f 'x) " [0] tokens form ∧
      form.Represents v ∧ IsSlice "(f 'x) " (Token.startOf tokens) (Token.stopOf tokens)
        (EditableLisp.print v later).1 := by
  have test : readsMarkedCall = true := by decide +kernel
  unfold readsMarkedCall at test
  split at test
  · rename_i shape node items w hr
    rw [Bool.and_eq_true] at test
    cases items with
    | nil => cases test.2
    | cons v rest =>
      have hkind : (v.kind == .list) = true := test.2
      refine ⟨_, v, w, hr, rfl, ?_⟩
      let read : Session := ⟨w, [.seq shape node (v :: rest)], [], []⟩
      let printed : Session := { read with
        world := (EditableLisp.printPlain v w).2
        held := .text (EditableLisp.printPlain v w).1 :: read.held }
      have hp : read.Has (.seq shape node (v :: rest)) := .held List.mem_cons_self
      have hp' : printed.Has (.seq shape node (v :: rest)) := .held (List.mem_cons_of_mem _ List.mem_cons_self)
      have hprint : read.Step printed := .served (r := .printPlain v)
        (List.forall_mem_singleton.mpr (hp.item List.mem_cons_self)) nofun rfl
      have hinvalidate : printed.Step _ := .served (r := .invalidate (.seq shape node (v :: rest)))
        (List.forall_mem_singleton.mpr hp') nofun rfl
      have hread := print_of_read .bare hr ((Later.refl.step hprint).step hinvalidate)
      refine ⟨hread.1, hread.2 [0] v nofun rfl ?_ ?_⟩
      · rintro ⟨above, _, node', _, hpath, hat, hmark⟩
        have hnil : [] ++ [0] = above ++ [0] := hpath
        obtain rfl := List.append_cancel_right hnil
        cases hat
        rw [Option.isNone_iff_eq_none.mp test.1] at hmark
        cases hmark
      · intro hliteral
        cases v <;> first | cases hkind | cases hliteral
  · cases test

end Session

end EditableLisp
