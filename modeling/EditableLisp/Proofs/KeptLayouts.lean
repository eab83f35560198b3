import EditableLisp.Proofs.Session

/-!
# Kept layouts

What a node keeps of how it was written is a layout of its elements in every session that can be reached
(`Session.Reachable.layouts_sound`). A read makes it one, and the nodes that edits, copies and substitutions make
of others take over what still fits.

So the printer finds what it needs: a node that was read with gaps is printed with these, and default ones never
take their place (`Session.Reachable.layout_of_gaps`).
-/

namespace EditableLisp

variable {v : Value} {node : Node}

/-! ## Gaps that stay -/

theorem Value.nodeId?_of_node? (h : v.node? = some node) : v.nodeId? = some node.id := by
  cases v with
  | seq | map =>
    cases h
    rfl
  | _ => cases h

theorem Value.fits_of_node? (h : v.node? = some node) : v.Fits ↔ node.Fits v.children.length := by
  cases v with
  | seq =>
    cases h
    rfl
  | map node entries =>
    cases h
    rw [length_children_map]
    rfl
  | _ => cases h

namespace Session

variable {s : Session}

/-- **A collection that was read with gaps is printed with them**, and this leaves the world as it is. -/
theorem Reachable.layout_of_gaps (h : s.Reachable) (hv : s.Has v) (hn : v.node? = some node)
    {gaps : List String} (hg : node.gaps = some gaps) :
    layout node v.children.length s.world = (gaps, s.world) := by
  obtain ⟨R, hs⟩ := h.exists_sound
  have hknown := hs.known hv
  have hlen := ((hs.world.isLaidOut hknown node hn).gaps gaps hg).length
  have hspaced : s.world.spaced.has node.id → ¬ node.Fits v.children.length := by
    intro hhas
    obtain ⟨u, hu, hnot⟩ := hs.world.spaced node.id hhas
    rw [hknown.node_eq (Value.nodeId?_of_node? hn)] at hu
    cases hu
    rwa [Value.fits_of_node? hn] at hnot
  rcases layout_eq hspaced with heq | ⟨hnot, -⟩
  · rw [heq, Node.drawnGaps_of_gaps hg hlen]
  · exact absurd ⟨gaps, hg, hlen⟩ hnot

/-! ## Sound layouts -/

/-- **What nodes keep is a layout of their elements**, whatever was done in a session. The gaps around the elements
are one more than these, and blank text in which every comment ends with its line, but for the last gap of a
program. A spelling stands in the place of a number or a string and is read as the very same. What is written with
a mark has two elements. -/
theorem Reachable.layouts_sound (h : s.Reachable) (hv : s.Has v) (hn : v.node? = some node) :
    (∀ gaps, s.world.gaps? node v.children.length = some gaps → node.style.Spaces v.children.length gaps) ∧
      (∀ spellings, node.spellings = some spellings → SpellsEach spellings v.children) ∧
      (node.style.mark?.isSome → v.children.length = 2) := by
  obtain ⟨R, hs⟩ := h.exists_sound
  have hlays := hs.world.isLaidOut (hs.known hv) node hn
  exact ⟨Style.Spaces.held hlays.gaps, hlays.spellings, hlays.marked⟩

/-- What the copy of a program with a number and a marked name keeps. -/
def copiesLayout : Bool :=
  match EditableLisp.readProgram "1.0 'x ; end" World.initial with
  | (.ok p, w) =>
    match deepCopy p w with
    | (.seq .list node [_, .seq .list mark [_, _]], w') =>
      w'.gaps? node 2 == some ["", " ", " ; end"] && node.spellings == some [some "1.0", none] &&
        mark.style.mark?.isSome
    | _ => false
  | _ => false

/-- A program of a number with an odd spelling, a marked name and a comment that does not end is copied. -/
theorem Reachable.layouts_sound_copied : ∃ (s : Session) (v inner : Value) (node mark : Node), s.Reachable ∧
    s.Has v ∧ v.node? = some node ∧ s.Has inner ∧ inner.node? = some mark ∧
    (s.world.gaps? node v.children.length = some ["", " ", " ; end"] ∧
      node.style.Spaces v.children.length ["", " ", " ; end"]) ∧
    (node.spellings = some [some "1.0", none] ∧ SpellsEach [some "1.0", none] v.children) ∧
    mark.style.mark?.isSome ∧ inner.children.length = 2 := by
  have test : copiesLayout = true := by decide +kernel
  unfold copiesLayout at test
  split at test
  · rename_i p w hr
    split at test
    · rename_i node number mark head name w' hc
      simp only [Bool.and_eq_true, beq_iff_eq] at test
      obtain ⟨⟨hgaps, hspellings⟩, hmark⟩ := test
      let inner : Value := .seq .list mark [head, name]
      let copy : Value := .seq .list node [number, inner]
      let read : Session := ⟨w, [p], [], []⟩
      let copied : Session := ⟨w', [copy, p], [], []⟩
      have hrun : (Request.copy p).run read.world = .ok [copy] w' := by
        show ((liftM (deepCopy p) : Act _) >>= _) w = _
        rw [bind_of_eq_ok (lift_of_eq hc)]
        rfl
      have hstep : read.Step copied :=
        .served (r := .copy p) (List.forall_mem_singleton.mpr (.held List.mem_cons_self)) nofun hrun
      have hreach : copied.Reachable := (Reachable.bare.step (Step.read hr)).step hstep
      have hcopy : copied.Has copy := .held List.mem_cons_self
      have hinner : copied.Has inner := hcopy.item (List.mem_cons_of_mem _ List.mem_cons_self)
      obtain ⟨hspaces, hspells, -⟩ := hreach.layouts_sound hcopy rfl
      obtain ⟨-, -, hmarked⟩ := hreach.layouts_sound hinner rfl
      exact ⟨copied, copy, inner, node, mark, hreach, hcopy, rfl, hinner, rfl, ⟨hgaps, hspaces _ hgaps⟩,
        ⟨hspellings, hspells _ hspellings⟩, hmark, hmarked hmark⟩
    · cases test
  · cases test

end Session

end EditableLisp
