import EditableLisp.Proofs.Ending
import EditableLisp.Proofs.MirroredEvaluation
import EditableLisp.Proofs.Session

/-!
# Expanding a call before it is evaluated

To expand the call of an expander and then to evaluate the expansion is to evaluate the call. The two come to
the same end, and to worlds that differ in nothing but what is kept at nodes and in the recordings
(`expandForm_evalForm`). Evaluation looks a head up and keeps what it found before it expands; that the
rest goes on alike is what the mirror image of a world that has other results, sites and recordings shows
(`mirrors_same`).

There is one exception, a list that is no call for evaluation but is one for expansion: a program or a special
form whose first symbol is bound to an expander (`World.Contested`). The two then disagree
(`expansion_of_special_form`).
-/

namespace EditableLisp

variable {w w' w₁ w₂ : World}

/-! ## Ends that agree -/

/-- Two worlds differ at most in what is kept at nodes and in the recordings. -/
structure World.SameState (w w' : World) : Prop where
  nextId : w'.nextId = w.nextId
  frames : w'.frames = w.frames
  atoms : w'.atoms = w.atoms
  keywords : w'.keywords = w.keywords
  output : w'.output = w.output
  files : w'.files = w.files

namespace World.SameState

theorem refl (w : World) : w.SameState w := ⟨rfl, rfl, rfl, rfl, rfl, rfl⟩

theorem symm (h : w.SameState w') : w'.SameState w :=
  ⟨h.nextId.symm, h.frames.symm, h.atoms.symm, h.keywords.symm, h.output.symm, h.files.symm⟩

theorem trans (h : w.SameState w₁) (h' : w₁.SameState w₂) : w.SameState w₂ :=
  ⟨h'.nextId.trans h.nextId, h'.frames.trans h.frames, h'.atoms.trans h.atoms,
    h'.keywords.trans h.keywords, h'.output.trans h.output, h'.files.trans h.files⟩

end World.SameState

/-- The same value or the same failure, in worlds that are the same but for what is kept at nodes. -/
inductive SameEnd : EStateM.Result Halt World Value → EStateM.Result Halt World Value → Prop where
  | value {v : Value} {w w' : World} : w.SameState w' → SameEnd (.ok v w) (.ok v w')
  | failure {h : Halt} {w w' : World} : w.SameState w' → SameEnd (.error h w) (.error h w')

namespace SameEnd

variable {r r' r'' : EStateM.Result Halt World Value}

theorem refl (r : EStateM.Result Halt World Value) : SameEnd r r := by
  cases r with
  | ok v w => exact .value (.refl w)
  | error h w => exact .failure (.refl w)

theorem symm (h : SameEnd r r') : SameEnd r' r := by
  cases h with
  | value hw => exact .value hw.symm
  | failure hw => exact .failure hw.symm

theorem trans (h : SameEnd r r') (h' : SameEnd r' r'') : SameEnd r r'' := by
  cases h with
  | value hw =>
    cases h' with
    | value hw' => exact .value (hw.trans hw')
  | failure hw =>
    cases h' with
    | failure hw' => exact .failure (hw.trans hw')

theorem halted (h : SameEnd r r') (hr : Halted r) : Halted r' := by
  cases h with
  | value => exact halted_ok _ _
  | failure hw =>
    intro w'' he
    cases he
    exact hr _ rfl

theorem abandoned (depth : Nat) (r : EStateM.Result Halt World Value) :
    SameEnd r (EditableLisp.abandoned depth r) := by
  cases r with
  | ok v w => exact .value (.refl w)
  | error h w =>
    cases h with
    | fault f => exact .failure ⟨rfl, rfl, rfl, rfl, rfl, rfl⟩
    | crash | exhausted => exact .failure (.refl w)

theorem remember (node : Value) (act : Act Value) (w : World) :
    SameEnd (act w) (Direct.remember node act w) := by
  have hkept : ∀ (v : Value) (w : World), w.SameState (setResult node v w).2 := by
    intro v w
    unfold setResult
    cases node.nodeId? with
    | some id => exact ⟨rfl, rfl, rfl, rfl, rfl, rfl⟩
    | none => exact .refl w
  unfold Direct.remember
  cases e : act w with
  | ok v w₁ =>
    rw [bind_of_eq_ok e]
    exact .value (hkept v w₁)
  | error h w₁ =>
    rw [bind_of_eq_error e]
    exact .failure (.refl w₁)

end SameEnd

/-! ## The same world with other results -/

theorem Mirrors.sameState {base : Nat} (h : Mirrors (.same base) w w') : w.SameState w' where
  nextId := h.node_nextId
  frames := h.frames.trans (rename_id w.frames)
  atoms := h.atoms.trans (rename_id w.atoms)
  keywords := h.keywords
  output := h.output
  files := h.files

theorem Matched.sameEnd {base : Nat} {r r' : EStateM.Result Halt World Value}
    (h : Matched (.same base) r r') : SameEnd r r' := by
  cases r with
  | ok v w =>
    obtain ⟨w', rfl, hw⟩ := h.of_ok
    have hv : rename (Mirror.same base).ρ v = v := rename_id v
    rw [hv]
    exact .value hw.sameState
  | error e w =>
    obtain ⟨w', rfl, hw⟩ := h.of_error
    exact .failure hw.sameState

/-! ## Direct evaluation -/

namespace Direct

/-- Expands a form at the root and evaluates what it comes to. -/
def expandThenEval (depth : Nat) (form : Value) : Act Value := do
  eval depth (← expandOnce (parts depth) form .global) .global

/-- A symbol that has a value comes to it; what is kept of that are results, sites and recordings. -/
theorem evalSymbol_of_lookup {id : NodeId} {name : String} {env : Env} {v : Value}
    (h : w.lookup? env name = some v) : ∃ results sites recordings,
      recordings.length = w.recordings.length ∧ evalSymbol id name env w =
        .ok v { w with results := results, sites := sites, recordings := recordings } := by
  have hrecord := recordAll_snd [⟨env, name, v⟩] w
  rw [← record_eq_recordAll] at hrecord
  have hlength := List.length_modifyHead (l := w.recordings) (f := ([⟨env, name, v⟩].reverse ++ ·))
  let recordings := w.recordings.modifyHead ([⟨env, name, v⟩].reverse ++ ·)
  let kept : World := { w with recordings := recordings, results := w.results.set id v }
  unfold evalSymbol
  rw [bind_of_eq_ok (lookup_of_some h), bind_lift, hrecord, bind_lift, Act.get_bind]
  have hkept : (setResult (.symbol id name) v { w with recordings := recordings }).2 = kept := rfl
  rw [hkept]
  cases kept.site? env name with
  | none => exact ⟨_, _, recordings, hlength, rfl⟩
  | some site => exact ⟨_, _, recordings, hlength, rfl⟩

theorem functionId?_of_isExpander {f : Value} (h : f.isExpander = true) : f.functionId?.isNone = false := by
  cases f <;> first | rfl | cases h

/-- **A call whose head is bound to an expander comes to what its expansion comes to.** -/
theorem sameEnd_expandThenEval {node : Node} {id : NodeId} {name : String} {rest : List Value} {f : Value}
    (hstyle : node.style ≠ .program) (hspecial : Special.ofName? name = none)
    (hf : w.lookup? .global name = some f) (hexpander : f.isExpander = true) (depth : Nat) :
    SameEnd (expandThenEval (depth + 1) (.seq .list node (.symbol id name :: rest)) w)
      (eval (depth + 2) (.seq .list node (.symbol id name :: rest)) .global w) := by
  let call : Call := ⟨node, .symbol id name :: rest⟩
  let act : Act Value := expand (parts (depth + 1)) call f >>= fun form => eval (depth + 1) form .global
  have hexpand : expandThenEval (depth + 1) call.toValue w = act w := by
    have honce : expandOnce (parts (depth + 1)) call.toValue .global w = expand (parts (depth + 1)) call f w := by
      dsimp only [expandOnce, call, Call.toValue, Value.headName?]
      rw [Act.get_bind, hf]
      dsimp only
      rw [if_pos hexpander]
    show EStateM.bind _ _ w = EStateM.bind _ _ w
    unfold EStateM.bind
    rw [honce]
  obtain ⟨results, sites, recordings, hlength, hsymbol⟩ := @evalSymbol_of_lookup w id name .global f hf
  have heval : eval (depth + 2) call.toValue .global = remember call.toValue
      (evalCall (parts (depth + 1)) (.symbol id name) call .global) := by
    show evalForm (parts (depth + 1)) call.toValue .global = _
    dsimp only [evalForm, call, Call.toValue, Value.headName?, Option.bind]
    rw [if_neg hstyle, hspecial]
  have hcall : evalCall (parts (depth + 1)) (.symbol id name) call .global w =
      act { w with results := results, sites := sites, recordings := recordings } := by
    have hhead : (parts (depth + 1)).eval (.symbol id name) .global w =
        .ok f { w with results := results, sites := sites, recordings := recordings } := hsymbol
    unfold evalCall
    rw [bind_of_eq_ok hhead, functionId?_of_isExpander hexpander, hexpander]
    rfl
  have hsim : Sim (.same w.recordings.length) act act := by
    have hf : rename (Mirror.same w.recordings.length).ρ f = f := rename_id f
    have hcall : rename (Mirror.same w.recordings.length).ρ call = call := by
      show (⟨_, rename Renaming.id call.items⟩ : Call) = call
      rw [rename_id]
      rfl
    have h := sim_expand (mirrored_parts (.same w.recordings.length) (depth + 1)) call f
    rw [hf, hcall] at h
    exact h.bind fun form => sim_eval (depth + 1) form .global
  show SameEnd (expandThenEval (depth + 1) call.toValue w) (eval (depth + 2) call.toValue .global w)
  rw [hexpand, heval]
  refine SameEnd.trans ?_ (SameEnd.remember _ _ w)
  rw [hcall]
  exact (hsim.matched _ _ (mirrors_same w results sites hlength) trivial).sameEnd

/-- A form that is passed through is evaluated as it is. -/
theorem expandThenEval_of_unchanged {depth : Nat} {form : Value}
    (h : expandOnce (parts depth) form .global w = .ok form w) :
    expandThenEval depth form w = eval depth form .global w := by
  unfold expandThenEval
  rw [bind_of_eq_ok h]

end Direct

/-! ## Lists that are two things at once -/

/-- A list is a program or a special form, which evaluation takes it for, and its first symbol is bound to an
expander, which expansion goes by. -/
def World.Contested (w : World) (node : Node) (items : List Value) : Prop :=
  (node.style = .program ∨ (Value.headName? items).bind Special.ofName? ≠ none) ∧
    ∃ name f, Value.headName? items = some name ∧ w.lookup? .global name = some f ∧ f.isExpander = true

/-- A list whose head is not bound to an expander is passed through. -/
theorem Direct.expandOnce_of_not_expander {p : Parts} {node : Node} {items : List Value}
    (h : ¬ ∃ name f, Value.headName? items = some name ∧ w.lookup? .global name = some f ∧
      f.isExpander = true) :
    expandOnce p (.seq .list node items) .global w = .ok (.seq .list node items) w := by
  unfold expandOnce
  dsimp only
  cases hhead : Value.headName? items with
  | none => rfl
  | some name =>
    dsimp only
    rw [Act.get_bind]
    cases hf : w.lookup? .global name with
    | none => rfl
    | some f =>
      have hexpander : f.isExpander ≠ true := fun he => h ⟨name, f, hhead, hf, he⟩
      dsimp only
      rw [if_neg hexpander]
      rfl

theorem Value.items_of_headName? {items : List Value} {name : String} (h : headName? items = some name) :
    ∃ id rest, items = .symbol id name :: rest := by
  unfold headName? at h
  split at h
  · cases h
    exact ⟨_, _, rfl⟩
  · cases h

/-- Expansion followed by evaluation comes, at some depth, to what evaluation comes to, and the other way
round. -/
theorem Direct.exists_sameEnd {node : Node} {items : List Value} (h : ¬ w.Contested node items) (depth : Nat) :
    (∃ n, SameEnd (eval (depth + 2) (.seq .list node items) .global w)
      (expandThenEval n (.seq .list node items) w)) ∧
    (∃ n, SameEnd (expandThenEval (depth + 1) (.seq .list node items) w)
      (eval n (.seq .list node items) .global w)) := by
  by_cases hbound : ∃ name f, Value.headName? items = some name ∧ w.lookup? .global name = some f ∧
    f.isExpander = true
  · obtain ⟨name, f, hhead, hf, hexpander⟩ := hbound
    obtain ⟨id, rest, rfl⟩ := Value.items_of_headName? hhead
    have hcall : ¬ (node.style = .program ∨ Special.ofName? name ≠ none) := fun hspecial =>
      h ⟨hspecial, name, f, hhead, hf, hexpander⟩
    obtain ⟨hstyle, hspecial⟩ := not_or.mp hcall
    have hsame := @sameEnd_expandThenEval w node id name rest f hstyle (not_not.mp hspecial) hf hexpander depth
    exact ⟨⟨depth + 1, hsame.symm⟩, depth + 2, hsame⟩
  · refine ⟨⟨depth + 2, ?_⟩, depth + 1, ?_⟩
    · rw [expandThenEval_of_unchanged (expandOnce_of_not_expander hbound)]
      exact .refl _
    · rw [expandThenEval_of_unchanged (expandOnce_of_not_expander hbound)]
      exact .refl _

/-! ## Runs of a host -/

/-- An expansion and the evaluation of what it comes to, by a host. -/
def expandThenEval (fuel : Nat) (form : Value) : Act Value := do evalForm fuel (← expandForm fuel form)

theorem hosts_expandThenEval (form : Value) :
    Hosts (fun fuel => expandThenEval fuel form) fun depth => Direct.expandThenEval depth form :=
  (hosts_expandForm form).bind (persists_expandForm form) (Direct.persists_expandOnce form .global) hosts_evalForm

theorem persists_expandThenEval (form : Value) : Persists fun fuel => expandThenEval fuel form :=
  (persists_expandForm form).bind persists_evalForm

theorem Direct.persists_expandThenEval (form : Value) : Persists fun depth => Direct.expandThenEval depth form :=
  (Direct.persists_expandOnce form .global).bind fun form => Direct.persists_eval form .global

/-- **Expanding a list before it is evaluated changes nothing**, unless it is a program or a special form that
expansion takes for a call. Both ways come to an end or neither does, with the same value or the same
failure, the same bindings in all frames, contents of atoms and keywords, and the same output and files. -/
theorem expandForm_evalForm (w : World) (node : Node) (items : List Value) (h : ¬ w.Contested node items) :
    (∀ r, Ends (fun fuel => evalForm fuel (.seq .list node items)) w r →
      ∃ r', Ends (fun fuel => expandThenEval fuel (.seq .list node items)) w r' ∧ SameEnd r r') ∧
    (∀ r', Ends (fun fuel => expandThenEval fuel (.seq .list node items)) w r' →
      ∃ r, Ends (fun fuel => evalForm fuel (.seq .list node items)) w r ∧ SameEnd r r') := by
  obtain ⟨outer, heval⟩ := hosts_evalForm (.seq .list node items) w
  obtain ⟨outer', hexpand⟩ := hosts_expandThenEval (.seq .list node items) w
  constructor
  · intro r hends
    obtain ⟨r₁, ⟨hr₁, least, hdirect⟩, rfl⟩ := (heval r).mp hends
    obtain ⟨n, hsame⟩ := (Direct.exists_sameEnd h least).1
    have hdeep : Direct.eval (least + 2) (.seq .list node items) .global w = r₁ := hdirect _ (Nat.le_add_right _ _)
    rw [hdeep] at hsame
    have hends' := Direct.persists_expandThenEval _ rfl (hsame.halted hr₁)
    exact ⟨_, (hexpand _).mpr ⟨_, hends', rfl⟩,
      ((SameEnd.abandoned outer r₁).symm.trans hsame).trans (.abandoned outer' _)⟩
  · intro r' hends
    obtain ⟨r₁, ⟨hr₁, least, hdirect⟩, rfl⟩ := (hexpand r').mp hends
    obtain ⟨n, hsame⟩ := (Direct.exists_sameEnd h least).2
    have hdeep : Direct.expandThenEval (least + 1) (.seq .list node items) w = r₁ :=
      hdirect _ (Nat.le_add_right _ _)
    rw [hdeep] at hsame
    have hends' := Direct.persists_eval _ .global rfl (hsame.halted hr₁)
    exact ⟨_, (heval _).mpr ⟨_, hends', rfl⟩,
      ((SameEnd.abandoned outer _).symm.trans hsame.symm).trans (.abandoned outer' r₁)⟩

/-- The call of an expander that returns `true`. -/
theorem expandForm_evalForm_call :
    let maker : Value := .closure 0 .procedure (.seq .vector (.bare 1) []) (.bool true) .global .nil
    let w := { World.initial.bind 0 "m" ⟨maker, none⟩ with nextId := 4 }
    let items : List Value := [.symbol 2 "m"]
    ¬ w.Contested (.bare 3) items ∧
      ∃ r', Ends (fun fuel => expandThenEval fuel (.seq .list (.bare 3) items)) w r' ∧
        SameEnd (evalForm 9 (.seq .list (.bare 3) items) w) r' := by
  intro maker w items
  have hcall : ¬ w.Contested (.bare 3) items := by
    rintro ⟨hstyle | hspecial, -⟩
    · cases hstyle
    · exact hspecial rfl
  exact ⟨hcall, (expandForm_evalForm w (.bare 3) items hcall).1 _ (persists_evalForm _ rfl (by
    rintro w' h
    cases h))⟩

/-- The special form is true when it is evaluated, and nil when it was expanded first. -/
def expandsSpecialForm : Bool :=
  match EditableLisp.readProgram "(defmacro if [a b c] nil) (quote (if true true false))" World.initial with
  | (.ok p, w) =>
    match evalIn 60 p .global w with
    | .ok (.seq .list node items) w' =>
      match evalForm 30 (.seq .list node items) w', expandThenEval 30 (.seq .list node items) w' with
      | .ok (.bool true) _, .ok .nil _ => true
      | _, _ => false
    | _ => false
  | _ => false

/-- A special form whose head is bound to an expander is evaluated by the rule of special forms, and expanded
by the expander. -/
theorem expansion_of_special_form : ∃ s node items w₁ w₂, Session.Reachable s ∧ s.Has (.seq .list node items) ∧
    Ends (fun fuel => evalForm fuel (.seq .list node items)) s.world (.ok (.bool true) w₁) ∧
    Ends (fun fuel => expandThenEval fuel (.seq .list node items)) s.world (.ok .nil w₂) := by
  have test : expandsSpecialForm = true := by decide +kernel
  unfold expandsSpecialForm at test
  split at test
  · rename_i p w hread
    split at test
    · rename_i node items w' heval
      split at test
      · rename_i w₁ w₂ hrun hexpand
        let read : Session := ⟨w, [p], [], []⟩
        let run : Session := { read with world := w', held := .seq .list node items :: read.held }
        have hstart := @Session.Step.read ⟨World.initial, [], [], []⟩ _ _ _ hread
        have hstep : read.Step run := .evaluate (.held List.mem_cons_self) .global heval
        exact ⟨run, node, items, w₁, w₂, (Session.Reachable.bare.step hstart).step hstep,
          .held List.mem_cons_self, persists_evalForm _ hrun (halted_ok _ _),
          persists_expandThenEval _ hexpand (halted_ok _ _)⟩
      · cases test
    · cases test
  · cases test

end EditableLisp
