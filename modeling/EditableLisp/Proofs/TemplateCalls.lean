import EditableLisp.Proofs.Session

/-!
# Calls of templates

A call of a template keeps the template and the frame with its parameters, and later calls are served from
these. `Session.alike_of_bound`: in every session that can be reached, what is kept on a call is the body of
the expander and the frame that its parameters bind to the argument forms of that very call. Nothing that a
host does writes the frame afterwards. So the form that is served is the template with the argument forms in
place of the parameters, and it is alike the form that comes out once the call is invalidated.
-/

namespace EditableLisp

open Registry

variable {R : Registry} {w : World} {node : Node} {items : List Value} {target : Option Env}
  {stack : List Pending}

/-! ## Kept templates -/

/-- What is kept on a known call is the template of an expander, in the frame that its parameters bind. -/
theorem Registry.Ok.binds_of_bound {maker template : Value} {env : Env} (hw : R.Ok w)
    (hc : R.Known (.seq .list node items))
    (hb : w.expansions.get? node.id = some (.bound maker template env)) :
    ∃ function params scope data vector,
      maker = .closure function .template params template scope data ∧
      R.frame env.frame = some (.template (some (w.frame env.frame))) ∧
      Pattern.Binds params (.seq .vector (.bare vector) items.tail) [] (w.frame env.frame) := by
  obtain ⟨-, function, params, scope, data, node', items', content, vector, hmaker, -, hcall, hframe,
    hbinds⟩ := hw.expansions _ _ hb
  have hnode : R.node node.id = some (.seq .list node items) := hc
  rw [hnode] at hcall
  cases hcall
  obtain rfl := hw.settled _ _ hframe
  exact ⟨function, params, scope, data, vector, hmaker, hframe, hbinds⟩

/-- A settled frame is the same in every world of a larger registry. -/
theorem Registry.Ok.frame_eq {R' : Registry} {w' : World} {id : FrameId} {content : Frame} (hw : R.Ok w)
    (hw' : R'.Ok w') (hle : R ≤ R') (hf : R.frame id = some (.template (some content))) :
    w'.frame id = w.frame id := by
  rw [hw.settled _ _ hf]
  exact hw'.settled _ _ (hle.2.1 _ _ hf)

/-- Known values with one identity are one value. -/
theorem Registry.Known.eq_of_identical {f : Value} {function : NodeId} {kind : ClosureKind}
    {params body data : Value} {env : Env} (hf : R.Known f)
    (hm : R.Known (.closure function kind params body env data))
    (h : f.identical (.closure function kind params body env data)) :
    f = .closure function kind params body env data := by
  cases f with
  | closure =>
    obtain rfl := eq_of_beq h
    exact Option.some.inj (Eq.trans (Eq.symm hf) hm)
  | _ => cases h

/-! ## Serving -/

namespace Machine

theorem get_eq (w : World) : (liftM (get : Change World) : Act World) w = .ok w w := rfl

/-- Nothing is served for a call that nothing is kept on. -/
theorem servedForm?_of_none {f : Value} (hn : w.expansions.get? node.id = none) :
    (liftM (servedForm? ⟨node, items⟩ f) : Act _) w = .ok none w := by
  unfold servedForm?
  rw [lift_bind, bind_of_eq_ok (get_eq w)]
  dsimp only
  rw [hn]
  rfl

/-- A kept template is served as it is now. -/
theorem servedForm?_of_bound {maker template f : Value} {env : Env}
    (hb : w.expansions.get? node.id = some (.bound maker template env)) (hf : f.identical maker) :
    (liftM (servedForm? ⟨node, items⟩ f) : Act _) w =
      .ok (some (instantiate template env w).1) (instantiate template env w).2 := by
  have hserves : Expansion.servesFor w (.bound maker template env) f = true := by
    unfold Expansion.servesFor Expansion.maker? Expansion.isCurrent
    rw [Option.any_some, hf]
    rfl
  unfold servedForm?
  rw [lift_bind, bind_of_eq_ok (get_eq w)]
  dsimp only
  rw [hb]
  dsimp only
  rw [if_pos hserves]
  rfl

/-- A call that a template stands for is served from the template as it is now. -/
theorem expandCall_of_bound {maker template f : Value} {env : Env}
    (hb : w.expansions.get? node.id = some (.bound maker template env)) (hf : f.identical maker) :
    expandCall ⟨node, items⟩ f target stack w =
      .ok (finishExpansion (instantiate template env w).1 target stack) (instantiate template env w).2 := by
  unfold expandCall
  rw [bind_of_eq_ok (servedForm?_of_bound hb hf)]
  rfl

/-- A call of a template that nothing is kept on binds the parameters and keeps the template. -/
theorem expandCall_template {function : NodeId} {params template data : Value} {scope frame : Env}
    {w₁ : World} (hn : w.expansions.get? node.id = none)
    (he : enter scope params items.tail w = .ok frame w₁) :
    expandCall ⟨node, items⟩ (.closure function .template params template scope data) target stack w =
      .ok (finishExpansion (instantiate template frame w₁).1 target stack)
        (setExpansion node.id (.bound (.closure function .template params template scope data)
          template frame) (instantiate template frame w₁).2).2 := by
  unfold expandCall
  rw [bind_of_eq_ok (servedForm?_of_none hn)]
  unfold expandAnew
  dsimp only
  rw [bind_of_eq_ok he]
  rfl

/-- A call enters its scope in every world if the parameters bind the arguments. -/
theorem exists_enter {params : Value} {args : List Value} {vector : NodeId} {content : Frame}
    (scope : Env) (hb : Pattern.Binds params (.seq .vector (.bare vector) args) [] content) (w : World) :
    ∃ frame w', enter scope params args w = .ok frame w' := by
  let w₁ : World := { w with frames := w.frames.push .empty }
  let w₂ : World := { w₁ with nextId := w₁.nextId + 1 }
  have hnew : (liftM (newChild scope) : Act Env) w = .ok (scope.child w.frames.size) w₁ := rfl
  have hsize : (scope.child w.frames.size).frame < w₂.frames.size := by
    show w.frames.size < (w.frames.push .empty).size
    rw [Array.size_push]
    omega
  obtain ⟨content', hb'⟩ := @Pattern.binds_vector params _ (.bare w₁.nextId) _ _ _ hb
  obtain ⟨w₃, hd, -⟩ := Pattern.destructure_of_binds params hsize hb'
  refine ⟨scope.child w.frames.size, w₃, ?_⟩
  unfold enter
  rw [bind_of_eq_ok hnew, bind_of_eq_ok (Pattern.newVector_eq args w₁), bind_of_eq_ok hd]
  rfl

end Machine

/-- What a call that a template stands for was expanded to is the template as it is now. -/
theorem expandedForm_of_bound {maker template : Value} {env : Env}
    (hb : w.expansions.get? node.id = some (.bound maker template env)) :
    expandedForm (.seq .list node items) w = instantiate template env w := by
  unfold expandedForm
  dsimp only
  rw [Change.get_bind, hb]

/-- Nothing is kept on a call that was invalidated. -/
theorem get?_invalidate (w : World) (node : Node) (items : List Value) :
    (invalidate (.seq .list node items) w).2.expansions.get? node.id = none := by
  show (w.expansions.erase node.id).get? node.id = none
  rw [Table.get?_erase, if_pos rfl]

/-! ## Sessions -/

namespace Session

variable {s : Session} {maker template : Value} {env : Env}

/-- **A call that a template stands for is served as if it were expanded anew**, and what it is served is
the template with the argument forms of the call in place of the parameters. -/
theorem alike_of_bound (hs : s.Reachable) (hc : s.Has (.seq .list node items))
    (hb : s.world.expansions.get? node.id = some (.bound maker template env)) :
    ∃ function params scope data vector,
      maker = .closure function .template params template scope data ∧
      Pattern.Binds params (.seq .vector (.bare vector) items.tail) [] (s.world.frame env.frame) ∧
      (∀ s', Later s s' → s'.world.frame env.frame = s.world.frame env.frame) ∧
      ∃ form w₁ fresh w₂, expandedForm (.seq .list node items) s.world = (form, w₁) ∧
        template.Instance (s.world.frame env.frame) form ∧ form.Alike fresh ∧
        ∀ f, s.Has f → f.identical maker → ∀ target stack,
          Machine.expandCall ⟨node, items⟩ f target stack s.world =
            .ok (Machine.finishExpansion form target stack) w₁ ∧
          Machine.expandCall ⟨node, items⟩ f target stack (invalidate (.seq .list node items) s.world).2 =
            .ok (Machine.finishExpansion fresh target stack) w₂ := by
  obtain ⟨R, hsound⟩ := hs.exists_sound
  have hw := hsound.world
  have hcall := hsound.known hc
  have hmaker := hsound.known (.expansion hb List.mem_cons_self)
  obtain ⟨function, params, scope, data, vector, rfl, hframe, hbinds⟩ := hw.binds_of_bound hcall hb
  have hparts := hw.partsKnown hmaker
  refine ⟨function, params, scope, data, vector, rfl, hbinds, fun s' hl => ?_, ?_⟩
  · obtain ⟨R', hle, hsound'⟩ := hl.exists_sound hsound
    exact hw.frame_eq hsound'.world hle hframe
  -- the form that is served
  obtain ⟨-, -, -, -, hform⟩ := keeps_instantiate hparts.2.1 hframe s.world hw
  -- the form that comes out anew, in a frame of its own that binds alike values
  have hinvalidated : R.Ok (invalidate (.seq .list node items) s.world).2 :=
    (steady_invalidate (.seq .list node items) s.world hw).1
  obtain ⟨frame, w₁, henter⟩ := Machine.exists_enter scope hbinds
    (invalidate (.seq .list node items) s.world).2
  have hargs : R.AllKnown items.tail := fun v hv => hw.partsKnown hcall v (List.mem_of_mem_tail hv)
  obtain ⟨R₁, hle, hentered⟩ := @keeps_enter_template R scope params items.tail hparts.1 hargs _ hinvalidated
  rw [henter] at hentered
  obtain ⟨hw₁, -, content, vector', hframe', hbinds'⟩ := hentered
  obtain ⟨-, -, -, -, hfresh⟩ := keeps_instantiate (hparts.2.1.mono hle) hframe' w₁ hw₁
  have hvectors : Value.Alike (.seq .vector (.bare vector) items.tail)
      (.seq .vector (.bare vector') items.tail) := by
    unfold Value.Alike
    exact ⟨.bare vector', items.tail, rfl, Value.AlikeEach.refl _, rfl⟩
  have hframes : Frame.Alike (s.world.frame env.frame) content :=
    Pattern.alike_of_binds params hvectors (fun _ => Or.inl ⟨rfl, rfl⟩) hbinds hbinds'
  let kept : Expansion := .bound (.closure function .template params template scope data) template frame
  refine ⟨_, _, _, (setExpansion node.id kept (instantiate template frame w₁).2).2, expandedForm_of_bound hb,
    hform, Value.alike_of_instance hframes template hform hfresh, fun f hf hid target stack => ?_⟩
  obtain rfl := (hsound.known hf).eq_of_identical hmaker hid
  exact ⟨Machine.expandCall_of_bound hb hid, Machine.expandCall_template (get?_invalidate _ _ _) henter⟩

/-- The program runs, and the frame of the template is kept for its call. -/
def bindsPair : Bool :=
  match EditableLisp.readProgram "(defsyntax pair [x] [x {:k x}]) (pair (quote 1))" World.initial with
  | (.ok (.seq shape node' forms), w) =>
    match evalIn 60 (.seq shape node' forms) .global w, (forms[1]? : Option Value) with
    | .ok _ w', some (.seq .list node _) =>
      match w'.expansions.get? node.id with
      | some (.bound (.closure ..) _ _) => true
      | _ => false
    | _, _ => false
  | _ => false

/-- A call of a template with a vector and a map, evaluated once. -/
theorem alike_of_bound_pair : ∃ p w v w' node items maker template env,
    EditableLisp.readProgram "(defsyntax pair [x] [x {:k x}]) (pair (quote 1))" World.initial = (.ok p, w) ∧
    evalIn 60 p .global w = .ok v w' ∧ p.at? [1] = some (.seq .list node items) ∧
    w'.expansions.get? node.id = some (.bound maker template env) ∧
    ∃ form w₁ fresh w₂, expandedForm (.seq .list node items) w' = (form, w₁) ∧
      template.Instance (w'.frame env.frame) form ∧ form.Alike fresh ∧
      Machine.expandCall ⟨node, items⟩ maker (some .global) [] (invalidate (.seq .list node items) w').2 =
        .ok ⟨.eval fresh .global, []⟩ w₂ := by
  have test : bindsPair = true := by decide +kernel
  unfold bindsPair at test
  split at test
  · rename_i shape node' forms w hread
    split at test
    · rename_i v w' node items heval hforms
      split at test
      · rename_i function kind params body scope data template env hbound
        let read : Session := ⟨w, [.seq shape node' forms], [], []⟩
        let run : Session := { read with world := w', held := v :: read.held }
        have hstart := @Step.read ⟨World.initial, [], [], []⟩ _ _ _ hread
        have hrun : read.Step run := .evaluate (.held List.mem_cons_self) .global heval
        have hcall : run.Has (.seq .list node items) := by
          have hp : run.Has (.seq shape node' forms) := .held (List.mem_cons_of_mem _ List.mem_cons_self)
          exact hp.item (List.mem_of_getElem? hforms)
        have hmaker : run.Has _ := .expansion hbound List.mem_cons_self
        obtain ⟨-, -, -, -, -, -, -, -, form, w₁, fresh, w₂, hform, hinstance, halike, hserved⟩ :=
          alike_of_bound ((Reachable.bare.step hstart).step hrun) hcall hbound
        refine ⟨_, w, v, w', node, items, _, template, env, hread, heval, ?_, hbound, form, w₁, fresh, w₂,
          hform, hinstance, halike, ?_⟩
        · unfold Value.at? Value.children
          rw [hforms]
          rfl
        · exact (hserved _ hmaker (beq_self_eq_true function) (some .global) []).2
      · cases test
    · cases test
  · cases test

end Session

end EditableLisp
