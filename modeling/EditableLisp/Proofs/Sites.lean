import EditableLisp.Proofs.Frames

/-!
# Symbols and the forms that defined them

A symbol that is evaluated keeps the value that it was found to have and a link to the form that defined it.
Value and form stand in one binding, that of the name in the first frame of the chain that binds it, and the form
is there if a definition made the binding; a parameter, a `let` and a host's `define` make bindings without one.

* `Machine.sites_of_step`: a step makes a binding with a form only if it ends a definition (`State.Defines`), and
  the form is that definition.
* **`Machine.evalSymbol_binding`**: what a symbol keeps afterwards. The value is always that of the binding. The
  link is overwritten by the form of the binding if there is one and otherwise left as it was; so it belongs to
  the value unless the binding has no form and an earlier evaluation of this node left a link.
* `Session.stale_site`: such a link is there in a session.
-/

namespace EditableLisp

variable {α β : Type}

/-! ## Acts that define nothing -/

/-- Every binding of the later world was there before, or has no defining form. -/
def BindsPlainly (w w' : World) : Prop :=
  ∀ id name b, (w'.frame id).get? name = some b → (w.frame id).get? name = some b ∨ b.site = none

/-- The act makes no binding with a defining form, whether it succeeds or fails. -/
def DefinesNothing (act : Act α) : Prop := ∀ w, BindsPlainly w (worldAfter act w)

theorem BindsPlainly.of_frames_eq {w w' : World} (h : w'.frames = w.frames) : BindsPlainly w w' := by
  intro id name b hb
  rw [World.frame_congr h] at hb
  exact .inl hb

theorem BindsPlainly.trans {w w' w'' : World} (h : BindsPlainly w w') (h' : BindsPlainly w' w'') :
    BindsPlainly w w'' := by
  intro id name b hb
  rcases h' id name b hb with hb | hnone
  · exact h id name b hb
  · exact .inr hnone

namespace DefinesNothing

theorem of_frames_eq {act : Act α} (h : ∀ w, (worldAfter act w).frames = w.frames) : DefinesNothing act :=
  fun w => .of_frames_eq (h w)

theorem of_quiet {act : Act α} (h : Quiet act) : DefinesNothing act :=
  of_frames_eq fun w => congrArg Evaluation.frames (h w).evaluation

theorem pure (a : α) : DefinesNothing (Pure.pure a) := fun _ => .of_frames_eq rfl

theorem fail (f : Fault) : DefinesNothing (EditableLisp.fail f : Act α) := fun _ => .of_frames_eq rfl

theorem bind {act : Act α} {f : α → Act β} (h : DefinesNothing act) (hf : ∀ a, DefinesNothing (f a)) :
    DefinesNothing (act >>= f) := by
  intro w
  have hfirst := h w
  cases e : act w with
  | ok a w₁ =>
    rw [worldAfter_of_ok e] at hfirst
    rw [worldAfter, bind_of_eq_ok e]
    exact hfirst.trans (hf a w₁)
  | error b w₁ =>
    rw [worldAfter_of_error e] at hfirst
    rw [worldAfter_of_error (bind_of_eq_error e)]
    exact hfirst

/-- What follows an act that leaves evaluations alone. -/
theorem after {act : Act α} {f : α → Act β} (h : Quiet act) (hf : ∀ a, DefinesNothing (f a)) :
    DefinesNothing (act >>= f) := (of_quiet h).bind hf

theorem failWith {act : Act α} (h : Quiet act) (f : α → Fault) :
    DefinesNothing (act >>= fun a => (EditableLisp.fail (f a) : Act β)) := after h fun _ => fail _

end DefinesNothing

theorem definesNothing_define (env : Env) (name : String) (v : Value) :
    DefinesNothing (liftM (define env name v)) := by
  intro w id other b hb
  have hb : ((w.bind env.frame name ⟨v, none⟩).frame id).get? other = some b := hb
  rw [World.frame_bind] at hb
  split at hb
  · rename_i hid
    rw [Frame.get?_put] at hb
    split at hb
    · cases hb
      exact .inr rfl
    · rw [hid.1]
      exact .inl hb
  · exact .inl hb

theorem definesNothing_newChild (env : Env) : DefinesNothing (liftM (newChild env)) := by
  intro w id name b hb
  have hb : ((newChild env w).2.frame id).get? name = some b := hb
  rw [frame_newChild] at hb
  exact .inl hb

namespace Pattern

mutual

/-- What a pattern binds has no defining form. -/
theorem definesNothing_destructure (env : Env) (pattern value : Value) :
    DefinesNothing (destructure env pattern value) := by
  match pattern with
  | .symbol _ name =>
    unfold destructure
    exact definesNothing_define env name value
  | .seq .vector node items =>
    unfold destructure
    split
    · exact definesNothing_destructureItems env _ _ _ _ items
    · exact .after (quiet_print _) fun _ => .failWith (quiet_print _) _
  | .nil | .bool _ | .num _ | .text _ | .keyword _ | .seq .list _ _ | .map _ _ | .builtin _ _ _
  | .closure _ _ _ _ _ _ | .atom _ =>
    unfold destructure
    exact .failWith (quiet_print _) _

theorem definesNothing_destructureItems (env : Env) (whole : Value) (wanted got : Nat) (values items : List Value) :
    DefinesNothing (destructureItems env whole wanted got values items) := by
  match items with
  | [] =>
    unfold destructureItems
    refine .of_quiet ?_
    split <;> simp
  | item :: rest =>
    unfold destructureItems
    split
    · split
      · exact .after (quiet_newVector _) fun _ => definesNothing_destructure env _ _
      · exact .failWith (quiet_print _) _
    · split
      · exact (definesNothing_destructure env item _).bind fun _ =>
          definesNothing_destructureItems env whole wanted got _ rest
      · exact .fail _

end

end Pattern

namespace Machine

variable {stack : List Pending} {env : Env} {call : Call}

theorem definesNothing_enter (env : Env) (params : Value) (args : List Value) :
    DefinesNothing (enter env params args) := by
  refine (definesNothing_newChild env).bind fun frame => ?_
  refine .after (quiet_newVector args) fun vector => ?_
  exact (Pattern.definesNothing_destructure frame params vector).bind fun _ => .pure _

theorem definesNothing_apply (f : Value) (args : List Value) : DefinesNothing (apply f args stack) := by
  unfold apply
  split
  · exact .after (Builtin.quiet_run _ _) fun _ => .pure _
  · exact (definesNothing_enter _ _ _).bind fun _ => .pure _
  · exact .failWith (quiet_print _) _

theorem definesNothing_evalArgs (f : Value) (rest : List Value) (done : Array Value) :
    DefinesNothing (evalArgs f call rest done env stack) := by
  unfold evalArgs
  split
  · exact .pure _
  · exact definesNothing_apply f _

theorem definesNothing_servedForm? (f : Value) : DefinesNothing (liftM (servedForm? call f)) := by
  unfold servedForm?
  rw [lift_bind]
  refine .after Quiet.lift_get fun w => ?_
  split
  · split
    · split
      · rw [lift_bind]
        exact DefinesNothing.bind (.of_frames_eq (frames_recordAll _)) fun _ => .pure _
      · rw [lift_bind]
        exact .after (quiet_instantiate _ _) fun _ => .pure _
      · exact .pure _
    · exact .pure _
  · exact .pure _

/-- The call of an expander binds its parameters, and nothing else. -/
theorem definesNothing_expandCall (f : Value) (target : Option Env) :
    DefinesNothing (expandCall call f target stack) := by
  refine (definesNothing_servedForm? f).bind fun served => ?_
  split
  · exact .pure _
  · unfold expandAnew
    split
    · refine .after (Builtin.quiet_evaluate _ _).recorded fun form => ?_
      exact DefinesNothing.bind (.of_frames_eq fun _ => rfl) fun _ => .pure _
    · refine (definesNothing_enter _ _ _).bind fun frame => ?_
      split
      · refine .after (quiet_instantiate _ _) fun form => ?_
        exact DefinesNothing.bind (.of_frames_eq fun _ => rfl) fun _ => .pure _
      · exact DefinesNothing.bind (.of_frames_eq fun _ => rfl) fun _ => .pure _
    · exact .failWith (quiet_print _) _

theorem definesNothing_expandOnce (form : Value) (env : Env) : DefinesNothing (expandOnce form env stack) := by
  unfold expandOnce
  split
  · split
    · refine .after Quiet.get fun w => ?_
      split
      · split
        · exact definesNothing_expandCall _ _
        · exact .pure _
      · exact .pure _
    · exact .pure _
  · exact .pure _

theorem definesNothing_begin (f : Value) : DefinesNothing (begin f call env stack) := by
  unfold begin
  split
  · exact .failWith (quiet_print _) _
  · split
    · exact definesNothing_expandCall f _
    · refine DefinesNothing.bind (.of_frames_eq (frames_markOrdinary call)) fun _ => ?_
      exact definesNothing_evalArgs f _ _

theorem definesNothing_quasiItems (shape : Shape) (total : Nat) (rest : List Value) (done : Array Value) :
    DefinesNothing (quasiItems shape total rest done env stack) := by
  unfold quasiItems
  split
  · exact .after (quiet_newSeq _ _) fun _ => .pure _
  · refine .after (quiet_spliced? _) fun form => ?_
    split <;> exact .pure _

/-- The special forms that end in a definition are those that bind a name to a closure. -/
theorem definesNothing_evalSpecial {special : Special} (h : ∀ kind, special ≠ .named kind) :
    DefinesNothing (evalSpecial special call env stack) := by
  cases special with
  | named kind => exact absurd rfl (h kind)
  | definition =>
    unfold evalSpecial evalDefinition
    dsimp only
    split
    · exact .pure _
    · exact .failWith (quiet_print _) _
  | anonymous kind =>
    unfold evalSpecial evalAnonymous
    dsimp only
    split
    · exact .after (quiet_makeClosure _ _ _ _) fun _ => .pure _
    · exact .failWith (quiet_print _) _
  | bindings =>
    unfold evalSpecial evalLet
    dsimp only
    split
    · split
      · exact .fail _
      · exact (definesNothing_newChild env).bind fun _ => .pure _
    · exact .failWith (quiet_print _) _
  | conditional =>
    unfold evalSpecial evalConditional
    dsimp only
    split
    · exact .pure _
    · exact .pure _
    · exact .failWith (quiet_print _) _
  | quote | quasiquote | evaluate => exact .after (quiet_onlyArgument _ _) fun _ => .pure _
  | macroexpand => exact .after (quiet_onlyArgument _ _) fun form => definesNothing_expandOnce form env
  | body | conjunction | disjunction => exact .pure _

theorem definesNothing_evalVector (total : Nat) (rest : List Value) (done : Array Value) :
    DefinesNothing (liftM (evalVector total rest done env stack)) := by
  unfold evalVector
  split
  · exact .pure _
  · rw [lift_bind]
    exact .after (quiet_newVector _) fun _ => .pure _

theorem definesNothing_evalMap (total : Nat) (rest : Entries) (done : Array (Key × Value)) :
    DefinesNothing (liftM (evalMap total rest done env stack)) := by
  unfold evalMap
  split
  · exact .pure _
  · rw [lift_bind]
    exact .after (quiet_newMap _) fun _ => .pure _

theorem definesNothing_keepResults (v : Value) (nodes : List Value) :
    DefinesNothing (liftM (keepResults v nodes)) := by
  induction nodes with
  | nil => exact .pure _
  | cons node rest ih =>
    unfold keepResults
    rw [lift_bind]
    exact DefinesNothing.bind (.of_frames_eq (frames_setResult node v)) fun _ => ih

/-- What is pending goes on without a definition, unless it is one. -/
theorem definesNothing_resume (v : Value) (h : ∀ name call env below, stack ≠ .definition name call env :: below) :
    DefinesNothing (resume v stack) := by
  cases stack with
  | nil => exact .pure _
  | cons p below =>
    cases p with
    | definition name call env => exact absurd rfl (h name call env below)
    | head call env => exact definesNothing_begin v
    | args f call rest done env => exact definesNothing_evalArgs f _ _
    | binding index pattern rest call env =>
      exact (Pattern.definesNothing_destructure env _ _).bind fun _ => .pure _
    | quasi shape total rest done splice env =>
      exact .after (quiet_addQuasi _ _ _) fun _ => definesNothing_quasiItems _ _ _ _
    | expansion call maker depth target =>
      refine DefinesNothing.bind (.of_frames_eq (frames_finishRecording depth)) fun reads => ?_
      exact DefinesNothing.bind (.of_frames_eq fun _ => rfl) fun _ => .pure _
    | vector total rest done env => exact definesNothing_evalVector _ _ _
    | map total key rest done env => exact definesNothing_evalMap _ _ _
    | memo nodes => exact (definesNothing_keepResults _ _).bind fun _ => .pure _
    | job job => exact .after (Job.quiet_resume _ _) fun _ => .pure _
    | body | evaluate => exact .pure _
    | branch | conjunction | disjunction =>
      unfold resume
      dsimp only
      split <;> exact .pure _

end Machine

/-! ## Definitions -/

/-- A state ends the definition `call` of a name in the innermost frame of a chain with its next step: it hands
the value on to the pending `def`, or it evaluates one of the forms that bind a name to a closure. -/
inductive State.Defines (w : World) (name : String) (call : Call) (env : Env) : State → Prop where
  | value {control : Control} {v : Value} {below : List Pending} : control.passed? w = some v →
      Defines w name call env ⟨control, .definition name call env :: below⟩
  | named {kind : ClosureKind} {stack : List Pending} {head : Value} {id : NodeId} {params : Value}
      {body : List Value} : call.node.style ≠ .program →
      (Value.headName? call.items).bind Special.ofName? = some (.named kind) →
      call.items = head :: .symbol id name :: params :: body →
      Defines w name call env ⟨.eval call.toValue env, stack⟩

namespace Machine

variable {w w' : World} {s s' : State}

/-- A binding with a form is written. -/
theorem site_of_defineAt {env : Env} {name : String} {v site : Value} {id : FrameId} {other : String} {b : Binding}
    (h : ((w.bind env.frame name ⟨v, some site⟩).frame id).get? other = some b) :
    (w.frame id).get? other = some b ∨ id = env.frame ∧ other = name ∧ b.site = some site := by
  rw [World.frame_bind] at h
  split at h
  · rename_i hid
    rw [Frame.get?_put] at h
    split at h
    · rename_i hname
      cases h
      exact .inr ⟨hid.1, hname, rfl⟩
    · rw [hid.1]
      exact .inl h
  · exact .inl h

/-- A form that binds a name to a closure makes the closure, and then the binding with the form. -/
theorem evalNamed_eq {call : Call} {head : Value} {id : NodeId} {name : String} {params : Value} {body : List Value}
    (h : call.items = head :: .symbol id name :: params :: body) (kind : ClosureKind) (env : Env)
    (stack : List Pending) : evalNamed kind call env stack =
      if kind = .template ∧ call.items.length ≠ 4 then EditableLisp.fail .templateShape
      else makeClosure params body env kind >>= fun f =>
        (liftM (defineAt env name f call.toValue) : Act Unit) >>= fun _ => pure ⟨.ret f, stack⟩ := by
  unfold evalNamed
  rw [h]

/-- What a form that binds a name to a closure leaves in the frames. -/
theorem sites_of_evalNamed {call : Call} {env : Env} {stack : List Pending} {kind : ClosureKind} {frame : FrameId}
    {name : String} {b : Binding}
    (h : ((worldAfter (evalNamed kind call env stack) w).frame frame).get? name = some b) :
    (w.frame frame).get? name = some b ∨ b.site = none ∨ ∃ head id params body,
      call.items = head :: .symbol id name :: params :: body ∧ frame = env.frame ∧ b.site = some call.toValue := by
  by_cases hitems : ∃ head id other params body, call.items = head :: .symbol id other :: params :: body
  · obtain ⟨head, id, other, params, body, hitems⟩ := hitems
    rw [evalNamed_eq hitems] at h
    split at h
    · exact .inl h
    · have hquiet := (quiet_makeClosure params body env kind w).evaluation
      cases hmake : makeClosure params body env kind w with
      | error e w₁ =>
        rw [worldAfter_of_error hmake] at hquiet
        rw [worldAfter_of_error (bind_of_eq_error hmake), World.frame_congr (congrArg Evaluation.frames hquiet)] at h
        exact .inl h
      | ok f w₁ =>
        rw [worldAfter_of_ok hmake] at hquiet
        rw [worldAfter, bind_of_eq_ok hmake] at h
        rcases site_of_defineAt h with h | ⟨hframe, rfl, hsite⟩
        · rw [World.frame_congr (congrArg Evaluation.frames hquiet)] at h
          exact .inl h
        · exact .inr (.inr ⟨head, id, params, body, hitems, hframe, hsite⟩)
  · have hnothing : DefinesNothing (evalNamed kind call env stack) := by
      unfold evalNamed
      split
      · exact .fail _
      · split
        · rename_i head id other params body he
          exact absurd ⟨head, id, other, params, body, he⟩ hitems
        · exact .failWith (quiet_print _) _
    exact (hnothing w frame name b h).imp_right .inl

/-- **A step makes a binding with a defining form only if it ends a definition**, and the form is this
definition. Parameters and `let` make bindings without one. -/
theorem sites_of_step {frame : FrameId} {name : String} {b : Binding}
    (h : ((worldAfter (step s) w).frame frame).get? name = some b) :
    (w.frame frame).get? name = some b ∨ b.site = none ∨ ∃ call env,
      s.Defines w name call env ∧ frame = env.frame ∧ b.site = some call.toValue := by
  have plainly : ∀ {act : Act State}, DefinesNothing act → worldAfter (step s) w = worldAfter act w →
      (w.frame frame).get? name = some b ∨ b.site = none ∨ ∃ call env,
        s.Defines w name call env ∧ frame = env.frame ∧ b.site = some call.toValue := by
    intro act hact heq
    rw [heq] at h
    exact (hact w frame name b h).imp_right .inl
  obtain ⟨control, stack⟩ := s
  cases hp : control.passed? w with
  | some v =>
    obtain ⟨results, sites, recordings, hstep⟩ := step_of_passed hp stack
    generalize hw₁ : ({ w with results := results, sites := sites, recordings := recordings } : World) = w₁ at hstep
    have hframes : w₁.frames = w.frames := hw₁ ▸ rfl
    have hafter : worldAfter (step ⟨control, stack⟩) w = worldAfter (resume v stack) w₁ := by
      unfold worldAfter
      rw [hstep]
    rw [hafter] at h
    by_cases hdef : ∃ other call env below, stack = .definition other call env :: below
    · obtain ⟨other, call, env, below, rfl⟩ := hdef
      rcases site_of_defineAt h with h | ⟨hframe, rfl, hsite⟩
      · rw [World.frame_congr hframes] at h
        exact .inl h
      · exact .inr (.inr ⟨call, env, .value hp, hframe, hsite⟩)
    · have hnothing := @definesNothing_resume stack v fun other call env below he =>
        hdef ⟨other, call, env, below, he⟩
      have hnew := hnothing w₁ frame name b h
      rw [World.frame_congr hframes] at hnew
      exact hnew.imp_right .inl
  | none =>
    cases control with
    | ret v => cases hp
    | landed v => exact plainly (.pure _) rfl
    | call f args => exact plainly (definesNothing_apply f args) rfl
    | quasi form env =>
      cases form with
      | seq shape node items =>
        refine @plainly (quasi (.seq shape node items) env stack) ?_ rfl
        unfold quasi
        dsimp only
        split
        · split
          · exact .pure _
          · exact .fail _
        · split
          · rename_i hempty
            cases (if_pos hempty).symm.trans hp
          · exact definesNothing_quasiItems _ _ _ _
      | _ => cases hp
    | eval form env =>
      cases form with
      | symbol id other =>
        have herror : step ⟨.eval (.symbol id other) env, stack⟩ w = .error (.fault (.unbound other)) w :=
          bind_of_eq_error (lookup_of_none hp)
        rw [worldAfter_of_error herror] at h
        exact .inl h
      | map node entries =>
        cases entries with
        | nil => cases hp
        | cons => exact plainly (definesNothing_evalMap _ _ _) rfl
      | seq shape node items =>
        cases shape with
        | vector =>
          cases items with
          | nil => cases hp
          | cons => exact plainly (definesNothing_evalVector _ _ _) rfl
        | list =>
          by_cases hstyle : node.style = .program
          · exact plainly (.pure _) (congrArg (worldAfter · w) (if_pos hstyle))
          · cases items with
            | nil => cases (if_pos ⟨rfl, fun hn => hstyle hn.2⟩ : ite _ _ _ = some _).symm.trans hp
            | cons head rest =>
              have hlist : step ⟨.eval (.seq .list node (head :: rest)) env, stack⟩ = _ := if_neg hstyle
              cases hspecial : (Value.headName? (head :: rest)).bind Special.ofName? with
              | none =>
                rw [hspecial] at hlist
                exact plainly (.pure _) (congrArg (worldAfter · w) hlist)
              | some special =>
                rw [hspecial] at hlist
                by_cases hnamed : ∃ kind, special = .named kind
                · obtain ⟨kind, rfl⟩ := hnamed
                  rw [hlist] at h
                  rcases sites_of_evalNamed h with h | hnone | ⟨_, _, _, _, hitems, hframe, hsite⟩
                  · exact .inl h
                  · exact .inr (.inl hnone)
                  · exact .inr (.inr ⟨⟨node, head :: rest⟩, env, .named hstyle hspecial hitems, hframe, hsite⟩)
                · exact plainly (definesNothing_evalSpecial fun kind he => hnamed ⟨kind, he⟩)
                    (congrArg (worldAfter · w) hlist)
      | _ => cases hp

end Machine

open Machine in
/-- A step that ends a definition, and succeeds, leaves the binding with the definition. -/
theorem State.Defines.recorded {w w' : World} {s s' : State} {name : String} {call : Call} {env : Env}
    (h : s.Defines w name call env) (hframe : env.frame < w.frames.size) (hstep : step s w = .ok s' w') :
    ∃ v, (w'.frame env.frame).get? name = some ⟨v, some call.toValue⟩ := by
  have written : ∀ {w₁ : World} (v : Value), w₁.frames = w.frames →
      ((w₁.bind env.frame name ⟨v, some call.toValue⟩).frame env.frame).get? name =
        some ⟨v, some call.toValue⟩ := by
    intro w₁ v hframes
    rw [World.frame_bind, if_pos ⟨rfl, hframes ▸ hframe⟩, Frame.get?_put, if_pos rfl]
  cases h with
  | @value control v below hp =>
    obtain ⟨results, sites, recordings, hpassed⟩ := step_of_passed hp (.definition name call env :: below)
    rw [hpassed] at hstep
    cases hstep
    exact ⟨v, @written { w with results := results, sites := sites, recordings := recordings } v rfl⟩
  | @named kind stack head id params body hstyle hspecial hitems =>
    have hlist : step ⟨.eval call.toValue env, stack⟩ = evalNamed kind call env (memo call.toValue stack) := by
      have hlist : step ⟨.eval call.toValue env, stack⟩ = _ := if_neg hstyle
      rw [hspecial] at hlist
      obtain ⟨node, items⟩ := call
      obtain rfl : items = head :: .symbol id name :: params :: body := hitems
      exact hlist
    rw [hlist, evalNamed_eq hitems] at hstep
    split at hstep
    · cases hstep
    · obtain ⟨f, w₁, hmake, hdefine⟩ := bind_eq_ok hstep
      have hquiet := (quiet_makeClosure params body env kind w).evaluation
      rw [worldAfter_of_ok hmake] at hquiet
      cases hdefine
      exact ⟨f, written f (congrArg Evaluation.frames hquiet)⟩

/-! ## Symbols -/

namespace Machine

variable {w : World}

/-- What the evaluation of a symbol keeps before it hands the value on. -/
theorem exists_evalSymbol {id : NodeId} {name : String} {env : Env} {b : Binding}
    (h : w.binding? env name = some b) (stack : List Pending) : ∃ w₁ : World,
      step ⟨.eval (.symbol id name) env, stack⟩ w = resume b.value stack w₁ ∧ w₁.frames = w.frames ∧
      w₁.results = w.results.set id b.value ∧
      w₁.sites = match b.site with
        | some site => w.sites.set id site
        | none => w.sites := by
  have hlookup : w.lookup? env name = some b.value := by rw [World.lookup?_eq, h, Option.map_some]
  -- The value is recorded for the expansions in progress and kept on the symbol; the link comes last.
  let kept : World := (setResult (.symbol id name) b.value (record env name b.value w).2).2
  have hrecord : (record env name b.value w).2 =
      { w with recordings := w.recordings.modifyHead ([⟨env, name, b.value⟩].reverse ++ ·) } :=
    recordAll_snd [⟨env, name, b.value⟩] w
  have hframes : kept.frames = w.frames := (congrArg World.frames hrecord :)
  have hresults : kept.results = w.results.set id b.value :=
    (congrArg (fun w : World => w.results.set id b.value) hrecord :)
  have hsites : kept.sites = w.sites := (congrArg World.sites hrecord :)
  have hsite : kept.site? env name = b.site := by
    rw [World.site?_eq, World.binding?_congr fun id _ => World.frame_congr hframes id, h, Option.bind_some]
  have hstep : step ⟨.eval (.symbol id name) env, stack⟩ w =
      (match kept.site? env name with
        | some site => (liftM (setSite id site) : Act Unit) >>= fun _ => resume b.value stack
        | none => resume b.value stack) kept := by
    show evalSymbol id name env stack w = _
    unfold evalSymbol
    rw [bind_of_eq_ok (lookup_of_some hlookup), bind_lift, bind_lift]
    exact Act.get_bind _ kept
  rw [hsite] at hstep
  cases hs : b.site with
  | some site =>
    rw [hs] at hstep
    exact ⟨(setSite id site kept).2, hstep, hframes, hresults, congrArg (Table.set · id site) hsites⟩
  | none =>
    rw [hs] at hstep
    exact ⟨kept, hstep, hframes, hresults, hsites⟩

/-- **What a symbol keeps when it is evaluated.** In every frame and state, a symbol that no frame of the chain
binds fails and changes nothing; else the value of the binding in the nearest frame that binds it is kept and
handed on, and the defining form of that binding, if it has one, is kept as the link. The link is the form of the
binding, or nothing if it has none, unless the binding has none and the node was left a link before. A binding has
a form if it was made by the definition with this form, and has none if it was made otherwise: by a host, by `let`
or for a parameter. -/
theorem evalSymbol_binding (id : NodeId) (name : String) (env : Env) (stack : List Pending) (w : World) :
    ((∀ frame ∈ env.frames, (w.frame frame).get? name = none) →
      step ⟨.eval (.symbol id name) env, stack⟩ w = .error (.fault (.unbound name)) w) ∧
    (∀ above frame below b, env.frames = above ++ frame :: below →
      (∀ inner ∈ above, (w.frame inner).get? name = none) → (w.frame frame).get? name = some b → ∃ w',
        step ⟨.eval (.symbol id name) env, stack⟩ w = resume b.value stack w' ∧ w'.frames = w.frames ∧
        w'.results.get? id = some b.value ∧
        (w'.sites.get? id = b.site ↔ b.site.isSome ∨ w.sites.get? id = none) ∧
        (b.site = none → w'.sites.get? id = w.sites.get? id) ∧
        ∀ other ≠ id, w'.results.get? other = w.results.get? other ∧ w'.sites.get? other = w.sites.get? other) ∧
    (∀ s w frame name b, ((worldAfter (step s) w).frame frame).get? name = some b →
      (w.frame frame).get? name = some b ∨ b.site = none ∨ ∃ call env,
        s.Defines w name call env ∧ frame = env.frame ∧ b.site = some call.toValue) ∧
    (∀ s w s' w' name call env, s.Defines w name call env → env.frame < w.frames.size →
      step s w = .ok s' w' → ∃ v, (w'.frame env.frame).get? name = some ⟨v, some call.toValue⟩) ∧
    ∀ (env : Env) name v w, env.frame < w.frames.size →
      ((define env name v w).2.frame env.frame).get? name = some ⟨v, none⟩ := by
  refine ⟨fun hunbound => ?_, fun above frame below b hframes habove hb => ?_, fun s w frame name b => sites_of_step,
    fun s w s' w' name call env hdef => hdef.recorded, fun env name v w hframe => ?_⟩
  · have hnone : w.lookup? env name = none := by
      rw [World.lookup?_eq, World.binding?, World.bindingIn?_eq_none_iff.mpr hunbound, Option.map_none]
    exact bind_of_eq_error (lookup_of_none hnone)
  · have hbinding : w.binding? env name = some b := by
      rw [World.binding?, hframes, World.bindingIn?_append habove hb]
    obtain ⟨w', hstep, hframes', hresults, hsites⟩ := @exists_evalSymbol w id name env b hbinding stack
    refine ⟨w', hstep, hframes', by rw [hresults, Table.get?_set, if_pos rfl], ?_, fun hnone => ?_,
      fun other hother => ⟨by rw [hresults, Table.get?_set, if_neg hother], ?_⟩⟩
    · cases hsite : b.site with
      | some site =>
        rw [hsites, hsite]
        simp
      | none =>
        rw [hsites, hsite]
        simp
    · rw [hsites, hnone]
    · cases hsite : b.site with
      | some site =>
        rw [hsites, hsite]
        simp [hother]
      | none => rw [hsites, hsite]
  · have hwritten : (define env name v w).2 = w.bind env.frame name ⟨v, none⟩ := rfl
    rw [hwritten, World.frame_bind, if_pos ⟨rfl, hframe⟩, Frame.get?_put, if_pos rfl]

/-- A symbol is read, and then a definition of its name is read and evaluated. -/
def definesGlobally : Bool :=
  match EditableLisp.readForm "x" World.initial with
  | (.ok (.symbol _ name), w₁) =>
    match EditableLisp.readForm "(def x 1)" w₁ with
    | (.ok form, w₂) =>
      match evalIn 9 form .global w₂ with
      | .ok _ w₃ =>
        match (w₃.frame Env.global.frame).get? name with
        | some b => b.site.any form.identical
        | none => false
      | _ => false
    | _ => false
  | _ => false

/-- The symbol is evaluated after the definition: it keeps the value, and the definition is its link. -/
theorem evalSymbol_binding_defined : ∃ (s : Session) (id : NodeId) (name : String) (form v site : Value) (w' : World),
    s.Reachable ∧ s.Has (.symbol id name) ∧ s.Has form ∧ form.identical site = true ∧
      step ⟨.eval (.symbol id name) .global, []⟩ s.world = resume v [] w' ∧ w'.results.get? id = some v ∧
      w'.sites.get? id = some site := by
  have test : definesGlobally = true := by decide +kernel
  unfold definesGlobally at test
  split at test
  · rename_i id name w₁ hx
    split at test
    · rename_i form w₂ hform
      split at test
      · rename_i u w₃ hdef
        split at test
        · rename_i b hb
          obtain ⟨site, hsite, hsame⟩ := (Option.any_eq_true _ _).mp test
          let x : Value := .symbol id name
          let read : Session := ⟨w₂, [form, x], [], []⟩
          let defined : Session := ⟨w₃, [u, form, x], [], []⟩
          have hread : read.Reachable :=
            (Session.Reachable.bare.step (Session.Step.readForm hx)).step (Session.Step.readForm hform)
          have hdefined : defined.Reachable := hread.step (.evaluate (.held List.mem_cons_self) .global hdef)
          obtain ⟨w', hstep, -, hresult, hlink, -⟩ :=
            (evalSymbol_binding id name .global [] w₃).2.1 [] Env.global.frame [] b rfl (List.forall_mem_nil _) hb
          refine ⟨defined, id, name, form, b.value, site, w', hdefined, .held (List.mem_of_getElem? (i := 2) rfl),
            .held (List.mem_of_getElem? (i := 1) rfl), hsame, hstep, hresult, ?_⟩
          exact (hlink.mpr (.inl (Option.isSome_of_eq_some hsite))).trans hsite
        · cases test
      · cases test
    · cases test
  · cases test

end Machine

namespace Session

/-- A name is defined and evaluated, bound by the host, and the same symbol is evaluated again. -/
def leavesStaleSite : Bool :=
  match EditableLisp.readForm "x" World.initial with
  | (.ok (.symbol id name), w₁) =>
    match EditableLisp.readForm "(def x 1)" w₁ with
    | (.ok form, w₂) =>
      match evalIn 9 form .global w₂ with
      | .ok _ w₃ =>
        match evalIn 9 (.symbol id name) .global w₃ with
        | .ok _ w₄ =>
          match EditableLisp.readForm "2" w₄ with
          | (.ok other, w₅) =>
            match evalIn 9 (.symbol id name) .global (define .global "x" other w₅).2 with
            | .ok _ w₆ => ((w₆.binding? .global name).any fun b => b.site.isNone) && (w₆.sites.get? id).isSome
            | _ => false
          | _ => false
        | _ => false
      | _ => false
    | _ => false
  | _ => false

/-- **A link may lead to a form that did not make the binding.** The symbol was evaluated after the definition,
and again after the host bound the name: the binding has no form, and the link is still there. -/
theorem stale_site : ∃ (s : Session) (id : NodeId) (name : String) (v site : Value) (b : Binding) (w : World),
    s.Reachable ∧ s.Has (.symbol id name) ∧ evalIn 9 (.symbol id name) .global s.world = .ok v w ∧
      w.binding? .global name = some b ∧ b.site = none ∧ w.sites.get? id = some site := by
  have test : leavesStaleSite = true := by decide +kernel
  unfold leavesStaleSite at test
  split at test
  · rename_i id name w₁ hx
    split at test
    · rename_i form w₂ hform
      split at test
      · rename_i v w₃ hdef
        split at test
        · rename_i u w₄ hfirst
          split at test
          · rename_i other w₅ hother
            split at test
            · rename_i last w₆ hlast
              obtain ⟨hbinding, hsite⟩ := Bool.and_eq_true_iff.mp test
              obtain ⟨b, hb, hnone⟩ := (Option.any_eq_true _ _).mp hbinding
              obtain ⟨site, hsite⟩ := Option.isSome_iff_exists.mp hsite
              let x : Value := .symbol id name
              let read : Session := ⟨w₂, [form, x], [], []⟩
              let run : Session := ⟨w₄, [u, v, form, x], [], []⟩
              let bound : Session := ⟨(define .global "x" other w₅).2, [other, u, v, form, x], [], []⟩
              have hread : read.Reachable := (Reachable.bare.step (Step.readForm hx)).step (Step.readForm hform)
              have hdefined : Session.Reachable ⟨w₃, [v, form, x], [], []⟩ :=
                hread.step (.evaluate (.held List.mem_cons_self) .global hdef)
              have hrun : run.Reachable :=
                hdefined.step (.evaluate (.held (List.mem_of_getElem? (i := 2) rfl)) .global hfirst)
              have hbound : bound.Reachable := by
                have hready := hrun.step (Step.readForm hother)
                refine hready.step (@Step.served _ (.define .global "x" other) [] _
                  (List.forall_mem_singleton.mpr (.held List.mem_cons_self)) ?_ rfl)
                rintro _ ⟨⟩
                exact .global
              have hx : bound.Has x := .held (List.mem_of_getElem? (i := 4) rfl)
              exact ⟨bound, id, name, last, site, b, w₆, hbound, hx, hlast, hb,
                Option.isNone_iff_eq_none.mp hnone, hsite⟩
            · cases test
          · cases test
        · cases test
      · cases test
    · cases test
  · cases test

end Session

end EditableLisp
