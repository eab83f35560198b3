import EditableLisp.Proofs.Direct
import EditableLisp.Proofs.MirroredRules

/-!
# Evaluation in worlds that mirror each other

The rules of the language keep the correspondence between a world and its mirror image: a form and the
renamed form come to the same (`Direct.mirrored_parts`). So the identities that nodes, functions and keywords
happen to have never show in a value, a failure, the output or the files.
-/

namespace EditableLisp.Direct

variable {m : Mirror} {p : Parts}

/-- Evaluators that do the same in worlds that mirror each other. -/
structure Parts.Mirrored (m : Mirror) (p : Parts) : Prop where
  eval : ∀ form env, Sim m (p.eval form env) (p.eval (rename m.ρ form) env)
  quasi : ∀ form env, Sim m (p.quasi form env) (p.quasi (rename m.ρ form) env)
  call : ∀ f args, Sim m (p.call f args) (p.call (rename m.ρ f) (rename m.ρ args))

theorem sim_remember {node node' : Value} {act act' : Act Value} (h : Sim m act act') :
    Sim m (remember node act) (remember node' act') :=
  h.bind fun v => (sim_setResult node v node' (rename m.ρ v)).bind fun _ => .pure rfl

section rules

variable (hp : p.Mirrored m)

include hp

/-! ## Sequences of forms -/

theorem sim_evalEach (env : Env) (forms : List Value) :
    Sim m (evalEach p env forms) (evalEach p env (rename m.ρ forms)) := by
  induction forms with
  | nil => exact .pure rfl
  | cons form rest ih => exact (hp.eval form env).bind fun v => ih.bind fun vs => .pure rfl

theorem sim_evalEntries (env : Env) (entries : Entries) :
    Sim m (evalEntries p env entries) (evalEntries p env (rename m.ρ entries)) := by
  induction entries with
  | nil => exact .pure rfl
  | cons e rest ih => exact (hp.eval e.2 env).bind fun v => ih.bind fun vs => .pure rfl

theorem sim_evalBody (env : Env) (forms : List Value) :
    Sim m (evalBody p env forms) (evalBody p env (rename m.ρ forms)) := by
  match forms with
  | [] => exact .pure rfl
  | [form] => exact hp.eval form env
  | form :: next :: rest => exact (hp.eval form env).bind fun _ => sim_evalBody env (next :: rest)

theorem sim_evalConjunction (env : Env) (forms : List Value) :
    Sim m (evalConjunction p env forms) (evalConjunction p env (rename m.ρ forms)) := by
  match forms with
  | [] => exact .pure rfl
  | [form] => exact hp.eval form env
  | form :: next :: rest =>
    refine (hp.eval form env).bind fun v => ?_
    rw [Value.isTruthy_rename]
    exact .ite (sim_evalConjunction env (next :: rest)) (.pure rfl)

theorem sim_evalDisjunction (env : Env) (forms : List Value) :
    Sim m (evalDisjunction p env forms) (evalDisjunction p env (rename m.ρ forms)) := by
  match forms with
  | [] => exact .pure rfl
  | [form] => exact hp.eval form env
  | form :: next :: rest =>
    refine (hp.eval form env).bind fun v => ?_
    rw [Value.isTruthy_rename]
    exact .ite (.pure rfl) (sim_evalDisjunction env (next :: rest))

theorem sim_bindEach (env : Env) (bindings : List Value) :
    Sim m (bindEach p env bindings) (bindEach p env (rename m.ρ bindings)) := by
  match bindings with
  | [] | [_] => exact .pure rfl
  | pattern :: form :: rest =>
    refine (hp.eval form env).bind fun v => (Pattern.sim_destructure env pattern v).bind fun _ => ?_
    exact sim_bindEach env rest

/-! ## Functions -/

theorem sim_collect (f : Value) (index : Option Nat) (vs : List Value) :
    Sim m (collect p f index vs) (collect p (rename m.ρ f) index (rename m.ρ vs)) := by
  induction vs generalizing index with
  | nil => exact .pure rfl
  | cons v rest ih =>
    have harguments : Job.arguments index (rename m.ρ v) = rename m.ρ (Job.arguments index v) := by
      cases index <;> rfl
    rw [rename_cons]
    unfold collect
    rw [harguments]
    exact (hp.call f _).bind fun r => (ih _).bind fun rs => .pure rfl

theorem sim_keep (f : Value) (wanted : Bool) (vs : List Value) :
    Sim m (keep p f wanted vs) (keep p (rename m.ρ f) wanted (rename m.ρ vs)) := by
  induction vs with
  | nil => exact .pure rfl
  | cons v rest ih =>
    refine (hp.call f [v]).bind fun r => ih.bind fun vs => .pure ?_
    rw [Value.isTruthy_rename]
    split <;> rfl

theorem sim_spread (name : String) (args : List Value) :
    Sim m (spread p name args) (spread p name (rename m.ρ args)) := by
  match args with
  | [] | [_] => exact Argument.sim_wrongArity name _
  | f :: arg :: args =>
    have hall := Argument.sim_items (m := m) ((arg :: args).getLastD .nil)
    rw [← getLastD_rename] at hall
    refine hall.bind fun more => ?_
    show Sim m (p.call f _) (p.call _ ((rename m.ρ (arg :: args)).dropLast ++ rename m.ρ more))
    rw [dropLast_rename, ← rename_append]
    exact hp.call f _

theorem sim_swap (name : String) (args : List Value) :
    Sim m (swap p name args) (swap p name (rename m.ρ args)) := by
  match args with
  | [] | [_] => exact Argument.sim_wrongArity name _
  | a :: f :: extra =>
    refine (Argument.sim_cell a).bind fun id => (sim_readContent id).bind fun old => ?_
    refine (hp.call f (old :: extra)).bind fun v => (sim_setContent id v).bind fun _ => ?_
    exact .pure rfl

theorem sim_callBuiltin (b : Builtin) (args : List Value) :
    Sim m (callBuiltin p b args) (callBuiltin p b (rename m.ρ args)) := by
  have hcollect : ∀ (name : String) (index : Option Nat), Sim m
      (Argument.two name (fun f coll => do newVector (← collect p f index (← Argument.items coll))) args)
      (Argument.two name (fun f coll => do newVector (← collect p f index (← Argument.items coll)))
        (rename m.ρ args)) := fun name index =>
    Argument.sim_two (fun f coll => (Argument.sim_items coll).bind fun items =>
      (sim_collect hp f index items).bind fun vs => sim_newVector vs) name args
  have hkeep : ∀ (name : String) (wanted : Bool), Sim m
      (Argument.two name (fun f coll => do newVector (← keep p f wanted (← Argument.items coll))) args)
      (Argument.two name (fun f coll => do newVector (← keep p f wanted (← Argument.items coll)))
        (rename m.ρ args)) := fun name wanted =>
    Argument.sim_two (fun f coll => (Argument.sim_items coll).bind fun items =>
      (sim_keep hp f wanted items).bind fun vs => sim_newVector vs) name args
  cases b with
  | map => exact hcollect _ none
  | mapIndexed => exact hcollect _ (some 0)
  | filter => exact hkeep _ true
  | remove => exact hkeep _ false
  | apply => exact sim_spread hp _ args
  | swap => exact sim_swap hp _ args
  | _ =>
    simp only [callBuiltin]
    exact Builtin.sim_evaluate _ args

theorem sim_callFunction (f : Value) (args : List Value) :
    Sim m (callFunction p f args) (callFunction p (rename m.ρ f) (rename m.ρ args)) := by
  cases f with
  | builtin id b data => exact sim_callBuiltin hp b args
  | closure id kind params body env data =>
    exact (Machine.sim_enter env params args).bind fun frame => hp.eval body frame
  | _ => exact sim_failShowing .notApplicable _

/-! ## Expanders -/

theorem sim_expandAnew (call : Call) (f : Value) :
    Sim m (expandAnew p call f) (expandAnew p (rename m.ρ call) (rename m.ρ f)) := by
  have hargs : (rename m.ρ call).items.tail = rename m.ρ call.items.tail := tail_rename m.ρ call.items
  have hset : ∀ e : Expansion, Sim m (liftM (setExpansion call.node.id e))
    (liftM (setExpansion (rename m.ρ call).node.id (rename m.ρ e))) := sim_setExpansion call.node.id
  cases f with
  | builtin id b data =>
    rw [rename_builtin]
    unfold expandAnew
    dsimp only
    rw [hargs]
    refine ((Builtin.sim_evaluate b _).recorded (Builtin.quiet_evaluate b _)).bind fun ⟨form, reads⟩ => ?_
    exact (hset (.constant (.builtin id b data) form reads)).bind fun _ => .pure rfl
  | closure id kind params body env data =>
    rw [rename_closure]
    unfold expandAnew
    dsimp only
    rw [hargs]
    refine (Machine.sim_enter env params _).bind fun frame => .ite ?_ ?_
    · refine (sim_instantiate body frame).bind fun form => ?_
      exact (hset (.bound (.closure id kind params body env data) body frame)).bind fun _ => .pure rfl
    · refine Sim.recording (fun depth => ?_) fun depth hdepth => ?_
      · refine (hp.eval body frame).grows.bind fun form => (grows_finishRecording depth).bind fun reads => ?_
        exact (hset (.constant (.closure id kind params body env data) form reads)).grows.bind fun _ =>
          (Quiet.pure form).grows
      · refine (hp.eval body frame).bind fun form => (sim_finishRecording hdepth).bind fun reads => ?_
        exact (hset (.constant (.closure id kind params body env data) form reads)).bind fun _ => .pure rfl
  | _ => exact sim_failShowing .notFunction _

theorem sim_expand (call : Call) (f : Value) :
    Sim m (expand p call f) (expand p (rename m.ρ call) (rename m.ρ f)) := by
  refine (Machine.sim_servedForm? call f).bind fun served => ?_
  cases served with
  | some form => exact .pure rfl
  | none => exact sim_expandAnew hp call f

theorem sim_expandOnce (form : Value) (env : Env) :
    Sim m (expandOnce p form env) (expandOnce p (rename m.ρ form) env) := by
  cases form with
  | seq shape node items =>
    rw [rename_seq]
    cases shape with
    | vector => exact .pure (rename_seq ..).symm
    | list =>
      unfold expandOnce
      dsimp only
      rw [Value.headName?_rename]
      cases Value.headName? items with
      | none => exact .pure (rename_seq ..).symm
      | some name =>
        have hcall : ∀ f : Value, Sim m
            (if f.isExpander then expand p ⟨node, items⟩ f else return .seq .list node items)
            (if f.isExpander then expand p (rename m.ρ (⟨node, items⟩ : Call)) (rename m.ρ f) else
              return .seq .list (rename m.ρ node) (rename m.ρ items)) := fun f =>
          .ite (sim_expand hp ⟨node, items⟩ f) (.pure (rename_seq ..).symm)
        refine .get (Quiet.get.grows.bind fun w => ?_) fun w w' hw => ?_
        · cases w.lookup? env name with
          | none => exact (Quiet.pure _).grows
          | some f => exact (hcall f).grows
        · rw [hw.lookup?]
          cases w.lookup? env name with
          | none => exact .pure (rename_seq ..).symm
          | some f =>
            dsimp only [rename_option, Option.map_some]
            rw [Value.isExpander_rename]
            exact hcall f
  | map node entries =>
    rw [rename_map]
    exact .pure (rename_map ..).symm
  | _ => exact .pure rfl

/-! ## Quasiquotation -/

omit hp in
theorem sim_splicedItems (v : Value) : Sim m (splicedItems v) (splicedItems (rename m.ρ v)) := by
  cases v with
  | nil => exact .pure rfl
  | seq shape node items =>
    rw [rename_seq]
    exact .pure rfl
  | _ => exact sim_failShowing .notSpliced _

theorem sim_quasiEach (env : Env) (items : List Value) :
    Sim m (quasiEach p env items) (quasiEach p env (rename m.ρ items)) := by
  induction items with
  | nil => exact .pure rfl
  | cons item rest ih =>
    refine (Machine.sim_spliced? item).bind fun spliced => ?_
    cases spliced with
    | some form =>
      refine (hp.eval form env).bind fun v => (sim_splicedItems v).bind fun vs => ih.bind fun more => ?_
      exact .pure (rename_append ..).symm
    | none => exact (hp.quasi item env).bind fun v => ih.bind fun more => .pure rfl

theorem sim_quasiForm (form : Value) (env : Env) :
    Sim m (quasiForm p form env) (quasiForm p (rename m.ρ form) env) := by
  cases form with
  | seq shape node items =>
    rw [rename_seq]
    unfold quasiForm
    dsimp only
    rw [Value.headName?_rename, isEmpty_rename]
    refine .ite ?_ (.ite (.pure (rename_seq ..).symm) ?_)
    · match items with
      | [_, form] => exact hp.eval form env
      | [] | [_] | _ :: _ :: _ :: _ => exact .fail _
    · exact (sim_quasiEach hp env items).bind fun vs => sim_newSeq shape vs
  | map node entries =>
    rw [rename_map]
    exact .pure (rename_map ..).symm
  | _ => exact .pure rfl

/-! ## Forms -/

theorem sim_evalSpecial (special : Special) (call : Call) (env : Env) :
    Sim m (evalSpecial p special call env) (evalSpecial p special (rename m.ρ call) env) := by
  have hshown : ∀ f : String → Fault, Sim m
      (liftM (print call.toValue) >>= fun shown => (fail (f shown) : Act Value))
      (liftM (print (rename m.ρ call).toValue) >>= fun shown => fail (f shown)) := fun f => by
    rw [Call.toValue_rename]
    exact sim_failShowing f _
  have hdefine : ∀ (name : String) (v : Value), Sim m (liftM (defineAt env name v call.toValue))
      (liftM (defineAt env name (rename m.ρ v) (rename m.ρ call).toValue)) := fun name v => by
    rw [Call.toValue_rename]
    exact sim_defineAt env name v call.toValue
  cases special with
  | definition =>
    obtain ⟨node, items⟩ := call
    match items with
    | _ :: v :: rest =>
      cases v with
      | symbol id name =>
        match rest with
        | [form] => exact (hp.eval form env).bind fun v => (hdefine name v).bind fun _ => .pure rfl
        | [] | _ :: _ :: _ => exact hshown .defShape
      | _ => exact hshown .defShape
    | [] | [_] => exact hshown .defShape
  | named kind =>
    obtain ⟨node, items⟩ := call
    unfold evalSpecial
    dsimp only
    have hlength : (rename m.ρ (⟨node, items⟩ : Call)).items.length = items.length := length_rename m.ρ items
    rw [hlength]
    refine .ite (.fail _) ?_
    match items with
    | _ :: v :: rest =>
      cases v with
      | symbol id name =>
        match rest with
        | params :: body =>
          exact (Machine.sim_makeClosure params body env kind).bind fun f =>
            (hdefine name f).bind fun _ => .pure rfl
        | [] => exact hshown .namedShape
      | _ => exact hshown .namedShape
    | [] | [_] => exact hshown .namedShape
  | anonymous kind =>
    obtain ⟨node, items⟩ := call
    match items with
    | _ :: params :: body => exact Machine.sim_makeClosure params body env kind
    | [] | [_] => exact hshown .anonymousShape
  | bindings =>
    obtain ⟨node, items⟩ := call
    match items with
    | head :: v :: body =>
      cases v with
      | seq shape vector bindings =>
        cases shape with
        | list => exact hshown .letShape
        | vector =>
          have hbody : Sim m
              (do let frame ← newChild env
                  bindEach p frame bindings
                  evalBody p frame body)
              (do let frame ← newChild env
                  bindEach p frame (rename m.ρ bindings)
                  evalBody p frame (rename m.ρ body)) :=
            (sim_newChild env).bind fun frame => (sim_bindEach hp frame bindings).bind fun _ =>
              sim_evalBody hp frame body
          have hcall : rename m.ρ (⟨node, head :: .seq .vector vector bindings :: body⟩ : Call) =
              ⟨rename m.ρ node, rename m.ρ head :: .seq .vector (rename m.ρ vector) (rename m.ρ bindings) ::
                rename m.ρ body⟩ := by
            rw [← rename_seq]
            rfl
          rw [hcall]
          unfold evalSpecial
          dsimp only
          rw [length_rename]
          exact .ite (.fail _) hbody
      | _ => exact hshown .letShape
    | [] | [_] => exact hshown .letShape
  | body =>
    have h := sim_evalBody hp env call.items.tail
    rw [← tail_rename] at h
    exact h
  | conditional =>
    obtain ⟨node, items⟩ := call
    match items with
    | [_, test, yes] =>
      refine (hp.eval test env).bind fun v => ?_
      rw [Value.isTruthy_rename]
      exact .ite (hp.eval yes env) (.pure rfl)
    | [_, test, yes, no] =>
      refine (hp.eval test env).bind fun v => ?_
      rw [Value.isTruthy_rename]
      exact .ite (hp.eval yes env) (hp.eval no env)
    | [] | [_] | [_, _] | _ :: _ :: _ :: _ :: _ :: _ => exact hshown .ifShape
  | quote => exact Machine.sim_onlyArgument "quote" call
  | quasiquote => exact (Machine.sim_onlyArgument "quasiquote" call).bind fun form => hp.quasi form env
  | macroexpand => exact (Machine.sim_onlyArgument "macroexpand" call).bind fun form => sim_expandOnce hp form env
  | evaluate =>
    exact (Machine.sim_onlyArgument "eval" call).bind fun form => (hp.eval form env).bind fun v =>
      hp.eval v env.root
  | conjunction =>
    have h := sim_evalConjunction hp env call.items.tail
    rw [← tail_rename] at h
    exact h
  | disjunction =>
    have h := sim_evalDisjunction hp env call.items.tail
    rw [← tail_rename] at h
    exact h

theorem sim_evalCall (head : Value) (call : Call) (env : Env) :
    Sim m (evalCall p head call env) (evalCall p (rename m.ρ head) (rename m.ρ call) env) := by
  refine (hp.eval head env).bind fun f => ?_
  rw [Value.functionId?_rename, Value.isExpander_rename]
  refine .ite (sim_failShowing .notFunction f) (.ite ?_ ?_)
  · exact (sim_expand hp call f).bind fun form => hp.eval form env
  · refine (Machine.sim_markOrdinary call).bind fun _ => ?_
    have hargs : (rename m.ρ call).items.tail = rename m.ρ call.items.tail := tail_rename m.ρ call.items
    rw [hargs]
    exact (sim_evalEach hp env call.items.tail).bind fun args => sim_callFunction hp f args

omit hp in
theorem sim_evalSymbol (id : NodeId) (name : String) (env : Env) :
    Sim m (evalSymbol id name env) (evalSymbol (m.ρ.node id) name env) := by
  refine (sim_lookup env name).bind fun v => (sim_record env name v).bind fun _ => ?_
  refine (sim_setResult (.symbol id name) v (.symbol (m.ρ.node id) name) (rename m.ρ v)).bind fun _ => ?_
  have hsite : ∀ site : Value, Sim m
      (do
        setSite id site
        return v)
      (do
        setSite (m.ρ.node id) (rename m.ρ site)
        return rename m.ρ v) := fun site =>
    (sim_setSite id (m.ρ.node id) site (rename m.ρ site)).bind fun _ => .pure rfl
  refine .get (Quiet.get.grows.bind fun w => ?_) fun w w' hw => ?_
  · cases w.site? env name with
    | none => exact (Quiet.pure v).grows
    | some site => exact (hsite site).grows
  · rw [hw.site?]
    cases w.site? env name with
    | none => exact .pure rfl
    | some site => exact hsite site

/-- A form comes to the same in both worlds, if its parts do. -/
theorem sim_evalForm (form : Value) (env : Env) :
    Sim m (evalForm p form env) (evalForm p (rename m.ρ form) env) := by
  cases form with
  | symbol id name => exact sim_evalSymbol id name env
  | seq shape node items =>
    rw [rename_seq]
    cases shape with
    | vector =>
      unfold evalForm
      dsimp only
      rw [isEmpty_rename]
      refine .ite (.pure (rename_seq ..).symm) (sim_remember ?_)
      exact (sim_evalEach hp env items).bind fun vs => sim_newVector vs
    | list =>
      unfold evalForm
      dsimp only
      show Sim m (if node.style = .program then _ else _) (if node.style = .program then _ else _)
      refine .ite (sim_remember (sim_evalBody hp env items)) ?_
      have hhead := Value.headName?_rename m.ρ items
      cases items with
      | nil => exact .pure (rename_seq ..).symm
      | cons head rest =>
        rw [rename_cons] at hhead ⊢
        dsimp only
        rw [hhead]
        refine sim_remember ?_
        cases (Value.headName? (head :: rest)).bind Special.ofName? with
        | some special => exact sim_evalSpecial hp special ⟨node, head :: rest⟩ env
        | none => exact sim_evalCall hp head ⟨node, head :: rest⟩ env
  | map node entries =>
    rw [rename_map]
    unfold evalForm
    dsimp only
    rw [isEmpty_rename]
    refine .ite (.pure (rename_map ..).symm) (sim_remember ?_)
    refine (sim_evalEntries hp env entries).bind fun es => ?_
    rw [← Entries.rename_ofPairs]
    exact sim_newMap _
  | _ => exact .pure rfl

end rules

/-- **Evaluation does not depend on identities.** -/
theorem mirrored_parts (m : Mirror) (depth : Nat) : (parts depth).Mirrored m := by
  induction depth with
  | zero => exact ⟨fun _ _ => .throw _, fun _ _ => .throw _, fun _ _ => .throw _⟩
  | succ depth ih => exact ⟨sim_evalForm ih, sim_quasiForm ih, sim_callFunction ih⟩

theorem sim_eval (depth : Nat) (form : Value) (env : Env) :
    Sim m (eval depth form env) (eval depth (rename m.ρ form) env) := (mirrored_parts m depth).eval form env

end EditableLisp.Direct
