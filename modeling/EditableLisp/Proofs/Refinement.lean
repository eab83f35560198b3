import EditableLisp.Interpreter
import EditableLisp.Proofs.Act
import EditableLisp.Proofs.Run
import EditableLisp.Proofs.Direct

/-!
# The machine refines direct evaluation

`Direct.eval` computes the value of a form from the values of its parts. `Machine.drive` does the same with
a stack of pending steps.

* `Refines fuel stack act direct`: the three outcomes of `direct` are those of a machine that takes the
  step `act` with `stack` pending. A value is handed to the stack, a failure ends the run, and a direct
  evaluation that went too deep stands for a run that takes at least `fuel` steps.
* `refines_evalForm`, `refines_quasiForm`, `refines_callFunction`: each rule refines its direct form if the
  evaluators of the parts do. The rules are put together by `Refines.push` (what waits for a value),
  `Refines.tail` (a step in place of another) and `Refines.remember` (a node that keeps the value).
* `drive_iff_eval`: a run from a form, whatever is pending, comes to what direct evaluation comes to, and
  every run that ends is matched by a direct evaluation.
-/

namespace EditableLisp.Machine

open EditableLisp.Direct (Parts)

/-! ## Refinement of one step -/

/-- The end of a direct evaluation is that of a machine which takes the step `act` in `w`. -/
inductive Agrees (fuel : Nat) (stack : List Pending) (act : Act State) (w : World) :
    EStateM.Result Halt World Value → Prop where
  /-- The value is handed to the stack. -/
  | value {v : Value} {nodes : List Value} {w₁ : World} :
      Leads act w (resume v (pend nodes stack)) w₁ → Reaches act w (resume v (pend nodes stack)) w₁ →
      Agrees fuel stack act w (.ok v (kept v nodes w₁))
  /-- The machine fails as well. -/
  | failure {h : Halt} {w' : World} : Breaks act w h w' → Agrees fuel stack act w (.error h w')
  /-- The direct evaluation went too deep, and the machine is not done with few steps. -/
  | deep {w' : World} : Starves fuel act w → Agrees fuel stack act w (.error .exhausted w')

/-- The machine does from `act` what `direct` does, in every world. -/
def Refines (fuel : Nat) (stack : List Pending) (act : Act State) (direct : Act Value) : Prop :=
  ∀ w, Agrees fuel stack act w (direct w)

variable {fuel : Nat} {stack : List Pending} {act next : Act State} {w w₁ : World}
  {direct : Act Value} {r : EStateM.Result Halt World Value}

theorem Agrees.mono {m : Nat} (h : Agrees fuel stack act w r) (hle : m ≤ fuel) :
    Agrees m stack act w r := by
  cases h with
  | value hl hr => exact .value hl hr
  | failure hb => exact .failure hb
  | deep hs => exact .deep (hs.mono hle)

/-- An agreement holds from every step that leads to it. -/
theorem Leads.agrees (hl : Leads act w next w₁) (hr : Reaches act w next w₁)
    (h : Agrees fuel stack next w₁ r) : Agrees fuel stack act w r := by
  cases h with
  | value hn hn' => exact .value (hl.trans hn) (hr.trans hn')
  | failure hb => exact .failure (hl.breaks hb)
  | deep hs => exact .deep (hl.starves hs)

/-- A step that hands on a state takes one step more. -/
theorem Agrees.step {s : State} (e : act w = .ok s w₁) (hs : ∀ v, s.control ≠ .landed v)
    (h : Agrees fuel stack (step s) w₁ r) : Agrees (fuel + 1) stack act w r := by
  cases h with
  | value hl hr => exact .value ((Leads.step s e hs).trans hl) ((Reaches.step s e).trans hr)
  | failure hb => exact .failure ((Leads.step s e hs).breaks hb)
  | deep hn => exact .deep (hn.step e hs)

/-! ## Composition -/

namespace Refines

theorem mono {m : Nat} (h : Refines fuel stack act direct) (hle : m ≤ fuel) :
    Refines m stack act direct := fun w => (h w).mono hle

/-- An act that both do first. -/
theorem bind {α : Type} (m : Act α) {f : α → Act State} {g : α → Act Value}
    (h : ∀ a, Refines fuel stack (f a) (g a)) : Refines fuel stack (m >>= f) (m >>= g) := by
  intro w
  cases e : m w with
  | ok a w₁ =>
    rw [bind_of_eq_ok e]
    exact (Leads.of_eq (bind_of_eq_ok e)).agrees (.of_eq (bind_of_eq_ok e)) (h a w₁)
  | error b w₁ =>
    rw [bind_of_eq_error e]
    exact .failure (Breaks.of_error (bind_of_eq_error e))

/-- A failure of both. -/
theorem fail (f : Fault) : Refines fuel stack (EditableLisp.fail f) (EditableLisp.fail f) :=
  fun _ => .failure (Breaks.of_error rfl)

/-- A value that is handed to the stack. -/
theorem resume (v : Value) : Refines fuel stack (Machine.resume v stack) (pure v) :=
  fun w => @Agrees.value _ _ _ _ v [] w (Leads.of_eq rfl) (.of_eq rfl)

/-- A state that hands a value to the stack. -/
theorem ret (v : Value) : Refines fuel stack (pure ⟨.ret v, stack⟩) (pure v) :=
  fun w => @Agrees.value _ _ _ _ v [] w (Leads.step ⟨.ret v, stack⟩ rfl (by nofun)) (.step ⟨.ret v, stack⟩ rfl)

/-- A state whose step refines a direct evaluation. -/
theorem tail {s : State} (hs : ∀ v, s.control ≠ .landed v)
    (h : Refines fuel stack (Machine.step s) direct) : Refines (fuel + 1) stack (pure s) direct :=
  fun w => (h w).step rfl hs

/-- **What waits for a value.** If the step of a state refines a direct evaluation with a pending step on
the stack, and that pending step refines what is done with the value, then the state refines both in
turn. -/
theorem push {s : State} {p : Pending} (hs : ∀ v, s.control ≠ .landed v)
    (hp : ∀ nodes, p ≠ .memo nodes) (h : Refines fuel (p :: stack) (Machine.step s) direct)
    {f : Value → Act Value}
    (rest : ∀ v, Refines (fuel + 1) stack (Machine.resume v (p :: stack)) (f v)) :
    Refines (fuel + 1) stack (pure s) (direct >>= f) := by
  have hm : ∀ nodes below, p :: stack ≠ .memo nodes :: below :=
    fun nodes _ e => hp nodes (List.cons.inj e).1
  intro w
  refine @Agrees.step fuel stack (pure s) w w _ s rfl hs ?_
  have h' := h w
  generalize e : direct w = r at h'
  cases h' with
  | value hl hr =>
    rw [bind_of_eq_ok e]
    exact (hl.trans (leads_pend hm _ _ _)).agrees (hr.trans (reaches_pend hm _ _ _))
      ((rest _ _).mono (Nat.le_succ fuel))
  | failure hb =>
    rw [bind_of_eq_error e]
    exact .failure hb
  | deep hn =>
    rw [bind_of_eq_error e]
    exact .deep hn

/-- A node that waits for a value keeps it. -/
theorem remember {node : Value} (h : Refines fuel (memo node stack) act direct) :
    Refines fuel stack act (Direct.remember node direct) := by
  intro w
  unfold Direct.remember
  have h' := h w
  generalize e : direct w = r at h'
  cases h' with
  | @value v nodes w₁ hl hr =>
    rw [bind_of_eq_ok e]
    have hk : kept v (node :: nodes) w₁ = keptAt v node (kept v nodes w₁) := kept_cons_eq ..
    show Agrees fuel stack act w (.ok v (keptAt v node (kept v nodes w₁)))
    rw [← hk]
    exact .value hl hr
  | failure hb =>
    rw [bind_of_eq_error e]
    exact .failure hb
  | deep hn =>
    rw [bind_of_eq_error e]
    exact .deep hn

end Refines

/-! ## Rules -/

/-- The evaluators of the parts are refined by the machine. -/
structure Covers (fuel : Nat) (p : Parts) : Prop where
  eval : ∀ form env stack, Refines fuel stack (Machine.eval form env stack) (p.eval form env)
  quasi : ∀ form env stack, Refines fuel stack (Machine.quasi form env stack) (p.quasi form env)
  call : ∀ f args stack, Refines fuel stack (apply f args stack) (p.call f args)

variable {p : Parts} (hp : Covers fuel p)

include hp

namespace Covers

/-- A form that is evaluated in place of another. -/
theorem evalTail (form : Value) (env : Env) (stack : List Pending) :
    Refines (fuel + 1) stack (pure ⟨.eval form env, stack⟩) (p.eval form env) :=
  Refines.tail (by nofun) (hp.eval form env stack)

/-- A form whose value something waits for. -/
theorem evalThen {form : Value} {env : Env} {wait : Pending} (hw : ∀ nodes, wait ≠ .memo nodes)
    {f : Value → Act Value}
    (rest : ∀ v, Refines (fuel + 1) stack (resume v (wait :: stack)) (f v)) :
    Refines (fuel + 1) stack (pure ⟨.eval form env, wait :: stack⟩) (p.eval form env >>= f) :=
  Refines.push (by nofun) hw (hp.eval form env _) rest

/-- A template whose copy something waits for. -/
theorem quasiThen {form : Value} {env : Env} {wait : Pending} (hw : ∀ nodes, wait ≠ .memo nodes)
    {f : Value → Act Value}
    (rest : ∀ v, Refines (fuel + 1) stack (resume v (wait :: stack)) (f v)) :
    Refines (fuel + 1) stack (pure ⟨.quasi form env, wait :: stack⟩) (p.quasi form env >>= f) :=
  Refines.push (by nofun) hw (hp.quasi form env _) rest

/-- A call that a built-in function asks for. -/
theorem callThen {f : Value} {args : List Value} {job : Job} {g : Value → Act Value}
    (rest : ∀ v, Refines (fuel + 1) stack (resume v (.job job :: stack)) (g v)) :
    Refines (fuel + 1) stack (pure ⟨.call f args, .job job :: stack⟩) (p.call f args >>= g) :=
  Refines.push (by nofun) (by nofun) (hp.call f args _) rest

end Covers

/-! ### Bodies -/

theorem refines_evalBody (total : Nat) (env : Env) (forms : List Value) (stack : List Pending) :
    Refines (fuel + 1) stack (pure (evalBody total forms env stack)) (Direct.evalBody p env forms) := by
  induction forms with
  | nil => exact Refines.ret _
  | cons form rest ih =>
    cases rest with
    | nil => exact hp.evalTail form env stack
    | cons next rest =>
      refine hp.evalThen (by nofun) fun _ => ?_
      exact ih

theorem refines_evalConjunction (total : Nat) (env : Env) (forms : List Value)
    (stack : List Pending) :
    Refines (fuel + 1) stack (pure (evalConjunction total forms env stack))
      (Direct.evalConjunction p env forms) := by
  induction forms with
  | nil => exact Refines.ret _
  | cons form rest ih =>
    cases rest with
    | nil => exact hp.evalTail form env stack
    | cons next rest =>
      refine hp.evalThen (by nofun) fun v => ?_
      show Refines _ _ (if v.isTruthy then _ else _) _
      cases v.isTruthy with
      | true => exact ih
      | false => exact Refines.ret v

theorem refines_evalDisjunction (total : Nat) (env : Env) (forms : List Value)
    (stack : List Pending) :
    Refines (fuel + 1) stack (pure (evalDisjunction total forms env stack))
      (Direct.evalDisjunction p env forms) := by
  induction forms with
  | nil => exact Refines.ret _
  | cons form rest ih =>
    cases rest with
    | nil => exact hp.evalTail form env stack
    | cons next rest =>
      refine hp.evalThen (by nofun) fun v => ?_
      show Refines _ _ (if v.isTruthy then _ else _) _
      cases v.isTruthy with
      | true => exact Refines.ret v
      | false => exact ih

/-- The body of a `let` is evaluated when its bindings are made. -/
theorem refines_evalBindings (call : Call) (env : Env) (bindings : List Value) (index : Nat)
    (stack : List Pending) :
    Refines (fuel + 1) stack (pure (evalBindings index bindings call env stack))
      (do
        Direct.bindEach p env bindings
        Direct.evalBody p env (call.items.drop 2)) := by
  induction bindings using Direct.bindEach.induct generalizing index with
  | case1 pattern form rest ih =>
    unfold Direct.bindEach
    rw [bind_assoc]
    refine hp.evalThen (by nofun) fun v => ?_
    show Refines _ _ (Pattern.destructure env pattern v >>= _) _
    rw [bind_assoc]
    exact Refines.bind _ fun _ => ih _
  | case2 rest h =>
    have e : evalBindings index rest call env stack =
        evalBody call.items.length (call.items.drop 2) env stack := by
      unfold evalBindings
      split
      · exact absurd rfl (h _ _ _)
      · rfl
    have e' : Direct.bindEach p env rest = pure () := by
      unfold Direct.bindEach
      split
      · exact absurd rfl (h _ _ _)
      · rfl
    rw [e, e', pure_bind]
    exact refines_evalBody hp _ _ _ _

/-! ### Functions -/

/-- What a built-in function comes to, from there on. -/
def after (stack : List Pending) (outcome : Act Outcome) : Act State :=
  outcome >>= fun o => pure (afterOutcome o stack)

theorem refines_collectNext (f : Value) (items : List Value) (index : Option Nat)
    (done : Array Value) (stack : List Pending) :
    Refines (fuel + 1) stack (after stack (liftM (Job.collectNext f index done items)))
      (Direct.collect p f index items >>= fun vs => liftM (newVector (done.toList ++ vs))) := by
  induction items generalizing index done with
  | nil =>
    unfold Job.collectNext Direct.collect after
    rw [pure_bind, List.append_nil, lift_bind, bind_assoc]
    refine (bind_pure (liftM (newVector done.toList) : Act Value)) ▸ ?_
    exact Refines.bind _ fun v => Refines.ret v
  | cons v rest ih =>
    unfold Job.collectNext Direct.collect after
    rw [lift_pure, pure_bind, bind_assoc]
    refine hp.callThen fun r => ?_
    show Refines _ _ (after stack (liftM (Job.collectNext f (index.map (· + 1)) (done.push r) rest))) _
    have h := ih (index.map (· + 1)) (done.push r)
    simpa only [bind_assoc, pure_bind, Array.toList_push, List.append_assoc,
      List.singleton_append] using h

theorem refines_keepNext (f : Value) (wanted : Bool) (items : List Value) (done : Array Value)
    (stack : List Pending) :
    Refines (fuel + 1) stack (after stack (liftM (Job.keepNext f wanted done items)))
      (Direct.keep p f wanted items >>= fun vs => liftM (newVector (done.toList ++ vs))) := by
  induction items generalizing done with
  | nil =>
    unfold Job.keepNext Direct.keep after
    rw [pure_bind, List.append_nil, lift_bind, bind_assoc]
    refine (bind_pure (liftM (newVector done.toList) : Act Value)) ▸ ?_
    exact Refines.bind _ fun v => Refines.ret v
  | cons v rest ih =>
    unfold Job.keepNext Direct.keep after
    rw [lift_pure, pure_bind, bind_assoc]
    refine hp.callThen fun r => ?_
    show Refines _ _ (after stack (liftM (Job.keepNext f wanted
      (if r.isTruthy == wanted then done.push v else done) rest))) _
    cases hr : r.isTruthy == wanted with
    | true =>
      have h := ih (done.push v)
      simpa only [bind_assoc, pure_bind, Array.toList_push, List.append_assoc,
        List.singleton_append, if_true] using h
    | false =>
      have h := ih done
      simpa only [bind_assoc, pure_bind, if_false, Bool.false_eq_true] using h

omit hp in
/-- A function of two arguments fails alike on other numbers of them. -/
theorem refines_two (name : String) {f : Value → Value → Act Outcome}
    {g : Value → Value → Act Value} (args : List Value)
    (h : ∀ v w, Refines fuel stack (after stack (f v w)) (g v w)) :
    Refines fuel stack (after stack (Argument.two name f args)) (Argument.two name g args) := by
  unfold Argument.two
  split
  · exact h _ _
  · exact Refines.fail _

/-- A function that collects what another function returns on the elements of a sequence. -/
theorem refines_collect (f coll : Value) (index : Option Nat) (stack : List Pending) :
    Refines (fuel + 1) stack
      (after stack (do Job.collectNext f index #[] (← Argument.items coll)))
      (do newVector (← Direct.collect p f index (← Argument.items coll))) := by
  unfold after
  rw [bind_assoc]
  exact Refines.bind _ fun items => refines_collectNext hp f items index #[] stack

/-- A function that keeps some of the elements of a sequence. -/
theorem refines_keep (f coll : Value) (wanted : Bool) (stack : List Pending) :
    Refines (fuel + 1) stack
      (after stack (do Job.keepNext f wanted #[] (← Argument.items coll)))
      (do newVector (← Direct.keep p f wanted (← Argument.items coll))) := by
  unfold after
  rw [bind_assoc]
  exact Refines.bind _ fun items => refines_keepNext hp f wanted items #[] stack

theorem refines_spread (name : String) (args : List Value) (stack : List Pending) :
    Refines (fuel + 1) stack (after stack (Job.spread name args)) (Direct.spread p name args) := by
  rcases args with _ | ⟨f, _ | ⟨arg, args⟩⟩
  · exact Refines.fail _
  · exact Refines.fail _
  · unfold Job.spread Direct.spread after
    rw [bind_assoc]
    refine Refines.bind _ fun more => ?_
    rw [pure_bind, ← bind_pure (p.call _ _)]
    exact hp.callThen fun v => Refines.ret v

theorem refines_swap (name : String) (args : List Value) (stack : List Pending) :
    Refines (fuel + 1) stack (after stack (Job.swap name args)) (Direct.swap p name args) := by
  rcases args with _ | ⟨a, _ | ⟨f, extra⟩⟩
  · exact Refines.fail _
  · exact Refines.fail _
  · unfold Job.swap Direct.swap after
    rw [bind_assoc]
    refine Refines.bind _ fun id => ?_
    rw [bind_assoc]
    refine Refines.bind _ fun old => ?_
    rw [pure_bind]
    refine hp.callThen fun v => ?_
    exact Refines.bind (liftM (setContent id v)) fun _ => Refines.ret v

omit hp in
/-- A built-in function that calls no other. -/
theorem refines_evaluate (act : Act Value) (stack : List Pending) :
    Refines fuel stack (after stack (do return .value (← act))) act := by
  unfold after
  rw [bind_assoc, ← bind_pure act, bind_assoc]
  exact Refines.bind _ fun v => Refines.ret v

theorem refines_callBuiltin (b : Builtin) (args : List Value) (stack : List Pending) :
    Refines (fuel + 1) stack (after stack (b.run args)) (Direct.callBuiltin p b args) := by
  unfold Builtin.run Direct.callBuiltin
  split
  · exact refines_two _ args fun f coll => refines_collect hp f coll none stack
  · exact refines_two _ args fun f coll => refines_collect hp f coll (some 0) stack
  · exact refines_two _ args fun f coll => refines_keep hp f coll true stack
  · exact refines_two _ args fun f coll => refines_keep hp f coll false stack
  · exact refines_spread hp _ args stack
  · exact refines_swap hp _ args stack
  · -- one `split` may have taken the cases of both rules already, here and below
    try split
    all_goals first
      | contradiction
      | exact refines_evaluate _ stack

/-- **Calls refine their rule.** -/
theorem refines_callFunction (f : Value) (args : List Value) (stack : List Pending) :
    Refines (fuel + 1) stack (apply f args stack) (Direct.callFunction p f args) := by
  cases f with
  | builtin _ b _ => exact refines_callBuiltin hp b args stack
  | closure _ _ params body env _ =>
    exact Refines.bind _ fun frame => hp.evalTail body frame stack
  | _ => exact Refines.bind _ fun _ => Refines.fail _

/-! ### Expanders -/

/-- What is done with an expansion: it is evaluated where the call stands, or handed on. -/
def onward (p : Parts) (target : Option Env) (form : Value) : Act Value :=
  match target with
  | some env => p.eval form env
  | none => pure form

theorem refines_finishExpansion (form : Value) (target : Option Env) (stack : List Pending) :
    Refines (fuel + 1) stack (pure (finishExpansion form target stack)) (onward p target form) := by
  cases target with
  | none => exact Refines.ret form
  | some env => exact hp.evalTail form env stack

theorem refines_expandAnew (call : Call) (f : Value) (target : Option Env) (stack : List Pending) :
    Refines (fuel + 1) stack (expandAnew call f target stack)
      (Direct.expandAnew p call f >>= onward p target) := by
  cases f with
  | builtin maker b _ =>
    unfold expandAnew Direct.expandAnew
    simp only [bind_assoc, pure_bind]
    refine Refines.bind _ fun p => ?_
    refine Refines.bind _ fun _ => ?_
    exact refines_finishExpansion hp p.1 target stack
  | closure maker kind params body env _ =>
    unfold expandAnew Direct.expandAnew
    simp only [bind_assoc]
    refine Refines.bind _ fun frame => ?_
    by_cases hk : kind = .template
    · simp only [if_pos hk, bind_assoc, pure_bind]
      refine Refines.bind _ fun form => ?_
      refine Refines.bind _ fun _ => ?_
      exact refines_finishExpansion hp form target stack
    · simp only [if_neg hk, bind_assoc, pure_bind]
      refine Refines.bind _ fun depth => ?_
      refine hp.evalThen (by nofun) fun form => ?_
      refine Refines.bind _ fun reads => ?_
      refine Refines.bind _ fun _ => ?_
      exact refines_finishExpansion hp form target stack
  | _ =>
    unfold expandAnew Direct.expandAnew
    simp only [bind_assoc]
    exact Refines.bind _ fun _ => Refines.fail _

theorem refines_expandCall (call : Call) (f : Value) (target : Option Env) (stack : List Pending) :
    Refines (fuel + 1) stack (expandCall call f target stack)
      (Direct.expand p call f >>= onward p target) := by
  unfold expandCall Direct.expand
  rw [bind_assoc]
  refine Refines.bind _ fun served => ?_
  cases served with
  | some form =>
    rw [pure_bind]
    exact refines_finishExpansion hp form target stack
  | none => exact refines_expandAnew hp call f target stack

theorem refines_expandOnce (form : Value) (env : Env) (stack : List Pending) :
    Refines (fuel + 1) stack (expandOnce form env stack) (Direct.expandOnce p form env) := by
  unfold expandOnce Direct.expandOnce
  cases form with
  | seq shape node items =>
    cases shape with
    | vector => exact Refines.ret _
    | list =>
      dsimp only
      cases Value.headName? items with
      | none => exact Refines.ret _
      | some name =>
        refine Refines.bind _ fun w => ?_
        cases w.lookup? env name with
        | none => exact Refines.ret _
        | some f =>
          by_cases hf : f.isExpander = true
          · simp only [if_pos hf]
            rw [← bind_pure (Direct.expand p ⟨node, items⟩ f)]
            exact refines_expandCall hp ⟨node, items⟩ f none stack
          · simp only [if_neg hf]
            exact Refines.ret _
  | _ => exact Refines.ret _

/-! ### Calls -/

theorem refines_evalArgs (f : Value) (call : Call) (rest : List Value) (done : Array Value)
    (env : Env) (stack : List Pending) :
    Refines (fuel + 1) stack (evalArgs f call rest done env stack)
      (Direct.evalEach p env rest >>= fun vs => Direct.callFunction p f (done.toList ++ vs)) := by
  induction rest generalizing done with
  | nil =>
    unfold Direct.evalEach
    rw [pure_bind, List.append_nil]
    exact refines_callFunction hp f done.toList stack
  | cons form rest ih =>
    unfold Direct.evalEach
    rw [bind_assoc]
    refine hp.evalThen (by nofun) fun v => ?_
    show Refines _ _ (evalArgs f call rest (done.push v) env stack) _
    have h := ih (done.push v)
    simpa only [bind_assoc, pure_bind, Array.toList_push, List.append_assoc,
      List.singleton_append] using h

theorem refines_begin (f : Value) (call : Call) (env : Env) (stack : List Pending) :
    Refines (fuel + 1) stack (begin f call env stack)
      (if f.functionId?.isNone then do fail (.notFunction (← print f))
      else if f.isExpander then do
        let form ← Direct.expand p call f
        p.eval form env
      else do
        markOrdinary call
        let args ← Direct.evalEach p env call.items.tail
        Direct.callFunction p f args) := by
  unfold begin
  split
  · exact Refines.bind _ fun _ => Refines.fail _
  · split
    · exact refines_expandCall hp call f (some env) stack
    · refine Refines.bind _ fun _ => ?_
      exact refines_evalArgs hp f call call.items.tail #[] env stack

theorem refines_evalCall (head : Value) (call : Call) (env : Env) (stack : List Pending) :
    Refines (fuel + 1) stack (pure ⟨.eval head env, .head call env :: stack⟩)
      (Direct.evalCall p head call env) := by
  unfold Direct.evalCall
  exact hp.evalThen (by nofun) fun f => refines_begin hp f call env stack

/-! ### Quasiquotation -/

theorem refines_quasiItems (shape : Shape) (total : Nat) (rest : List Value) (done : Array Value)
    (env : Env) (stack : List Pending) :
    Refines (fuel + 1) stack (quasiItems shape total rest done env stack)
      (Direct.quasiEach p env rest >>= fun vs => liftM (newSeq shape (done.toList ++ vs))) := by
  induction rest generalizing done with
  | nil =>
    unfold quasiItems Direct.quasiEach
    rw [pure_bind, List.append_nil]
    refine (bind_pure (liftM (newSeq shape done.toList) : Act Value)) ▸ ?_
    exact Refines.bind _ fun v => Refines.ret v
  | cons item rest ih =>
    unfold quasiItems Direct.quasiEach
    rw [bind_assoc]
    refine Refines.bind _ fun form => ?_
    cases form with
    | some form =>
      dsimp only
      rw [bind_assoc]
      refine hp.evalThen (by nofun) fun v => ?_
      rw [bind_assoc]
      show Refines _ _ (addQuasi true done v >>= fun done => quasiItems shape total rest done env stack) _
      have e : addQuasi true done v = Direct.splicedItems v >>= fun vs => pure (done ++ vs) := by
        unfold addQuasi Direct.splicedItems
        cases v <;> rfl
      rw [e, bind_assoc]
      refine Refines.bind _ fun vs => ?_
      have h := ih (done ++ vs)
      simpa only [bind_assoc, pure_bind, Array.toList_appendList, List.append_assoc] using h
    | none =>
      dsimp only
      rw [bind_assoc]
      refine hp.quasiThen (by nofun) fun v => ?_
      show Refines _ _ (quasiItems shape total rest (done.push v) env stack) _
      have h := ih (done.push v)
      simpa only [bind_assoc, pure_bind, Array.toList_push, List.append_assoc,
        List.singleton_append] using h

/-- **Copies of templates refine their rule.** -/
theorem refines_quasiForm (form : Value) (env : Env) (stack : List Pending) :
    Refines (fuel + 1) stack (quasi form env stack) (Direct.quasiForm p form env) := by
  unfold quasi Direct.quasiForm
  cases form with
  | seq shape node items =>
    dsimp only
    split
    · match items with
      | [_, form] => exact hp.evalTail form env stack
      | [] | [_] | _ :: _ :: _ :: _ => exact Refines.fail _
    · split
      · exact Refines.resume _
      · exact refines_quasiItems hp shape items.length items #[] env stack
  | _ => exact Refines.resume _

/-! ### Special forms -/

theorem refines_definition (call : Call) (env : Env) (stack : List Pending) :
    Refines (fuel + 1) stack (evalDefinition call env stack)
      (Direct.evalSpecial p .definition call env) := by
  obtain ⟨node, items⟩ := call
  unfold evalDefinition Direct.evalSpecial
  dsimp only
  split
  · refine hp.evalThen (by nofun) fun v => ?_
    exact Refines.bind _ fun _ => Refines.ret v
  · rename_i h
    try split
    all_goals first
      | exact (h _ _ _ _ rfl).elim
      | exact Refines.bind _ fun _ => Refines.fail _

omit hp in
theorem refines_named (kind : ClosureKind) (call : Call) (env : Env) (stack : List Pending) :
    Refines fuel stack (evalNamed kind call env stack)
      (Direct.evalSpecial p (.named kind) call env) := by
  obtain ⟨node, items⟩ := call
  unfold evalNamed Direct.evalSpecial
  dsimp only
  split
  · exact Refines.fail _
  · split
    · refine Refines.bind _ fun f => ?_
      exact Refines.bind _ fun _ => Refines.ret f
    · rename_i h
      try split
      all_goals first
        | exact (h _ _ _ _ _ rfl).elim
        | exact Refines.bind _ fun _ => Refines.fail _

omit hp in
theorem refines_anonymous (kind : ClosureKind) (call : Call) (env : Env) (stack : List Pending) :
    Refines fuel stack (evalAnonymous kind call env stack)
      (Direct.evalSpecial p (.anonymous kind) call env) := by
  obtain ⟨node, items⟩ := call
  unfold evalAnonymous Direct.evalSpecial
  dsimp only
  split
  · rename_i params body
    try dsimp only
    refine (bind_pure (makeClosure params body env kind)) ▸ ?_
    rw [bind_assoc]
    exact Refines.bind _ fun f => Refines.ret f
  · rename_i h
    try split
    all_goals first
      | exact (h _ _ _ rfl).elim
      | exact Refines.bind _ fun _ => Refines.fail _

theorem refines_bindings (call : Call) (env : Env) (stack : List Pending) :
    Refines (fuel + 1) stack (evalLet call env stack) (Direct.evalSpecial p .bindings call env) := by
  obtain ⟨node, items⟩ := call
  unfold evalLet Direct.evalSpecial
  dsimp only
  split
  · try dsimp only
    split
    · exact Refines.fail _
    · refine Refines.bind _ fun frame => ?_
      exact refines_evalBindings hp _ frame _ 0 stack
  · rename_i h
    try split
    all_goals first
      | exact (h _ _ _ _ rfl).elim
      | exact Refines.bind _ fun _ => Refines.fail _

theorem refines_conditional (call : Call) (env : Env) (stack : List Pending) :
    Refines (fuel + 1) stack (evalConditional call env stack)
      (Direct.evalSpecial p .conditional call env) := by
  obtain ⟨node, items⟩ := call
  unfold evalConditional Direct.evalSpecial
  dsimp only
  split
  · refine hp.evalThen (by nofun) fun v => ?_
    unfold resume
    cases v.isTruthy with
    | true => exact hp.evalTail _ env stack
    | false => exact Refines.ret _
  · refine hp.evalThen (by nofun) fun v => ?_
    unfold resume
    cases v.isTruthy with
    | true => exact hp.evalTail _ env stack
    | false => exact hp.evalTail _ env stack
  · rename_i h h'
    try split
    all_goals first
      | exact (h _ _ _ rfl).elim
      | exact (h' _ _ _ _ rfl).elim
      | exact Refines.bind _ fun _ => Refines.fail _

theorem refines_evalSpecial (special : Special) (call : Call) (env : Env) (stack : List Pending) :
    Refines (fuel + 1) stack (evalSpecial special call env stack)
      (Direct.evalSpecial p special call env) := by
  cases special with
  | definition => exact refines_definition hp call env stack
  | named kind => exact refines_named kind call env stack
  | anonymous kind => exact refines_anonymous kind call env stack
  | bindings => exact refines_bindings hp call env stack
  | body => exact refines_evalBody hp _ env _ stack
  | conditional => exact refines_conditional hp call env stack
  | quote =>
    show Refines _ _ (onlyArgument "quote" call >>= _) (onlyArgument "quote" call)
    refine (bind_pure (onlyArgument "quote" call)) ▸ ?_
    rw [bind_assoc]
    exact Refines.bind _ fun form => Refines.ret form
  | quasiquote =>
    refine Refines.bind _ fun form => ?_
    exact Refines.tail (by nofun) (hp.quasi form env stack)
  | macroexpand =>
    refine Refines.bind _ fun form => ?_
    exact refines_expandOnce hp form env stack
  | evaluate =>
    refine Refines.bind _ fun form => ?_
    refine hp.evalThen (by nofun) fun v => ?_
    exact hp.evalTail v env.root stack
  | conjunction => exact refines_evalConjunction hp _ env _ stack
  | disjunction => exact refines_evalDisjunction hp _ env _ stack

/-! ### Forms -/

theorem refines_evalVector (total : Nat) (rest : List Value) (done : Array Value) (env : Env)
    (stack : List Pending) :
    Refines (fuel + 1) stack (liftM (evalVector total rest done env stack))
      (Direct.evalEach p env rest >>= fun vs => liftM (newVector (done.toList ++ vs))) := by
  induction rest generalizing done with
  | nil =>
    unfold evalVector Direct.evalEach
    dsimp only
    rw [pure_bind, List.append_nil, lift_bind]
    refine (bind_pure (liftM (newVector done.toList) : Act Value)) ▸ ?_
    exact Refines.bind _ fun v => Refines.ret v
  | cons form rest ih =>
    unfold evalVector Direct.evalEach
    rw [bind_assoc, lift_pure]
    refine hp.evalThen (by nofun) fun v => ?_
    show Refines _ _ (liftM (evalVector total rest (done.push v) env stack)) _
    have h := ih (done.push v)
    simpa only [bind_assoc, pure_bind, Array.toList_push, List.append_assoc,
      List.singleton_append] using h

theorem refines_evalMap (total : Nat) (rest : Entries) (done : Array (Key × Value)) (env : Env)
    (stack : List Pending) :
    Refines (fuel + 1) stack (liftM (evalMap total rest done env stack))
      (Direct.evalEntries p env rest >>= fun es =>
        liftM (newMap (Entries.ofPairs (done.toList ++ es)))) := by
  induction rest generalizing done with
  | nil =>
    unfold evalMap Direct.evalEntries
    dsimp only
    rw [pure_bind, List.append_nil, lift_bind]
    refine (bind_pure (liftM (newMap (Entries.ofPairs done.toList)) : Act Value)) ▸ ?_
    exact Refines.bind _ fun v => Refines.ret v
  | cons entry rest ih =>
    obtain ⟨key, form⟩ := entry
    unfold evalMap Direct.evalEntries
    rw [bind_assoc, lift_pure]
    refine hp.evalThen (by nofun) fun v => ?_
    show Refines _ _ (liftM (evalMap total rest (done.push (key, v)) env stack)) _
    have h := ih (done.push (key, v))
    simpa only [bind_assoc, pure_bind, Array.toList_push, List.append_assoc,
      List.singleton_append] using h

omit hp in
theorem refines_evalSymbol (id : NodeId) (name : String) (env : Env) (stack : List Pending) :
    Refines fuel stack (evalSymbol id name env stack) (Direct.evalSymbol id name env) := by
  unfold evalSymbol Direct.evalSymbol
  refine Refines.bind _ fun v => ?_
  refine Refines.bind _ fun _ => ?_
  refine Refines.bind _ fun _ => ?_
  refine Refines.bind _ fun w => ?_
  cases w.site? env name with
  | none => exact Refines.resume v
  | some site => exact Refines.bind _ fun _ => Refines.resume v

theorem refines_evalList (node : Node) (items : List Value) (env : Env) (stack : List Pending) :
    Refines (fuel + 1) stack (evalList node items env stack)
      (Direct.evalForm p (.seq .list node items) env) := by
  unfold evalList Direct.evalForm
  dsimp only
  by_cases hs : node.style = .program
  · rw [if_pos hs, if_pos hs]
    exact Refines.remember (refines_evalBody hp _ env items _)
  · rw [if_neg hs, if_neg hs]
    cases items with
    | nil => exact Refines.resume _
    | cons head rest =>
      dsimp only
      refine Refines.remember ?_
      cases (Value.headName? (head :: rest)).bind Special.ofName? with
      | some special => exact refines_evalSpecial hp special _ env _
      | none => exact refines_evalCall hp head _ env _

/-- **Forms refine their rule.** -/
theorem refines_evalForm (form : Value) (env : Env) (stack : List Pending) :
    Refines (fuel + 1) stack (eval form env stack) (Direct.evalForm p form env) := by
  cases form with
  | seq shape node items =>
    cases shape with
    | list => exact refines_evalList hp node items env stack
    | vector =>
      unfold eval Direct.evalForm
      dsimp only
      split
      · exact Refines.resume _
      · exact Refines.remember (refines_evalVector hp _ items #[] env _)
  | map node entries =>
    unfold eval Direct.evalForm
    dsimp only
    split
    · exact Refines.resume _
    · exact Refines.remember (refines_evalMap hp _ entries #[] env _)
  | symbol id name => exact refines_evalSymbol id name env stack
  | _ => exact Refines.resume _

omit hp

/-! ## The evaluator -/

/-- An evaluation that is cut off at once says nothing. -/
theorem covers_zero : Covers 0 (Direct.parts 0) where
  eval _ _ _ _ := .deep fun _ h => absurd h (Nat.not_lt_zero _)
  quasi _ _ _ _ := .deep fun _ h => absurd h (Nat.not_lt_zero _)
  call _ _ _ _ := .deep fun _ h => absurd h (Nat.not_lt_zero _)

/-- The machine refines the direct evaluator at every depth. -/
theorem covers_parts (depth : Nat) : Covers depth (Direct.parts depth) := by
  induction depth with
  | zero => exact covers_zero
  | succ depth ih => exact ⟨refines_evalForm ih, refines_quasiForm ih, refines_callFunction ih⟩

theorem agrees_eval (depth : Nat) (form : Value) (env : Env) (stack : List Pending) (w : World) :
    Agrees depth stack (eval form env stack) w (Direct.eval depth form env w) :=
  (covers_parts depth).eval form env stack w

/-- A run that ends with nothing pending comes to what it refines. -/
theorem Refines.eq_of_bind_drive {n : Nat} {act : Act State} {direct : Act Value} {w : World}
    {r : EStateM.Result Halt World Value} (h : Refines (n + 1) [] act direct)
    (e : (act >>= drive n) w = r) (hr : ∀ w', r ≠ .error .exhausted w') : direct w = r := by
  have h := h w
  generalize direct w = d at h
  cases h with
  | @value v nodes w₁ hl =>
    obtain ⟨steps, hs⟩ := hl.trans (leads_pend (by nofun) v nodes w₁)
    have landed : (act >>= drive (n + (steps + 1))) w = .ok v (kept v nodes w₁) := by
      have hn : n + (steps + 1) = steps + (n + 1) := by omega
      rw [hn, hs]
      rfl
    rw [← landed, bind_drive_add _ e hr]
  | failure hb =>
    obtain ⟨steps, hs⟩ := hb
    rw [← bind_drive_add steps e hr, Nat.add_comm, hs]
  | deep hn =>
    obtain ⟨w', hw'⟩ := hn n (Nat.lt_succ_self n)
    exact absurd (e.symm.trans hw') (hr w')

/-- **The machine refines direct evaluation.** If direct evaluation comes to a value, the machine hands the
value to what was pending, which has gained nothing but nodes that keep the value; if direct evaluation
fails, so does the machine, in the same way; and every run that comes to an end with nothing pending is
matched by a direct evaluation. -/
theorem drive_refines_eval (form : Value) (env : Env) (w : World) :
    (∀ depth v w', Direct.eval depth form env w = .ok v w' → ∀ stack, ∃ nodes stack' w₁ steps,
      (∀ fuel, drive (steps + (fuel + 1)) ⟨.eval form env, stack⟩ w =
        drive (fuel + 1) ⟨.ret v, stack'⟩ w₁) ∧
      Gains nodes stack stack' ∧ w' = kept v nodes w₁) ∧
    (∀ depth h w', Direct.eval depth form env w = .error h w' → h ≠ .exhausted → ∀ stack,
      ∃ steps, ∀ fuel, drive (steps + fuel) ⟨.eval form env, stack⟩ w = .error h w') ∧
    (∀ fuel r, drive fuel ⟨.eval form env, []⟩ w = r → (∀ w', r ≠ .error .exhausted w') →
      ∃ depth, Direct.eval depth form env w = r) := by
  have first : ∀ n stack, drive (n + 1) ⟨.eval form env, stack⟩ w =
      (eval form env stack >>= drive n) w := fun n stack => rfl
  refine ⟨?_, ?_, ?_⟩
  · intro depth v w' hd stack
    have h := agrees_eval depth form env stack w
    rw [hd] at h
    cases h with
    | @value _ nodes w₁ hl =>
      obtain ⟨steps, hs⟩ := hl
      refine ⟨nodes, pend nodes stack, w₁, steps, fun fuel => ?_, pend_gains nodes stack, rfl⟩
      rw [← Nat.add_assoc, first, hs]
      rfl
  · intro depth h w' hd hne stack
    have h' := agrees_eval depth form env stack w
    rw [hd] at h'
    cases h' with
    | failure hb =>
      obtain ⟨steps, hs⟩ := hb
      refine ⟨steps + 1, fun fuel => ?_⟩
      rw [Nat.add_right_comm, first, hs]
    | deep => exact absurd rfl hne
  · intro fuel r e hr
    cases fuel with
    | zero => exact absurd e.symm (hr w)
    | succ n => exact ⟨n + 1, ((covers_parts (n + 1)).eval form env []).eq_of_bind_drive e hr⟩

/-- A macro puts its argument twice into a `do`; a closure chooses a branch, and calls a built-in function in it. -/
def doubling : String := "(defmacro twice [x] (list 'do x x)) (defn f [y] (if y (list y) nil)) (twice (f 1))"

/-- The branch that is chosen calls a function that is not there. -/
def stray : String := "(defn f [y] (if y (g y) nil)) (f 1)"

/-- Direct evaluation of a program comes to a value, which a run of the machine lands with. -/
def landsDirectly (src : String) (depth fuel : Nat) (v : Value) (w : World) : Bool :=
  match readProgram src w with
  | (.ok p, w₁) =>
    match Direct.eval depth p .global w₁, drive fuel ⟨.eval p .global, []⟩ w₁ with
    | .ok v' _, .ok v'' _ => v'.equal v && v''.equal v
    | _, _ => false
  | _ => false

/-- Direct evaluation of a program fails. -/
def failsDirectly (src : String) (depth : Nat) (w : World) : Bool :=
  match readProgram src w with
  | (.ok p, w₁) =>
    match Direct.eval depth p .global w₁ with
    | .error (.fault _) _ => true
    | _ => false
  | _ => false

/-- The macro is called, then twice the closure, which comes to `(1)`; the other program fails in a branch. -/
theorem drive_refines_eval_doubling :
    (∃ p w v w', readProgram doubling World.full = (.ok p, w) ∧ v.equal (.seq .list (.bare 0) [.num 1]) = true ∧
      Direct.eval 7 p .global w = .ok v w' ∧
      (∀ stack, ∃ nodes stack' w₁ steps,
        (∀ fuel, drive (steps + (fuel + 1)) ⟨.eval p .global, stack⟩ w = drive (fuel + 1) ⟨.ret v, stack'⟩ w₁) ∧
        Gains nodes stack stack' ∧ w' = kept v nodes w₁) ∧
      ∃ depth, Direct.eval depth p .global w = drive 60 ⟨.eval p .global, []⟩ w) ∧
    ∃ p w f w', readProgram stray World.full = (.ok p, w) ∧ Direct.eval 5 p .global w = .error (.fault f) w' ∧
      ∀ stack, ∃ steps, ∀ fuel, drive (steps + fuel) ⟨.eval p .global, stack⟩ w = .error (.fault f) w' := by
  have lands : landsDirectly doubling 7 60 (.seq .list (.bare 0) [.num 1]) World.full = true := by decide +kernel
  have fails : failsDirectly stray 5 World.full = true := by decide +kernel
  generalize World.full = first at lands fails ⊢
  constructor
  · unfold landsDirectly at lands
    split at lands
    · rename_i p w hread
      split at lands
      · rename_i v w' u w'' hdirect hdrive
        obtain ⟨hv, -⟩ := Bool.and_eq_true_iff.mp lands
        have hends : ∀ w₁, drive 60 ⟨.eval p .global, []⟩ w ≠ .error .exhausted w₁ := by
          rw [hdrive]
          nofun
        exact ⟨p, w, v, w', hread, hv, hdirect, (drive_refines_eval p .global w).1 7 v w' hdirect,
          (drive_refines_eval p .global w).2.2 60 _ rfl hends⟩
      · cases lands
    · cases lands
  · unfold failsDirectly at fails
    split at fails
    · rename_i p w hread
      split at fails
      · rename_i f w' hdirect
        exact ⟨p, w, f, w', hread, hdirect, (drive_refines_eval p .global w).2.1 5 _ w' hdirect nofun⟩
      · cases fails
    · cases fails

end EditableLisp.Machine
