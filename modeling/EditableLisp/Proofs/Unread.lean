import EditableLisp.Interpreter
import EditableLisp.Proofs.MirroredRules
import EditableLisp.Proofs.Run

/-!
# Results are kept and not read

The machine keeps the value of every node that it evaluates, and the form that defined what a symbol refers to.
Neither is for the machine: in two worlds that are alike but for what is kept so (`World.Alike`) it does the same
from every state, step by step (`Machine.blind_step`). Both runs come to the same end, in worlds that are alike
again (`evalIn_alike`).

That an act does not look is `Blind`. It is composed along the machine like the act itself; at its leaves stand
the functions and rules that do the same in a world and in its mirror image, which need not have the same
results either.
-/

namespace EditableLisp

/-! ## Worlds that are alike -/

/-- Two worlds differ at most in the results of nodes and in the defining forms that symbols refer to. -/
structure World.Alike (w w' : World) : Prop where
  nextId : w'.nextId = w.nextId
  frames : w'.frames = w.frames
  atoms : w'.atoms = w.atoms
  keywords : w'.keywords = w.keywords
  spaced : ∀ id, w'.spaced.get? id = w.spaced.get? id
  texts : ∀ id, w'.texts.get? id = w.texts.get? id
  expansions : ∀ id, w'.expansions.get? id = w.expansions.get? id
  recordings : w'.recordings = w.recordings
  output : w'.output = w.output
  files : w'.files = w.files

/-- Two runs end in the same way, in worlds that are alike. -/
def EndsAlike {α : Type} : EStateM.Result Halt World α → EStateM.Result Halt World α → Prop
  | .ok a w, .ok a' w' => a' = a ∧ w.Alike w'
  | .error h w, .error h' w' => h' = h ∧ w.Alike w'
  | _, _ => False

/-- An act does the same whatever results and defining forms are kept. -/
structure Blind {α : Type} (act : Act α) : Prop where
  same : ∀ w w', w.Alike w' → EndsAlike (act w) (act w')

section worlds

variable {w w' : World}

/-- Worlds that are alike mirror each other with all identities as they are. -/
theorem World.alike_iff_mirrors : w.Alike w' ↔ Mirrors (.same 0) w w' := by
  constructor
  · intro h
    exact {
      nextId := fun k => congrArg (· + k) h.nextId.symm
      frames := h.frames.trans (rename_id w.frames).symm
      atoms := h.atoms.trans (rename_id w.atoms).symm
      keywords := h.keywords
      spaced := h.spaced
      texts := h.texts
      expansions := fun id => (h.expansions id).trans (rename_id _).symm
      others := fun id hid => absurd rfl (hid id)
      recordings := ⟨w.recordings, [], [], (List.append_nil _).symm,
        h.recordings.trans ((rename_id w.recordings).symm.trans (List.append_nil _).symm), rfl, rfl⟩
      output := h.output
      files := h.files }
  · intro h
    obtain ⟨inner, outer, outer', hr, hr', houter, houter'⟩ := h.recordings
    obtain rfl := List.eq_nil_of_length_eq_zero houter
    obtain rfl := List.eq_nil_of_length_eq_zero houter'
    rw [List.append_nil] at hr hr'
    exact {
      nextId := h.node_nextId
      frames := h.frames.trans (rename_id w.frames)
      atoms := h.atoms.trans (rename_id w.atoms)
      keywords := h.keywords
      spaced := h.spaced
      texts := h.texts
      expansions := fun id => (h.expansions id).trans (rename_id _)
      recordings := (hr'.trans (rename_id inner)).trans hr.symm
      output := h.output
      files := h.files }

theorem World.Alike.refl (w : World) : w.Alike w :=
  ⟨rfl, rfl, rfl, rfl, fun _ => rfl, fun _ => rfl, fun _ => rfl, rfl, rfl, rfl⟩

/-- Names have the same bindings in worlds that are alike. -/
theorem World.Alike.binding? (h : w.Alike w') (env : Env) (name : String) :
    w'.binding? env name = w.binding? env name :=
  ((World.alike_iff_mirrors.mp h).binding? env name).trans (rename_id _)

theorem World.Alike.lookup? (h : w.Alike w') (env : Env) (name : String) :
    w'.lookup? env name = w.lookup? env name := by
  rw [World.lookup?_eq, World.lookup?_eq, h.binding?]

theorem World.Alike.site? (h : w.Alike w') (env : Env) (name : String) :
    w'.site? env name = w.site? env name := by
  rw [World.site?_eq, World.site?_eq, h.binding?]

/-- Recordings are dropped in both worlds. -/
theorem World.Alike.abandon (h : w.Alike w') (depth : Nat) : (w.abandon depth).Alike (w'.abandon depth) :=
  { h with
    recordings := by
      unfold World.abandon
      rw [h.recordings] }

end worlds

/-! ## Acts that do not look -/

section acts

variable {α β : Type}

namespace Blind

theorem pure (a : α) : Blind (Pure.pure a) := ⟨fun _ _ h => ⟨rfl, h⟩⟩

theorem throw (e : Halt) : Blind (MonadExcept.throw e : Act α) := ⟨fun _ _ h => ⟨rfl, h⟩⟩

theorem fail (f : Fault) : Blind (EditableLisp.fail f : Act α) := throw _

theorem bind {act : Act α} {f : α → Act β} (h : Blind act) (hf : ∀ a, Blind (f a)) : Blind (act >>= f) := by
  refine ⟨fun w w' hw => ?_⟩
  have ha := h.same w w' hw
  cases e : act w with
  | ok a w₁ =>
    cases e' : act w' with
    | ok a' w₁' =>
      rw [e, e'] at ha
      obtain ⟨rfl, hw₁⟩ := ha
      rw [bind_of_eq_ok e, bind_of_eq_ok e']
      exact (hf a').same w₁ w₁' hw₁
    | error b' w₁' =>
      rw [e, e'] at ha
      exact ha.elim
  | error b w₁ =>
    cases e' : act w' with
    | ok a' w₁' =>
      rw [e, e'] at ha
      exact ha.elim
    | error b' w₁' =>
      rw [e, e'] at ha
      rw [bind_of_eq_error e, bind_of_eq_error e']
      exact ha

/-- A blind act that returns something made of what another one returns. -/
theorem map {act : Act α} (h : Blind act) (f : α → β) : Blind (act >>= fun a => Pure.pure (f a)) :=
  h.bind fun a => pure (f a)

/-- An act that reads the world does the same with what it finds in both. -/
theorem get {f : World → Act α} (hf : ∀ w w', w.Alike w' → f w' = f w) (h : ∀ w, Blind (f w)) :
    Blind (MonadState.get >>= f) := by
  refine ⟨fun w w' hw => ?_⟩
  rw [Act.get_bind, Act.get_bind, hf w w' hw]
  exact (h w).same w w' hw

theorem ite {p : Prop} [Decidable p] {act other : Act α} (h : Blind act) (ho : Blind other) :
    Blind (if p then act else other) := by
  split
  · exact h
  · exact ho

end Blind

/-- An act that does in every mirror image what it does in the world itself is blind. -/
theorem Sim.blind [Renamed α] [Kept α] {act act' : Act α} (h : Sim (.same 0) act act') (he : act' = act) :
    Blind act := by
  subst he
  refine ⟨fun w w' hw => ?_⟩
  have hm := h.matched w w' (World.alike_iff_mirrors.mp hw) trivial
  cases e : act' w with
  | ok a w₁ =>
    rw [e] at hm
    obtain ⟨w₁', e', hw₁⟩ := hm.of_ok
    rw [e']
    exact ⟨rename_id a, World.alike_iff_mirrors.mpr hw₁⟩
  | error b w₁ =>
    rw [e] at hm
    obtain ⟨w₁', e', hw₁⟩ := hm.of_error
    rw [e']
    exact ⟨rfl, World.alike_iff_mirrors.mpr hw₁⟩

/-- With all identities as they are, everything keeps its own. -/
@[simp] theorem rename_same [Renamed α] [Kept α] (base : Nat) (a : α) : rename (Mirror.same base).ρ a = a := rename_id a

instance : Kept Call := ⟨fun call => by
  show (⟨call.node, rename Renaming.id call.items⟩ : Call) = call
  rw [rename_id]⟩

theorem blind_print (v : Value) : Blind (liftM (print v)) := (sim_print v).blind (by rw [rename_same])

/-- Showing a value in the message of a failure. -/
theorem blind_failShowing (f : String → Fault) (v : Value) : Blind (do fail (f (← print v)) : Act α) :=
  (blind_print v).bind fun _ => .fail _

end acts

namespace Machine

/-! ## Calls of functions -/

theorem blind_collectNext (f : Value) (index : Option Nat) (done : Array Value) (rest : List Value) :
    Blind (liftM (Job.collectNext f index done rest)) := by
  cases rest with
  | nil =>
    unfold Job.collectNext
    rw [lift_bind]
    exact ((sim_newVector done.toList).blind (by rw [rename_same])).map _
  | cons v rest => exact .pure _

theorem blind_keepNext (f : Value) (wanted : Bool) (done : Array Value) (rest : List Value) :
    Blind (liftM (Job.keepNext f wanted done rest)) := by
  cases rest with
  | nil =>
    unfold Job.keepNext
    rw [lift_bind]
    exact ((sim_newVector done.toList).blind (by rw [rename_same])).map _
  | cons v rest => exact .pure _

theorem blind_jobResume (job : Job) (v : Value) : Blind (liftM (job.resume v)) := by
  cases job with
  | collect f index rest done => exact blind_collectNext f index (done.push v) rest
  | keep f wanted current rest done => exact blind_keepNext f wanted _ rest
  | pass => exact .pure _
  | store id =>
    unfold Job.resume
    rw [lift_bind]
    exact ((sim_setContent id v).blind (by rw [rename_same])).map _

theorem blind_items (v : Value) : Blind (Argument.items v) := (Argument.sim_items v).blind (by rw [rename_same])

theorem blind_wrongArity {α : Type} (name : String) (args : List Value) : Blind (Argument.wrongArity name args : Act α) :=
  .fail _

theorem blind_two {α : Type} {f : Value → Value → Act α} (h : ∀ v u, Blind (f v u)) (name : String)
    (args : List Value) : Blind (Argument.two name f args) := by
  match args with
  | [v, u] => exact h v u
  | [] | [_] | _ :: _ :: _ :: _ => exact blind_wrongArity name _

theorem blind_spread (name : String) (args : List Value) : Blind (Job.spread name args) := by
  match args with
  | [] | [_] => exact blind_wrongArity name _
  | f :: arg :: args => exact (blind_items _).map _

theorem blind_swap (name : String) (args : List Value) : Blind (Job.swap name args) := by
  match args with
  | [] | [_] => exact blind_wrongArity name _
  | a :: f :: extra =>
    refine Blind.bind ((Argument.sim_cell a).blind (by rw [rename_same])) fun id => ?_
    exact ((sim_readContent id).blind rfl).map _

theorem blind_evaluate (b : Builtin) (args : List Value) : Blind (b.evaluate args) :=
  (Builtin.sim_evaluate b args).blind (by rw [rename_same])

theorem blind_run (b : Builtin) (args : List Value) : Blind (b.run args) := by
  cases b with
  | map => exact blind_two (fun f coll => (blind_items coll).bind fun items => blind_collectNext f none #[] items) _ args
  | mapIndexed =>
    exact blind_two (fun f coll => (blind_items coll).bind fun items => blind_collectNext f (some 0) #[] items) _ args
  | filter => exact blind_two (fun f coll => (blind_items coll).bind fun items => blind_keepNext f true #[] items) _ args
  | remove => exact blind_two (fun f coll => (blind_items coll).bind fun items => blind_keepNext f false #[] items) _ args
  | apply => exact blind_spread _ args
  | swap => exact blind_swap _ args
  | _ => exact (blind_evaluate _ args).map _

theorem blind_enter (env : Env) (params : Value) (args : List Value) : Blind (enter env params args) :=
  (sim_enter env params args).blind (by rw [rename_same, rename_same])

theorem blind_apply (f : Value) (args : List Value) (stack : List Pending) : Blind (apply f args stack) := by
  cases f with
  | builtin id code data => exact (blind_run code args).map _
  | closure id kind params body env data => exact (blind_enter env params args).map _
  | _ => exact blind_failShowing .notApplicable _

theorem blind_evalArgs (f : Value) (call : Call) (rest : List Value) (done : Array Value) (env : Env)
    (stack : List Pending) : Blind (evalArgs f call rest done env stack) := by
  cases rest with
  | nil => exact blind_apply f done.toList stack
  | cons arg rest => exact .pure _

/-! ## Expanders -/

theorem blind_setExpansion (id : NodeId) (e : Expansion) : Blind (liftM (setExpansion id e)) :=
  (sim_setExpansion id e).blind (by
    rw [rename_same]
    rfl)

theorem blind_instantiate (template : Value) (env : Env) : Blind (liftM (instantiate template env)) :=
  (sim_instantiate template env).blind (by rw [rename_same])

/-- A recording is opened at the same depth in both worlds. -/
theorem blind_startRecording : Blind (liftM startRecording) where
  same _ _ h := ⟨congrArg List.length h.recordings, { h with recordings := congrArg (List.cons []) h.recordings }⟩

theorem blind_expandAnew (call : Call) (f : Value) (target : Option Env) (stack : List Pending) :
    Blind (expandAnew call f target stack) := by
  cases f with
  | builtin id code data =>
    have hblind : Blind (recorded (code.evaluate call.items.tail)) :=
      ((Builtin.sim_evaluate code call.items.tail).recorded (Builtin.quiet_evaluate code _)).blind (by rw [rename_same])
    exact hblind.bind fun _ => (blind_setExpansion ..).bind fun _ => .pure _
  | closure id kind params body env data =>
    refine (blind_enter env params call.items.tail).bind fun frame => .ite ?_ (blind_startRecording.map _)
    exact (blind_instantiate body frame).bind fun form => (blind_setExpansion ..).bind fun _ => .pure _
  | _ => exact blind_failShowing .notFunction _

theorem blind_expandCall (call : Call) (f : Value) (target : Option Env) (stack : List Pending) :
    Blind (expandCall call f target stack) := by
  refine Blind.bind ((sim_servedForm? call f).blind (by rw [rename_same, rename_same])) fun served => ?_
  cases served with
  | some form => exact .pure _
  | none => exact blind_expandAnew call f target stack

theorem blind_expandOnce (form : Value) (env : Env) (stack : List Pending) : Blind (expandOnce form env stack) := by
  cases form with
  | seq shape node items =>
    cases shape with
    | vector => exact .pure _
    | list =>
      unfold expandOnce
      dsimp only
      cases Value.headName? items with
      | none => exact .pure _
      | some name =>
        refine Blind.get (fun w w' hw => by rw [hw.lookup?]) fun w => ?_
        cases w.lookup? env name with
        | none => exact .pure _
        | some f => exact .ite (blind_expandCall ⟨node, items⟩ f none stack) (.pure _)
  | _ => exact .pure _

theorem blind_begin (f : Value) (call : Call) (env : Env) (stack : List Pending) : Blind (begin f call env stack) := by
  refine .ite (blind_failShowing .notFunction f) (.ite (blind_expandCall call f (some env) stack) ?_)
  refine Blind.bind ((sim_markOrdinary call).blind (by rw [rename_same])) fun _ => ?_
  exact blind_evalArgs f call call.items.tail #[] env stack

/-! ## Special forms -/

theorem blind_defineAt (env : Env) (name : String) (v site : Value) : Blind (liftM (defineAt env name v site)) :=
  (sim_defineAt env name v site).blind (by rw [rename_same, rename_same])

theorem blind_makeClosure (params : Value) (body : List Value) (env : Env) (kind : ClosureKind) :
    Blind (makeClosure params body env kind) :=
  (sim_makeClosure params body env kind).blind (by rw [rename_same, rename_same])

theorem blind_onlyArgument (name : String) (call : Call) : Blind (onlyArgument name call) :=
  (sim_onlyArgument name call).blind (by rw [rename_same])

theorem blind_evalDefinition (call : Call) (env : Env) (stack : List Pending) :
    Blind (evalDefinition call env stack) := by
  unfold evalDefinition
  split
  · exact .pure _
  · exact blind_failShowing .defShape _

theorem blind_evalNamed (kind : ClosureKind) (call : Call) (env : Env) (stack : List Pending) :
    Blind (evalNamed kind call env stack) := by
  refine .ite (.fail _) ?_
  split
  · exact (blind_makeClosure ..).bind fun f => (blind_defineAt ..).bind fun _ => .pure _
  · exact blind_failShowing .namedShape _

theorem blind_evalAnonymous (kind : ClosureKind) (call : Call) (env : Env) (stack : List Pending) :
    Blind (evalAnonymous kind call env stack) := by
  unfold evalAnonymous
  split
  · exact (blind_makeClosure ..).map _
  · exact blind_failShowing .anonymousShape _

theorem blind_evalLet (call : Call) (env : Env) (stack : List Pending) : Blind (evalLet call env stack) := by
  unfold evalLet
  split
  · exact .ite (.fail _) (((sim_newChild env).blind rfl).map _)
  · exact blind_failShowing .letShape _

theorem blind_evalConditional (call : Call) (env : Env) (stack : List Pending) :
    Blind (evalConditional call env stack) := by
  unfold evalConditional
  split
  · exact .pure _
  · exact .pure _
  · exact blind_failShowing .ifShape _

theorem blind_quasiItems (shape : Shape) (total : Nat) (rest : List Value) (done : Array Value) (env : Env)
    (stack : List Pending) : Blind (quasiItems shape total rest done env stack) := by
  cases rest with
  | nil => exact ((sim_newSeq shape done.toList).blind (by rw [rename_same])).map _
  | cons item rest =>
    refine Blind.bind ((sim_spliced? item).blind (by rw [rename_same])) fun spliced => ?_
    cases spliced <;> exact .pure _

theorem blind_addQuasi (splice : Bool) (done : Array Value) (v : Value) : Blind (addQuasi splice done v) := by
  refine .ite ?_ (.pure _)
  cases v with
  | seq | nil => exact .pure _
  | _ => exact blind_failShowing .notSpliced _

theorem blind_evalSpecial (special : Special) (call : Call) (env : Env) (stack : List Pending) :
    Blind (evalSpecial special call env stack) := by
  cases special with
  | definition => exact blind_evalDefinition call env stack
  | named kind => exact blind_evalNamed kind call env stack
  | anonymous kind => exact blind_evalAnonymous kind call env stack
  | bindings => exact blind_evalLet call env stack
  | conditional => exact blind_evalConditional call env stack
  | body | conjunction | disjunction => exact .pure _
  | quote => exact (blind_onlyArgument "quote" call).map _
  | quasiquote => exact (blind_onlyArgument "quasiquote" call).map _
  | macroexpand => exact (blind_onlyArgument "macroexpand" call).bind fun form => blind_expandOnce form env stack
  | evaluate =>
    exact (blind_onlyArgument "eval" call).map _

/-! ## Steps -/

/-- What is kept as the last value of a node is written in both worlds, over whatever stood there. -/
theorem blind_setResult (node v : Value) : Blind (liftM (setResult node v)) :=
  (sim_setResult node v node v).blind rfl

theorem blind_keepResults (v : Value) (nodes : List Value) : Blind (liftM (keepResults v nodes)) := by
  induction nodes with
  | nil => exact .pure _
  | cons node rest ih =>
    unfold keepResults
    rw [lift_bind]
    exact (blind_setResult node v).bind fun _ => ih

theorem blind_evalVector (total : Nat) (rest : List Value) (done : Array Value) (env : Env)
    (stack : List Pending) : Blind (liftM (evalVector total rest done env stack)) := by
  cases rest with
  | nil =>
    unfold evalVector
    rw [lift_bind]
    exact ((sim_newVector done.toList).blind (by rw [rename_same])).map _
  | cons form rest => exact .pure _

theorem blind_evalMap (total : Nat) (rest : Entries) (done : Array (Key × Value)) (env : Env)
    (stack : List Pending) : Blind (liftM (evalMap total rest done env stack)) := by
  cases rest with
  | nil =>
    unfold evalMap
    rw [lift_bind]
    exact ((sim_newMap _).blind (by rw [rename_same])).map _
  | cons entry rest => exact .pure _

theorem blind_resume (v : Value) (stack : List Pending) : Blind (resume v stack) := by
  cases stack with
  | nil => exact .pure _
  | cons p stack =>
    cases p with
    | body => exact .pure _
    | evaluate => exact .pure _
    | head call env => exact blind_begin v call env stack
    | args f call rest done env => exact blind_evalArgs f call rest (done.push v) env stack
    | branch yes no env =>
      unfold resume
      dsimp only
      split <;> exact .pure _
    | definition name call env => exact (blind_defineAt env name v call.toValue).bind fun _ => .pure _
    | binding index pattern rest call env =>
      exact Blind.bind ((Pattern.sim_destructure env pattern v).blind (by rw [rename_same, rename_same])) fun _ => .pure _
    | quasi shape total rest done splice env =>
      exact (blind_addQuasi splice done v).bind fun done => blind_quasiItems shape total rest done env stack
    | expansion call maker depth target =>
      refine Blind.bind ((sim_finishRecording (Nat.zero_le depth)).blind rfl) fun reads => ?_
      exact (blind_setExpansion ..).bind fun _ => .pure _
    | conjunction => exact .ite (.pure _) (.pure _)
    | disjunction => exact .ite (.pure _) (.pure _)
    | vector total rest done env => exact blind_evalVector total rest (done.push v) env stack
    | map total key rest done env => exact blind_evalMap total rest (done.push (key, v)) env stack
    | memo nodes => exact (blind_keepResults v nodes).bind fun _ => .pure _
    | job job => exact (blind_jobResume job v).map _

theorem blind_evalSymbol (id : NodeId) (name : String) (env : Env) (stack : List Pending) :
    Blind (evalSymbol id name env stack) := by
  refine Blind.bind ((sim_lookup env name).blind rfl) fun v => ?_
  refine Blind.bind ((sim_record env name v).blind (by rw [rename_same])) fun _ => ?_
  refine (blind_setResult (.symbol id name) v).bind fun _ => ?_
  refine Blind.get (fun w w' hw => by rw [hw.site?]) fun w => ?_
  cases w.site? env name with
  | none => exact blind_resume v stack
  | some site => exact Blind.bind ((sim_setSite id id site site).blind rfl) fun _ => blind_resume v stack

theorem blind_evalList (node : Node) (items : List Value) (env : Env) (stack : List Pending) :
    Blind (evalList node items env stack) := by
  refine .ite (.pure _) ?_
  cases items with
  | nil => exact blind_resume _ stack
  | cons head rest =>
    dsimp only
    split
    · exact blind_evalSpecial ..
    · exact .pure _

theorem blind_eval (form : Value) (env : Env) (stack : List Pending) : Blind (eval form env stack) := by
  cases form with
  | symbol id name => exact blind_evalSymbol id name env stack
  | seq shape node items =>
    cases shape with
    | list => exact blind_evalList node items env stack
    | vector => exact .ite (blind_resume _ stack) (blind_evalVector ..)
  | map node entries => exact .ite (blind_resume _ stack) (blind_evalMap ..)
  | _ => exact blind_resume _ stack

theorem blind_quasi (form : Value) (env : Env) (stack : List Pending) : Blind (quasi form env stack) := by
  cases form with
  | seq shape node items =>
    refine .ite ?_ (.ite (blind_resume _ stack) (blind_quasiItems ..))
    match items with
    | [_, form] => exact .pure _
    | [] | [_] | _ :: _ :: _ :: _ => exact .fail _
  | _ => exact blind_resume _ stack

/-- **A step does not depend on results that are kept.** -/
theorem blind_step (s : State) : Blind (step s) := by
  obtain ⟨control, stack⟩ := s
  cases control with
  | eval form env => exact blind_eval form env stack
  | quasi form env => exact blind_quasi form env stack
  | ret v => exact blind_resume v stack
  | call f args => exact blind_apply f args stack
  | landed v => exact .pure _

/-! ## Runs -/

theorem blind_steps (n : Nat) (s : State) : Blind (steps n s) := by
  induction n generalizing s with
  | zero => exact .pure s
  | succ n ih => exact (blind_step s).bind ih

theorem blind_drive (fuel : Nat) (s : State) : Blind (drive fuel s) := by
  induction fuel generalizing s with
  | zero => exact .throw _
  | succ fuel ih =>
    unfold drive
    split
    · exact .pure _
    · exact (blind_step s).bind ih

end Machine

/-! ## Evaluation -/

/-- Recordings that a failure leaves open are dropped in both worlds. -/
theorem Blind.balanced {α : Type} {act : Act α} (h : Blind act) : Blind (balanced act) := by
  refine ⟨fun w w' hw => ?_⟩
  have hm := h.same w w' hw
  unfold EditableLisp.balanced
  rw [hw.recordings]
  cases e : act w with
  | ok a w₁ =>
    cases e' : act w' with
    | ok a' w₁' =>
      rw [e, e'] at hm
      exact hm
    | error b' w₁' =>
      rw [e, e'] at hm
      exact hm.elim
  | error b w₁ =>
    cases e' : act w' with
    | ok a' w₁' =>
      rw [e, e'] at hm
      exact hm.elim
    | error b' w₁' =>
      rw [e, e'] at hm
      obtain ⟨rfl, hw₁⟩ := hm
      cases b' with
      | fault f => exact ⟨rfl, hw₁.abandon _⟩
      | crash => exact ⟨rfl, hw₁⟩
      | exhausted => exact ⟨rfl, hw₁⟩

theorem blind_runFrom (fuel : Nat) (s : State) : Blind (runFrom fuel s) := (Machine.blind_drive fuel s).balanced

/-- Expanding a form for inspection, too, does not look at results. -/
theorem blind_expandForm (fuel : Nat) (form : Value) : Blind (expandForm fuel form) :=
  (Machine.blind_expandOnce form .global []).bind fun s => blind_runFrom fuel s

/-- **Results never influence evaluation.** In two worlds that differ at most in the results of nodes and in the
defining forms that symbols refer to, every form in every chain of frames is evaluated in the same steps: after
any number of them the machine is in the same state, or failed in the same way. The run as a whole ends with
the same value or the same failure. In all that is not kept results and defining forms the worlds agree again. -/
theorem evalIn_alike {w w' : World} (h : w.Alike w') (form : Value) (env : Env) :
    (∀ n, EndsAlike (Machine.steps n ⟨.eval form env, []⟩ w) (Machine.steps n ⟨.eval form env, []⟩ w')) ∧
      ∀ fuel, EndsAlike (evalIn fuel form env w) (evalIn fuel form env w') :=
  ⟨fun n => (Machine.blind_steps n _).same w w' h, fun fuel => (blind_runFrom fuel _).same w w' h⟩

/-- The vector `[x]` was evaluated before and its value is kept in one of two worlds; in both it is evaluated
again, to a new vector of what `x` is bound to. -/
theorem evalIn_alike_stale : ∃ (w w' : World) (form : Value), w.evaluated form ≠ w'.evaluated form ∧
    w.Alike w' ∧ EndsAlike (evalIn 9 form .global w) (evalIn 9 form .global w') ∧
    ∃ v w₁, evalIn 9 form .global w = .ok v w₁ ∧ v.equal (.seq .vector (.bare 0) [.bool true]) = true := by
  let w : World := { World.initial with frames := #[Tables.empty.define "x" (.bool true)], nextId := 2 }
  let w' : World := { w with results := w.results.set 0 (.bool false) }
  let form : Value := .seq .vector (.bare 0) [.symbol 1 "x"]
  have hw : w.Alike w' := { World.Alike.refl w with }
  exact ⟨w, w', form, nofun, hw, (evalIn_alike hw form .global).2 9, _, _, rfl, rfl⟩

/-- A host that asks what a node stands for does see its last value. -/
example : ¬ Blind (liftM (expandedForm (.symbol 0 "x"))) := fun h => by
  have hsame := h.same World.initial { World.initial with results := Table.empty.set 0 .nil }
    { World.Alike.refl World.initial with }
  exact nomatch hsame.1

end EditableLisp
