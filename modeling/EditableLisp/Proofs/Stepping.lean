import EditableLisp.Interpreter
import EditableLisp.Proofs.Functions
import EditableLisp.Proofs.Templates

/-!
# Evaluation keeps the world ok

`Registry.StateKnown`: all that a state of the machine holds is known, and every chain of frames that it
may write is in scope. `Machine.keeps_step` says that a step keeps the world ok and comes to a known state,
with one rule for each kind of pending step and each special form; `keeps_drive` follows for whole runs,
whether they succeed, fail or run out of steps.
-/

namespace EditableLisp

open Registry

variable {R R' : Registry}

/-! ## Bodies of functions -/

/-- The body of the function that a special form makes. -/
def Special.enclosed? (special : Special) (items : List Value) : Option (List Value) :=
  match special, items with
  | .named _, _ :: _ :: _ :: forms => some forms
  | .anonymous _, _ :: _ :: forms => some forms
  | _, _ => none

/-- The body of the function that a form makes when it is evaluated. -/
def Value.enclosed? (form : Value) : Option (List Value) :=
  match form with
  | .seq .list node items =>
    if node.style = .program then none
    else ((headName? items).bind Special.ofName?).bind fun special => special.enclosed? items
  | _ => none

/-- The body of the function that a step makes. -/
def State.enclosed? (s : State) : Option (List Value) :=
  match s.control with
  | .eval form _ => form.enclosed?
  | _ => none

/-! ## Known states -/

namespace Registry

/-- What a pending step holds is known. -/
def PendingKnown (R : Registry) : Pending → Prop
  | .body _ rest env => R.AllKnown rest ∧ R.InScope env
  | .head call env => R.Known call.toValue ∧ R.InScope env
  | .args f call rest done env =>
    R.Known f ∧ R.Known call.toValue ∧ R.AllKnown rest ∧ R.AllKnown done.toList ∧ R.InScope env
  | .branch yes no env => R.Known yes ∧ (∀ v, no = some v → R.Known v) ∧ R.InScope env
  | .definition _ call env => R.Known call.toValue ∧ R.InScope env
  | .binding _ pattern rest call env =>
    R.Known pattern ∧ R.AllKnown rest ∧ R.Known call.toValue ∧ R.InScope env
  | .quasi _ _ rest done _ env => R.AllKnown rest ∧ R.AllKnown done.toList ∧ R.InScope env
  | .expansion call maker _ target =>
    R.Known call.toValue ∧ R.Known maker ∧ ∀ env, target = some env → R.InScope env
  | .evaluate env => R.InScope env
  | .conjunction _ rest env => R.AllKnown rest ∧ R.InScope env
  | .disjunction _ rest env => R.AllKnown rest ∧ R.InScope env
  | .vector _ rest done env => R.AllKnown rest ∧ R.AllKnown done.toList ∧ R.InScope env
  | .map _ key rest done env =>
    R.KnownKey key ∧ R.EntriesKnown rest ∧ R.EntriesKnown done.toList ∧ R.InScope env
  | .memo nodes => R.AllKnown nodes
  | .job job => R.JobKnown job

/-- What the machine does now is done with known values. -/
def ControlKnown (R : Registry) : Control → Prop
  | .eval form env => R.Known form ∧ R.InScope env
  | .quasi form env => R.Known form ∧ R.InScope env
  | .ret v => R.Known v
  | .call f args => R.Known f ∧ R.AllKnown args
  | .landed v => R.Known v

/-- All pending steps are known. -/
def StackKnown (R : Registry) (stack : List Pending) : Prop := ∀ p ∈ stack, R.PendingKnown p

/-- All that a state holds is known. -/
def StateKnown (R : Registry) (s : State) : Prop := R.ControlKnown s.control ∧ R.StackKnown s.stack

theorem PendingKnown.mono {p : Pending} (h : R.PendingKnown p) (hle : R ≤ R') : R'.PendingKnown p := by
  cases p with
  | body | conjunction | disjunction => exact ⟨h.1.mono hle, h.2.mono hle⟩
  | head | definition => exact ⟨h.1.mono hle, h.2.mono hle⟩
  | args =>
    exact ⟨h.1.mono hle, h.2.1.mono hle, h.2.2.1.mono hle, h.2.2.2.1.mono hle, h.2.2.2.2.mono hle⟩
  | branch => exact ⟨h.1.mono hle, fun v e => (h.2.1 v e).mono hle, h.2.2.mono hle⟩
  | binding => exact ⟨h.1.mono hle, h.2.1.mono hle, h.2.2.1.mono hle, h.2.2.2.mono hle⟩
  | quasi | vector => exact ⟨h.1.mono hle, h.2.1.mono hle, h.2.2.mono hle⟩
  | expansion => exact ⟨h.1.mono hle, h.2.1.mono hle, fun env e => (h.2.2 env e).mono hle⟩
  | evaluate => exact InScope.mono h hle
  | map => exact ⟨h.1.mono hle, h.2.1.mono hle, h.2.2.1.mono hle, h.2.2.2.mono hle⟩
  | memo => exact AllKnown.mono h hle
  | job => exact JobKnown.mono h hle

theorem StackKnown.mono {stack : List Pending} (h : R.StackKnown stack) (hle : R ≤ R') :
    R'.StackKnown stack := fun p hp => (h p hp).mono hle

theorem ControlKnown.mono {c : Control} (h : R.ControlKnown c) (hle : R ≤ R') : R'.ControlKnown c := by
  cases c with
  | eval | quasi => exact ⟨h.1.mono hle, h.2.mono hle⟩
  | ret | landed => exact Known.mono h hle
  | call => exact ⟨h.1.mono hle, h.2.mono hle⟩

theorem StateKnown.mono {s : State} (h : R.StateKnown s) (hle : R ≤ R') : R'.StateKnown s :=
  ⟨h.1.mono hle, h.2.mono hle⟩

theorem stackKnown_nil : R.StackKnown [] := nofun

/-- What the forms of a body are joined to is code. -/
def Encloses (R : Registry) (body : List Value) : Prop := ∀ w, R.code (Machine.joinBody body w).1

theorem Open.encloses (h : R.Open) (body : List Value) : R.Encloses body := fun _ => h _

theorem StackKnown.cons {p : Pending} {stack : List Pending} (hp : R.PendingKnown p)
    (h : R.StackKnown stack) : R.StackKnown (p :: stack) := List.forall_mem_cons.mpr ⟨hp, h⟩

theorem StackKnown.tail {p : Pending} {stack : List Pending} (h : R.StackKnown (p :: stack)) :
    R.StackKnown stack := (List.forall_mem_cons.mp h).2

theorem StackKnown.head {p : Pending} {stack : List Pending} (h : R.StackKnown (p :: stack)) :
    R.PendingKnown p := (List.forall_mem_cons.mp h).1

/-- The elements of a known call are known. -/
theorem Ok.known_items {w : World} (hw : R.Ok w) {call : Call} (hc : R.Known call.toValue) :
    R.AllKnown call.items := hw.partsKnown hc

end Registry

namespace Machine

variable {env : Env} {stack : List Pending} {call : Call}

/-! ## Bodies and calls -/

theorem known_evalBody {rest : List Value} (hr : R.AllKnown rest) (he : R.InScope env)
    (hs : R.StackKnown stack) (total : Nat) : R.StateKnown (evalBody total rest env stack) := by
  unfold evalBody
  split
  · exact ⟨trivial, hs⟩
  · exact ⟨⟨hr _ List.mem_cons_self, he⟩, hs⟩
  · obtain ⟨hform, hrest⟩ := allKnown_cons.mp hr
    exact ⟨⟨hform, he⟩, hs.cons ⟨hrest, he⟩⟩

theorem known_memo {node : Value} (hn : R.Known node) (hs : R.StackKnown stack) :
    R.StackKnown (memo node stack) := by
  unfold memo
  split
  · split
    · exact hs
    · refine hs.tail.cons (allKnown_append.mpr ⟨hs.head, ?_⟩)
      exact List.forall_mem_singleton.mpr hn
  · exact hs.cons (List.forall_mem_singleton.mpr hn)

theorem known_afterOutcome {outcome : Outcome} (ho : R.OutcomeKnown outcome) (hs : R.StackKnown stack) :
    R.StateKnown (afterOutcome outcome stack) := by
  cases outcome with
  | value v => exact ⟨ho, hs⟩
  | call job f args => exact ⟨ho.2, hs.cons ho.1⟩

/-- **A call keeps the world ok.** -/
theorem keeps_apply {f : Value} {args : List Value} (hf : R.Known f) (ha : R.AllKnown args)
    (hs : R.StackKnown stack) : Keeps R (apply f args stack) StateKnown := by
  refine Keeps.of_ok fun w hw => ?_
  have hparts := hw.partsKnown hf
  unfold apply
  split
  · rename_i code _
    refine Keeps.bind (code.keeps_run ha) fun R' outcome hle ho => ?_
    exact Keeps.pure (known_afterOutcome ho (hs.mono hle))
  · refine Keeps.bind (keeps_enter hparts.2.2.1 hparts.1 ha) fun R' frame hle hframe => ?_
    exact Keeps.pure ⟨⟨hparts.2.1.mono hle, hframe⟩, hs.mono hle⟩
  · exact (steady_print hf).bind_keeps fun _ _ => Keeps.fail _

theorem keeps_evalArgs {f : Value} {rest : List Value} {done : Array Value} (hf : R.Known f)
    (hc : R.Known call.toValue) (hr : R.AllKnown rest) (hd : R.AllKnown done.toList) (he : R.InScope env)
    (hs : R.StackKnown stack) : Keeps R (evalArgs f call rest done env stack) StateKnown := by
  unfold evalArgs
  split
  · obtain ⟨harg, hrest⟩ := allKnown_cons.mp hr
    exact Keeps.pure ⟨⟨harg, he⟩, hs.cons ⟨hf, hc, hrest, hd, he⟩⟩
  · exact keeps_apply hf hd hs

/-! ## Expanders -/

theorem known_finishExpansion {form : Value} {target : Option Env} (hf : R.Known form)
    (ht : ∀ env, target = some env → R.InScope env) (hs : R.StackKnown stack) :
    R.StateKnown (finishExpansion form target stack) := by
  unfold finishExpansion
  split
  · exact ⟨⟨hf, ht _ rfl⟩, hs⟩
  · exact ⟨hf, hs⟩

/-- The form that a kept expansion serves is known. -/
theorem keeps_servedForm? (call : Call) (f : Value) :
    Keeps R (liftM (servedForm? call f)) fun R' served => ∀ form, served = some form → R'.Known form := by
  refine Keeps.of_ok fun w hw => ?_
  unfold servedForm?
  rw [lift_bind]
  refine Steady.bind_keeps steady_liftGet fun w hw => ?_
  split
  · rename_i e he
    have hserves := hw.expansions _ _ he
    split
    · cases e with
      | constant maker form reads =>
        dsimp only
        rw [lift_bind]
        refine (steady_recordAll hserves.2.2).bind_keeps fun _ _ => Keeps.pure ?_
        rintro form ⟨⟩
        exact hserves.2.1
      | bound maker template env =>
        obtain ⟨hmaker, function, params, scope, data, node, items, content, vector, rfl, henv, hcall,
          hframe, hb⟩ := hserves
        have htemplate : R.Known template := (hw.partsKnown hmaker).2.1
        dsimp only
        rw [lift_bind]
        refine Keeps.bind (keeps_instantiate htemplate hframe) fun R' form _ hform => Keeps.pure ?_
        rintro form ⟨⟩
        exact hform.1
      | unchanged => exact Keeps.pure nofun
    · exact Keeps.pure nofun
  · exact Keeps.pure nofun

/-- **A new expansion is kept on the call that it serves.** -/
theorem keeps_expandAnew {f : Value} {target : Option Env} (hc : R.Known call.toValue) (hf : R.Known f)
    (ht : ∀ env, target = some env → R.InScope env) (hs : R.StackKnown stack) :
    Keeps R (expandAnew call f target stack) StateKnown := by
  refine Keeps.of_ok fun w hw => ?_
  have hparts := hw.partsKnown hf
  have hargs : R.AllKnown call.items.tail :=
    fun v hv => hw.known_items hc v (List.mem_of_mem_tail hv)
  unfold expandAnew
  split
  · rename_i id code data
    refine Keeps.bind (code.keeps_evaluate hargs).recorded fun R' ⟨form, reads⟩ hle ⟨hform, hreads⟩ => ?_
    have hserves : R'.Serves call.node.id (.constant (.builtin id code data) form reads) :=
      ⟨hf.mono hle, hform, hreads⟩
    refine (steady_setExpansion ((hc.mono hle).isSome_node rfl) hserves).bind_keeps fun _ _ => Keeps.pure ?_
    exact known_finishExpansion hform (fun env e => (ht env e).mono hle) (hs.mono hle)
  · rename_i id kind params body env data
    by_cases hk : kind = .template
    · subst hk
      refine Keeps.bind (keeps_enter_template hparts.1 hargs) fun R₁ frame hle hframe => ?_
      obtain ⟨henv, content, vector, hframe, hb⟩ := hframe
      rw [if_pos rfl]
      refine Keeps.bind (keeps_instantiate (hparts.2.1.mono hle) hframe) fun R₂ form hle' hform => ?_
      have hle₂ := le_trans hle hle'
      have hserves : R₂.Serves call.node.id (.bound (.closure id .template params body env data) body frame) :=
        ⟨hf.mono hle₂, id, params, env, data, call.node, call.items, content, vector, rfl, henv,
          hc.mono hle₂, hle'.2.1 _ _ hframe, hb⟩
      refine (steady_setExpansion ((hc.mono hle₂).isSome_node rfl) hserves).bind_keeps
        fun _ _ => Keeps.pure ?_
      exact known_finishExpansion hform.1 (fun env e => (ht env e).mono hle₂) (hs.mono hle₂)
    · refine Keeps.bind (keeps_enter hparts.2.2.1 hparts.1 hargs) fun R₁ frame hle hframe => ?_
      rw [if_neg hk]
      refine steady_startRecording.bind_keeps fun depth _ => Keeps.pure ?_
      refine ⟨⟨hparts.2.1.mono hle, hframe⟩, (hs.mono hle).cons ?_⟩
      exact ⟨hc.mono hle, hf.mono hle, fun env e => (ht env e).mono hle⟩
  · exact (steady_print hf).bind_keeps fun _ _ => Keeps.fail _

theorem keeps_expandCall {f : Value} {target : Option Env} (hc : R.Known call.toValue) (hf : R.Known f)
    (ht : ∀ env, target = some env → R.InScope env) (hs : R.StackKnown stack) :
    Keeps R (expandCall call f target stack) StateKnown := by
  refine Keeps.bind (keeps_servedForm? call f) fun R' served hle hserved => ?_
  have ht' : ∀ env, target = some env → R'.InScope env := fun env e => (ht env e).mono hle
  split
  · exact Keeps.pure (known_finishExpansion (hserved _ rfl) ht' (hs.mono hle))
  · exact keeps_expandAnew (hc.mono hle) (hf.mono hle) ht' (hs.mono hle)

theorem keeps_expandOnce {form : Value} (hf : R.Known form) (hs : R.StackKnown stack) (env : Env) :
    Keeps R (expandOnce form env stack) StateKnown := by
  unfold expandOnce
  split
  · rename_i node items
    split
    · rename_i name hname
      refine steady_get.bind_keeps fun w hw => ?_
      split
      · rename_i f hlookup
        split
        · have hcall : R.Known (Call.toValue ⟨node, items⟩) := hf
          refine keeps_expandCall hcall (hw.known_lookup? hlookup) (fun target h => ?_) hs
          cases h
        · exact Keeps.pure ⟨hf, hs⟩
      · exact Keeps.pure ⟨hf, hs⟩
    · exact Keeps.pure ⟨hf, hs⟩
  · exact Keeps.pure ⟨hf, hs⟩

theorem steady_markOrdinary {call : Call} (hc : R.Known call.toValue) :
    Steady R (liftM (markOrdinary call)) fun _ => True := by
  unfold markOrdinary
  rw [lift_bind]
  refine Steady.bind steady_liftGet fun w _ => ?_
  split
  · exact Steady.pure trivial
  · exact steady_setExpansion (hc.isSome_node rfl) trivial

theorem keeps_begin {f : Value} (hf : R.Known f) (hc : R.Known call.toValue) (he : R.InScope env)
    (hs : R.StackKnown stack) : Keeps R (begin f call env stack) StateKnown := by
  refine Keeps.of_ok fun w hw => ?_
  have hargs : R.AllKnown call.items.tail :=
    fun v hv => hw.known_items hc v (List.mem_of_mem_tail hv)
  unfold begin
  split
  · exact (steady_print hf).bind_keeps fun _ _ => Keeps.fail _
  · split
    · refine keeps_expandCall hc hf ?_ hs
      rintro env ⟨⟩
      exact he
    · refine (steady_markOrdinary hc).bind_keeps fun _ _ => ?_
      exact keeps_evalArgs hf hc hargs allKnown_nil he hs

/-! ## Special forms -/

mutual

theorem steady_validate {R : Registry} (pattern : Value) (hp : R.Known pattern) :
    Steady R (Pattern.validate pattern) fun _ => True := by
  refine Steady.of_ok fun w hw => ?_
  have hparts := hw.partsKnown hp
  match pattern with
  | .symbol id name =>
    unfold Pattern.validate
    split
    · exact Steady.fail _
    · exact Steady.pure trivial
  | .seq .vector node items =>
    unfold Pattern.validate
    exact steady_validateItems hp items hparts
  | .seq .list _ _ | .nil | .bool _ | .num _ | .text _ | .keyword _ | .map _ _ | .builtin _ _ _
  | .closure _ _ _ _ _ _ | .atom _ =>
    unfold Pattern.validate
    exact Argument.steady_failWith hp _

theorem steady_validateItems {R : Registry} {whole : Value} (hw : R.Known whole) (items : List Value)
    (hi : R.AllKnown items) : Steady R (Pattern.validateItems whole items) fun _ => True := by
  match items with
  | [] =>
    unfold Pattern.validateItems
    exact Steady.pure trivial
  | item :: rest =>
    obtain ⟨hitem, hrest⟩ := allKnown_cons.mp hi
    unfold Pattern.validateItems
    split
    · match rest with
      | [] => exact Argument.steady_failWith hw _
      | [last] => exact steady_validate last (allKnown_cons.mp hrest).1
      | _ :: _ :: _ => exact Argument.steady_failWith hw _
    · exact Steady.bind (steady_validate item hitem) fun _ _ => steady_validateItems hw rest hrest

end

theorem keeps_joinBody {forms : List Value} (hf : R.AllKnown forms) :
    Keeps R (liftM (joinBody forms)) fun R' v => R'.Known v ∧ ∃ w, v = (joinBody forms w).1 := by
  have hknown : Keeps R (liftM (joinBody forms)) Known := by
    unfold joinBody
    split
    · exact Keeps.pure trivial
    · exact Keeps.pure (hf _ List.mem_cons_self)
    · rw [lift_bind]
      refine Keeps.bind (keeps_newSymbol _) fun R' head hle hhead => ?_
      exact keeps_newList (allKnown_cons.mpr ⟨hhead, hf.mono hle⟩)
  intro w hw
  obtain ⟨R', hle, hok, hv⟩ := hknown w hw
  exact ⟨R', hle, hok, hv, w, rfl⟩

theorem keeps_makeClosure {params : Value} {body : List Value} (hp : R.Known params)
    (hb : R.AllKnown body) (hcode : R.Encloses body) (he : R.InScope env) (kind : ClosureKind) :
    Keeps R (makeClosure params body env kind) Known := by
  have make : Keeps R (Pattern.validate params >>= fun _ => joinBody body >>= fun form =>
      freshId >>= fun id => pure (.closure id kind params form env .nil)) Known := by
    refine (steady_validate params hp).bind_keeps fun _ _ => ?_
    refine Keeps.bind (keeps_joinBody hb) fun R' form hle ⟨hform, w, hjoined⟩ => ?_
    have hformCode : R'.code form := by
      rw [hle.2.2.2, hjoined]
      exact hcode w
    exact Keeps.bind (keeps_freshId (k := fun id => .closure id kind params form env .nil)
      (fun _ => ⟨hp.mono hle, hform, he.mono hle, trivial, hformCode⟩)
      fun _ => Value.isLaidOut_of_node?_eq_none rfl) fun R'' id _ h => Keeps.pure h
  unfold makeClosure
  split
  · exact make
  · exact (steady_print hp).bind_keeps fun _ _ => Keeps.fail _

theorem keeps_evalDefinition (hc : R.Known call.toValue) (he : R.InScope env) (hs : R.StackKnown stack) :
    Keeps R (evalDefinition call env stack) StateKnown := by
  refine Keeps.of_ok fun w hw => ?_
  have hitems := hw.known_items hc
  unfold evalDefinition
  split
  · rename_i form heq
    rw [heq] at hitems
    refine Keeps.pure ⟨⟨hitems _ ?_, he⟩, hs.cons ⟨hc, he⟩⟩
    exact List.mem_cons_of_mem _ (List.mem_cons_of_mem _ List.mem_cons_self)
  · exact (steady_print hc).bind_keeps fun _ _ => Keeps.fail _

theorem keeps_evalNamed (kind : ClosureKind) (hc : R.Known call.toValue)
    (hcode : ∀ body, (Special.named kind).enclosed? call.items = some body → R.Encloses body)
    (he : R.InScope env) (hs : R.StackKnown stack) : Keeps R (evalNamed kind call env stack) StateKnown := by
  refine Keeps.of_ok fun w hw => ?_
  have hitems := hw.known_items hc
  unfold evalNamed
  split
  · exact Keeps.fail _
  · split
    · rename_i params body heq
      rw [heq] at hitems hcode
      obtain ⟨hparams, hbody⟩ := allKnown_cons.mp (allKnown_cons.mp (allKnown_cons.mp hitems).2).2
      refine Keeps.bind (keeps_makeClosure hparams hbody (hcode body rfl) he kind) fun R' f hle hf => ?_
      refine (steady_defineAt (he.mono hle).writable hf (hc.mono hle) _).bind_keeps fun _ _ => ?_
      exact Keeps.pure ⟨hf, hs.mono hle⟩
    · exact (steady_print hc).bind_keeps fun _ _ => Keeps.fail _

theorem keeps_evalAnonymous (kind : ClosureKind) (hc : R.Known call.toValue)
    (hcode : ∀ body, (Special.anonymous kind).enclosed? call.items = some body → R.Encloses body)
    (he : R.InScope env) (hs : R.StackKnown stack) : Keeps R (evalAnonymous kind call env stack) StateKnown := by
  refine Keeps.of_ok fun w hw => ?_
  have hitems := hw.known_items hc
  unfold evalAnonymous
  split
  · rename_i params body heq
    rw [heq] at hitems hcode
    obtain ⟨hparams, hbody⟩ := allKnown_cons.mp (allKnown_cons.mp hitems).2
    refine Keeps.bind (keeps_makeClosure hparams hbody (hcode body rfl) he kind) fun R' f hle hf => ?_
    exact Keeps.pure ⟨hf, hs.mono hle⟩
  · exact (steady_print hc).bind_keeps fun _ _ => Keeps.fail _

theorem known_evalBindings {w : World} (hw : R.Ok w) {rest : List Value} (hr : R.AllKnown rest)
    (hc : R.Known call.toValue) (he : R.InScope env) (hs : R.StackKnown stack) (index : Nat) :
    R.StateKnown (evalBindings index rest call env stack) := by
  unfold evalBindings
  split
  · obtain ⟨hpattern, hrest⟩ := allKnown_cons.mp hr
    obtain ⟨hform, hrest⟩ := allKnown_cons.mp hrest
    exact ⟨⟨hform, he⟩, hs.cons ⟨hpattern, hrest, hc, he⟩⟩
  · exact known_evalBody (fun v hv => hw.known_items hc v (List.mem_of_mem_drop hv)) he hs _

theorem keeps_evalLet (hc : R.Known call.toValue) (he : R.InScope env) (hs : R.StackKnown stack) :
    Keeps R (evalLet call env stack) StateKnown := by
  refine Keeps.of_ok fun w hw => ?_
  have hitems := hw.known_items hc
  unfold evalLet
  split
  · rename_i node bindings rest heq
    rw [heq] at hitems
    have hvector := hitems _ (List.mem_cons_of_mem _ List.mem_cons_self)
    have hbindings : R.AllKnown bindings := hw.partsKnown hvector
    split
    · exact Keeps.fail _
    · refine Keeps.bind (keeps_newScope he) fun R' scope hle hscope => Keeps.of_ok fun w' hw' => Keeps.pure ?_
      exact known_evalBindings hw' (hbindings.mono hle) (hc.mono hle) hscope (hs.mono hle) _
  · exact (steady_print hc).bind_keeps fun _ _ => Keeps.fail _

theorem keeps_evalConditional (hc : R.Known call.toValue) (he : R.InScope env)
    (hs : R.StackKnown stack) : Keeps R (evalConditional call env stack) StateKnown := by
  refine Keeps.of_ok fun w hw => ?_
  have hitems := hw.known_items hc
  unfold evalConditional
  split
  · rename_i test yes heq
    rw [heq] at hitems
    obtain ⟨htest, hrest⟩ := allKnown_cons.mp (allKnown_cons.mp hitems).2
    exact Keeps.pure ⟨⟨htest, he⟩, hs.cons ⟨(allKnown_cons.mp hrest).1, nofun, he⟩⟩
  · rename_i test yes no heq
    rw [heq] at hitems
    obtain ⟨htest, hrest⟩ := allKnown_cons.mp (allKnown_cons.mp hitems).2
    obtain ⟨hyes, hrest⟩ := allKnown_cons.mp hrest
    refine Keeps.pure ⟨⟨htest, he⟩, hs.cons ⟨hyes, ?_, he⟩⟩
    rintro v ⟨⟩
    exact (allKnown_cons.mp hrest).1
  · exact (steady_print hc).bind_keeps fun _ _ => Keeps.fail _

theorem known_evalConjunction {rest : List Value} (hr : R.AllKnown rest) (he : R.InScope env)
    (hs : R.StackKnown stack) (total : Nat) : R.StateKnown (evalConjunction total rest env stack) := by
  unfold evalConjunction
  split
  · exact ⟨trivial, hs⟩
  · exact ⟨⟨hr _ List.mem_cons_self, he⟩, hs⟩
  · obtain ⟨hform, hrest⟩ := allKnown_cons.mp hr
    exact ⟨⟨hform, he⟩, hs.cons ⟨hrest, he⟩⟩

theorem known_evalDisjunction {rest : List Value} (hr : R.AllKnown rest) (he : R.InScope env)
    (hs : R.StackKnown stack) (total : Nat) : R.StateKnown (evalDisjunction total rest env stack) := by
  unfold evalDisjunction
  split
  · exact ⟨trivial, hs⟩
  · exact ⟨⟨hr _ List.mem_cons_self, he⟩, hs⟩
  · obtain ⟨hform, hrest⟩ := allKnown_cons.mp hr
    exact ⟨⟨hform, he⟩, hs.cons ⟨hrest, he⟩⟩

theorem steady_onlyArgument (hc : R.Known call.toValue) (name : String) :
    Steady R (onlyArgument name call) R.Known := by
  refine Steady.of_ok fun w hw => ?_
  have hitems := hw.known_items hc
  unfold onlyArgument
  split
  · rename_i form heq
    rw [heq] at hitems
    exact Steady.pure (hitems _ (List.mem_cons_of_mem _ List.mem_cons_self))
  · exact Steady.fail _

theorem mem_of_onlyArgument {name : String} {form : Value} {w w' : World}
    (h : onlyArgument name call w = .ok form w') : form ∈ call.items := by
  obtain ⟨node, items⟩ := call
  match items, h with
  | [head, arg], h =>
    cases h
    exact List.mem_cons_of_mem _ List.mem_cons_self
  | [], h | [_], h | _ :: _ :: _ :: _, h => exact absurd h fail_ne_ok

/-! ## Quasiquotation -/

theorem steady_spliced? {item : Value} (hi : R.Known item) :
    Steady R (spliced? item) fun form => ∀ v, form = some v → R.Known v := by
  refine Steady.of_ok fun w hw => ?_
  have hparts := hw.partsKnown hi
  unfold spliced?
  split
  · split
    · split
      · refine Steady.pure ?_
        rintro v ⟨⟩
        exact (allKnown_cons.mp (allKnown_cons.mp hparts).2).1
      · exact Steady.fail _
    · exact Steady.pure nofun
  · exact Steady.pure nofun

theorem keeps_quasiItems {rest : List Value} {done : Array Value} (hr : R.AllKnown rest)
    (hd : R.AllKnown done.toList) (he : R.InScope env) (hs : R.StackKnown stack) (shape : Shape)
    (total : Nat) : Keeps R (quasiItems shape total rest done env stack) StateKnown := by
  unfold quasiItems
  split
  · exact Keeps.bind (keeps_newSeq hd shape) fun R' v hle hv => Keeps.pure ⟨hv, hs.mono hle⟩
  · obtain ⟨hitem, hrest⟩ := allKnown_cons.mp hr
    refine (steady_spliced? hitem).bind_keeps fun form hform => ?_
    split
    · exact Keeps.pure ⟨⟨hform _ rfl, he⟩, hs.cons ⟨hrest, hd, he⟩⟩
    · exact Keeps.pure ⟨⟨hitem, he⟩, hs.cons ⟨hrest, hd, he⟩⟩

theorem steady_addQuasi {v : Value} {done : Array Value} (hv : R.Known v) (hd : R.AllKnown done.toList)
    (splice : Bool) : Steady R (addQuasi splice done v) fun done => R.AllKnown done.toList := by
  refine Steady.of_ok fun w hw => ?_
  have hparts := hw.partsKnown hv
  unfold addQuasi
  split
  · split
    · exact Steady.pure (allKnown_append_array hd hparts)
    · exact Steady.pure hd
    · exact Argument.steady_failWith hv _
  · exact Steady.pure (allKnown_push hd hv)

/-- **Every special form keeps the world ok.** -/
theorem keeps_evalSpecial (special : Special) (hc : R.Known call.toValue)
    (hcode : ∀ body, special.enclosed? call.items = some body → R.Encloses body) (he : R.InScope env)
    (hs : R.StackKnown stack) : Keeps R (evalSpecial special call env stack) StateKnown := by
  refine Keeps.of_ok fun w hw => ?_
  have htail : R.AllKnown call.items.tail :=
    fun v hv => hw.known_items hc v (List.mem_of_mem_tail hv)
  cases special with
  | definition => exact keeps_evalDefinition hc he hs
  | named kind => exact keeps_evalNamed kind hc hcode he hs
  | anonymous kind => exact keeps_evalAnonymous kind hc hcode he hs
  | bindings => exact keeps_evalLet hc he hs
  | body => exact Keeps.pure (known_evalBody htail he hs _)
  | conditional => exact keeps_evalConditional hc he hs
  | quote => exact (steady_onlyArgument hc _).bind_keeps fun form hf => Keeps.pure ⟨hf, hs⟩
  | quasiquote => exact (steady_onlyArgument hc _).bind_keeps fun form hf => Keeps.pure ⟨⟨hf, he⟩, hs⟩
  | macroexpand => exact (steady_onlyArgument hc _).bind_keeps fun form hf => keeps_expandOnce hf hs env
  | evaluate =>
    exact (steady_onlyArgument hc _).bind_keeps fun form hf => Keeps.pure ⟨⟨hf, he⟩, hs.cons he⟩
  | conjunction => exact Keeps.pure (known_evalConjunction htail he hs _)
  | disjunction => exact Keeps.pure (known_evalDisjunction htail he hs _)

/-! ## Steps -/

theorem keeps_evalVector {rest : List Value} {done : Array Value} (hr : R.AllKnown rest)
    (hd : R.AllKnown done.toList) (he : R.InScope env) (hs : R.StackKnown stack) (total : Nat) :
    Keeps R (liftM (evalVector total rest done env stack)) StateKnown := by
  unfold evalVector
  split
  · obtain ⟨hform, hrest⟩ := allKnown_cons.mp hr
    exact Keeps.pure ⟨⟨hform, he⟩, hs.cons ⟨hrest, hd, he⟩⟩
  · rw [lift_bind]
    exact Keeps.bind (keeps_newVector hd) fun R' v hle hv => Keeps.pure ⟨hv, hs.mono hle⟩

theorem keeps_evalMap {rest : Entries} {done : Array (Key × Value)} (hr : R.EntriesKnown rest)
    (hd : R.EntriesKnown done.toList) (he : R.InScope env) (hs : R.StackKnown stack) (total : Nat) :
    Keeps R (liftM (evalMap total rest done env stack)) StateKnown := by
  unfold evalMap
  split
  · obtain ⟨hfirst, hrest⟩ := List.forall_mem_cons.mp hr
    exact Keeps.pure ⟨⟨hfirst.2, he⟩, hs.cons ⟨hfirst.1, hrest, hd, he⟩⟩
  · rw [lift_bind]
    exact Keeps.bind (keeps_newMap_ofPairs hd) fun R' v hle hv => Keeps.pure ⟨hv, hs.mono hle⟩

theorem steady_keepResults {v : Value} (hv : R.Known v) {nodes : List Value} (hn : R.AllKnown nodes) :
    Steady R (liftM (keepResults v nodes)) fun _ => True := by
  induction nodes with
  | nil => exact Steady.pure trivial
  | cons node rest ih =>
    unfold keepResults
    rw [lift_bind]
    obtain ⟨hnode, hrest⟩ := allKnown_cons.mp hn
    exact Steady.bind (steady_setResult hnode hv) fun _ _ => ih hrest

/-- **What is pending goes on with a known value to a known state.** -/
theorem keeps_resume {v : Value} (hv : R.Known v) (hs : R.StackKnown stack) :
    Keeps R (resume v stack) StateKnown := by
  cases stack with
  | nil => exact Keeps.pure ⟨hv, hs⟩
  | cons p stack =>
    have hp := hs.head
    have hstack := hs.tail
    cases p with
    | body total rest env => exact Keeps.pure (known_evalBody hp.1 hp.2 hstack _)
    | head call env => exact keeps_begin hv hp.1 hp.2 hstack
    | args f call rest done env =>
      obtain ⟨hf, hc, hr, hd, he⟩ := hp
      exact keeps_evalArgs hf hc hr (allKnown_push hd hv) he hstack
    | branch yes no env =>
      obtain ⟨hyes, hno, he⟩ := hp
      unfold resume
      dsimp only
      split
      · exact Keeps.pure ⟨⟨hyes, he⟩, hstack⟩
      · exact Keeps.pure ⟨⟨hno _ rfl, he⟩, hstack⟩
      · exact Keeps.pure ⟨trivial, hstack⟩
    | definition name call env =>
      refine (steady_defineAt hp.2.writable hv hp.1 name).bind_keeps fun _ _ => ?_
      exact Keeps.pure ⟨hv, hstack⟩
    | binding index pattern rest call env =>
      obtain ⟨hpattern, hr, hc, he⟩ := hp
      refine Keeps.bind (keeps_destructure he.writable pattern hpattern hv) fun R' _ hle _ => ?_
      refine Keeps.of_ok fun w hw => Keeps.pure ?_
      exact known_evalBindings hw (hr.mono hle) (hc.mono hle) (he.mono hle) (hstack.mono hle) _
    | quasi shape total rest done splice env =>
      obtain ⟨hr, hd, he⟩ := hp
      refine (steady_addQuasi hv hd splice).bind_keeps fun done hd' => ?_
      exact keeps_quasiItems hr hd' he hstack shape total
    | expansion call maker depth target =>
      obtain ⟨hc, hmaker, ht⟩ := hp
      refine (steady_finishRecording depth).bind_keeps fun reads hreads => ?_
      have hserves : R.Serves call.node.id (.constant maker v reads) := ⟨hmaker, hv, hreads⟩
      refine (steady_setExpansion (hc.isSome_node rfl) hserves).bind_keeps fun _ _ => Keeps.pure ?_
      exact known_finishExpansion hv ht hstack
    | evaluate env => exact Keeps.pure ⟨⟨hv, InScope.root hp⟩, hstack⟩
    | conjunction total rest env =>
      unfold resume
      dsimp only
      split
      · exact Keeps.pure (known_evalConjunction hp.1 hp.2 hstack _)
      · exact Keeps.pure ⟨hv, hstack⟩
    | disjunction total rest env =>
      unfold resume
      dsimp only
      split
      · exact Keeps.pure ⟨hv, hstack⟩
      · exact Keeps.pure (known_evalDisjunction hp.1 hp.2 hstack _)
    | vector total rest done env =>
      obtain ⟨hr, hd, he⟩ := hp
      exact keeps_evalVector hr (allKnown_push hd hv) he hstack total
    | map total key rest done env =>
      obtain ⟨hk, hr, hd, he⟩ := hp
      exact keeps_evalMap hr (entriesKnown_push hd hk hv) he hstack total
    | memo nodes =>
      exact (steady_keepResults hv hp).bind_keeps fun _ _ => Keeps.pure ⟨hv, hstack⟩
    | job job =>
      refine Keeps.bind (Job.keeps_resume hp hv) fun R' outcome hle ho => Keeps.pure ?_
      exact known_afterOutcome ho (hstack.mono hle)

theorem keeps_evalSymbol {id : NodeId} {name : String} (hf : R.Known (.symbol id name))
    (hs : R.StackKnown stack) (env : Env) :
    Keeps R (evalSymbol id name env stack) StateKnown := by
  refine (steady_lookup env name).bind_keeps fun v hv => ?_
  refine (steady_record hv env name).bind_keeps fun _ _ => ?_
  refine (steady_setResult hf hv).bind_keeps fun _ _ => ?_
  refine steady_get.bind_keeps fun w hw => ?_
  split
  · rename_i site hsite
    refine (steady_setSite hf (hw.known_site? hsite)).bind_keeps fun _ _ => ?_
    exact keeps_resume hv hs
  · exact keeps_resume hv hs

theorem keeps_evalList {node : Node} {items : List Value} (hf : R.Known (.seq .list node items))
    (hcode : ∀ body, (Value.seq .list node items).enclosed? = some body → R.Encloses body) (he : R.InScope env)
    (hs : R.StackKnown stack) : Keeps R (evalList node items env stack) StateKnown := by
  refine Keeps.of_ok fun w hw => ?_
  have hitems : R.AllKnown items := hw.partsKnown hf
  have hc : R.Known (Call.toValue ⟨node, items⟩) := hf
  have hmemo : R.StackKnown (memo (Call.toValue ⟨node, items⟩) stack) := known_memo hc hs
  unfold evalList
  dsimp only
  split
  · exact Keeps.pure (known_evalBody hitems he hmemo _)
  · rename_i hstyle
    split
    · exact keeps_resume hc hs
    · split
      · rename_i special hspecial
        refine keeps_evalSpecial _ hc (fun body hbody => hcode body ?_) he hmemo
        unfold Value.enclosed?
        dsimp only
        rw [if_neg hstyle, hspecial]
        exact hbody
      · exact Keeps.pure ⟨⟨hitems _ List.mem_cons_self, he⟩, hmemo.cons ⟨hc, he⟩⟩

theorem keeps_eval {form : Value} (hf : R.Known form)
    (hcode : ∀ body, form.enclosed? = some body → R.Encloses body) (he : R.InScope env) (hs : R.StackKnown stack) :
    Keeps R (eval form env stack) StateKnown := by
  refine Keeps.of_ok fun w hw => ?_
  have hparts := hw.partsKnown hf
  unfold eval
  split
  · exact keeps_evalList hf hcode he hs
  · exact keeps_evalSymbol hf hs env
  · split
    · exact keeps_resume hf hs
    · exact keeps_evalVector hparts allKnown_nil he (known_memo hf hs) _
  · split
    · exact keeps_resume hf hs
    · exact keeps_evalMap hparts.2 entriesKnown_nil he (known_memo hf hs) _
  · exact keeps_resume hf hs

theorem keeps_quasi {form : Value} (hf : R.Known form) (he : R.InScope env) (hs : R.StackKnown stack) :
    Keeps R (quasi form env stack) StateKnown := by
  refine Keeps.of_ok fun w hw => ?_
  have hparts := hw.partsKnown hf
  unfold quasi
  split
  · split
    · split
      · exact Keeps.pure ⟨⟨(allKnown_cons.mp (allKnown_cons.mp hparts).2).1, he⟩, hs⟩
      · exact Keeps.fail _
    · split
      · exact keeps_resume hf hs
      · exact keeps_quasiItems hparts allKnown_nil he hs _ _
  · exact keeps_resume hf hs

/-- **A step comes from a known state to a known state and keeps the world ok**, if a function that it makes has code
for its body. -/
theorem keeps_stepOf {s : State} (h : R.StateKnown s)
    (hcode : ∀ body, s.enclosed? = some body → R.Encloses body) : Keeps R (step s) StateKnown := by
  obtain ⟨control, stack⟩ := s
  obtain ⟨hc, hs⟩ := h
  cases control with
  | eval form env => exact keeps_eval hc.1 hcode hc.2 hs
  | quasi form env => exact keeps_quasi hc.1 hc.2 hs
  | ret v => exact keeps_resume hc hs
  | call f args => exact keeps_apply hc.1 hc.2 hs
  | landed v => exact Keeps.pure ⟨hc, hs⟩

theorem keeps_step {s : State} (ho : R.Open) (h : R.StateKnown s) : Keeps R (step s) StateKnown :=
  keeps_stepOf h fun _ _ => ho.encloses _

/-- **A run from a known state keeps the world ok**, and a value that it lands with is known. -/
theorem keeps_drive (fuel : Nat) {s : State} (ho : R.Open) (h : R.StateKnown s) :
    Keeps R (drive fuel s) Known := by
  induction fuel generalizing R s with
  | zero => exact Keeps.throw _
  | succ fuel ih =>
    unfold drive
    split
    · rename_i v hv
      have hc := h.1
      rw [hv] at hc
      exact Keeps.pure hc
    · exact Keeps.bind (keeps_step ho h) fun R' s' hle hs' => ih (ho.mono hle) hs'

end Machine

/-! ## The interpreter -/

theorem Keeps.balanced {α : Type} {act : Act α} {Q : Registry → α → Prop} (h : Keeps R act Q) :
    Keeps R (EditableLisp.balanced act) Q := by
  intro w hw
  obtain ⟨R', hle, ha⟩ := h w hw
  refine ⟨R', hle, ?_⟩
  unfold EditableLisp.balanced
  cases e : act w with
  | ok a w' =>
    rw [e] at ha
    exact ha
  | error b w' =>
    rw [e] at ha
    cases b with
    | fault f => exact Ok.abandon ha _
    | crash => exact ha
    | exhausted => exact ha

theorem keeps_evalIn (fuel : Nat) {form : Value} {env : Env} (ho : R.Open) (hf : R.Known form)
    (he : R.InScope env) : Keeps R (evalIn fuel form env) Known :=
  (Machine.keeps_drive fuel (s := ⟨.eval form env, []⟩) ho ⟨⟨hf, he⟩, nofun⟩).balanced

theorem keeps_applyValue (fuel : Nat) {f : Value} {args : List Value} (ho : R.Open) (hf : R.Known f)
    (ha : R.AllKnown args) : Keeps R (applyValue fuel f args) Known :=
  (Machine.keeps_drive fuel (s := ⟨.call f args, []⟩) ho ⟨⟨hf, ha⟩, nofun⟩).balanced

theorem keeps_expandForm (fuel : Nat) {form : Value} (ho : R.Open) (hf : R.Known form) :
    Keeps R (expandForm fuel form) Known :=
  Keeps.bind (Machine.keeps_expandOnce hf stackKnown_nil .global) fun _ _ hle hs =>
    (Machine.keeps_drive fuel (ho.mono hle) hs).balanced

end EditableLisp
