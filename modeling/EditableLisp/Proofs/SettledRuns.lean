import EditableLisp.Proofs.Frames
import EditableLisp.Proofs.KeptExpansions
import EditableLisp.Proofs.TailCalls

/-!
# Runs that make no more forms

What a run evaluates stands in its source, or the run made it: an instance of a template, what a macro or a built-in
expander comes to, a value that `eval` takes for a form, the `do` around the forms of a function body.
`State.makesForm` says of a state that its next step may make such a form.

A registry says what is code (`Registry.code`); here it is what was there when the run made its last form. Then

* all that is left to evaluate is code, and so are the bodies of functions and the constant expansions that are kept
  (`Settled`);
* a step that makes no form leaves it so, whatever values, functions and frames it makes (`Settled.step`), with one
  rule for each pending step and each special form, as in `Machine.keeps_step`;
* so **every form that the run still evaluates is code** (`Settled.steps`).
-/

namespace EditableLisp

open Registry

/-! ## Steps that make a form -/

/-- A constant expansion is kept on a call, and serves the expander. -/
def World.servesConstant (w : World) (call : NodeId) (f : Value) : Bool :=
  match w.expansions.get? call with
  | some (.constant maker form reads) => (Expansion.constant maker form reads).servesFor w f
  | _ => false

/-- What is called is an expander, and no constant expansion serves it. -/
def World.expandsAnew (w : World) (call : NodeId) (f : Value) : Bool := f.isExpander && !w.servesConstant call f

/-- A pending step makes a form when the value arrives, or takes the value for one. -/
def Pending.makesForm (w : World) (v : Value) : Pending → Bool
  | .head call _ => w.expandsAnew call.node.id v
  | .expansion .. | .evaluate _ => true
  | _ => false

/-- The expansion of a form is made anew. -/
def Value.expandsAnew (form : Value) (env : Env) (w : World) : Bool :=
  match form with
  | .seq .list node items => ((headName? items).bind (w.lookup? env)).any (w.expandsAnew node.id)
  | _ => false

/-- A special form makes a form: `macroexpand`, or the body of a function out of several forms. -/
def Special.makesForm (special : Special) (items : List Value) (env : Env) (w : World) : Bool :=
  match special, items with
  | .macroexpand, [_, form] => form.expandsAnew env w
  | special, items => (special.enclosed? items).any fun body => decide (1 < body.length)

/-- The next step makes a form to be evaluated. -/
def State.makesForm (s : State) (w : World) : Bool :=
  match s.control.passed? w, s.stack with
  | some v, p :: _ => p.makesForm w v
  | some _, [] => false
  | none, _ =>
    match s.control with
    | .eval (.seq .list node items) env => (Call.special? ⟨node, items⟩).any fun special => special.makesForm items env w
    | _ => false

theorem World.servesConstant_congr {w w' : World} {call : NodeId} (hframes : ∀ id, w'.frame id = w.frame id)
    (hkept : w'.expansions.get? call = w.expansions.get? call) (f : Value) :
    w'.servesConstant call f = w.servesConstant call f := by
  unfold servesConstant
  simp only [hkept, servesFor_congr hframes]

/-! ## Code -/

namespace Registry

/-- What is part of code is code. -/
structure Closed (R : Registry) : Prop where
  nil : R.code .nil
  items {shape : Shape} {node : Node} {items : List Value} : R.code (.seq shape node items) → ∀ v ∈ items, R.code v
  entries {node : Node} {entries : Entries} : R.code (.map node entries) → ∀ e ∈ entries, R.code e.2

/-- What a pending step is still to evaluate is code. -/
def PendingCode (R : Registry) : Pending → Prop
  | .body _ rest _ | .args _ _ rest _ _ | .quasi _ _ rest _ _ _ | .conjunction _ rest _ | .disjunction _ rest _
  | .vector _ rest _ _ => ∀ v ∈ rest, R.code v
  | .head call _ => ∀ v ∈ call.items, R.code v
  | .branch yes no _ => R.code yes ∧ ∀ v, no = some v → R.code v
  | .binding _ _ rest call _ => (∀ v ∈ rest, R.code v) ∧ ∀ v ∈ call.items, R.code v
  | .map _ _ rest _ _ => ∀ e ∈ rest, R.code e.2
  | .definition .. | .expansion .. | .evaluate _ | .memo _ | .job _ => True

/-- What the machine evaluates now is code. -/
def ControlCode (R : Registry) : Control → Prop
  | .eval form _ | .quasi form _ => R.code form
  | .ret _ | .call _ _ | .landed _ => True

/-- All that is pending is code. -/
def StackCode (R : Registry) (stack : List Pending) : Prop := ∀ p ∈ stack, R.PendingCode p

/-- All that a state has left to evaluate is code. -/
def StateCode (R : Registry) (s : State) : Prop := R.ControlCode s.control ∧ R.StackCode s.stack

/-- If an expansion is constant, it is code. -/
def ExpandsToCode (R : Registry) (_ : NodeId) (e : Expansion) : Prop :=
  ∀ maker form reads, e = .constant maker form reads → R.code form

variable {R R' : Registry} {stack : List Pending}

theorem StackCode.cons {p : Pending} (hp : R.PendingCode p) (h : R.StackCode stack) : R.StackCode (p :: stack) :=
  List.forall_mem_cons.mpr ⟨hp, h⟩

theorem StackCode.memo (h : R.StackCode stack) (node : Value) : R.StackCode (Machine.memo node stack) := by
  unfold Machine.memo
  split
  · split
    · exact h
    · exact .cons trivial (List.forall_mem_cons.mp h).2
  · exact h.cons trivial

end Registry

namespace Machine

variable {R : Registry} {stack : List Pending} {env : Env} {call : Call} {rest : List Value}

/-- The act goes on to a state that has only code to evaluate, and keeps only expansions to code. -/
abbrev InCode (R : Registry) (act : Act State) : Prop := Accounted R.ExpandsToCode act R.StateCode

/-- An act that leaves evaluations alone, and a state after it. -/
theorem InCode.after {α : Type} {act : Act α} (h : Quiet act) {f : α → State} (hf : ∀ a, R.StateCode (f a)) :
    InCode R (act >>= fun a => Pure.pure (f a)) := h.accounted.bind fun a _ => .pure (hf a)

/-! ## Rules -/

theorem code_evalBody (hr : ∀ v ∈ rest, R.code v) (hs : R.StackCode stack) (total : Nat) (env : Env) :
    R.StateCode (evalBody total rest env stack) := by
  unfold evalBody
  split
  · exact ⟨trivial, hs⟩
  · exact ⟨hr _ List.mem_cons_self, hs⟩
  · exact ⟨hr _ List.mem_cons_self, hs.cons fun v hv => hr v (List.mem_cons_of_mem _ hv)⟩

theorem code_evalConjunction (hr : ∀ v ∈ rest, R.code v) (hs : R.StackCode stack) (total : Nat) (env : Env) :
    R.StateCode (evalConjunction total rest env stack) := by
  unfold evalConjunction
  split
  · exact ⟨trivial, hs⟩
  · exact ⟨hr _ List.mem_cons_self, hs⟩
  · exact ⟨hr _ List.mem_cons_self, hs.cons fun v hv => hr v (List.mem_cons_of_mem _ hv)⟩

theorem code_evalDisjunction (hr : ∀ v ∈ rest, R.code v) (hs : R.StackCode stack) (total : Nat) (env : Env) :
    R.StateCode (evalDisjunction total rest env stack) := by
  unfold evalDisjunction
  split
  · exact ⟨trivial, hs⟩
  · exact ⟨hr _ List.mem_cons_self, hs⟩
  · exact ⟨hr _ List.mem_cons_self, hs.cons fun v hv => hr v (List.mem_cons_of_mem _ hv)⟩

theorem code_evalBindings (hr : ∀ v ∈ rest, R.code v) (hc : ∀ v ∈ call.items, R.code v) (hs : R.StackCode stack)
    (index : Nat) (env : Env) : R.StateCode (evalBindings index rest call env stack) := by
  unfold evalBindings
  split
  · rename_i pattern form rest
    obtain ⟨-, hform, hrest⟩ := List.forall_mem_cons.mp hr |>.imp_right List.forall_mem_cons.mp
    exact ⟨hform, hs.cons ⟨hrest, hc⟩⟩
  · exact code_evalBody (fun v hv => hc v (List.mem_of_mem_drop hv)) hs _ _

theorem code_afterOutcome (hs : R.StackCode stack) (outcome : Outcome) : R.StateCode (afterOutcome outcome stack) := by
  cases outcome with
  | value v => exact ⟨trivial, hs⟩
  | call job f args => exact ⟨trivial, hs.cons trivial⟩

/-- A call evaluates the body of the function, which is code. -/
theorem inCode_apply (hs : R.StackCode stack) {f : Value} (hf : R.PartsKnown f) (args : List Value) :
    InCode R (apply f args stack) := by
  unfold apply
  split
  · exact .after (Builtin.quiet_run _ _) fun outcome => code_afterOutcome hs outcome
  · exact (accounted_enter _ _ _).bind fun _ _ => .pure ⟨hf.2.2.2.2, hs⟩
  · exact .failWith (quiet_print _) _

theorem inCode_evalArgs (hs : R.StackCode stack) {f : Value} (hf : R.PartsKnown f) (hr : ∀ v ∈ rest, R.code v)
    (done : Array Value) : InCode R (evalArgs f call rest done env stack) := by
  unfold evalArgs
  split
  · obtain ⟨harg, hrest⟩ := List.forall_mem_cons.mp hr
    exact .pure ⟨harg, hs.cons hrest⟩
  · exact inCode_apply hs hf _

theorem inCode_begin (hs : R.StackCode stack) {f : Value} (hf : R.PartsKnown f) (hc : ∀ v ∈ call.items, R.code v)
    (he : f.isExpander = false) : InCode R (begin f call env stack) := by
  unfold begin
  split
  · exact .failWith (quiet_print _) _
  · rw [if_neg (by rw [he]; nofun)]
    refine (accounted_markOrdinary (fun _ => nofun) _).bind fun _ _ => ?_
    exact inCode_evalArgs hs hf (fun v hv => hc v (List.mem_of_mem_tail hv)) _

theorem inCode_evalNamed (hs : R.StackCode stack) (kind : ClosureKind) : InCode R (evalNamed kind call env stack) := by
  unfold evalNamed
  split
  · exact .fail _
  · split
    · refine (quiet_makeClosure _ _ _ _).accounted.bind fun f _ => ?_
      exact (accounted_lift fun _ => rfl).bind fun _ _ => .pure ⟨trivial, hs⟩
    · exact .failWith (quiet_print _) _

theorem inCode_evalLet (hR : R.Closed) (hs : R.StackCode stack) (hc : ∀ v ∈ call.items, R.code v) :
    InCode R (evalLet call env stack) := by
  unfold evalLet
  split
  · rename_i head node bindings body hitems
    have hbindings : ∀ v ∈ bindings, R.code v := by
      refine @Closed.items R hR .vector node bindings (hc _ ?_)
      rw [hitems]
      exact List.mem_cons_of_mem _ List.mem_cons_self
    split
    · exact .fail _
    · exact (accounted_lift fun _ => rfl).bind fun _ _ => .pure (code_evalBindings hbindings hc hs _ _)
  · exact .failWith (quiet_print _) _

theorem inCode_evalConditional (hs : R.StackCode stack) (hc : ∀ v ∈ call.items, R.code v) :
    InCode R (evalConditional call env stack) := by
  unfold evalConditional
  split
  · rename_i head test yes hitems
    rw [hitems] at hc
    simp only [List.forall_mem_cons] at hc
    exact .pure ⟨hc.2.1, hs.cons ⟨hc.2.2.1, nofun⟩⟩
  · rename_i head test yes no hitems
    rw [hitems] at hc
    simp only [List.forall_mem_cons] at hc
    refine .pure ⟨hc.2.1, hs.cons ⟨hc.2.2.1, ?_⟩⟩
    rintro v ⟨⟩
    exact hc.2.2.2.1
  · exact .failWith (quiet_print _) _

/-- A special form evaluates its parts, unless it is `macroexpand`. -/
theorem inCode_evalSpecial (hR : R.Closed) (hs : R.StackCode stack) (hc : ∀ v ∈ call.items, R.code v)
    {special : Special} (hspecial : special ≠ .macroexpand) : InCode R (evalSpecial special call env stack) := by
  have htail : ∀ v ∈ call.items.tail, R.code v := fun v hv => hc v (List.mem_of_mem_tail hv)
  cases special with
  | definition =>
    unfold evalSpecial evalDefinition
    dsimp only
    split
    · rename_i head id name form hitems
      refine .pure ⟨hc _ ?_, hs.cons trivial⟩
      rw [hitems]
      exact List.mem_of_getElem? (i := 2) rfl
    · exact .failWith (quiet_print _) _
  | named kind => exact inCode_evalNamed hs kind
  | anonymous kind =>
    unfold evalSpecial evalAnonymous
    dsimp only
    split
    · exact .after (quiet_makeClosure _ _ _ _) fun _ => ⟨trivial, hs⟩
    · exact .failWith (quiet_print _) _
  | bindings => exact inCode_evalLet hR hs hc
  | body => exact .pure (code_evalBody htail hs _ _)
  | conditional => exact inCode_evalConditional hs hc
  | quote => exact .after (quiet_onlyArgument _ _) fun _ => ⟨trivial, hs⟩
  | quasiquote =>
    refine (quiet_onlyArgument _ _).accounted.bind fun form hform => .pure ?_
    obtain ⟨_, _, hform⟩ := hform
    exact ⟨hc _ (mem_of_onlyArgument hform), hs⟩
  | macroexpand => exact absurd rfl hspecial
  | evaluate =>
    refine (quiet_onlyArgument _ _).accounted.bind fun form hform => .pure ?_
    obtain ⟨_, _, hform⟩ := hform
    exact ⟨hc _ (mem_of_onlyArgument hform), hs.cons trivial⟩
  | conjunction => exact .pure (code_evalConjunction htail hs _ _)
  | disjunction => exact .pure (code_evalDisjunction htail hs _ _)

/-- The form to be spliced is part of the element of a template. -/
theorem code_of_spliced? (hR : R.Closed) {item form : Value} {w w' : World} (hi : R.code item)
    (h : spliced? item w = .ok (some form) w') : R.code form := by
  unfold spliced? at h
  split at h
  · split at h
    · split at h
      · cases h
        exact hR.items hi _ (List.mem_cons_of_mem _ List.mem_cons_self)
      · exact absurd h fail_ne_ok
    · cases h
  · cases h

theorem inCode_quasiItems (hR : R.Closed) (hs : R.StackCode stack) (hr : ∀ v ∈ rest, R.code v) (shape : Shape)
    (total : Nat) (done : Array Value) : InCode R (quasiItems shape total rest done env stack) := by
  unfold quasiItems
  split
  · exact .after (quiet_newSeq _ _) fun _ => ⟨trivial, hs⟩
  · obtain ⟨hitem, hrest⟩ := List.forall_mem_cons.mp hr
    refine (quiet_spliced? _).accounted.bind fun form hform => ?_
    obtain ⟨_, _, hform⟩ := hform
    split
    · exact .pure ⟨code_of_spliced? hR hitem hform, hs.cons hrest⟩
    · exact .pure ⟨hitem, hs.cons hrest⟩

theorem inCode_evalVector (hs : R.StackCode stack) (hr : ∀ v ∈ rest, R.code v) (total : Nat) (done : Array Value) :
    InCode R (liftM (evalVector total rest done env stack)) := by
  unfold evalVector
  split
  · obtain ⟨hform, hrest⟩ := List.forall_mem_cons.mp hr
    exact .pure ⟨hform, hs.cons hrest⟩
  · exact .after (quiet_newVector _) (f := fun v => ⟨.ret v, stack⟩) fun _ => ⟨trivial, hs⟩

theorem inCode_evalMap {rest : Entries} (hs : R.StackCode stack) (hr : ∀ e ∈ rest, R.code e.2) (total : Nat)
    (done : Array (Key × Value)) : InCode R (liftM (evalMap total rest done env stack)) := by
  unfold evalMap
  split
  · obtain ⟨hform, hrest⟩ := List.forall_mem_cons.mp hr
    exact .pure ⟨hform, hs.cons hrest⟩
  · exact .after (quiet_newMap _) (f := fun v => ⟨.ret v, stack⟩) fun _ => ⟨trivial, hs⟩

/-! ## Expansions that are served -/

variable {w : World}

/-- **A call that a constant expansion serves goes on with the form that is kept.** -/
theorem expandCall_of_servesConstant {f maker form : Value} {reads : List Lookup}
    (h : w.servesConstant call.node.id f = true)
    (hkept : w.expansions.get? call.node.id = some (.constant maker form reads)) (target : Option Env)
    (stack : List Pending) :
    expandCall call f target stack w = .ok (finishExpansion form target stack) (recordAll reads w).2 := by
  unfold World.servesConstant at h
  rw [hkept] at h
  have hserved : servedForm? call f w = (some form, (recordAll reads w).2) := by
    unfold servedForm?
    rw [Change.get_bind, hkept]
    dsimp only
    rw [if_pos h]
    rfl
  unfold expandCall
  rw [bind_of_eq_ok (lift_of_eq hserved)]
  rfl

theorem code_expandCall {f : Value} {target : Option Env} (hs : R.StackCode stack) (hw : w.KeepsOnly R.ExpandsToCode)
    (h : w.servesConstant call.node.id f = true) :
    AccountedAt R.ExpandsToCode (expandCall call f target stack) R.StateCode w := by
  obtain ⟨maker, form, reads, hkept⟩ : ∃ maker form reads,
      w.expansions.get? call.node.id = some (.constant maker form reads) := by
    unfold World.servesConstant at h
    split at h
    · exact ⟨_, _, _, ‹_›⟩
    · cases h
  have hform : R.code form := hw _ _ hkept maker form reads rfl
  have hstate : R.StateCode (finishExpansion form target stack) := by
    cases target with
    | some env => exact ⟨hform, hs⟩
    | none => exact ⟨trivial, hs⟩
  have hkeeps : (recordAll reads w).2.KeepsOnly R.ExpandsToCode := by
    rw [recordAll_snd]
    exact hw
  exact (Accounted.pure hstate _ hkeeps).of_eq (expandCall_of_servesConstant h hkept target stack)

theorem code_begin {f : Value} (hs : R.StackCode stack) (hf : R.PartsKnown f) (hc : ∀ v ∈ call.items, R.code v)
    (hw : w.KeepsOnly R.ExpandsToCode) (hm : w.expandsAnew call.node.id f = false) :
    AccountedAt R.ExpandsToCode (begin f call env stack) R.StateCode w := by
  cases he : f.isExpander with
  | false => exact inCode_begin hs hf hc he w hw
  | true =>
    have hserved : w.servesConstant call.node.id f = true := by simpa [World.expandsAnew, he] using hm
    exact (code_expandCall hs hw hserved).of_eq (congrFun (begin_of_isExpander he call env stack) w)

theorem code_expandOnce {form : Value} (hs : R.StackCode stack) (hw : w.KeepsOnly R.ExpandsToCode)
    (hm : form.expandsAnew env w = false) :
    AccountedAt R.ExpandsToCode (expandOnce form env stack) R.StateCode w := by
  have stays : InCode R (pure ⟨.ret form, stack⟩) := .pure ⟨trivial, hs⟩
  unfold expandOnce
  split
  · rename_i node items
    split
    · rename_i name hname
      cases hlookup : w.lookup? env name with
      | none =>
        refine (stays w hw).of_eq ?_
        rw [Act.get_bind, hlookup]
      | some f =>
        cases he : f.isExpander with
        | false =>
          refine (stays w hw).of_eq ?_
          rw [Act.get_bind, hlookup]
          exact congrFun (if_neg (by rw [he]; nofun)) w
        | true =>
          have hserved : w.servesConstant node.id f = true := by
            simpa [Value.expandsAnew, World.expandsAnew, hname, hlookup, he] using hm
          refine (@code_expandCall R stack ⟨node, items⟩ w f none hs hw hserved).of_eq ?_
          rw [Act.get_bind, hlookup]
          exact congrFun (if_pos he) w
    · exact stays w hw
  · exact stays w hw

/-! ## Steps -/

/-- What is pending goes on with a value, unless it makes a form of it. -/
theorem code_resume (hR : R.Closed) (hparts : ∀ v, R.Known v → R.PartsKnown v) {v : Value} (hv : R.Known v)
    (hk : R.StackKnown stack) (hs : R.StackCode stack) (hw : w.KeepsOnly R.ExpandsToCode)
    (hm : ∀ p below, stack = p :: below → p.makesForm w v = false) :
    AccountedAt R.ExpandsToCode (resume v stack) R.StateCode w := by
  cases stack with
  | nil => exact Accounted.pure ⟨trivial, hs⟩ w hw
  | cons p stack =>
    obtain ⟨hp, hstack⟩ := List.forall_mem_cons.mp hs
    have hm := hm p stack rfl
    have going : ∀ {act : Act State}, InCode R act → AccountedAt R.ExpandsToCode act R.StateCode w :=
      fun h => h w hw
    cases p with
    | body total rest env => exact going (.pure (code_evalBody hp hstack _ _))
    | head call env => exact code_begin hstack (hparts v hv) hp hw hm
    | args f call rest done env => exact going (inCode_evalArgs hstack (hparts f hk.head.1) hp _)
    | branch yes no env =>
      refine going ?_
      unfold resume
      dsimp only
      split
      · exact .pure ⟨hp.1, hstack⟩
      · exact .pure ⟨hp.2 _ rfl, hstack⟩
      · exact .pure ⟨trivial, hstack⟩
    | definition name call env => exact going ((accounted_lift fun _ => rfl).bind fun _ _ => .pure ⟨trivial, hstack⟩)
    | binding index pattern rest call env =>
      refine going ((Pattern.accounted_destructure _ _ _).bind fun _ _ => .pure ?_)
      exact code_evalBindings hp.1 hp.2 hstack _ _
    | quasi shape total rest done splice env => exact going ((quiet_addQuasi _ _ _).accounted.bind fun _ _ =>
        inCode_quasiItems hR hstack hp _ _ _)
    | expansion call maker depth target => cases hm
    | evaluate env => cases hm
    | conjunction total rest env =>
      refine going ?_
      unfold resume
      dsimp only
      split
      · exact .pure (code_evalConjunction hp hstack _ _)
      · exact .pure ⟨trivial, hstack⟩
    | disjunction total rest env =>
      refine going ?_
      unfold resume
      dsimp only
      split
      · exact .pure ⟨trivial, hstack⟩
      · exact .pure (code_evalDisjunction hp hstack _ _)
    | vector total rest done env => exact going (inCode_evalVector hstack hp _ _)
    | map total key rest done env => exact going (inCode_evalMap hstack hp _ _)
    | memo nodes => exact going ((accounted_keepResults v nodes).bind fun _ _ => .pure ⟨trivial, hstack⟩)
    | job job => exact going (.after (Job.quiet_resume _ _) fun outcome => code_afterOutcome hstack outcome)

/-- The value that a state passes on is known. -/
theorem known_passed {c : Control} {v : Value} (hw : R.Ok w) (hk : R.ControlKnown c) (h : c.passed? w = some v) :
    R.Known v := by
  cases c with
  | ret u =>
    cases h
    exact hk
  | eval form env =>
    cases form with
    | symbol id name => exact hw.known_lookup? h
    | seq | map =>
      obtain ⟨-, hv⟩ := Option.ite_none_right_eq_some.mp h
      cases hv
      exact hk.1
    | _ =>
      cases h
      exact hk.1
  | quasi form env =>
    cases form with
    | seq =>
      obtain ⟨-, hv⟩ := Option.ite_none_right_eq_some.mp h
      cases hv
      exact hk.1
    | _ =>
      cases h
      exact hk.1
  | call | landed => cases h

theorem inCode_quasi (hR : R.Closed) (hs : R.StackCode stack) {form : Value} (hf : R.code form)
    (hp : (Control.quasi form env).passed? w = none) : InCode R (quasi form env stack) := by
  cases form with
  | seq shape node items =>
    cases items with
    | nil => cases hp
    | cons item rest =>
      unfold quasi
      dsimp only
      split
      · split
        · rename_i form hitems
          refine .pure ⟨hR.items hf form ?_, hs⟩
          rw [hitems]
          exact List.mem_cons_of_mem _ List.mem_cons_self
        · exact .fail _
      · rw [if_neg (by simp)]
        exact inCode_quasiItems hR hs (hR.items hf) _ _ _
  | _ => cases hp

theorem code_macroexpand (hs : R.StackCode stack) (hw : w.KeepsOnly R.ExpandsToCode)
    (hm : Special.macroexpand.makesForm call.items env w = false) :
    AccountedAt R.ExpandsToCode (evalSpecial .macroexpand call env stack) R.StateCode w := by
  obtain ⟨node, items⟩ := call
  match items, hm with
  | [head, form], hm => exact (@code_expandOnce R stack env w form hs hw hm).of_eq rfl
  | [], _ | [_], _ | _ :: _ :: _ :: _, _ => exact (Accounted.fail _ w hw).of_eq rfl

/-- A list that is not empty is evaluated by way of its parts. -/
theorem code_evalList (hR : R.Closed) {node : Node} {items : List Value} (hs : R.StackCode stack)
    (hf : R.code (.seq .list node items)) (hw : w.KeepsOnly R.ExpandsToCode)
    (hp : (Control.eval (.seq .list node items) env).passed? w = none)
    (hm : State.makesForm ⟨.eval (.seq .list node items) env, stack⟩ w = false) :
    AccountedAt R.ExpandsToCode (eval (.seq .list node items) env stack) R.StateCode w := by
  have hitems : ∀ v ∈ items, R.code v := hR.items hf
  let c : Call := ⟨node, items⟩
  have hc : ∀ v ∈ c.items, R.code v := hitems
  have hmemo : R.StackCode (memo c.toValue stack) := hs.memo _
  by_cases hstyle : node.style = .program
  · have hact : eval c.toValue env stack = _ := eval_program (c := c) hstyle env stack
    exact AccountedAt.of_eq (Accounted.pure (code_evalBody hc hmemo _ _) w hw) (congrFun hact w)
  · cases items with
    | nil => simp [Control.passed?, hstyle] at hp
    | cons head rest =>
      cases hspecial : c.special? with
      | none =>
        have hcall : c.IsCall head rest := by
          refine ⟨hstyle, rfl, ?_⟩
          unfold Call.special? at hspecial
          rwa [if_neg hstyle] at hspecial
        have hact : eval c.toValue env stack = _ := eval_call hcall env stack
        refine AccountedAt.of_eq (Accounted.pure ?_ w hw) (congrFun hact w)
        exact ⟨hitems _ List.mem_cons_self, hmemo.cons hc⟩
      | some special =>
        have hact : eval c.toValue env stack = _ := eval_special hspecial env stack
        have hm : special.makesForm c.items env w = false := by
          unfold State.makesForm at hm
          rw [hp] at hm
          have hm : (c.special?.any fun special => special.makesForm c.items env w) = false := hm
          rwa [hspecial] at hm
        refine AccountedAt.of_eq ?_ (congrFun hact w)
        by_cases hmacro : special = .macroexpand
        · subst hmacro
          exact code_macroexpand hmemo hw hm
        · exact inCode_evalSpecial hR hmemo hc hmacro w hw

theorem code_eval (hR : R.Closed) {form : Value} (hs : R.StackCode stack) (hf : R.code form)
    (hw : w.KeepsOnly R.ExpandsToCode) (hp : (Control.eval form env).passed? w = none)
    (hm : State.makesForm ⟨.eval form env, stack⟩ w = false) :
    AccountedAt R.ExpandsToCode (eval form env stack) R.StateCode w := by
  cases form with
  | symbol id name =>
    have herror : eval (.symbol id name) env stack w = .error _ w := bind_of_eq_error (lookup_of_none hp)
    rw [AccountedAt, worldAfter_of_error herror, herror]
    refine ⟨hw, ?_⟩
    rintro _ _ ⟨⟩
  | seq shape node items =>
    cases shape with
    | list => exact code_evalList hR hs hf hw hp hm
    | vector =>
      cases items with
      | nil => cases hp
      | cons => exact inCode_evalVector (hs.memo _) (hR.items hf) _ _ w hw
  | map node entries =>
    cases entries with
    | nil => cases hp
    | cons => exact inCode_evalMap (hs.memo _) (hR.entries hf) _ _ w hw
  | _ => cases hp

/-- **A step that makes no form goes on to what has only code to evaluate.** -/
theorem code_step {s : State} (hR : R.Closed) (hw : R.Ok w) (hk : R.StateKnown s) (hs : R.StateCode s)
    (hkept : w.KeepsOnly R.ExpandsToCode) (hm : s.makesForm w = false) :
    AccountedAt R.ExpandsToCode (step s) R.StateCode w := by
  obtain ⟨control, stack⟩ := s
  obtain ⟨hcontrol, hstack⟩ := hs
  cases hp : control.passed? w with
  | some v =>
    obtain ⟨results, sites, recordings, hstep⟩ := step_of_passed hp stack
    refine AccountedAt.of_eq ?_ hstep
    refine code_resume hR (fun v hv => hw.partsKnown hv) (known_passed hw hk.1 hp) hk.2 hstack (hkept.of_eq rfl) ?_
    rintro p below rfl
    let w₁ : World := { w with results := results, sites := sites, recordings := recordings }
    have hsame : p.makesForm w₁ v = p.makesForm w v := by
      cases p with
      | head call env =>
        have hserves : w₁.servesConstant call.node.id v = w.servesConstant call.node.id v :=
          @World.servesConstant_congr w w₁ _ (fun _ => rfl) rfl v
        exact congrArg (v.isExpander && !·) hserves
      | _ => rfl
    rw [hsame]
    unfold State.makesForm at hm
    rwa [hp] at hm
  | none =>
    cases control with
    | eval form env => exact code_eval hR hstack hcontrol hkept hp hm
    | quasi form env => exact inCode_quasi hR hstack hcontrol hp w hkept
    | ret v => cases hp
    | call f args => exact inCode_apply hstack (hw.partsKnown hk.1.1) args w hkept
    | landed v => exact Accounted.pure ⟨trivial, hstack⟩ w hkept

end Machine

/-! ## Runs -/

theorem Special.enclosed?_subset {special : Special} {items body : List Value}
    (h : special.enclosed? items = some body) : body ⊆ items := by
  intro v hv
  unfold enclosed? at h
  split at h
  · cases h
    exact List.mem_cons_of_mem _ (List.mem_cons_of_mem _ (List.mem_cons_of_mem _ hv))
  · cases h
    exact List.mem_cons_of_mem _ (List.mem_cons_of_mem _ hv)
  · cases h

/-- If the next step makes no form, the function that it makes has at most one form for its body. -/
theorem State.length_enclosed_le {node : Node} {items body : List Value} {env : Env} {stack : List Pending}
    {special : Special} {w : World} (hstyle : node.style ≠ .program)
    (hspecial : (Value.headName? items).bind Special.ofName? = some special)
    (hbody : special.enclosed? items = some body)
    (hm : State.makesForm ⟨.eval (.seq .list node items) env, stack⟩ w = false) : body.length ≤ 1 := by
  have hpassed : (Control.eval (.seq .list node items) env).passed? w = none := by
    cases items with
    | nil => cases hspecial
    | cons head rest => rfl
  have hrule : Call.special? ⟨node, items⟩ = some special := (if_neg hstyle).trans hspecial
  have hmakes : special.makesForm items env w = false := by
    unfold State.makesForm at hm
    simpa [hpassed, hrule] using hm
  have hany : ((special.enclosed? items).any fun body => decide (1 < body.length)) = false := by
    unfold Special.makesForm at hmakes
    split at hmakes
    · cases hbody
    · exact hmakes
  rw [hbody] at hany
  exact Nat.le_of_not_lt (of_decide_eq_false hany)

/-- If the next step makes no form, the function that it makes has code for its body. -/
theorem State.encloses {R : Registry} {s : State} {w : World} {body : List Value} (hR : R.Closed)
    (hs : R.StateCode s) (hm : s.makesForm w = false) (h : s.enclosed? = some body) : R.Encloses body := by
  obtain ⟨control, stack⟩ := s
  cases control with
  | eval form env =>
    cases form with
    | seq shape node items =>
      cases shape with
      | vector => cases h
      | list =>
        obtain ⟨hstyle, h⟩ := Option.ite_none_left_eq_some.mp h
        obtain ⟨special, hspecial, hbody⟩ := Option.bind_eq_some_iff.mp h
        have hshort : body.length ≤ 1 := State.length_enclosed_le hstyle hspecial hbody hm
        have hforms : ∀ v ∈ body, R.code v := fun v hv =>
          hR.items hs.1 v (Special.enclosed?_subset hbody hv)
        intro w
        match body, hshort with
        | [], _ => exact hR.nil
        | [form], _ => exact hforms form List.mem_cons_self
    | _ => cases h
  | quasi | ret | call | landed => cases h

/-- All that a state has left to evaluate is code, and so are the bodies of functions and the constant expansions
that are kept. -/
structure Settled (R : Registry) (s : State) (w : World) : Prop where
  closed : R.Closed
  ok : R.Ok w
  known : R.StateKnown s
  code : R.StateCode s
  kept : w.KeepsOnly R.ExpandsToCode

namespace Settled

variable {R R' : Registry} {s s' : State} {w w' : World}

/-- A larger registry has the same code. -/
theorem grow (h : Settled R s w) (hle : R ≤ R') (hok : R'.Ok w') (hknown : R'.StateKnown s') (hcode : R.StateCode s')
    (hkept : w'.KeepsOnly R.ExpandsToCode) : Settled R' s' w' := by
  obtain ⟨node, frame, keyword, code⟩ := R
  obtain ⟨node', frame', keyword', code'⟩ := R'
  obtain rfl : code' = code := hle.2.2.2
  exact ⟨⟨h.closed.nil, h.closed.items, h.closed.entries⟩, hok, hknown, hcode, hkept⟩

/-- **A step that makes no form leaves a run settled.** -/
theorem step (h : Settled R s w) (hm : s.makesForm w = false) (hs : Machine.step s w = .ok s' w') :
    ∃ R', R ≤ R' ∧ Settled R' s' w' := by
  obtain ⟨R', hle, hnext⟩ := Machine.keeps_stepOf h.known (fun body => State.encloses h.closed h.code hm) w h.ok
  obtain ⟨hkept, hcode⟩ := Machine.code_step h.closed h.ok h.known h.code h.kept hm
  rw [hs] at hnext
  rw [worldAfter_of_ok hs] at hkept
  exact ⟨R', hle, h.grow hle hnext.1 hnext.2 (hcode s' w' hs) hkept⟩

theorem steps {n : Nat} (h : Settled R s w)
    (hm : ∀ m t v, m < n → Machine.steps m s w = .ok t v → t.makesForm v = false)
    (hs : Machine.steps n s w = .ok s' w') : ∃ R', R ≤ R' ∧ Settled R' s' w' := by
  induction n generalizing R s w with
  | zero =>
    cases hs
    exact ⟨R, le_refl R, h⟩
  | succ n ih =>
    obtain ⟨next, w₁, hstep, hrest⟩ := bind_eq_ok hs
    obtain ⟨R₁, hle, h₁⟩ := h.step (hm 0 s w (Nat.succ_pos n) rfl) hstep
    obtain ⟨R', hle', h'⟩ := ih h₁
      (fun m t v hlt ht => hm (m + 1) t v (Nat.succ_lt_succ hlt) ((bind_of_eq_ok hstep).trans ht)) hrest
    exact ⟨R', le_trans hle hle', h'⟩

end Settled

/-- The registry in which code is what is known. -/
def Registry.closing (R : Registry) : Registry := { R with code := R.Known }

theorem Registry.Ok.closing {R : Registry} {w : World} (h : R.Ok w) : R.closing.Ok w where
  tables := h.tables
  atoms := h.atoms
  results := h.results
  sites := h.sites
  expansions := h.expansions
  recordings := h.recordings
  derived := h.derived
  texts := h.texts
  spaced := h.spaced
  nodes := h.nodes
  parts id v hv := by
    have hparts := h.parts id v hv
    cases v with
    | closure => exact ⟨hparts.1, hparts.2.1, hparts.2.2.1, hparts.2.2.2.1, hparts.2.1⟩
    | _ => exact hparts
  layouts := h.layouts
  frames := h.frames
  settled := h.settled
  keywords := h.keywords
  names := h.names

/-- The parts of what is known are known. -/
theorem Registry.Ok.closed {R : Registry} {w : World} (h : R.Ok w) : R.closing.Closed where
  nil := trivial
  items {shape node items} hv := h.partsKnown (v := .seq shape node items) hv
  entries {node entries} hv e he := ((h.partsKnown (v := .map node entries) hv).2 e he).2

/-- What a known step is still to evaluate is known. -/
theorem Registry.PendingKnown.code {R : Registry} {w : World} (hw : R.Ok w) {p : Pending} (h : R.PendingKnown p) :
    R.closing.PendingCode p := by
  cases p with
  | body | conjunction | disjunction | quasi | vector => exact h.1
  | head => exact hw.known_items h.1
  | args => exact h.2.2.1
  | branch => exact ⟨h.1, h.2.1⟩
  | binding => exact ⟨h.2.1, hw.known_items h.2.2.1⟩
  | map => exact fun e he => (h.2.1 e he).2
  | definition | expansion | evaluate | memo | job => trivial

/-- A run is settled from where it makes no more forms, if code is what is known there. -/
theorem Settled.first {R : Registry} {s : State} {w : World} (hw : R.Ok w) (hs : R.StateKnown s) :
    Settled R.closing s w where
  closed := hw.closed
  ok := hw.closing
  known := hs
  code := by
    refine ⟨?_, fun p hp => (hs.2 p hp).code hw⟩
    have hcontrol := hs.1
    cases hc : s.control with
    | eval | quasi =>
      rw [hc] at hcontrol
      exact hcontrol.1
    | ret | call | landed => trivial
  kept id e he maker form reads hconstant := by
    have hserves := hw.expansions id e he
    rw [hconstant] at hserves
    exact hserves.2.1

/-- **Every form that a run evaluates when it makes no more forms was there before.** -/
theorem Settled.lt_nextId {R : Registry} {s : State} {w : World} (hw : R.Ok w) (hs : R.StateKnown s)
    (hm : ∀ n t v, Machine.steps n s w = .ok t v → t.makesForm v = false) {n : Nat} {form : Value} {env : Env}
    {stack : List Pending} {w' : World} {id : NodeId} (h : Machine.steps n s w = .ok ⟨.eval form env, stack⟩ w')
    (hid : form.nodeId? = some id) : id < w.nextId := by
  obtain ⟨R', hle, hsettled⟩ := (Settled.first hw hs).steps (fun m t v _ => hm m t v) h
  have hform : R'.code form := hsettled.code.1
  rw [hle.2.2.2] at hform
  exact (hw.nodes id).mpr (Known.isSome_node hform hid)

end EditableLisp
