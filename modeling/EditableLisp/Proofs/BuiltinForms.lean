import EditableLisp.Proofs.KeptExpansions

/-!
# Forms of built-in expanders

A call of a built-in expander keeps the form that it was expanded to, and is served it from then on. In every
session that can be reached, that form is what the expander makes of the arguments of that very call, and nothing
was looked up for it (**`Session.Reachable.form_of_builtin`**).

* `Registry.Accounts` says so of the calls that are known. A step keeps it, since it keeps a form of a built-in
  expander only when it has a call at hand that it expands anew (`Machine.goes_step`).
* The other forms that it keeps are for expanders that wait for a value, and no built-in one does so
  (`Machine.Procedural`).
-/

namespace EditableLisp

open Registry

variable {R R' : Registry} {α β : Type}

namespace Registry

/-- If a built-in expander made an expansion, then from the arguments of a known call, without looking anything up. -/
def Accounts (R : Registry) (id : NodeId) (e : Expansion) : Prop :=
  ∀ function code data form reads, e = .constant (.builtin function code data) form reads →
    reads = [] ∧ ∃ node items, node.id = id ∧ R.Known (.seq .list node items) ∧
      ∃ w w', code.evaluate items.tail w = .ok form w'

theorem Accounts.mono {id : NodeId} {e : Expansion} (h : R.Accounts id e) (hle : R ≤ R') : R'.Accounts id e := by
  intro function code data form reads he
  obtain ⟨hreads, node, items, hid, hknown, hmade⟩ := h function code data form reads he
  exact ⟨hreads, node, items, hid, hknown.mono hle, hmade⟩

theorem accounts_mono {w : World} (h : w.KeepsOnly R.Accounts) (hle : R ≤ R') : w.KeepsOnly R'.Accounts :=
  fun id e he => (h id e he).mono hle

end Registry

namespace Machine

/-! ## States -/

/-- No built-in expander waits for the value of its expansion. -/
def Procedural (stack : List Pending) : Prop :=
  ∀ call function code data depth target below,
    .expansion call (.builtin function code data) depth target :: below ∉ expansionsOf stack

theorem Procedural.nil : Procedural [] := fun _ _ _ _ _ _ _ => List.not_mem_nil

theorem Procedural.of_pends {s : State} {stack : List Pending} (h : Procedural stack) (hs : s.Pends stack) :
    Procedural s.stack := by
  unfold Procedural
  rw [hs.expansions]
  exact h

theorem Procedural.tail {p : Pending} {stack : List Pending} (h : Procedural (p :: stack)) : Procedural stack := by
  cases p with
  | expansion => exact fun _ _ _ _ _ _ _ hmem => h _ _ _ _ _ _ _ (List.mem_cons_of_mem _ hmem)
  | _ => exact h

theorem Procedural.memo {stack : List Pending} (h : Procedural stack) (node : Value) :
    Procedural (memo node stack) := by
  unfold Procedural
  rw [expansionsOf_memo]
  exact h

/-- The act goes on to a state, and keeps only expansions that are accounted for. -/
abbrev Goes (R : Registry) (act : Act State) : Prop := Accounted R.Accounts act fun s => Procedural s.stack

section rules

variable {stack : List Pending} {env : Env} {call : Call}

/-- An act that leaves evaluations alone, and a state after it. -/
theorem Goes.after {act : Act α} (h : Quiet act) {f : α → State} (hf : ∀ a, Procedural (f a).stack) :
    Goes R (act >>= fun a => Pure.pure (f a)) := h.accounted.bind fun a _ => .pure (hf a)

theorem goes_apply (hs : Procedural stack) (f : Value) (args : List Value) : Goes R (apply f args stack) := by
  unfold apply
  split
  · exact .after (Builtin.quiet_run _ _) fun outcome => hs.of_pends (pends_afterOutcome outcome)
  · exact (accounted_enter _ _ _).bind fun _ _ => .pure hs
  · exact .failWith (quiet_print _) _

theorem goes_evalArgs (hs : Procedural stack) (f : Value) (rest : List Value) (done : Array Value) :
    Goes R (evalArgs f call rest done env stack) := by
  unfold evalArgs
  split
  · exact .pure hs
  · exact goes_apply hs f _

/-- **A form of a built-in expander is kept for the call that it was made for.** -/
theorem goes_expandAnew (hs : Procedural stack) (hc : R.Known call.toValue) (f : Value) (target : Option Env) :
    Goes R (expandAnew call f target stack) := by
  unfold expandAnew
  split
  · have hquiet := Builtin.quiet_evaluate
    refine (hquiet _ _).recorded.accounted.bind fun ⟨form, reads⟩ ⟨w, w', hmade⟩ => ?_
    obtain ⟨hreads, _, -, hmade, -⟩ := recorded_eq_ok (hquiet _ _) hmade
    refine (accounted_setExpansion ?_).bind fun _ _ => .pure (hs.of_pends (pends_finishExpansion _ _))
    rintro _ _ _ _ _ ⟨⟩
    exact ⟨hreads, call.node, call.items, rfl, hc, _, _, hmade⟩
  · refine (accounted_enter _ _ _).bind fun frame _ => ?_
    split
    · refine (quiet_instantiate _ _).accounted.bind fun form _ => ?_
      refine (accounted_setExpansion ?_).bind fun _ _ => .pure (hs.of_pends (pends_finishExpansion _ _))
      rintro _ _ _ _ _ ⟨⟩
    · refine (accounted_lift fun _ => rfl).bind fun _ _ => .pure ?_
      rintro _ _ _ _ _ _ _ hmem
      rcases List.mem_cons.mp hmem with h | h
      · cases h
      · exact hs _ _ _ _ _ _ _ h
  · exact .failWith (quiet_print _) _

theorem goes_expandCall (hs : Procedural stack) (hc : R.Known call.toValue) (f : Value) (target : Option Env) :
    Goes R (expandCall call f target stack) := by
  refine (accounted_servedForm? call f).bind fun served _ => ?_
  cases served with
  | some form => exact .pure (hs.of_pends (pends_finishExpansion _ _))
  | none => exact goes_expandAnew hs hc f target

theorem goes_expandOnce (hs : Procedural stack) {form : Value} (hf : R.Known form) :
    Goes R (expandOnce form env stack) := by
  unfold expandOnce
  split
  · split
    · refine Quiet.get.accounted.bind fun w _ => ?_
      split
      · split
        · exact goes_expandCall hs hf _ none
        · exact .pure hs
      · exact .pure hs
    · exact .pure hs
  · exact .pure hs

theorem goes_begin (hs : Procedural stack) (hc : R.Known call.toValue) (f : Value) :
    Goes R (begin f call env stack) := by
  unfold begin
  split
  · exact .failWith (quiet_print _) _
  · split
    · exact goes_expandCall hs hc f _
    · exact (accounted_markOrdinary (fun _ => nofun) _).bind fun _ _ => goes_evalArgs hs f _ _

theorem goes_evalNamed (hs : Procedural stack) (kind : ClosureKind) : Goes R (evalNamed kind call env stack) := by
  unfold evalNamed
  split
  · exact .fail _
  · split
    · refine (quiet_makeClosure _ _ _ _).accounted.bind fun f _ => ?_
      exact (accounted_lift fun _ => rfl).bind fun _ _ => .pure hs
    · exact .failWith (quiet_print _) _

theorem goes_evalLet (hs : Procedural stack) : Goes R (evalLet call env stack) := by
  unfold evalLet
  split
  · split
    · exact .fail _
    · exact (accounted_lift fun _ => rfl).bind fun _ _ => .pure (hs.of_pends (pends_evalBindings _ _))
  · exact .failWith (quiet_print _) _

theorem goes_evalSpecial (hs : Procedural stack) (hi : R.AllKnown call.items) (special : Special) :
    Goes R (evalSpecial special call env stack) := by
  cases special with
  | definition =>
    unfold evalSpecial evalDefinition
    dsimp only
    split
    · exact .pure hs
    · exact .failWith (quiet_print _) _
  | named kind => exact goes_evalNamed hs kind
  | anonymous kind =>
    unfold evalSpecial evalAnonymous
    dsimp only
    split
    · exact .after (quiet_makeClosure _ _ _ _) fun _ => hs
    · exact .failWith (quiet_print _) _
  | bindings => exact goes_evalLet hs
  | body => exact .pure (hs.of_pends (pends_evalBody _ _))
  | conditional =>
    unfold evalSpecial evalConditional
    dsimp only
    split
    · exact .pure hs
    · exact .pure hs
    · exact .failWith (quiet_print _) _
  | quote => exact .after (quiet_onlyArgument _ _) fun _ => hs
  | quasiquote => exact .after (quiet_onlyArgument _ _) fun _ => hs
  | macroexpand =>
    refine (quiet_onlyArgument _ _).accounted.bind fun form hform => ?_
    obtain ⟨_, _, hform⟩ := hform
    exact goes_expandOnce hs (hi form (mem_of_onlyArgument hform))
  | evaluate => exact .after (quiet_onlyArgument _ _) fun _ => hs
  | conjunction => exact .pure (hs.of_pends (pends_evalConjunction _ _))
  | disjunction => exact .pure (hs.of_pends (pends_evalDisjunction _ _))

theorem goes_quasiItems (hs : Procedural stack) (shape : Shape) (total : Nat) (rest : List Value)
    (done : Array Value) : Goes R (quasiItems shape total rest done env stack) := by
  unfold quasiItems
  split
  · exact .after (quiet_newSeq _ _) fun _ => hs
  · refine (quiet_spliced? _).accounted.bind fun form _ => ?_
    split <;> exact .pure hs

theorem goes_evalVector (hs : Procedural stack) (total : Nat) (rest : List Value) (done : Array Value) :
    Goes R (liftM (evalVector total rest done env stack)) := by
  unfold evalVector
  split
  · exact .pure hs
  · exact .after (quiet_newVector _) (f := fun v => ⟨.ret v, stack⟩) fun _ => hs

theorem goes_evalMap (hs : Procedural stack) (total : Nat) (rest : Entries) (done : Array (Key × Value)) :
    Goes R (liftM (evalMap total rest done env stack)) := by
  unfold evalMap
  split
  · exact .pure hs
  · exact .after (quiet_newMap _) (f := fun v => ⟨.ret v, stack⟩) fun _ => hs

/-! ## Steps -/

theorem goes_resume {stack : List Pending} (hs : Procedural stack) (hk : R.StackKnown stack) (v : Value) :
    Goes R (resume v stack) := by
  cases stack with
  | nil => exact .pure hs
  | cons p stack =>
    have hbelow : Procedural stack := hs.tail
    cases p with
    | body total rest env => exact .pure (hbelow.of_pends (pends_evalBody _ _))
    | head call env => exact goes_begin hbelow hk.head.1 v
    | args f call rest done env => exact goes_evalArgs hbelow f _ _
    | branch yes no env =>
      unfold resume
      dsimp only
      split <;> exact .pure hbelow
    | definition name call env => exact (accounted_lift fun _ => rfl).bind fun _ _ => .pure hbelow
    | binding index pattern rest call env =>
      refine (Pattern.accounted_destructure _ _ _).bind fun _ _ => .pure ?_
      exact hbelow.of_pends (pends_evalBindings _ _)
    | quasi shape total rest done splice env =>
      exact (quiet_addQuasi _ _ _).accounted.bind fun _ _ => goes_quasiItems hbelow _ _ _ _
    | expansion call maker depth target =>
      refine (accounted_finishRecording depth).bind fun reads _ => ?_
      refine (accounted_setExpansion ?_).bind fun _ _ => .pure (hbelow.of_pends (pends_finishExpansion _ _))
      rintro _ _ _ _ _ ⟨⟩
      exact absurd List.mem_cons_self (hs _ _ _ _ _ _ _)
    | evaluate env => exact .pure hbelow
    | conjunction total rest env =>
      unfold resume
      dsimp only
      split
      · exact .pure (hbelow.of_pends (pends_evalConjunction _ _))
      · exact .pure hbelow
    | disjunction total rest env =>
      unfold resume
      dsimp only
      split
      · exact .pure hbelow
      · exact .pure (hbelow.of_pends (pends_evalDisjunction _ _))
    | vector total rest done env => exact goes_evalVector hbelow _ _ _
    | map total key rest done env => exact goes_evalMap hbelow _ _ _
    | memo nodes => exact (accounted_keepResults _ _).bind fun _ _ => .pure hbelow
    | job job => exact .after (Job.quiet_resume _ _) fun outcome => hbelow.of_pends (pends_afterOutcome outcome)

theorem goes_evalSymbol (hs : Procedural stack) (hk : R.StackKnown stack) (id : NodeId) (name : String) :
    Goes R (evalSymbol id name env stack) := by
  have hlookup : Quiet (lookup env name) := by
    refine Quiet.get.bind fun w => ?_
    split
    · exact Quiet.pure _
    · exact Quiet.fail _
  refine hlookup.accounted.bind fun v _ => (accounted_recordAll [⟨env, name, v⟩]).bind fun _ _ => ?_
  refine (accounted_setResult _ v).bind fun _ _ => Quiet.get.accounted.bind fun w _ => ?_
  split
  · exact (accounted_lift fun _ => rfl).bind fun _ _ => goes_resume hs hk v
  · exact goes_resume hs hk v

theorem goes_eval (hs : Procedural stack) (hk : R.StackKnown stack) {form : Value} (hf : R.PartsKnown form) :
    Goes R (eval form env stack) := by
  unfold eval
  split
  · rename_i node items
    have hitems : R.AllKnown (Call.items ⟨node, items⟩) := hf
    unfold evalList
    dsimp only
    split
    · exact .pure ((hs.memo _).of_pends (pends_evalBody _ _))
    · split
      · exact goes_resume hs hk _
      · split
        · exact goes_evalSpecial (hs.memo _) hitems _
        · exact .pure (hs.memo _)
  · exact goes_evalSymbol hs hk _ _
  · split
    · exact goes_resume hs hk _
    · exact goes_evalVector (hs.memo _) _ _ _
  · split
    · exact goes_resume hs hk _
    · exact goes_evalMap (hs.memo _) _ _ _
  · exact goes_resume hs hk _

theorem goes_quasi (hs : Procedural stack) (hk : R.StackKnown stack) (form : Value) :
    Goes R (quasi form env stack) := by
  unfold quasi
  split
  · split
    · split
      · exact .pure hs
      · exact .fail _
    · split
      · exact goes_resume hs hk _
      · exact goes_quasiItems hs _ _ _ _
  · exact goes_resume hs hk _

/-- **A step keeps only expansions that are accounted for**, and lets no built-in expander wait. -/
theorem goes_step {s : State} {w : World} (hw : R.Ok w) (hk : R.StateKnown s) (hs : Procedural s.stack) :
    Goes R (step s) := by
  obtain ⟨control, stack⟩ := s
  cases control with
  | eval form env => exact goes_eval hs hk.2 (hw.partsKnown hk.1.1)
  | quasi form env => exact goes_quasi hs hk.2 form
  | ret v => exact goes_resume hs hk.2 v
  | call f args => exact goes_apply hs f args
  | landed v => exact .pure hs

end rules

end Machine

/-! ## Runs -/

/-- The act keeps the world ok and its expansions accounted for, and what it comes to is known. -/
def Upholds (R : Registry) (act : Act α) (Q : Registry → α → Prop) : Prop :=
  ∀ w, R.Ok w → w.KeepsOnly R.Accounts → ∃ R', R ≤ R' ∧ R'.Ok (worldAfter act w) ∧ (worldAfter act w).KeepsOnly R'.Accounts ∧
    ∀ a w', act w = .ok a w' → Q R' a

namespace Upholds

variable {act : Act α} {P Q : Registry → α → Prop}

theorem of_accounted {S : α → Prop} (h : Keeps R act P) (ha : Accounted R.Accounts act S)
    (hq : ∀ R' a, P R' a → S a → Q R' a) : Upholds R act Q := by
  intro w hw hall
  obtain ⟨R', hle, hkept⟩ := h w hw
  obtain ⟨hafter, hdone⟩ := ha w hall
  refine ⟨R', hle, ?_⟩
  cases e : act w with
  | ok a w' =>
    rw [e] at hkept
    rw [worldAfter_of_ok e] at hafter ⊢
    refine ⟨hkept.1, accounts_mono hafter hle, ?_⟩
    rintro _ _ ⟨⟩
    exact hq R' a hkept.2 (hdone a w' e)
  | error b w' =>
    rw [e] at hkept
    rw [worldAfter_of_error e] at hafter ⊢
    exact ⟨hkept, accounts_mono hafter hle, nofun⟩

/-- An act that leaves the expansions alone. -/
theorem of_eq (h : Keeps R act Q) (he : ∀ w, (worldAfter act w).expansions = w.expansions) : Upholds R act Q :=
  .of_accounted h (.of_eq he) fun _ _ hq _ => hq

theorem pure {a : α} (h : Q R a) : Upholds R (Pure.pure a) Q := by
  refine fun w hw hall => ⟨R, le_refl R, hw, hall, ?_⟩
  rintro _ _ ⟨⟩
  exact h

theorem bind {f : α → Act β} {Q : Registry → β → Prop} (h : Upholds R act P)
    (hf : ∀ R' a, P R' a → Upholds R' (f a) Q) : Upholds R (act >>= f) Q := by
  intro w hw hall
  obtain ⟨R₁, hle, hok, hafter, hdone⟩ := h w hw hall
  cases e : act w with
  | ok a w₁ =>
    rw [worldAfter_of_ok e] at hok hafter
    obtain ⟨R₂, hle', hrest⟩ := hf R₁ a (hdone a w₁ e) w₁ hok hafter
    refine ⟨R₂, le_trans hle hle', ?_⟩
    rw [worldAfter, bind_of_eq_ok e]
    exact hrest
  | error b w₁ =>
    rw [worldAfter_of_error e] at hok hafter
    refine ⟨R₁, hle, ?_⟩
    rw [worldAfter_of_error (bind_of_eq_error e), bind_of_eq_error e]
    refine ⟨hok, hafter, ?_⟩
    rintro _ _ ⟨⟩

/-- Dropping recordings leaves the expansions alone. -/
theorem balanced (h : Upholds R act Q) : Upholds R (balanced act) Q := by
  intro w hw hall
  obtain ⟨R', hle, hok, hafter, hdone⟩ := h w hw hall
  refine ⟨R', hle, ?_⟩
  rw [worldAfter, balanced_eq]
  cases e : act w with
  | ok a w' =>
    rw [worldAfter_of_ok e] at hok hafter
    exact ⟨hok, hafter, fun a' w'' h => hdone a' w'' (e.trans h)⟩
  | error b w' =>
    rw [worldAfter_of_error e] at hok hafter
    cases b with
    | fault f =>
      refine ⟨hok.abandon _, hafter, ?_⟩
      rintro _ _ ⟨⟩
    | crash | exhausted =>
      refine ⟨hok, hafter, ?_⟩
      rintro _ _ ⟨⟩

end Upholds

namespace Machine

/-- What is known when the machine goes on. -/
def Proper (R : Registry) (s : State) : Prop := R.Open ∧ R.StateKnown s ∧ Procedural s.stack

theorem upholds_step {s : State} (hs : Proper R s) : Upholds R (step s) Proper := by
  intro w hw hall
  obtain ⟨ho, hknown, hprocedural⟩ := hs
  have hkept := (keeps_step ho hknown).mono fun R' next hle hnext => And.intro (ho.mono hle) hnext
  exact Upholds.of_accounted hkept (goes_step hw hknown hprocedural) (fun _ _ hk hp => ⟨hk.1, hk.2, hp⟩) w hw hall

/-- **A run keeps only expansions that are accounted for**, whether it ends or not. -/
theorem upholds_drive (fuel : Nat) {s : State} (hs : Proper R s) : Upholds R (drive fuel s) Known := by
  induction fuel generalizing R s with
  | zero => exact fun w hw hall => ⟨R, le_refl R, hw, hall, nofun⟩
  | succ fuel ih =>
    by_cases hl : ∃ v, s.control = .landed v
    · obtain ⟨v, hv⟩ := hl
      obtain ⟨control, stack⟩ := s
      cases hv
      exact .pure hs.2.1.1
    · rw [drive_step fuel fun v hv => hl ⟨v, hv⟩]
      exact (upholds_step hs).bind fun R' next hnext => ih hnext

end Machine

theorem upholds_runFrom (fuel : Nat) {s : State} (hs : Machine.Proper R s) : Upholds R (runFrom fuel s) Known :=
  (Machine.upholds_drive fuel hs).balanced

/-! ## Sessions -/

namespace Session

/-- **A request keeps only expansions that are accounted for.** -/
theorem Request.upholds_run (r : Request) (ho : R.Open) (hv : R.AllKnown r.values)
    (he : ∀ env, r.frame? = some env → R.InScope env) : Upholds R r.run AllKnown := by
  have ran : ∀ {R : Registry} {act : Act Value}, Upholds R act Known →
      Upholds R (act >>= fun v => pure [v]) AllKnown := fun h =>
    h.bind fun R' a hknown => .pure (List.forall_mem_singleton.mpr hknown)
  have idle : (∀ w, (worldAfter r.run w).expansions = w.expansions) → Upholds R r.run AllKnown :=
    fun h => .of_eq (r.keeps_run ho hv he) h
  have quiet : Quiet r.run → Upholds R r.run AllKnown :=
    fun h => idle fun w => congrArg Evaluation.expansions (h w).evaluation
  cases r with
  | evaluate fuel form env =>
    have hs : Machine.Proper R ⟨.eval form env, []⟩ :=
      ⟨ho, ⟨⟨List.forall_mem_singleton.mp hv, he env rfl⟩, stackKnown_nil⟩, .nil⟩
    exact ran (upholds_runFrom fuel hs)
  | apply fuel f args =>
    have hs : Machine.Proper R ⟨.call f args, []⟩ := ⟨ho, ⟨allKnown_cons.mp hv, stackKnown_nil⟩, .nil⟩
    exact ran (upholds_runFrom fuel hs)
  | macroexpand fuel form =>
    have hform : R.Known form := List.forall_mem_singleton.mp hv
    have hkept := (Machine.keeps_expandOnce hform stackKnown_nil .global).mono
      fun R' s hle (hs : R'.StateKnown s) => And.intro (ho.mono hle) hs
    have hstart : Upholds R (Machine.expandOnce form .global []) Machine.Proper :=
      .of_accounted hkept (Machine.goes_expandOnce .nil hform) fun _ _ hk hp => ⟨hk.1, hk.2, hp⟩
    exact ran (hstart.bind fun R' s hs => upholds_runFrom fuel hs)
  | invalidate v =>
    refine .of_accounted (Request.keeps_run (.invalidate v) ho hv he) ?_ fun _ _ hknown (_ : True) => hknown
    refine fun w hall => ⟨fun id e hkept => ?_, fun _ _ _ => trivial⟩
    have hkept : (EditableLisp.invalidate v w).2.expansions.get? id = some e := hkept
    cases v with
    | seq shape node items =>
      have hkept : (w.expansions.erase node.id).get? id = some e := hkept
      rw [Table.get?_erase] at hkept
      split at hkept
      · cases hkept
      · exact hall id e hkept
    | _ => exact hall id e hkept
  | readProgram src =>
    refine quiet ((quiet_readProgram src).bind fun result => ?_)
    split <;> exact Quiet.pure _
  | readForm src =>
    refine quiet ((quiet_readForm src).bind fun result => ?_)
    split <;> exact Quiet.pure _
  | decode text => exact quiet ((quiet_decodeJson text).bind fun _ => Quiet.pure _)
  | symbol name => exact quiet ((quiet_newSymbol name).bind fun _ => Quiet.pure _)
  | sequence shape items => exact quiet ((quiet_newSeq shape items).bind fun _ => Quiet.pure _)
  | map pairs => exact quiet ((quiet_newMap _).bind fun _ => Quiet.pure _)
  | atom content => exact quiet ((quiet_newAtom content).bind fun _ => Quiet.pure _)
  | expand form => exact quiet ((quiet_expandedForm form).bind fun _ => Quiet.pure _)
  | print v => exact quiet ((quiet_print v).bind fun _ => Quiet.pure _)
  | printPlain v => exact quiet ((quiet_printPlain v).bind fun _ => Quiet.pure _)
  | copy v => exact quiet ((quiet_deepCopy v).bind fun _ => Quiet.pure _)
  | replaceChild owner index child => exact quiet ((quiet_replaceChild owner index child).bind fun _ => Quiet.pure _)
  | replaceNode root id v => exact quiet ((Tree.quiet_replace _ id v).bind fun _ => Quiet.pure _)
  | define env name v => exact idle fun _ => rfl
  | defineAt env name v site => exact idle fun _ => rfl

/-- All that a session has is known, its expansions are accounted for, and no built-in expander waits in its runs. -/
structure Accounting (R : Registry) (s : Session) : Prop where
  sound : Sound R s
  accounts : s.world.KeepsOnly R.Accounts
  procedural : ∀ state ∈ s.runs, Machine.Procedural state.stack

variable {s : Session}

theorem expansions_installAll (functions : List Builtin) (w : World) :
    (installAll functions w).2.expansions = w.expansions := by
  induction functions generalizing w with
  | nil => rfl
  | cons b rest ih => exact ih _

/-- Nothing is kept on calls in a world with the built-in functions. -/
theorem expansions_full : World.full.expansions = .empty := by
  unfold World.full
  show ((installAll (Builtin.functions ++ Builtin.expanders) >>= fun _ => define .global "PI" (.num pi))
    World.initial).2.expansions = .empty
  generalize Builtin.functions ++ Builtin.expanders = functions
  exact expansions_installAll functions World.initial

theorem Accounting.first {w : World} (hs : Sound R ⟨w, [], [], []⟩) (hw : w.expansions = .empty) :
    Accounting R ⟨w, [], [], []⟩ where
  sound := hs
  accounts id e he := by
    rw [hw, Table.get?_empty] at he
    cases he
  procedural := nofun

/-- **In every session that can be reached, expansions are accounted for.** -/
theorem Reachable.exists_accounting (h : s.Reachable) : ∃ R, Accounting R s := by
  induction h with
  | full =>
    obtain ⟨R, hle, hok⟩ := exists_ok_full
    exact ⟨R, .first (.first hok hle) expansions_full⟩
  | bare => exact ⟨firstRegistry, .first (.first ok_initial (le_refl _)) rfl⟩
  | @step s _ _ hstep ih =>
    obtain ⟨R, hs⟩ := ih
    cases hstep with
    | @served r vs w hv he hr =>
      obtain ⟨R', hle, hok, hall, hdone⟩ := r.upholds_run hs.sound.free (fun v hm => hs.sound.known (hv v hm))
        (fun env hf => hs.sound.inScope (he env hf)) s.world hs.sound.world hs.accounts
      rw [worldAfter_of_ok hr] at hok hall
      have hgrown := hs.sound.grow hle hok
      exact ⟨R', { hgrown with held := allKnown_append.mpr ⟨hdone vs w hr, hgrown.held⟩ }, hall, hs.procedural⟩
    | @failed r h w hv he hr =>
      obtain ⟨R', hle, hok, hall, -⟩ := r.upholds_run hs.sound.free (fun v hm => hs.sound.known (hv v hm))
        (fun env hf => hs.sound.inScope (he env hf)) s.world hs.sound.world hs.accounts
      rw [worldAfter_of_error hr] at hok hall
      exact ⟨R', hs.sound.grow hle hok, hall, hs.procedural⟩
    | take hv =>
      have hheld := List.forall_mem_cons.mpr ⟨hs.sound.known hv, hs.sound.held⟩
      exact ⟨R, { hs.sound with held := hheld }, hs.accounts, hs.procedural⟩
    | newFrame he =>
      obtain ⟨R', hle, hok, hframe⟩ := keeps_newScope (hs.sound.inScope he) s.world hs.sound.world
      have hgrown := hs.sound.grow hle hok
      exact ⟨R', { hgrown with frames := List.forall_mem_cons.mpr ⟨hframe, hgrown.frames⟩ }, accounts_mono hs.accounts hle,
        hs.procedural⟩
    | start hf he =>
      have hstate := And.intro (And.intro (hs.sound.known hf) (hs.sound.inScope he)) (@stackKnown_nil R)
      exact ⟨R, { hs.sound with runs := List.forall_mem_cons.mpr ⟨hstate, hs.sound.runs⟩ }, hs.accounts,
        List.forall_mem_cons.mpr ⟨.nil, hs.procedural⟩⟩
    | startCall hf ha =>
      have hstate := And.intro (And.intro (hs.sound.known hf) fun v hv => hs.sound.known (ha v hv)) (@stackKnown_nil R)
      exact ⟨R, { hs.sound with runs := List.forall_mem_cons.mpr ⟨hstate, hs.sound.runs⟩ }, hs.accounts,
        List.forall_mem_cons.mpr ⟨.nil, hs.procedural⟩⟩
    | @advance state next w hm hnext =>
      obtain ⟨R', hle, hok, hall, hdone⟩ := Machine.upholds_step ⟨hs.sound.free, hs.sound.runs state hm, hs.procedural state hm⟩
        s.world hs.sound.world hs.accounts
      rw [worldAfter_of_ok hnext] at hok hall
      have hgrown := hs.sound.grow hle hok
      obtain ⟨-, hknown, hproper⟩ := hdone next w hnext
      exact ⟨R', { hgrown with runs := List.forall_mem_cons.mpr ⟨hknown, hgrown.runs⟩ }, hall,
        List.forall_mem_cons.mpr ⟨hproper, hs.procedural⟩⟩
    | @stuck state h w hm hnext =>
      obtain ⟨R', hle, hok, hall, -⟩ := Machine.upholds_step ⟨hs.sound.free, hs.sound.runs state hm, hs.procedural state hm⟩
        s.world hs.sound.world hs.accounts
      rw [worldAfter_of_error hnext] at hok hall
      exact ⟨R', hs.sound.grow hle hok, hall, hs.procedural⟩

/-- **The form that is kept for a built-in expander is what it makes of the arguments of the call**, and nothing was
looked up for it, whatever the host did. -/
theorem Reachable.form_of_builtin (h : s.Reachable) {node : Node} {items : List Value} {function : NodeId}
    {code : Builtin} {data form : Value} {reads : List Lookup} (hc : s.Has (.seq .list node items))
    (hk : s.world.expansions.get? node.id = some (.constant (.builtin function code data) form reads)) :
    reads = [] ∧ ∃ w w', code.evaluate items.tail w = .ok form w' := by
  obtain ⟨R, hs⟩ := h.exists_accounting
  obtain ⟨hreads, node', items', hid, hknown, hmade⟩ := hs.accounts _ _ hk function code data form reads rfl
  -- one identity is that of one node
  have hnode : R.node node.id = some (.seq .list node' items') := hknown.node_eq (congrArg some hid)
  cases ((hs.sound.known hc).node_eq rfl).symm.trans hnode
  exact ⟨hreads, hmade⟩

end Session

end EditableLisp
