import EditableLisp.Proofs.Moves
import EditableLisp.Proofs.Run

/-!
# Nodes that wait for their value

A node whose evaluation has begun waits for its value in a memo step, together with the nodes in whose place it
is evaluated. `Machine.waiting` lists all that wait on a stack, each with what is pending below it.

`Machine.settles_step` says what a step does about them, in every state and every world. A step that begins the
evaluation of a node makes it wait (`Machine.mem_waiting_memo`). Apart from that, nothing changes for the nodes
that wait and for the results that are kept, unless a value arrives at a memo step: then all nodes in it keep the
value, and the value is handed on to what is pending below.
-/

namespace EditableLisp

variable {α β : Type}

/-- The evaluation of a form keeps its value: programs, and lists, vectors and maps that are not empty. -/
def Value.keepsResult : Value → Bool
  | .seq .list node items => node.style = .program || !items.isEmpty
  | .seq .vector _ items => !items.isEmpty
  | .map _ entries => !entries.isEmpty
  | _ => false

/-- A pending step keeps a value for nodes. -/
def Pending.isMemo : Pending → Bool
  | memo _ => true
  | _ => false

/-! ## Acts that leave results alone -/

/-- The act leaves the results of nodes as they are. -/
def Unwritten (act : Act α) : Prop := ∀ w, (worldAfter act w).results = w.results

namespace Unwritten

theorem bind {act : Act α} {f : α → Act β} (h : Unwritten act) (hf : ∀ a, Unwritten (f a)) :
    Unwritten (act >>= f) := by
  intro w
  have ha := h w
  cases e : act w with
  | ok a w₁ =>
    rw [worldAfter_of_ok e] at ha
    rw [worldAfter, bind_of_eq_ok e]
    exact (hf a w₁).trans ha
  | error b w₁ =>
    rw [worldAfter_of_error e] at ha
    rw [worldAfter_of_error (bind_of_eq_error e)]
    exact ha

end Unwritten

theorem Quiet.unwritten {act : Act α} (h : Quiet act) : Unwritten act :=
  fun w => congrArg Evaluation.results (h w).evaluation

theorem unwritten_define (env : Env) (name : String) (v : Value) : Unwritten (liftM (define env name v)) :=
  fun _ => rfl

theorem unwritten_defineAt (env : Env) (name : String) (v site : Value) :
    Unwritten (liftM (defineAt env name v site)) := fun _ => rfl

theorem unwritten_newChild (env : Env) : Unwritten (liftM (newChild env)) := fun _ => rfl

theorem unwritten_setExpansion (id : NodeId) (e : Expansion) : Unwritten (liftM (setExpansion id e)) :=
  fun _ => rfl

theorem unwritten_recordAll (reads : List Lookup) : Unwritten (liftM (recordAll reads)) := by
  intro w
  show (recordAll reads w).2.results = _
  rw [recordAll_snd]

theorem unwritten_finishRecording (depth : Nat) : Unwritten (liftM (finishRecording depth)) := by
  intro w
  show (finishRecording depth w).2.results = _
  rcases finishRecording_cases depth w with h | ⟨top, rest, h, hdepth⟩
  · rw [h]
  · rw [finishRecording_of_abandon h hdepth]

namespace Pattern

mutual

theorem unwritten_destructure (env : Env) (pattern value : Value) :
    Unwritten (destructure env pattern value) := by
  match pattern with
  | .symbol _ name =>
    unfold destructure
    exact unwritten_define env name value
  | .seq .vector node items =>
    unfold destructure
    split
    · exact unwritten_destructureItems env _ _ _ _ items
    · exact Quiet.unwritten ((quiet_print _).bind fun _ => (quiet_print _).bind fun _ => Quiet.fail _)
  | .nil | .bool _ | .num _ | .text _ | .keyword _ | .seq .list _ _ | .map _ _ | .builtin _ _ _
  | .closure _ _ _ _ _ _ | .atom _ =>
    unfold destructure
    exact Quiet.unwritten ((quiet_print _).bind fun _ => Quiet.fail _)

theorem unwritten_destructureItems (env : Env) (whole : Value) (wanted got : Nat) (values : List Value)
    (items : List Value) : Unwritten (destructureItems env whole wanted got values items) := by
  match items with
  | [] =>
    unfold destructureItems
    split
    · exact (Quiet.pure _).unwritten
    · exact (Quiet.fail _).unwritten
  | item :: rest =>
    unfold destructureItems
    split
    · split
      · exact (quiet_newVector _).unwritten.bind fun _ => unwritten_destructure env _ _
      · exact Quiet.unwritten ((quiet_print _).bind fun _ => Quiet.fail _)
    · split
      · exact (unwritten_destructure env item _).bind fun _ =>
          unwritten_destructureItems env whole wanted got _ rest
      · exact (Quiet.fail _).unwritten

end

end Pattern

namespace Machine

theorem unwritten_enter (env : Env) (params : Value) (args : List Value) : Unwritten (enter env params args) :=
  (unwritten_newChild env).bind fun frame => (quiet_newVector args).unwritten.bind fun vector =>
    (Pattern.unwritten_destructure frame params vector).bind fun _ => (Quiet.pure frame).unwritten

theorem unwritten_markOrdinary (call : Call) : Unwritten (liftM (markOrdinary call)) := by
  unfold markOrdinary
  rw [lift_bind]
  refine Quiet.lift_get.unwritten.bind fun w => ?_
  split
  · exact (Quiet.pure _).unwritten
  · exact unwritten_setExpansion _ _

theorem unwritten_servedForm? (call : Call) (f : Value) : Unwritten (liftM (servedForm? call f)) := by
  unfold servedForm?
  rw [lift_bind]
  refine Quiet.lift_get.unwritten.bind fun w => ?_
  split
  · split
    · split
      · rw [lift_bind]
        exact (unwritten_recordAll _).bind fun _ => (Quiet.pure _).unwritten
      · rw [lift_bind]
        exact (quiet_instantiate _ _).unwritten.bind fun _ => (Quiet.pure _).unwritten
      · exact (Quiet.pure _).unwritten
    · exact (Quiet.pure _).unwritten
  · exact (Quiet.pure _).unwritten

/-! ## Results that are kept -/

theorem get?_keptAt (v node : Value) (w : World) (id : NodeId) :
    (keptAt v node w).results.get? id = if node.nodeId? = some id then some v else w.results.get? id := by
  cases h : node.nodeId? with
  | none =>
    rw [keptAt_of_none h, if_neg nofun]
  | some other =>
    rw [keptAt_of_nodeId h]
    show (w.results.set other v).get? id = _
    rw [Table.get?_set]
    by_cases hid : id = other
    · rw [if_pos hid, if_pos (congrArg some hid.symm)]
    · rw [if_neg hid, if_neg fun h => hid (Option.some.inj h).symm]

/-- Nodes that are given a value have it, and no other node has a new one. -/
theorem get?_kept (v : Value) (nodes : List Value) (w : World) (id : NodeId) :
    (kept v nodes w).results.get? id =
      if some id ∈ nodes.map Value.nodeId? then some v else w.results.get? id := by
  induction nodes generalizing w with
  | nil => rfl
  | cons node rest ih =>
    rw [kept_cons, ih, get?_keptAt, List.map_cons]
    by_cases hrest : some id ∈ rest.map Value.nodeId?
    · rw [if_pos hrest, if_pos (List.mem_cons_of_mem _ hrest)]
    · by_cases hnode : node.nodeId? = some id
      · rw [if_neg hrest, if_pos hnode, if_pos (List.mem_cons.mpr (.inl hnode.symm))]
      · rw [if_neg hrest, if_neg hnode, if_neg]
        exact fun h => (List.mem_cons.mp h).elim (fun h => hnode h.symm) hrest

/-! ## Stacks -/

/-- The identities of the nodes that wait for their value on a stack, each with what is pending below. -/
def waiting : List Pending → List (Option NodeId × List Pending)
  | [] => []
  | .memo nodes :: below => nodes.map (fun node => (node.nodeId?, below)) ++ waiting below
  | _ :: below => waiting below

/-- What is pending below a node that is evaluated: a memo step is shared. -/
def beneath : List Pending → List Pending
  | .memo _ :: below => below
  | stack => stack

/-- What waits is above what is pending below it. -/
theorem length_lt_of_mem_waiting {stack below : List Pending} {id : Option NodeId}
    (h : (id, below) ∈ waiting stack) : below.length < stack.length := by
  induction stack with
  | nil => cases h
  | cons p stack ih =>
    have deeper : (id, below) ∈ waiting stack → below.length < (p :: stack).length :=
      fun h => Nat.lt_succ_of_lt (ih h)
    cases p with
    | memo nodes =>
      rcases List.mem_append.mp h with h | h
      · obtain ⟨node, -, he⟩ := List.mem_map.mp h
        cases he
        exact Nat.lt_succ_self _
      · exact deeper h
    | _ => exact deeper h

/-- **A node that begins to wait** is added to those that wait; nothing else changes, also where it shares a
memo step and where it is in it already. -/
theorem mem_waiting_memo {node : Value} {stack : List Pending} {x : Option NodeId × List Pending} :
    x ∈ waiting (memo node stack) ↔ x = (node.nodeId?, beneath stack) ∨ x ∈ waiting stack := by
  by_cases hm : ∃ nodes below, stack = .memo nodes :: below
  · obtain ⟨nodes, below, rfl⟩ := hm
    unfold memo
    dsimp only
    split
    · rename_i hany
      obtain ⟨n, hn, hid⟩ := List.any_eq_true.mp hany
      have hthere : (node.nodeId?, below) ∈ waiting (.memo nodes :: below) := by
        rw [← nodeId?_of_identical hid]
        exact List.mem_append_left _ (List.mem_map_of_mem hn)
      constructor
      · exact Or.inr
      · rintro (rfl | h)
        · exact hthere
        · exact h
    · show x ∈ (nodes ++ [node]).map _ ++ _ ↔ x = (node.nodeId?, below) ∨ x ∈ nodes.map _ ++ _
      rw [List.map_append, List.mem_append, List.mem_append, List.mem_append, List.map_singleton,
        List.mem_singleton]
      tauto
  · have hs : memo node stack = .memo [node] :: stack := by
      unfold memo
      split
      · exact absurd ⟨_, _, rfl⟩ hm
      · rfl
    have hb : beneath stack = stack := by
      unfold beneath
      split
      · exact absurd ⟨_, _, rfl⟩ hm
      · rfl
    rw [hs, hb]
    exact List.mem_cons

/-- A pending step that is not a memo step does not matter. -/
theorem waiting_cons {p : Pending} (hp : p.isMemo = false) (stack : List Pending) :
    waiting (p :: stack) = waiting stack := by
  cases p with
  | memo nodes => cases hp
  | _ => rfl

/-- One stack comes of another where no memo step is touched: pending steps are taken off it, and one may be put
on it. -/
inductive Shifts : List Pending → List Pending → Prop where
  | stays {stack : List Pending} : Shifts stack stack
  | pushes {stack : List Pending} {p : Pending} : p.isMemo = false → Shifts stack (p :: stack)
  | pops {stack stack' : List Pending} {p : Pending} : p.isMemo = false → Shifts stack stack' →
      Shifts (p :: stack) stack'

/-- The same nodes wait where no memo step is touched. -/
theorem Shifts.waiting_eq {stack stack' : List Pending} (h : Shifts stack stack') :
    waiting stack' = waiting stack := by
  induction h with
  | stays => rfl
  | pushes hp => exact waiting_cons hp _
  | pops hp _ ih => exact ih.trans (waiting_cons hp _).symm

/-! ## What a step does about nodes that wait -/

/-- What a step does that goes on from a stack, where some results are kept. -/
inductive Settles (stack : List Pending) (results : Table Value) : EStateM.Result Halt World State → Prop where
  /-- The same nodes wait as before. -/
  | waits {s : State} {w : World} : Shifts stack s.stack → w.results = results →
      Settles stack results (.ok s w)
  /-- The nodes of the memo step at the top keep the value, which is handed on. -/
  | ends {nodes : List Value} {below : List Pending} {v : Value} {w : World} : stack = .memo nodes :: below →
      w.results = results → Settles stack results (.ok ⟨.ret v, below⟩ (kept v nodes w))
  | fails {h : Halt} {w : World} : w.results = results → Settles stack results (.error h w)

/-- The act goes on from a stack, and no evaluation of a node ends. -/
structure Waits (stack : List Pending) (act : Act State) : Prop where
  unwritten : Unwritten act
  shifts : ∀ s w w', act w = .ok s w' → Shifts stack s.stack

namespace Waits

variable {stack : List Pending}

theorem pure {s : State} (h : Shifts stack s.stack) : Waits stack (Pure.pure s) where
  unwritten := (Quiet.pure s).unwritten
  shifts _ _ _ e := by
    cases e
    exact h

theorem fail (f : Fault) : Waits stack (EditableLisp.fail f) := ⟨(Quiet.fail f).unwritten, nofun⟩

theorem bind {act : Act α} {f : α → Act State} (h : Unwritten act) (hf : ∀ a, Waits stack (f a)) :
    Waits stack (act >>= f) where
  unwritten := h.bind fun a => (hf a).unwritten
  shifts _ _ _ e := by
    obtain ⟨a, w₁, -, hrest⟩ := bind_eq_ok e
    exact (hf a).shifts _ _ _ hrest

/-- An act that leaves evaluations alone, and a state after it. -/
theorem after {act : Act α} (h : Quiet act) {f : α → State} (hf : ∀ a, Shifts stack (f a).stack) :
    Waits stack (act >>= fun a => Pure.pure (f a)) := bind h.unwritten fun a => pure (hf a)

theorem failWith {act : Act α} (h : Quiet act) (f : α → Fault) :
    Waits stack (act >>= fun a => EditableLisp.fail (f a)) := bind h.unwritten fun _ => fail _

/-- The act goes on from below a pending step. -/
theorem pops {act : Act State} (h : Waits stack act) {p : Pending} (hp : p.isMemo = false) :
    Waits (p :: stack) act := ⟨h.unwritten, fun s w w' e => .pops hp (h.shifts s w w' e)⟩

theorem settles {act : Act State} (h : Waits stack act) {results : Table Value} {w : World}
    (hw : w.results = results) : Settles stack results (act w) := by
  have hr := h.unwritten w
  cases e : act w with
  | ok s w' =>
    rw [worldAfter_of_ok e] at hr
    exact .waits (h.shifts s w w' e) (hr.trans hw)
  | error b w' =>
    rw [worldAfter_of_error e] at hr
    exact .fails (hr.trans hw)

end Waits

section rules

variable {stack : List Pending} {env : Env} {call : Call}

theorem shifts_evalBody (total : Nat) (rest : List Value) :
    Shifts stack (evalBody total rest env stack).stack := by
  unfold evalBody
  split
  · exact .stays
  · exact .stays
  · exact .pushes rfl

theorem shifts_evalConjunction (total : Nat) (rest : List Value) :
    Shifts stack (evalConjunction total rest env stack).stack := by
  unfold evalConjunction
  split
  · exact .stays
  · exact .stays
  · exact .pushes rfl

theorem shifts_evalDisjunction (total : Nat) (rest : List Value) :
    Shifts stack (evalDisjunction total rest env stack).stack := by
  unfold evalDisjunction
  split
  · exact .stays
  · exact .stays
  · exact .pushes rfl

theorem shifts_evalBindings (index : Nat) (rest : List Value) :
    Shifts stack (evalBindings index rest call env stack).stack := by
  unfold evalBindings
  split
  · exact .pushes rfl
  · exact shifts_evalBody _ _

theorem shifts_afterOutcome (outcome : Outcome) : Shifts stack (afterOutcome outcome stack).stack := by
  cases outcome with
  | value v => exact .stays
  | call job f args => exact .pushes rfl

theorem shifts_finishExpansion (form : Value) (target : Option Env) :
    Shifts stack (finishExpansion form target stack).stack := by
  cases target <;> exact .stays

/-! ### Calls -/

theorem waits_apply (f : Value) (args : List Value) : Waits stack (apply f args stack) := by
  unfold apply
  split
  · exact .after (Builtin.quiet_run _ _) fun outcome => shifts_afterOutcome outcome
  · exact .bind (unwritten_enter _ _ _) fun _ => .pure .stays
  · exact .failWith (quiet_print _) _

theorem waits_evalArgs (f : Value) (rest : List Value) (done : Array Value) :
    Waits stack (evalArgs f call rest done env stack) := by
  unfold evalArgs
  split
  · exact .pure (.pushes rfl)
  · exact waits_apply f _

theorem waits_expandAnew (f : Value) (target : Option Env) : Waits stack (expandAnew call f target stack) := by
  unfold expandAnew
  split
  · refine .bind (Builtin.quiet_evaluate _ _).recorded.unwritten fun form => ?_
    exact .bind (unwritten_setExpansion _ _) fun _ => .pure (shifts_finishExpansion _ _)
  · refine .bind (unwritten_enter _ _ _) fun frame => ?_
    split
    · refine .bind (quiet_instantiate _ _).unwritten fun form => ?_
      exact .bind (unwritten_setExpansion _ _) fun _ => .pure (shifts_finishExpansion _ _)
    · have hstart : Unwritten (liftM startRecording) := fun _ => rfl
      exact .bind hstart fun _ => .pure (.pushes rfl)
  · exact .failWith (quiet_print _) _

theorem waits_expandCall (f : Value) (target : Option Env) : Waits stack (expandCall call f target stack) := by
  refine .bind (unwritten_servedForm? call f) fun served => ?_
  cases served with
  | some form => exact .pure (shifts_finishExpansion _ _)
  | none => exact waits_expandAnew f target

theorem waits_expandOnce (form : Value) : Waits stack (expandOnce form env stack) := by
  unfold expandOnce
  split
  · split
    · refine .bind Quiet.get.unwritten fun w => ?_
      split
      · split
        · exact waits_expandCall _ none
        · exact .pure .stays
      · exact .pure .stays
    · exact .pure .stays
  · exact .pure .stays

theorem waits_begin (f : Value) : Waits stack (begin f call env stack) := by
  unfold begin
  split
  · exact .failWith (quiet_print _) _
  · split
    · exact waits_expandCall f _
    · exact .bind (unwritten_markOrdinary _) fun _ => waits_evalArgs f _ _

/-! ### Special forms -/

theorem waits_evalNamed (kind : ClosureKind) : Waits stack (evalNamed kind call env stack) := by
  unfold evalNamed
  split
  · exact .fail _
  · split
    · refine .bind (quiet_makeClosure _ _ _ _).unwritten fun f => ?_
      exact .bind (unwritten_defineAt _ _ _ _) fun _ => .pure .stays
    · exact .failWith (quiet_print _) _

theorem waits_evalLet : Waits stack (evalLet call env stack) := by
  unfold evalLet
  split
  · split
    · exact .fail _
    · exact .bind (unwritten_newChild _) fun _ => .pure (shifts_evalBindings _ _)
  · exact .failWith (quiet_print _) _

theorem waits_evalSpecial (special : Special) : Waits stack (evalSpecial special call env stack) := by
  cases special with
  | definition =>
    unfold evalSpecial evalDefinition
    dsimp only
    split
    · exact .pure (.pushes rfl)
    · exact .failWith (quiet_print _) _
  | named kind => exact waits_evalNamed kind
  | anonymous kind =>
    unfold evalSpecial evalAnonymous
    dsimp only
    split
    · exact .after (quiet_makeClosure _ _ _ _) fun _ => .stays
    · exact .failWith (quiet_print _) _
  | bindings => exact waits_evalLet
  | body => exact .pure (shifts_evalBody _ _)
  | conditional =>
    unfold evalSpecial evalConditional
    dsimp only
    split
    · exact .pure (.pushes rfl)
    · exact .pure (.pushes rfl)
    · exact .failWith (quiet_print _) _
  | quote => exact .after (quiet_onlyArgument _ _) fun _ => .stays
  | quasiquote => exact .after (quiet_onlyArgument _ _) fun _ => .stays
  | macroexpand => exact .bind (quiet_onlyArgument _ _).unwritten fun form => waits_expandOnce form
  | evaluate => exact .after (quiet_onlyArgument _ _) fun _ => .pushes rfl
  | conjunction => exact .pure (shifts_evalConjunction _ _)
  | disjunction => exact .pure (shifts_evalDisjunction _ _)

theorem waits_quasiItems (shape : Shape) (total : Nat) (rest : List Value) (done : Array Value) :
    Waits stack (quasiItems shape total rest done env stack) := by
  unfold quasiItems
  split
  · exact .after (quiet_newSeq _ _) fun _ => .stays
  · refine .bind (quiet_spliced? _).unwritten fun form => ?_
    split <;> exact .pure (.pushes rfl)

theorem waits_evalVector (total : Nat) (rest : List Value) (done : Array Value) :
    Waits stack (liftM (evalVector total rest done env stack)) := by
  unfold evalVector
  split
  · exact .pure (.pushes rfl)
  · exact .after (quiet_newVector _) (f := fun v => ⟨.ret v, stack⟩) fun _ => .stays

theorem waits_evalMap (total : Nat) (rest : Entries) (done : Array (Key × Value)) :
    Waits stack (liftM (evalMap total rest done env stack)) := by
  unfold evalMap
  split
  · exact .pure (.pushes rfl)
  · exact .after (quiet_newMap _) (f := fun v => ⟨.ret v, stack⟩) fun _ => .stays

/-! ### Steps -/

/-- What is pending goes on with a value, and no evaluation of a node ends, unless it is a memo step. -/
theorem waits_resume (v : Value) {stack : List Pending} (hmemo : ∀ nodes below, stack ≠ .memo nodes :: below) :
    Waits stack (resume v stack) := by
  cases stack with
  | nil => exact .pure .stays
  | cons p stack =>
    have hp : p.isMemo = false := by
      cases p with
      | memo nodes => exact absurd rfl (hmemo nodes stack)
      | _ => rfl
    refine Waits.pops ?_ hp
    cases p with
    | memo nodes => cases hp
    | body total rest env => exact .pure (shifts_evalBody _ _)
    | head call env => exact waits_begin v
    | args f call rest done env => exact waits_evalArgs f _ _
    | branch yes no env =>
      unfold resume
      dsimp only
      split <;> exact .pure .stays
    | definition name call env => exact .bind (unwritten_defineAt _ _ _ _) fun _ => .pure .stays
    | binding index pattern rest call env =>
      exact .bind (Pattern.unwritten_destructure _ _ _) fun _ => .pure (shifts_evalBindings _ _)
    | quasi shape total rest done splice env =>
      exact .bind (quiet_addQuasi _ _ _).unwritten fun _ => waits_quasiItems _ _ _ _
    | expansion call maker depth target =>
      refine .bind (unwritten_finishRecording depth) fun reads => ?_
      exact .bind (unwritten_setExpansion _ _) fun _ => .pure (shifts_finishExpansion _ _)
    | evaluate env => exact .pure .stays
    | conjunction total rest env =>
      unfold resume
      dsimp only
      split
      · exact .pure (shifts_evalConjunction _ _)
      · exact .pure .stays
    | disjunction total rest env =>
      unfold resume
      dsimp only
      split
      · exact .pure .stays
      · exact .pure (shifts_evalDisjunction _ _)
    | vector total rest done env => exact waits_evalVector _ _ _
    | map total key rest done env => exact waits_evalMap _ _ _
    | job job => exact .after (Job.quiet_resume _ _) fun outcome => shifts_afterOutcome outcome

/-- A value that arrives is kept by the nodes that wait for it, if a memo step is pending. -/
theorem settles_resume (v : Value) (stack : List Pending) {results : Table Value} {w : World}
    (hw : w.results = results) : Settles stack results (resume v stack w) := by
  by_cases hm : ∃ nodes below, stack = .memo nodes :: below
  · obtain ⟨nodes, below, rfl⟩ := hm
    exact .ends rfl hw
  · exact (waits_resume v fun nodes below h => hm ⟨nodes, below, h⟩).settles hw

end rules

end Machine

/-! ## States -/

/-- The stack that a step goes on from: if it begins the evaluation of a node, the node waits on it. -/
def State.entered (s : State) : List Pending :=
  match s.control with
  | .eval form _ => if form.keepsResult then Machine.memo form s.stack else s.stack
  | _ => s.stack

/-- A step goes on from the stack at hand, or from that on which a node waits whose evaluation it begins. -/
theorem State.entered_cases (s : State) : s.entered = s.stack ∨ ∃ form env, s.control = .eval form env ∧
    form.keepsResult ∧ s.entered = Machine.memo form s.stack := by
  unfold entered
  split
  · rename_i form env hcontrol
    by_cases hkeeps : form.keepsResult
    · exact .inr ⟨form, env, hcontrol, hkeeps, if_pos hkeeps⟩
    · exact .inl (if_neg hkeeps)
  · exact .inl rfl

/-- What a step may have kept when it goes on: nothing, or what a symbol was found to stand for. -/
def State.Keeps (s : State) (w : World) (results : Table Value) : Prop :=
  results = w.results ∨
    ∃ id name env v, s.control = .eval (.symbol id name) env ∧ results = w.results.set id v

namespace Machine

theorem settles_evalSymbol (id : NodeId) (name : String) (env : Env) (stack : List Pending) (w : World) :
    ∃ results, State.Keeps ⟨.eval (.symbol id name) env, stack⟩ w results ∧
      Settles stack results (evalSymbol id name env stack w) := by
  unfold evalSymbol
  cases h : w.lookup? env name with
  | none =>
    rw [bind_of_eq_error (lookup_of_none h)]
    exact ⟨w.results, .inl rfl, .fails rfl⟩
  | some v =>
    rw [bind_of_eq_ok (lookup_of_some h), bind_lift, bind_lift, Act.get_bind]
    refine ⟨w.results.set id v, .inr ⟨id, name, env, v, rfl, rfl⟩, ?_⟩
    have hr : (record env name v w).2.results = w.results := by
      rw [record_eq_recordAll]
      exact unwritten_recordAll [⟨env, name, v⟩] w
    generalize (record env name v w).2 = w₁ at hr
    generalize hw₂ : (setResult (.symbol id name) v w₁).2 = w₂
    have hkept : w₂.results = w.results.set id v := by
      rw [← hw₂, ← hr]
      rfl
    cases w₂.site? env name with
    | some site => exact settles_resume (w := (setSite id site w₂).2) v stack hkept
    | none => exact settles_resume v stack hkept

/-- The evaluation of a form that is no symbol goes on from the stack on which the form waits, if it does. -/
theorem settles_eval {form : Value} (hform : ∀ id name, form ≠ .symbol id name) (env : Env)
    (stack : List Pending) (w : World) :
    Settles (State.entered ⟨.eval form env, stack⟩) w.results (eval form env stack w) := by
  unfold State.entered Value.keepsResult
  cases form with
  | symbol id name => exact absurd rfl (hform id name)
  | seq shape node items =>
    cases shape with
    | list =>
      unfold eval evalList
      dsimp only
      by_cases hstyle : node.style = .program
      · rw [if_pos hstyle, if_pos (by simp [hstyle])]
        exact (Waits.pure (shifts_evalBody _ _)).settles rfl
      · rw [if_neg hstyle]
        cases items with
        | nil =>
          rw [if_neg (by simp [hstyle])]
          exact settles_resume _ stack rfl
        | cons head rest =>
          rw [if_pos (by simp)]
          dsimp only
          cases (Value.headName? (head :: rest)).bind Special.ofName? with
          | some special => exact (waits_evalSpecial special).settles rfl
          | none => exact .waits (.pushes rfl) rfl
    | vector =>
      unfold eval
      cases items with
      | nil => exact settles_resume _ stack rfl
      | cons item rest => exact (waits_evalVector _ _ _).settles rfl
  | map node entries =>
    unfold eval
    cases entries with
    | nil => exact settles_resume _ stack rfl
    | cons entry rest => exact (waits_evalMap _ _ _).settles rfl
  | _ => exact settles_resume _ stack rfl

/-- **What a step does about nodes that wait**, in every state and every world. -/
theorem settles_step (s : State) (w : World) :
    ∃ results, s.Keeps w results ∧ Settles s.entered results (step s w) := by
  obtain ⟨control, stack⟩ := s
  cases control with
  | eval form env =>
    cases form with
    | symbol id name => exact settles_evalSymbol id name env stack w
    | _ => exact ⟨w.results, .inl rfl, settles_eval (by rintro _ _ ⟨⟩) env stack w⟩
  | quasi form env =>
    refine ⟨w.results, .inl rfl, ?_⟩
    show Settles stack w.results (quasi form env stack w)
    unfold quasi
    split
    · split
      · split
        · exact .waits .stays rfl
        · exact .fails rfl
      · split
        · exact settles_resume _ stack rfl
        · exact (waits_quasiItems _ _ _ _).settles rfl
    · exact settles_resume _ stack rfl
  | ret v => exact ⟨w.results, .inl rfl, settles_resume v stack rfl⟩
  | call f args => exact ⟨w.results, .inl rfl, (waits_apply f args).settles rfl⟩
  | landed v => exact ⟨w.results, .inl rfl, .waits .stays rfl⟩

/-- A step that goes on touches no memo step, or the one at the top is done. -/
theorem stack_of_step {s s' : State} {w w' : World} (h : step s w = .ok s' w') :
    Shifts s.entered s'.stack ∨ ∃ nodes, s.entered = .memo nodes :: s'.stack := by
  obtain ⟨results, -, hsettles⟩ := settles_step s w
  rw [h] at hsettles
  generalize hr : EStateM.Result.ok s' w' = r at hsettles
  cases hsettles with
  | waits hshifts hresults =>
    cases hr
    exact .inl hshifts
  | ends hstack hresults =>
    cases hr
    exact .inr ⟨_, hstack⟩
  | fails => cases hr

end Machine

end EditableLisp
