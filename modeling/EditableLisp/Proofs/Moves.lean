import EditableLisp.Interpreter
import EditableLisp.Proofs.Quiet

/-!
# What a step does to the recordings

A step of the machine looks up at most one symbol, and reuses at most one kept expansion; `State.seen` is
what it looks up in this way, said without the recordings. All of it goes to the innermost recording. Apart
from that the step does one of three things (`Machine.Moves`): it leaves the pending expansions and the
recordings as they are, it starts an expansion and a recording for it, or it finishes the innermost
expansion and its recording. `Machine.moves_step` says so for every state and every world.
-/

namespace EditableLisp

variable {α β : Type}

/-! ## Acts that record nothing -/

/-- The act leaves the recordings as they are. -/
def Silent (act : Act α) : Prop := ∀ w, (worldAfter act w).recordings = w.recordings

namespace Silent

theorem bind {act : Act α} {f : α → Act β} (h : Silent act) (hf : ∀ a, Silent (f a)) :
    Silent (act >>= f) := by
  intro w
  have ha := h w
  cases e : act w with
  | ok a w₁ =>
    rw [worldAfter_of_ok e] at ha
    rw [worldAfter, bind_of_eq_ok e]
    exact (hf a w₁).trans ha
  | error b w₁ =>
    rw [worldAfter_of_error e] at ha
    rw [worldAfter_of_error (bind_of_eq_error e)]
    exact ha

end Silent

theorem Quiet.silent {act : Act α} (h : Quiet act) : Silent act := fun w => congrArg Evaluation.recordings (h w).evaluation

theorem silent_define (env : Env) (name : String) (v : Value) : Silent (liftM (define env name v)) :=
  fun _ => rfl

theorem silent_defineAt (env : Env) (name : String) (v site : Value) :
    Silent (liftM (defineAt env name v site)) := fun _ => rfl

theorem silent_newChild (env : Env) : Silent (liftM (newChild env)) := fun _ => rfl

theorem silent_setExpansion (id : NodeId) (e : Expansion) : Silent (liftM (setExpansion id e)) := fun _ => rfl

theorem silent_setResult (node v : Value) : Silent (liftM (setResult node v)) := by
  intro w
  unfold setResult
  split <;> rfl

namespace Pattern

mutual

theorem silent_destructure (env : Env) (pattern value : Value) : Silent (destructure env pattern value) := by
  match pattern with
  | .symbol _ name =>
    unfold destructure
    exact silent_define env name value
  | .seq .vector node items =>
    unfold destructure
    split
    · exact silent_destructureItems env _ _ _ _ items
    · refine Quiet.silent ((quiet_print _).bind fun shown => ?_)
      simp
  | .nil | .bool _ | .num _ | .text _ | .keyword _ | .seq .list _ _ | .map _ _ | .builtin _ _ _
  | .closure _ _ _ _ _ _ | .atom _ =>
    unfold destructure
    exact Quiet.silent ((quiet_print _).bind fun _ => Quiet.fail _)

theorem silent_destructureItems (env : Env) (whole : Value) (wanted got : Nat) (values : List Value)
    (items : List Value) : Silent (destructureItems env whole wanted got values items) := by
  match items with
  | [] =>
    unfold destructureItems
    refine Quiet.silent ?_
    split <;> simp
  | item :: rest =>
    unfold destructureItems
    split
    · split
      · exact (quiet_newVector _).silent.bind fun _ => silent_destructure env _ _
      · exact Quiet.silent ((quiet_print _).bind fun _ => Quiet.fail _)
    · split
      · exact (silent_destructure env item _).bind fun _ =>
          silent_destructureItems env whole wanted got _ rest
      · exact (Quiet.fail _).silent

end

end Pattern

namespace Machine

theorem silent_enter (env : Env) (params : Value) (args : List Value) : Silent (enter env params args) := by
  refine (silent_newChild env).bind fun frame => ?_
  refine (quiet_newVector args).silent.bind fun vector => ?_
  exact (Pattern.silent_destructure frame params vector).bind fun _ => (Quiet.pure _).silent

theorem silent_markOrdinary (call : Call) : Silent (liftM (markOrdinary call)) := by
  unfold markOrdinary
  rw [lift_bind]
  refine Quiet.lift_get.silent.bind fun w => ?_
  split
  · exact (Quiet.pure _).silent
  · exact silent_setExpansion _ _

theorem silent_keepResults (v : Value) (nodes : List Value) : Silent (liftM (keepResults v nodes)) := by
  induction nodes with
  | nil => exact (Quiet.pure _).silent
  | cons node rest ih =>
    unfold keepResults
    rw [lift_bind]
    exact (silent_setResult node v).bind fun _ => ih

end Machine

/-! ## What is looked up -/

/-- Recordings with more lookups in the innermost one, if there is one. -/
def credited (recordings : List (List Lookup)) (reads : List Lookup) : List (List Lookup) :=
  recordings.modifyHead (reads.reverse ++ ·)

@[simp] theorem credited_nil (recordings : List (List Lookup)) : credited recordings [] = recordings := by
  cases recordings <;> rfl

@[simp] theorem credited_append (recordings : List (List Lookup)) (reads more : List Lookup) :
    credited (credited recordings reads) more = credited recordings (reads ++ more) := by
  cases recordings with
  | nil => rfl
  | cons top rest =>
    simp only [credited, List.modifyHead_cons, List.reverse_append, List.append_assoc]

/-- The lookups of a kept expansion that serves the call of an expander. -/
def World.reused (w : World) (call : Call) (f : Value) : List Lookup :=
  match w.expansions.get? call.node.id with
  | some (.constant maker form reads) =>
    if (Expansion.constant maker form reads).servesFor w f then reads else []
  | _ => []

/-- What is reused when a value arrives at what is pending: an expander at the head of a call may be served. -/
def World.reusedBy (w : World) (v : Value) : List Pending → List Lookup
  | .head call _ :: _ => if v.isExpander then w.reused call v else []
  | _ => []

/-- The call of an expander that a form is by the name at its head, with the expander. -/
def World.expanderCall? (w : World) (form : Value) (env : Env) : Option (Call × Value) :=
  match form with
  | .seq .list node items =>
    (((Value.headName? items).bind (w.lookup? env)).filter Value.isExpander).map fun f => (⟨node, items⟩, f)
  | _ => none

/-- What is reused to expand a form without evaluating it. -/
def World.reusedFor (w : World) (form : Value) (env : Env) : List Lookup :=
  match w.expanderCall? form env with
  | some (call, f) => w.reused call f
  | none => []

/-- What is looked up when a form is evaluated, before anything that is pending gets to run: the symbol that
the form is, then what was looked up for the kept expansion that is reused. -/
def World.seenBy (w : World) (form : Value) (env : Env) (stack : List Pending) : List Lookup :=
  match form with
  | .symbol _ name =>
    match w.lookup? env name with
    | some v => ⟨env, name, v⟩ :: w.reusedBy v stack
    | none => []
  | .seq .list node items =>
    if node.style ≠ .program ∧ Value.headName? items = some "macroexpand" then
      match items with
      | [_, arg] => w.reusedFor arg env
      | _ => []
    else []
  | form => w.reusedBy form stack

/-- What a step looks up. -/
def State.seen (s : State) (w : World) : List Lookup :=
  match s.control with
  | .eval form env => w.seenBy form env s.stack
  | .quasi form _ => w.reusedBy form s.stack
  | .ret v => w.reusedBy v s.stack
  | .call .. => []
  | .landed _ => []

namespace World

variable {w w' : World}

/-- Whether an expansion serves an expander depends on the frames. -/
theorem servesFor_congr (hf : ∀ id, w'.frame id = w.frame id) (e : Expansion) : e.servesFor w' = e.servesFor w := by
  have hlookup : w'.lookup? = w.lookup? := funext fun env => funext (lookup?_congr fun id _ => hf id)
  have hholds : Lookup.stillHolds w' = Lookup.stillHolds w := by
    funext l
    unfold Lookup.stillHolds
    rw [hlookup]
  funext f
  unfold Expansion.servesFor Expansion.isCurrent
  rw [hholds]

/-- What may be reused depends on the kept expansions and the frames. -/
theorem reusedBy_congr (he : w'.expansions = w.expansions) (hf : w'.frames = w.frames) (v : Value)
    (stack : List Pending) : w'.reusedBy v stack = w.reusedBy v stack := by
  unfold reusedBy reused
  simp only [he, servesFor_congr (frame_congr hf)]

/-- A value that is no function reuses nothing. -/
theorem reusedBy_of_not_expander {v : Value} (h : v.isExpander = false) (stack : List Pending) :
    w.reusedBy v stack = [] := by
  unfold reusedBy
  split
  · rw [h]
    rfl
  · rfl

end World

/-! ## Pending expansions -/

/-- The pending expansions of a stack, each with what is pending below it. -/
def expansionsOf : List Pending → List (List Pending)
  | [] => []
  | .expansion call maker depth target :: stack =>
    (.expansion call maker depth target :: stack) :: expansionsOf stack
  | _ :: stack => expansionsOf stack

/-- The same expansions are pending in a state as on a stack. Nothing is pending once a value has landed. -/
structure State.Pends (s : State) (stack : List Pending) : Prop where
  expansions : expansionsOf s.stack = expansionsOf stack
  landed : ∀ v, s.control = .landed v → s.stack = []

namespace State.Pends

variable {form f v : Value} {env : Env} {args : List Value} {below stack : List Pending}

theorem eval (h : expansionsOf below = expansionsOf stack) : State.Pends ⟨.eval form env, below⟩ stack :=
  ⟨h, fun _ e => by cases e⟩

theorem quasi (h : expansionsOf below = expansionsOf stack) : State.Pends ⟨.quasi form env, below⟩ stack :=
  ⟨h, fun _ e => by cases e⟩

theorem ret (h : expansionsOf below = expansionsOf stack) : State.Pends ⟨.ret v, below⟩ stack :=
  ⟨h, fun _ e => by cases e⟩

theorem call (h : expansionsOf below = expansionsOf stack) : State.Pends ⟨.call f args, below⟩ stack :=
  ⟨h, fun _ e => by cases e⟩

end State.Pends

namespace Machine

/-- What a step does: it goes from a stack, and from recordings with all that was looked up, to a state in a
world. -/
inductive Moves (stack : List Pending) (recordings : List (List Lookup)) (s : State) (w : World) : Prop where
  | keeps (pends : s.Pends stack) (recordings_eq : w.recordings = recordings)
  /-- An expansion is started, with a recording of its own. -/
  | opens {form : Value} {env : Env} {call : Call} {maker : Value} {target : Option Env}
      {below : List Pending} (below_eq : expansionsOf below = expansionsOf stack)
      (state_eq : s = ⟨.eval form env, .expansion call maker recordings.length target :: below⟩)
      (recordings_eq : w.recordings = [] :: recordings)
  /-- The innermost expansion is finished, with its recording. -/
  | closes {call : Call} {maker : Value} {depth : Nat} {target : Option Env} {below : List Pending}
      {v : Value} {w₁ : World}
      (stack_eq : expansionsOf stack = (.expansion call maker depth target :: below) :: expansionsOf below)
      (state_eq : s = finishExpansion v target below) (recordings_eq : w₁.recordings = recordings)
      (world_eq : w = (setExpansion call.node.id (.constant maker v (finishRecording depth w₁).1)
        (finishRecording depth w₁).2).2)

/-- What an act does that takes a step. It has only added lookups if it fails. -/
def MovesTo (stack : List Pending) (recordings : List (List Lookup)) :
    EStateM.Result Halt World State → Prop
  | .ok s w => Moves stack recordings s w
  | .error _ w => w.recordings = recordings

/-- The act goes on from a stack without looking anything up. -/
def Proceeds (stack : List Pending) (act : Act State) : Prop := ∀ w, MovesTo stack w.recordings (act w)

theorem MovesTo.of_stack {stack stack' : List Pending} {recordings : List (List Lookup)}
    {r : EStateM.Result Halt World State} (hs : expansionsOf stack = expansionsOf stack')
    (h : MovesTo stack recordings r) : MovesTo stack' recordings r := by
  cases r with
  | error b w => exact h
  | ok s w =>
    cases h with
    | keeps h hr => exact .keeps ⟨h.expansions.trans hs, h.landed⟩ hr
    | opens h hst hr => exact .opens (h.trans hs) hst hr
    | closes h hst hr hw => exact .closes (hs.symm.trans h) hst hr hw

/-- A pending step that is no expansion does not matter. -/
theorem MovesTo.pop {p : Pending} {stack : List Pending} {recordings : List (List Lookup)}
    {r : EStateM.Result Halt World State} (hp : expansionsOf (p :: stack) = expansionsOf stack)
    (h : MovesTo stack recordings r) : MovesTo (p :: stack) recordings r := h.of_stack hp.symm

namespace Proceeds

variable {stack stack' : List Pending}

theorem of_stack {act : Act State} (hs : expansionsOf stack = expansionsOf stack') (h : Proceeds stack act) :
    Proceeds stack' act := fun w => (h w).of_stack hs

theorem pop {p : Pending} {act : Act State} (hp : expansionsOf (p :: stack) = expansionsOf stack)
    (h : Proceeds stack act) : Proceeds (p :: stack) act := h.of_stack hp.symm

theorem pure {s : State} (h : s.Pends stack) : Proceeds stack (Pure.pure s) :=
  fun _ => .keeps h rfl

theorem fail (f : Fault) : Proceeds stack (EditableLisp.fail f) := fun _ => rfl

theorem bind {act : Act α} {f : α → Act State} (h : Silent act) (hf : ∀ a, Proceeds stack (f a)) :
    Proceeds stack (act >>= f) := by
  intro w
  have ha := h w
  cases e : act w with
  | ok a w₁ =>
    rw [worldAfter_of_ok e] at ha
    rw [bind_of_eq_ok e, ← ha]
    exact hf a w₁
  | error b w₁ =>
    rw [worldAfter_of_error e] at ha
    rw [bind_of_eq_error e]
    exact ha

/-- An act that leaves evaluations alone, and a state after it. -/
theorem after {act : Act α} (h : Quiet act) {f : α → State}
    (hf : ∀ a, (f a).Pends stack) :
    Proceeds stack (act >>= fun a => Pure.pure (f a)) := bind h.silent fun a => pure (hf a)

theorem failWith {act : Act α} (h : Quiet act) (f : α → Fault) :
    Proceeds stack (act >>= fun a => EditableLisp.fail (f a)) := bind h.silent fun _ => fail _

/-- An act that looks nothing up adds no lookups. -/
theorem credited {act : Act State} (h : Proceeds stack act) (w : World) :
    MovesTo stack (EditableLisp.credited w.recordings []) (act w) := by
  rw [credited_nil]
  exact h w

end Proceeds

variable {stack : List Pending} {env : Env} {call : Call}

@[simp] theorem expansionsOf_memo (node : Value) (stack : List Pending) :
    expansionsOf (memo node stack) = expansionsOf stack := by
  unfold memo
  split
  · split <;> rfl
  · rfl

theorem pends_evalBody (total : Nat) (rest : List Value) : (evalBody total rest env stack).Pends stack := by
  unfold evalBody
  split
  · exact .ret rfl
  · exact .eval rfl
  · exact .eval rfl

theorem pends_evalConjunction (total : Nat) (rest : List Value) :
    (evalConjunction total rest env stack).Pends stack := by
  unfold evalConjunction
  split
  · exact .ret rfl
  · exact .eval rfl
  · exact .eval rfl

theorem pends_evalDisjunction (total : Nat) (rest : List Value) :
    (evalDisjunction total rest env stack).Pends stack := by
  unfold evalDisjunction
  split
  · exact .ret rfl
  · exact .eval rfl
  · exact .eval rfl

theorem pends_evalBindings (index : Nat) (rest : List Value) :
    (evalBindings index rest call env stack).Pends stack := by
  unfold evalBindings
  split
  · exact .eval rfl
  · exact pends_evalBody _ _

theorem pends_afterOutcome (outcome : Outcome) : (afterOutcome outcome stack).Pends stack := by
  cases outcome with
  | value v => exact .ret rfl
  | call job f args => exact .call rfl

theorem pends_finishExpansion (form : Value) (target : Option Env) :
    (finishExpansion form target stack).Pends stack := by
  cases target with
  | some env => exact .eval rfl
  | none => exact .ret rfl

/-! ## Calls -/

theorem proceeds_apply (f : Value) (args : List Value) : Proceeds stack (apply f args stack) := by
  unfold apply
  split
  · exact .after (Builtin.quiet_run _ _) fun outcome => pends_afterOutcome outcome
  · exact .bind (silent_enter _ _ _) fun _ => .pure (.eval rfl)
  · exact .failWith (quiet_print _) _

theorem proceeds_evalArgs (f : Value) (rest : List Value) (done : Array Value) :
    Proceeds stack (evalArgs f call rest done env stack) := by
  unfold evalArgs
  split
  · exact .pure (.eval rfl)
  · exact proceeds_apply f _

/-- A kept expansion that serves a call credits what was looked up for it. -/
theorem servedForm?_recordings (call : Call) (f : Value) (w : World) :
    (servedForm? call f w).2.recordings = credited w.recordings (w.reused call f) := by
  unfold servedForm? World.reused
  rw [Change.get_bind]
  cases w.expansions.get? call.node.id with
  | none => exact (credited_nil _).symm
  | some e =>
    dsimp only
    by_cases hs : e.servesFor w f
    · rw [if_pos hs]
      cases e with
      | constant maker form reads =>
        dsimp only
        rw [if_pos hs]
        show (recordAll reads w).2.recordings = _
        rw [recordAll_snd]
        rfl
      | bound maker template env =>
        rw [credited_nil]
        exact (quiet_instantiate template env).silent w
      | unchanged => exact (credited_nil _).symm
    · rw [if_neg hs]
      cases e with
      | constant maker form reads =>
        dsimp only
        rw [if_neg hs]
        exact (credited_nil _).symm
      | _ => exact (credited_nil _).symm

theorem proceeds_expandAnew (f : Value) (target : Option Env) :
    Proceeds stack (expandAnew call f target stack) := by
  unfold expandAnew
  split
  · refine .bind (Builtin.quiet_evaluate _ _).recorded.silent fun form => ?_
    refine .bind (silent_setExpansion _ _) fun _ => ?_
    exact .pure (pends_finishExpansion _ _)
  · refine .bind (silent_enter _ _ _) fun frame => ?_
    split
    · refine .bind (quiet_instantiate _ _).silent fun form => ?_
      refine .bind (silent_setExpansion _ _) fun _ => ?_
      exact .pure (pends_finishExpansion _ _)
    · exact fun w => .opens rfl rfl rfl
  · exact .failWith (quiet_print _) _

theorem moves_expandCall (f : Value) (target : Option Env) (w : World) :
    MovesTo stack (credited w.recordings (w.reused call f)) (expandCall call f target stack w) := by
  unfold expandCall
  rw [bind_lift, ← servedForm?_recordings]
  cases (servedForm? call f w).1 with
  | some form => exact .keeps (pends_finishExpansion _ _) rfl
  | none => exact proceeds_expandAnew f target _

theorem expandOnce_of_call {form f : Value} {w : World} (h : w.expanderCall? form env = some (call, f)) :
    expandOnce form env stack w = expandCall call f none stack w := by
  cases form with
  | seq shape node items =>
    cases shape with
    | vector => cases h
    | list =>
      obtain ⟨f', hf, he⟩ := Option.map_eq_some_iff.mp h
      cases he
      obtain ⟨hf, hexpander⟩ := Option.filter_eq_some_iff.mp hf
      obtain ⟨name, hname, hlookup⟩ := Option.bind_eq_some_iff.mp hf
      unfold expandOnce
      dsimp only
      rw [hname]
      dsimp only
      rw [Act.get_bind, hlookup]
      dsimp only
      rw [if_pos hexpander]
  | _ => cases h

theorem expandOnce_of_no_call {form : Value} {w : World} (h : w.expanderCall? form env = none) :
    expandOnce form env stack w = .ok ⟨.ret form, stack⟩ w := by
  cases form with
  | seq shape node items =>
    cases shape with
    | vector => rfl
    | list =>
      have hf := Option.filter_eq_none_iff.mp (Option.map_eq_none_iff.mp h)
      unfold expandOnce
      dsimp only
      cases hname : Value.headName? items with
      | none => rfl
      | some name =>
        rw [hname] at hf
        dsimp only
        rw [Act.get_bind]
        cases hlookup : w.lookup? env name with
        | none => rfl
        | some f =>
          dsimp only
          rw [if_neg (hf f hlookup)]
          rfl
  | _ => rfl

theorem moves_expandOnce (form : Value) (w : World) :
    MovesTo stack (credited w.recordings (w.reusedFor form env)) (expandOnce form env stack w) := by
  unfold World.reusedFor
  cases h : w.expanderCall? form env with
  | none =>
    rw [expandOnce_of_no_call h]
    exact .keeps (.ret rfl) (credited_nil _).symm
  | some c =>
    rw [expandOnce_of_call h]
    exact moves_expandCall c.2 none w

theorem moves_begin (f : Value) (w : World) :
    MovesTo stack (credited w.recordings (if f.isExpander then w.reused call f else []))
      (begin f call env stack w) := by
  unfold begin
  by_cases hf : f.functionId?.isNone
  · have hno : f.isExpander = false := by
      cases f with
      | builtin => cases hf
      | closure => cases hf
      | _ => rfl
    rw [if_pos hf, if_neg (Bool.eq_false_iff.mp hno)]
    exact (Proceeds.failWith (quiet_print _) _).credited w
  · rw [if_neg hf]
    split
    · exact moves_expandCall f _ w
    · exact (Proceeds.bind (silent_markOrdinary _) fun _ => proceeds_evalArgs f _ _).credited w

/-! ## Special forms -/

theorem proceeds_quasiItems (shape : Shape) (total : Nat) (rest : List Value) (done : Array Value) :
    Proceeds stack (quasiItems shape total rest done env stack) := by
  unfold quasiItems
  split
  · exact .after (quiet_newSeq _ _) fun _ => .ret rfl
  · refine .bind (quiet_spliced? _).silent fun form => ?_
    split
    · exact .pure (.eval rfl)
    · exact .pure (.quasi rfl)

theorem proceeds_evalNamed (kind : ClosureKind) : Proceeds stack (evalNamed kind call env stack) := by
  unfold evalNamed
  split
  · exact .fail _
  · split
    · refine .bind (quiet_makeClosure _ _ _ _).silent fun f => ?_
      exact .bind (silent_defineAt _ _ _ _) fun _ => .pure (.ret rfl)
    · exact .failWith (quiet_print _) _

theorem proceeds_evalLet : Proceeds stack (evalLet call env stack) := by
  unfold evalLet
  split
  · split
    · exact .fail _
    · exact .bind (silent_newChild _) fun _ => .pure (pends_evalBindings _ _)
  · exact .failWith (quiet_print _) _

/-- Of the special forms only `macroexpand` may reuse an expansion. -/
theorem proceeds_evalSpecial {special : Special} (h : special ≠ .macroexpand) :
    Proceeds stack (evalSpecial special call env stack) := by
  cases special with
  | definition =>
    unfold evalSpecial evalDefinition
    dsimp only
    split
    · exact .pure (.eval rfl)
    · exact .failWith (quiet_print _) _
  | named kind => exact proceeds_evalNamed kind
  | anonymous kind =>
    unfold evalSpecial evalAnonymous
    dsimp only
    split
    · exact .after (quiet_makeClosure _ _ _ _) fun _ => .ret rfl
    · exact .failWith (quiet_print _) _
  | bindings => exact proceeds_evalLet
  | body => exact .pure (pends_evalBody _ _)
  | conditional =>
    unfold evalSpecial evalConditional
    dsimp only
    split
    · exact .pure (.eval rfl)
    · exact .pure (.eval rfl)
    · exact .failWith (quiet_print _) _
  | quote => exact .after (quiet_onlyArgument _ _) fun _ => .ret rfl
  | quasiquote => exact .after (quiet_onlyArgument _ _) fun _ => .quasi rfl
  | macroexpand => exact absurd rfl h
  | evaluate => exact .after (quiet_onlyArgument _ _) fun _ => .eval rfl
  | conjunction => exact .pure (pends_evalConjunction _ _)
  | disjunction => exact .pure (pends_evalDisjunction _ _)

/-! ## Steps -/

theorem proceeds_evalVector (total : Nat) (rest : List Value) (done : Array Value) :
    Proceeds stack (liftM (evalVector total rest done env stack)) := by
  unfold evalVector
  split
  · exact .pure (.eval rfl)
  · exact .after (quiet_newVector _) (f := fun v => ⟨.ret v, stack⟩) fun _ => .ret rfl

theorem proceeds_evalMap (total : Nat) (rest : Entries) (done : Array (Key × Value)) :
    Proceeds stack (liftM (evalMap total rest done env stack)) := by
  unfold evalMap
  split
  · exact .pure (.eval rfl)
  · exact .after (quiet_newMap _) (f := fun v => ⟨.ret v, stack⟩) fun _ => .ret rfl

/-- What is pending goes on without a lookup, unless it is a call that waits for its head, or an expansion. -/
theorem proceeds_resume (v : Value) {stack : List Pending}
    (hhead : ∀ call env below, stack ≠ .head call env :: below)
    (hexpansion : ∀ call maker depth target below, stack ≠ .expansion call maker depth target :: below) :
    Proceeds stack (resume v stack) := by
  cases stack with
  | nil => exact .pure ⟨rfl, fun _ _ => rfl⟩
  | cons p stack =>
    cases p with
    | head call env => exact absurd rfl (hhead _ _ _)
    | expansion call maker depth target => exact absurd rfl (hexpansion _ _ _ _ _)
    | body total rest env => exact .pop rfl (.pure (pends_evalBody _ _))
    | args f call rest done env => exact .pop rfl (proceeds_evalArgs f _ _)
    | branch yes no env =>
      unfold resume
      dsimp only
      split
      · exact .pure (.eval rfl)
      · exact .pure (.eval rfl)
      · exact .pure (.ret rfl)
    | definition name call env => exact .bind (silent_defineAt _ _ _ _) fun _ => .pure (.ret rfl)
    | binding index pattern rest call env =>
      exact .bind (Pattern.silent_destructure _ _ _) fun _ => .pop rfl (.pure (pends_evalBindings _ _))
    | quasi shape total rest done splice env =>
      exact .bind (quiet_addQuasi _ _ _).silent fun _ => .pop rfl (proceeds_quasiItems _ _ _ _)
    | evaluate env => exact .pure (.eval rfl)
    | conjunction total rest env =>
      unfold resume
      dsimp only
      split
      · exact .pop rfl (.pure (pends_evalConjunction _ _))
      · exact .pure (.ret rfl)
    | disjunction total rest env =>
      unfold resume
      dsimp only
      split
      · exact .pure (.ret rfl)
      · exact .pop rfl (.pure (pends_evalDisjunction _ _))
    | vector total rest done env => exact .pop rfl (proceeds_evalVector _ _ _)
    | map total key rest done env => exact .pop rfl (proceeds_evalMap _ _ _)
    | memo nodes => exact .bind (silent_keepResults _ _) fun _ => .pure (.ret rfl)
    | job job => exact .pop rfl (.after (Job.quiet_resume _ _) fun outcome => pends_afterOutcome outcome)

theorem moves_resume (v : Value) (stack : List Pending) (w : World) :
    MovesTo stack (credited w.recordings (w.reusedBy v stack)) (resume v stack w) := by
  by_cases hhead : ∃ call env below, stack = .head call env :: below
  · obtain ⟨call, env, below, rfl⟩ := hhead
    exact .pop rfl (moves_begin v w)
  · have hnothing : w.reusedBy v stack = [] := by
      unfold World.reusedBy
      split
      · exact absurd ⟨_, _, _, rfl⟩ hhead
      · rfl
    rw [hnothing]
    by_cases hexpansion : ∃ call maker depth target below, stack = .expansion call maker depth target :: below
    · obtain ⟨call, maker, depth, target, below, rfl⟩ := hexpansion
      exact .closes rfl rfl (credited_nil _).symm rfl
    · refine (proceeds_resume v (fun call env below h => hhead ⟨call, env, below, h⟩) ?_).credited w
      exact fun call maker depth target below h => hexpansion ⟨call, maker, depth, target, below, h⟩

theorem moves_evalSymbol (id : NodeId) (name : String) (env : Env) (stack : List Pending) (w : World) :
    MovesTo stack (credited w.recordings (w.seenBy (.symbol id name) env stack))
      (evalSymbol id name env stack w) := by
  unfold World.seenBy evalSymbol
  dsimp only
  cases h : w.lookup? env name with
  | none =>
    rw [bind_of_eq_error (lookup_of_none h)]
    exact (credited_nil _).symm
  | some v =>
    rw [bind_of_eq_ok (lookup_of_some h), bind_lift, bind_lift, Act.get_bind]
    -- what is kept of the symbol is not what may be reused
    have resumed : ∀ w₁ : World, w₁.recordings = credited w.recordings [⟨env, name, v⟩] →
        w₁.expansions = w.expansions → w₁.frames = w.frames →
        MovesTo stack (credited w.recordings (⟨env, name, v⟩ :: w.reusedBy v stack)) (resume v stack w₁) := by
      intro w₁ hr he hf
      have hm := moves_resume v stack w₁
      rw [World.reusedBy_congr he hf, hr, credited_append] at hm
      exact hm
    have hrecord : (record env name v w).2 = { w with recordings := credited w.recordings [⟨env, name, v⟩] } := by
      rw [record_eq_recordAll]
      exact recordAll_snd _ w
    rw [hrecord]
    generalize hw₁ : (setResult (.symbol id name) v
      { w with recordings := credited w.recordings [⟨env, name, v⟩] }).2 = w₁
    have hr : w₁.recordings = credited w.recordings [⟨env, name, v⟩] := by
      rw [← hw₁]
      rfl
    have he : w₁.expansions = w.expansions := by
      rw [← hw₁]
      rfl
    have hf : w₁.frames = w.frames := by
      rw [← hw₁]
      rfl
    cases w₁.site? env name with
    | some site => exact resumed (setSite id site w₁).2 hr he hf
    | none => exact resumed w₁ hr he hf

theorem eq_of_ofName?_macroexpand {name : String} (h : Special.ofName? name = some .macroexpand) :
    name = "macroexpand" := by
  unfold Special.ofName? at h
  split at h <;> first | rfl | cases h

theorem moves_evalList (node : Node) (items : List Value) (env : Env) (stack : List Pending) (w : World) :
    MovesTo stack (credited w.recordings (w.seenBy (.seq .list node items) env stack))
      (evalList node items env stack w) := by
  unfold World.seenBy evalList
  dsimp only
  by_cases hstyle : node.style = .program
  · rw [if_pos hstyle, if_neg fun h => h.1 hstyle]
    exact ((Proceeds.pure (pends_evalBody _ _)).of_stack (expansionsOf_memo _ _)).credited w
  · rw [if_neg hstyle]
    cases items with
    | nil =>
      have hm := moves_resume (.seq .list node []) stack w
      rw [World.reusedBy_of_not_expander rfl] at hm
      rw [if_neg fun h => nomatch h.2]
      exact hm
    | cons head rest =>
      dsimp only
      by_cases hmacro : Value.headName? (head :: rest) = some "macroexpand"
      · rw [if_pos ⟨hstyle, hmacro⟩, hmacro]
        match rest with
        | [arg] => exact (moves_expandOnce arg w).of_stack (expansionsOf_memo _ _)
        | [] | _ :: _ :: _ => exact (credited_nil _).symm
      · rw [if_neg fun h => hmacro h.2]
        refine Proceeds.credited ?_ w
        split
        · rename_i special hspecial
          refine (proceeds_evalSpecial ?_).of_stack (expansionsOf_memo _ _)
          rintro rfl
          obtain ⟨name, hname, hspecial⟩ := Option.bind_eq_some_iff.mp hspecial
          exact hmacro (hname.trans (congrArg some (eq_of_ofName?_macroexpand hspecial)))
        · exact .pure (.eval (expansionsOf_memo _ _))

theorem moves_eval (form : Value) (env : Env) (stack : List Pending) (w : World) :
    MovesTo stack (credited w.recordings (w.seenBy form env stack)) (eval form env stack w) := by
  cases form with
  | symbol id name => exact moves_evalSymbol id name env stack w
  | seq shape node items =>
    cases shape with
    | list => exact moves_evalList node items env stack w
    | vector =>
      unfold eval
      dsimp only
      split
      · exact moves_resume _ stack w
      · have hnothing : w.seenBy (.seq .vector node items) env stack = [] :=
          World.reusedBy_of_not_expander rfl stack
        rw [hnothing]
        exact ((proceeds_evalVector _ _ _).of_stack (expansionsOf_memo _ _)).credited w
  | map node entries =>
    unfold eval
    dsimp only
    split
    · exact moves_resume _ stack w
    · have hnothing : w.seenBy (.map node entries) env stack = [] := World.reusedBy_of_not_expander rfl stack
      rw [hnothing]
      exact ((proceeds_evalMap _ _ _).of_stack (expansionsOf_memo _ _)).credited w
  | _ => exact moves_resume _ stack w

theorem moves_quasi (form : Value) (env : Env) (stack : List Pending) (w : World) :
    MovesTo stack (credited w.recordings (w.reusedBy form stack)) (quasi form env stack w) := by
  unfold quasi
  split
  · rename_i shape node items
    rw [World.reusedBy_of_not_expander rfl]
    split
    · refine Proceeds.credited ?_ w
      split
      · exact .pure (.eval rfl)
      · exact .fail _
    · split
      · have hm := moves_resume (.seq shape node items) stack w
        rw [World.reusedBy_of_not_expander rfl] at hm
        exact hm
      · exact (proceeds_quasiItems _ _ _ _).credited w
  · exact moves_resume _ stack w

/-- **What a step does to the recordings**, in every state in which no value has landed and every world. -/
theorem moves_step {s : State} (hs : ∀ v, s.control ≠ .landed v) (w : World) :
    MovesTo s.stack (credited w.recordings (s.seen w)) (step s w) := by
  obtain ⟨control, stack⟩ := s
  cases control with
  | eval form env => exact moves_eval form env stack w
  | quasi form env => exact moves_quasi form env stack w
  | ret v => exact moves_resume v stack w
  | call f args => exact (proceeds_apply f args).credited w
  | landed v => exact absurd rfl (hs v)

end Machine

end EditableLisp
