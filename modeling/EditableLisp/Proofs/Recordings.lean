import Mathlib.Data.List.Forall2
import EditableLisp.Interpreter
import EditableLisp.Proofs.Moves
import EditableLisp.Proofs.Refinement
import EditableLisp.Proofs.Session

/-!
# The recordings of expansions

While the body of an expander runs, the names that it looks up are recorded. A pending step of the machine
ends each recording, so the recordings are nested like the pending expansions, around those that were open
before the run (`State.Nested`). A step keeps them so, and a run therefore ends with the old recordings,
which it may have extended.

A run that fails leaves the recordings of its pending expansions open, and the interpreter drops them. It
counts from the start of the run. `expandForm` has started a recording by then if it is to run the body of
an expander; so if that body fails, one recording more than before is left open
(`recordings_of_host_call`, `recording_left_open`).
-/

namespace EditableLisp

variable {α β : Type} {base older newer newest : List (List Lookup)}

/-! ## Extensions -/

/-- As many recordings, and each one ends with all that the older one holds. -/
def Extends (older newer : List (List Lookup)) : Prop := List.Forall₂ (fun old new => old <:+ new) older newer

namespace Extends

theorem refl (recordings : List (List Lookup)) : Extends recordings recordings :=
  List.forall₂_same.mpr fun _ _ => List.suffix_rfl

theorem trans (h : Extends older newer) (h' : Extends newer newest) : Extends older newest := by
  induction h generalizing newest with
  | nil => exact h'
  | cons hfirst _ ih =>
    cases h' with
    | cons hfirst' hrest' => exact .cons (hfirst.trans hfirst') (ih hrest')

theorem length_eq (h : Extends older newer) : older.length = newer.length := List.Forall₂.length_eq h

/-- The innermost recording gets more lookups. -/
theorem modifyHead (reads : List Lookup) (recordings : List (List Lookup)) :
    Extends recordings (recordings.modifyHead (reads ++ ·)) := by
  cases recordings with
  | nil => exact .refl _
  | cons top rest => exact .cons (List.suffix_append _ _) (refl rest)

end Extends

/-- The act opens no recording and closes none. -/
def Extending (act : Act α) : Prop := ∀ w, Extends w.recordings (worldAfter act w).recordings

theorem Silent.extending {act : Act α} (h : Silent act) : Extending act := by
  intro w
  rw [h w]
  exact .refl _

/-! ## Pending expansions -/

/-- The recordings while steps are pending: those of `base`, which were only extended, below one for each
expansion, which is at the depth that the expansion knows. -/
def Nested (base : List (List Lookup)) : List Pending → List (List Lookup) → Prop
  | [], recordings => Extends base recordings
  | .expansion _ _ depth _ :: stack, recordings =>
    ∃ top rest, recordings = top :: rest ∧ rest.length = depth ∧ Nested base stack rest
  | _ :: stack, recordings => Nested base stack recordings

theorem Nested.extend {stack : List Pending} (h : Nested base stack older) (he : Extends older newer) :
    Nested base stack newer := by
  induction stack generalizing older newer with
  | nil => exact Extends.trans h he
  | cons p stack ih =>
    cases p with
    | expansion call maker depth target =>
      obtain ⟨top, rest, rfl, hdepth, hrest⟩ := h
      cases he with
      | cons _ he => exact ⟨_, _, rfl, he.length_eq.symm.trans hdepth, ih hrest he⟩
    | _ => exact ih h he

/-- Some recordings, and below them those of `base`, which were only extended. -/
def Above (base recordings : List (List Lookup)) : Prop :=
  ∃ opened outer, recordings = opened ++ outer ∧ Extends base outer

theorem Nested.above {stack : List Pending} {recordings : List (List Lookup)}
    (h : Nested base stack recordings) : Above base recordings := by
  induction stack generalizing recordings with
  | nil => exact ⟨[], recordings, rfl, h⟩
  | cons p stack ih =>
    cases p with
    | expansion call maker depth target =>
      obtain ⟨top, rest, rfl, -, hrest⟩ := h
      obtain ⟨opened, outer, rfl, ho⟩ := ih hrest
      exact ⟨top :: opened, outer, rfl, ho⟩
    | _ => exact ih h

/-- The recordings in a state of the machine. Nothing is pending once a value has landed. -/
def State.Nested (base recordings : List (List Lookup)) (s : State) : Prop :=
  match s.control with
  | .landed _ => Extends base recordings
  | _ => EditableLisp.Nested base s.stack recordings

/-- Nesting depends on the innermost pending expansion. -/
theorem nested_eq (base : List (List Lookup)) (stack : List Pending) :
    Nested base stack = match expansionsOf stack with
      | [] => Extends base
      | innermost :: _ => Nested base innermost := by
  induction stack with
  | nil => rfl
  | cons p stack ih =>
    cases p with
    | expansion call maker depth target => rfl
    | _ => exact ih

theorem Nested.congr {stack stack' : List Pending} {recordings : List (List Lookup)}
    (hs : expansionsOf stack = expansionsOf stack') (h : Nested base stack recordings) :
    Nested base stack' recordings := by
  rw [nested_eq, ← hs, ← nested_eq]
  exact h

/-- A recording that is finished leaves those around it, the innermost of which it may extend. -/
theorem extends_finishRecording {w : World} {top : List Lookup} {rest : List (List Lookup)}
    (h : w.recordings = top :: rest) : Extends rest (finishRecording rest.length w).2.recordings := by
  rw [finishRecording_of_abandon (World.recordings_abandon h) (Nat.le_refl _)]
  exact Extends.modifyHead _ rest

namespace Machine

/-- **A step keeps the recordings nested like the pending expansions.** -/
theorem Moves.nested {stack : List Pending} {recordings : List (List Lookup)} {s : State} {w : World}
    (hm : Moves stack recordings s w) (h : Nested base stack recordings) : s.Nested base w.recordings := by
  cases hm with
  | keeps hpends hr =>
    subst hr
    have hs : Nested base s.stack w.recordings := h.congr hpends.expansions.symm
    unfold State.Nested
    split
    · rename_i v hv
      rw [hpends.landed v hv] at hs
      exact hs
    · exact hs
  | opens hbelow hstate hr =>
    subst hstate
    exact ⟨[], recordings, hr, rfl, h.congr hbelow.symm⟩
  | @closes call maker depth target below v w₁ hstack hstate hr hw =>
    subst hstate hr hw
    rw [nested_eq, hstack] at h
    obtain ⟨top, rest, hw₁, rfl, hrest⟩ := h
    have hfinished : Nested base below (finishRecording rest.length w₁).2.recordings :=
      hrest.extend (extends_finishRecording hw₁)
    cases target <;> exact hfinished

/-- **A run ends with the old recordings**, which it may have extended; below new ones if it fails. -/
theorem nested_drive (fuel : Nat) {s : State} {w : World} (h : s.Nested base w.recordings) :
    match drive fuel s w with
    | .ok _ w' => Extends base w'.recordings
    | .error .exhausted _ => True
    | .error _ w' => Above base w'.recordings := by
  induction fuel generalizing s w with
  | zero => trivial
  | succ fuel ih =>
    by_cases hl : ∃ v, s.control = .landed v
    · obtain ⟨v, hv⟩ := hl
      obtain ⟨control, stack⟩ := s
      cases hv
      exact h
    · have hn : ∀ v, s.control ≠ .landed v := fun v hv => hl ⟨v, hv⟩
      have hnested : Nested base s.stack w.recordings := by
        unfold State.Nested at h
        split at h
        · rename_i v hv
          exact absurd hv (hn v)
        · exact h
      have hcredited : Nested base s.stack (credited w.recordings (s.seen w)) :=
        hnested.extend (Extends.modifyHead _ _)
      have hstep := moves_step hn w
      rw [drive_step fuel hn]
      cases e : step s w with
      | ok s' w' =>
        rw [e] at hstep
        rw [bind_of_eq_ok e]
        exact ih (hstep.nested hcredited)
      | error b w' =>
        rw [e] at hstep
        rw [bind_of_eq_error e]
        have habove : Above base w'.recordings := by
          rw [hstep]
          exact hcredited.above
        cases b with
        | exhausted => trivial
        | _ => exact habove

end Machine

/-! ## Calls of a host -/

/-- An act that returned, with a value or with a failure, left as many recordings as there were and only
extended them. -/
def Balances (w : World) : EStateM.Result Halt World α → Prop
  | .ok _ w' => Extends w.recordings w'.recordings
  | .error (.fault _) w' => Extends w.recordings w'.recordings
  | .error _ _ => True

/-- Dropping all but the outer recordings leaves those that were there before. -/
theorem Above.abandon {w : World} (h : Above base w.recordings) :
    Extends base (w.abandon base.length).recordings := by
  obtain ⟨opened, outer, hw, ho⟩ := h
  have hlength : w.recordings.length - base.length = opened.length := by
    rw [hw, List.length_append, ho.length_eq, Nat.add_sub_cancel_right]
  show Extends base (w.recordings.drop (w.recordings.length - base.length))
  rw [hlength, hw, List.drop_left]
  exact ho

/-- A run that starts with nothing pending is balanced. -/
theorem balances_runFrom (fuel : Nat) {s : State} (hs : ∀ recordings, s.Nested recordings recordings)
    (w : World) : Balances w (runFrom fuel s w) := by
  have h := Machine.nested_drive fuel (hs w.recordings)
  unfold runFrom balanced
  cases e : Machine.drive fuel s w with
  | ok v w' =>
    rw [e] at h
    exact h
  | error b w' =>
    rw [e] at h
    cases b with
    | fault f => exact Above.abandon h
    | crash => trivial
    | exhausted => trivial

theorem balances_evalIn (fuel : Nat) (form : Value) (env : Env) (w : World) :
    Balances w (evalIn fuel form env w) :=
  balances_runFrom fuel (s := ⟨.eval form env, []⟩) (fun recordings => Extends.refl recordings) w

theorem balances_applyValue (fuel : Nat) (f : Value) (args : List Value) (w : World) :
    Balances w (applyValue fuel f args w) :=
  balances_runFrom fuel (s := ⟨.call f args, []⟩) (fun recordings => Extends.refl recordings) w

theorem readEval_of_error {fuel : Nat} {src : String} {w w₁ : World} {e : ReadError}
    (h : readProgram src w = (.error e, w₁)) : readEval fuel src w = (.error (.read e), w₁) := by
  unfold readEval
  simp only [bind, StateT.bind, h]
  rfl

theorem readEval_of_ok {fuel : Nat} {src : String} {w w₁ : World} {p : Value}
    (h : readProgram src w = (.ok p, w₁)) : readEval fuel src w = match evalForm fuel p w₁ with
      | .ok v w₂ => (.ok v, w₂)
      | .error h w₂ => (.error (.halt h), w₂) := by
  unfold readEval attempt
  simp only [bind, StateT.bind, h]
  cases evalForm fuel p w₁ <;> rfl

/-- Reading records nothing, so what is read and evaluated leaves as many recordings as there were. -/
theorem extends_readEval (fuel : Nat) (src : String) (w : World) :
    match readEval fuel src w with
    | (.error (.halt .crash), _) => True
    | (.error (.halt .exhausted), _) => True
    | (_, w') => Extends w.recordings w'.recordings := by
  have hread : Extends w.recordings (readProgram src w).2.recordings := (quiet_readProgram src).silent.extending w
  cases e : readProgram src w with
  | mk result w₁ =>
    rw [e] at hread
    cases result with
    | error failure =>
      rw [readEval_of_error e]
      exact hread
    | ok p =>
      rw [readEval_of_ok e]
      have hrun := balances_evalIn fuel p .global w₁
      cases er : evalIn fuel p .global w₁ with
      | ok v w₂ =>
        rw [er] at hrun
        rw [evalForm, er]
        exact hread.trans hrun
      | error h w₂ =>
        rw [er] at hrun
        rw [evalForm, er]
        cases h with
        | fault f => exact hread.trans hrun
        | crash => trivial
        | exhausted => trivial

/-! ## Expansions that a host asks for -/

/-- To expand a form at the root, the body of an expander has to be run: the form is a call of a closure
that computes its expansion, nothing that was kept serves it, and the parameters fit the arguments. -/
def RunsBody (w : World) (form : Value) : Prop :=
  ∃ node items name id params body scope data frame w', form = .seq .list node items ∧
    Value.headName? items = some name ∧
    w.lookup? .global name = some (.closure id .procedure params body scope data) ∧
    (Machine.servedForm? ⟨node, items⟩ (.closure id .procedure params body scope data) w).1 = none ∧
    Machine.enter scope params items.tail w = .ok frame w'

namespace Machine

/-- A call that nothing serves leaves the world as it is. -/
theorem servedForm?_eq_none {call : Call} {f : Value} {w : World}
    (h : (servedForm? call f w).1 = none) : servedForm? call f w = (none, w) := by
  revert h
  unfold servedForm?
  rw [Change.get_bind]
  cases w.expansions.get? call.node.id with
  | none => exact fun _ => rfl
  | some e =>
    dsimp only
    by_cases hs : e.servesFor w f
    · rw [if_pos hs]
      cases e with
      | unchanged => exact fun _ => rfl
      | _ => exact nofun
    · rw [if_neg hs]
      exact fun _ => rfl

theorem expandCall_eq_expandAnew {call : Call} {f : Value} {w : World} {target : Option Env}
    {stack : List Pending} (h : (servedForm? call f w).1 = none) :
    expandCall call f target stack w = expandAnew call f target stack w :=
  bind_of_eq_ok (lift_of_eq (servedForm?_eq_none h))

theorem extending_servedForm? (call : Call) (f : Value) : Extending (liftM (servedForm? call f)) := by
  intro w
  show Extends w.recordings (servedForm? call f w).2.recordings
  rw [servedForm?_recordings]
  exact Extends.modifyHead _ _

/-- The body of an expander that is run to expand a form has a recording of its own around its run. -/
theorem expandOnce_of_runsBody {w : World} {form : Value} (h : RunsBody w form) :
    ∃ call maker body frame, ∃ w₁ : World, Extends w.recordings w₁.recordings ∧
      expandOnce form .global [] w = .ok ⟨.eval body frame, [.expansion call maker w₁.recordings.length none]⟩
        { w₁ with recordings := [] :: w₁.recordings } := by
  obtain ⟨node, items, name, id, params, body, scope, data, frame, w₁, rfl, hname, hlookup, hserved,
    henter⟩ := h
  have hw₁ := (silent_enter scope params items.tail).extending w
  rw [worldAfter_of_ok henter] at hw₁
  refine ⟨⟨node, items⟩, .closure id .procedure params body scope data, body, frame, w₁, hw₁, ?_⟩
  have hcall : w.expanderCall? (.seq .list node items) .global =
      some (⟨node, items⟩, .closure id .procedure params body scope data) := by
    unfold World.expanderCall?
    dsimp only
    rw [hname, Option.bind_some, hlookup]
    rfl
  rw [expandOnce_of_call hcall, expandCall_eq_expandAnew hserved]
  show (enter scope params items.tail >>= _) w = _
  rw [bind_of_eq_ok henter]
  rfl

/-- The act hands on a form with nothing pending, or fails; in both cases recordings were only extended. -/
def HandsOn (w : World) (act : Act State) : Prop :=
  match act w with
  | .ok s w' => (∃ form, s = ⟨.ret form, []⟩) ∧ Extends w.recordings w'.recordings
  | .error _ w' => Extends w.recordings w'.recordings

namespace HandsOn

variable {w : World}

theorem ret (form : Value) : HandsOn w (Pure.pure ⟨.ret form, []⟩) := ⟨⟨form, rfl⟩, .refl _⟩

theorem bind {act : Act α} {f : α → Act State} (h : Extending act)
    (hf : ∀ a w₁, act w = .ok a w₁ → HandsOn w₁ (f a)) : HandsOn w (act >>= f) := by
  have hw := h w
  unfold HandsOn
  cases e : act w with
  | ok a w₁ =>
    rw [worldAfter_of_ok e] at hw
    rw [bind_of_eq_ok e]
    have hrest := hf a w₁ e
    unfold HandsOn at hrest
    split at hrest
    · exact ⟨hrest.1, hw.trans hrest.2⟩
    · exact hw.trans hrest
  | error b w₁ =>
    rw [worldAfter_of_error e] at hw
    rw [bind_of_eq_error e]
    exact hw

theorem failWith {act : Act α} (h : Quiet act) (f : α → Fault) :
    HandsOn w (act >>= fun a => EditableLisp.fail (f a)) :=
  bind h.silent.extending fun _ _ _ => Extends.refl _

end HandsOn

/-- An expansion for which no body is run is complete at once. -/
theorem handsOn_expandAnew {call : Call} {f : Value} {w : World} (hf : f.isExpander)
    (h : ∀ id params body scope data, f = .closure id .procedure params body scope data →
      ∀ frame w', enter scope params call.items.tail w ≠ .ok frame w') :
    HandsOn w (expandAnew call f none []) := by
  unfold expandAnew
  split
  · refine .bind (Builtin.quiet_evaluate _ _).recorded.silent.extending fun form _ _ => ?_
    exact .bind (silent_setExpansion _ _).extending fun _ _ _ => .ret _
  · rename_i id kind params body scope data
    refine .bind (silent_enter _ _ _).extending fun frame w₁ henter => ?_
    cases kind with
    | template =>
      refine .bind (quiet_instantiate _ _).silent.extending fun form _ _ => ?_
      exact .bind (silent_setExpansion _ _).extending fun _ _ _ => .ret _
    | procedure => exact absurd henter (h _ _ _ _ _ rfl _ _)
    | function => cases hf
  · exact .failWith (quiet_print _) _

/-- A form that no body has to be run for is expanded at once. -/
theorem handsOn_expandOnce {w : World} {form : Value} (h : ¬ RunsBody w form) :
    HandsOn w (expandOnce form .global []) := by
  unfold expandOnce
  split
  · rename_i node items
    split
    · rename_i name hname
      refine .bind Quiet.get.silent.extending fun w₁ w₂ hget => ?_
      cases hget
      split
      · rename_i f hf
        split
        · rename_i hexpander
          refine .bind (extending_servedForm? _ f) fun served w₁ hserved => ?_
          split
          · exact .ret _
          · have hnone : (servedForm? ⟨node, items⟩ f w).1 = none := (EStateM.Result.ok.inj hserved).1
            have hsame : (servedForm? ⟨node, items⟩ f w).2 = w := by rw [servedForm?_eq_none hnone]
            obtain rfl : w = w₁ := hsame.symm.trans (EStateM.Result.ok.inj hserved).2
            refine handsOn_expandAnew hexpander fun id params body scope data e frame w' henter => h ?_
            subst e
            exact ⟨node, items, name, _, _, _, _, _, frame, w', rfl, hname, hf, hnone, henter⟩
        · exact .ret _
      · exact .ret _
    · exact .ret _
  · exact .ret _

/-- A body that fails under its pending expansion fails with nothing pending as well: keeping the expansion
does not fail. -/
theorem drive_of_pending_expansion {fuel : Nat} {body maker : Value} {frame : Env} {call : Call}
    {depth : Nat} {f : Fault} {w w' : World}
    (h : drive fuel ⟨.eval body frame, [.expansion call maker depth none]⟩ w = .error (.fault f) w') :
    ∃ steps, drive steps ⟨.eval body frame, []⟩ w = .error (.fault f) w' := by
  cases fuel with
  | zero => cases h
  | succ n =>
    have hrun : (eval body frame [.expansion call maker depth none] >>= drive n) w =
      .error (.fault f) w' := h
    have hagrees := agrees_eval (n + 1) body frame [.expansion call maker depth none] w
    generalize hd : Direct.eval (n + 1) body frame w = direct at hagrees
    cases hagrees with
    | @value v nodes w₁ hl =>
      obtain ⟨steps, hs⟩ := hl.trans (leads_pend (by nofun) v nodes w₁)
      have hlonger := bind_drive_add (steps + 2) hrun (by nofun)
      rw [Nat.add_left_comm, hs] at hlonger
      cases hlonger
    | @failure b w₁ hb =>
      obtain ⟨steps, hs⟩ := hb
      have hlonger := bind_drive_add steps hrun (by nofun)
      rw [Nat.add_comm, hs] at hlonger
      cases hlonger
      obtain ⟨more, hmore⟩ := (drive_refines_eval body frame w).2.1 _ _ _ hd (by nofun) []
      exact ⟨more, hmore 0⟩
    | deep hn =>
      obtain ⟨w₁, hw₁⟩ := hn n (Nat.lt_succ_self n)
      rw [hw₁] at hrun
      cases hrun

end Machine

/-- What an expansion that a host asked for leaves: if the body of an expander was run and failed, one
recording more than before, and else as many. -/
theorem expandForm_recordings (fuel : Nat) (form : Value) (w : World) :
    match expandForm fuel form w with
    | .ok _ w' => Extends w.recordings w'.recordings
    | .error (.fault _) w' =>
      (RunsBody w form ∧ ∃ top rest, w'.recordings = top :: rest ∧ Extends w.recordings rest) ∨
        (¬ RunsBody w form ∧ Extends w.recordings w'.recordings)
    | .error _ _ => True := by
  by_cases hb : RunsBody w form
  · obtain ⟨call, maker, body, frame, w₁, hw₁, hexpand⟩ := Machine.expandOnce_of_runsBody hb
    let w₂ : World := { w₁ with recordings := [] :: w₁.recordings }
    let s : State := ⟨.eval body frame, [.expansion call maker w₁.recordings.length none]⟩
    have hnested : s.Nested w.recordings w₂.recordings := ⟨[], w₁.recordings, rfl, rfl, hw₁⟩
    have hreturns := Machine.nested_drive fuel hnested
    have hrun : expandForm fuel form w = runFrom fuel s w₂ := bind_of_eq_ok hexpand
    rw [hrun]
    unfold runFrom balanced
    cases e : Machine.drive fuel s w₂ with
    | ok v w' =>
      rw [e] at hreturns
      exact hreturns
    | error b w' =>
      cases b with
      | fault f =>
        -- The run counts the recording of the body among those that were there before it.
        obtain ⟨steps, hs⟩ := Machine.drive_of_pending_expansion e
        have hinside : State.Nested w₂.recordings w₂.recordings ⟨.eval body frame, []⟩ := Extends.refl _
        have hfails := Machine.nested_drive steps hinside
        rw [hs] at hfails
        have hleft : Extends ([] :: w₁.recordings) (w'.abandon w₂.recordings.length).recordings :=
          Above.abandon hfails
        generalize hr : (w'.abandon w₂.recordings.length).recordings = left at hleft
        cases hleft with
        | cons _ hrest => exact .inl ⟨hb, _, _, hr, hw₁.trans hrest⟩
      | _ => trivial
  · have h := Machine.handsOn_expandOnce hb
    unfold Machine.HandsOn at h
    cases e : Machine.expandOnce form .global [] w with
    | ok s w₁ =>
      rw [e] at h
      obtain ⟨⟨v, rfl⟩, hw₁⟩ := h
      have hrun := balances_runFrom fuel (s := ⟨.ret v, []⟩) (fun recordings => Extends.refl recordings) w₁
      have he : expandForm fuel form w = runFrom fuel ⟨.ret v, []⟩ w₁ := bind_of_eq_ok e
      rw [he]
      cases er : runFrom fuel ⟨.ret v, []⟩ w₁ with
      | ok v' w₂ =>
        rw [er] at hrun
        exact hw₁.trans hrun
      | error b w₂ =>
        rw [er] at hrun
        cases b with
        | fault f => exact .inr ⟨hb, hw₁.trans hrun⟩
        | _ => trivial
    | error b w₁ =>
      rw [e] at h
      have he : expandForm fuel form w = .error b w₁ := bind_of_eq_error e
      rw [he]
      cases b with
      | fault f => exact .inr ⟨hb, h⟩
      | _ => trivial

/-- **What the calls of a host leave of the recordings.** Whatever the world is, a call that returns, with a
value or with a failure, leaves as many recordings as there were and has only extended them. The only
exception is an expansion that fails in the body of an expander: it leaves one recording more. -/
theorem recordings_of_host_call (fuel : Nat) (w : World) :
    (∀ form, Balances w (evalForm fuel form w)) ∧
    (∀ form env, Balances w (evalIn fuel form env w)) ∧
    (∀ f args, Balances w (applyValue fuel f args w)) ∧
    (∀ src, match readEval fuel src w with
      | (.error (.halt .crash), _) => True
      | (.error (.halt .exhausted), _) => True
      | (_, w') => Extends w.recordings w'.recordings) ∧
    ∀ form, match expandForm fuel form w with
      | .ok _ w' => Extends w.recordings w'.recordings
      | .error (.fault _) w' =>
        (RunsBody w form ∧ ∃ top rest, w'.recordings = top :: rest ∧ Extends w.recordings rest) ∨
          (¬ RunsBody w form ∧ Extends w.recordings w'.recordings)
      | .error _ _ => True :=
  ⟨fun form => balances_evalIn fuel form .global w, fun form env => balances_evalIn fuel form env w,
    fun f args => balances_applyValue fuel f args w, fun src => extends_readEval fuel src w,
    fun form => expandForm_recordings fuel form w⟩

/-- The quoted call fails when it is expanded, with one recording more than there were. -/
def leavesRecordingOpen : Bool :=
  match EditableLisp.readProgram "(defmacro bad [] y) (quote (bad))" World.initial with
  | (.ok p, w) =>
    match evalIn 60 p .global w with
    | .ok form w' =>
      match w'.recordings, expandForm 9 form w' with
      | [], .error (.fault _) w₁ => w₁.recordings.length == 1
      | _, _ => false
    | _ => false
  | _ => false

/-- The body of the macro fails, and its recording is left open. -/
theorem recording_left_open : ∃ s form f w', Session.Reachable s ∧ s.Has form ∧
    expandForm 9 form s.world = .error (.fault f) w' ∧ s.world.recordings = [] ∧
    w'.recordings.length = 1 := by
  have test : leavesRecordingOpen = true := by decide +kernel
  unfold leavesRecordingOpen at test
  split at test
  · rename_i p w hread
    split at test
    · rename_i form w' heval
      split at test
      · rename_i f w₁ hopen hexpand
        let read : Session := ⟨w, [p], [], []⟩
        let run : Session := { read with world := w', held := form :: read.held }
        have hstart := @Session.Step.read ⟨World.initial, [], [], []⟩ _ _ _ hread
        have hrun : read.Step run := .evaluate (.held List.mem_cons_self) .global heval
        exact ⟨run, form, f, w₁, (Session.Reachable.bare.step hstart).step hrun,
          .held List.mem_cons_self, hexpand, hopen, eq_of_beq test⟩
      · cases test
    · cases test
  · cases test

end EditableLisp
