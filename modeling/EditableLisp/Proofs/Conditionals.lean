import EditableLisp.Proofs.BuiltinForms
import EditableLisp.Proofs.Expanding
import EditableLisp.Proofs.Filling
import EditableLisp.Proofs.Quasiquoting
import EditableLisp.Proofs.Recordings
import EditableLisp.Proofs.TemplateCalls

/-!
# `cond` evaluates lazily and in order

`(cond t₁ e₁ t₂ e₂ …)` stands for conditionals, one in the other, and the machine evaluates these with memo steps of
their own. `Clause.choose` says what comes of it without them: the tests are evaluated in turn up to the first whose
value counts as true, and then its form alone.

From every state in which the name `cond` has the built-in expander for its value, the evaluation of a call comes to
the ends to which this comes in the frames of the call; an odd number of forms is a fault before anything is
evaluated (**`Session.Reachable.ends_cond_iff`**). Whether the call is expanded now or served the conditionals that it
keeps makes no difference, for these are those of its own arguments (`Session.Reachable.form_of_builtin`).
-/

namespace EditableLisp

open Registry

variable {w w' w₁ : World} {env : Env}

/-! ## Clauses -/

/-- A test and the form that it guards, with the identities of the list and of the symbol of their conditional. -/
structure Clause where
  node : NodeId
  head : NodeId
  test : Value
  form : Value

namespace Clause

/-- `(if test form otherwise)` -/
def conditional (c : Clause) (otherwise : Value) : Value :=
  .seq .list (.bare c.node) [.symbol c.head "if", c.test, c.form, otherwise]

/-- The conditionals of clauses, one in the other. -/
def nested (clauses : List Clause) : Value := clauses.foldr conditional .nil

/-- The tests and forms of clauses, as they stand in a call. -/
def parts (clauses : List Clause) : List Value := clauses.flatMap fun c => [c.test, c.form]

/-- What clauses come to, given the values of forms: that of the form whose test is the first to count as true, or nil.
No test after that one is evaluated, and no other form; each conditional on the way keeps the value. -/
def choose (value : Value → Act Value) : List Clause → Act Value
  | [] => pure .nil
  | c :: rest => Direct.remember (c.conditional (nested rest)) do
    let v ← value c.test
    if v.isTruthy then value c.form else choose value rest

theorem length_parts (clauses : List Clause) : (parts clauses).length = 2 * clauses.length := by
  induction clauses with
  | nil => rfl
  | cons c rest ih =>
    unfold parts at ih ⊢
    rw [List.flatMap_cons, List.length_append, ih]
    simp only [List.length_cons, List.length_nil]
    omega

end Clause

open Clause

/-! ## The expander -/

namespace Expander

/-- Conditionals are put around others, those of the last clause first. -/
theorem conditionals_eq (reversed : List Value) (h : reversed.length % 2 = 0) (inner : List Clause) (w : World) :
    ∃ clauses n, w.nextId ≤ n ∧ parts clauses = reversed.reverse ∧
      conditionals (nested inner) reversed w = (nested (clauses ++ inner), { w with nextId := n }) := by
  match reversed, h with
  | [], _ => exact ⟨[], w.nextId, Nat.le_refl _, rfl, rfl⟩
  | form :: test :: rest, h =>
    let c : Clause := ⟨w.nextId + 1, w.nextId, test, form⟩
    have hrest : rest.length % 2 = 0 := by
      simp only [List.length_cons] at h
      omega
    obtain ⟨clauses, n, hle, hparts, hrun⟩ := conditionals_eq rest hrest (c :: inner) { w with nextId := w.nextId + 2 }
    refine ⟨clauses ++ [c], n, Nat.le_trans (Nat.le_add_right _ 2) hle, ?_, ?_⟩
    · have happend : parts (clauses ++ [c]) = parts clauses ++ [test, form] := List.flatMap_append
      rw [happend, hparts, List.reverse_cons, List.reverse_cons, List.append_assoc]
      rfl
    · rw [List.append_assoc]
      exact hrun

/-- An even number of forms is expanded to the conditionals of its clauses. -/
theorem cond_eq_ok {args : List Value} (h : args.length % 2 = 0) (w : World) :
    ∃ clauses n, w.nextId ≤ n ∧ parts clauses = args ∧ cond args w = .ok (nested clauses) { w with nextId := n } := by
  have hlength : args.reverse.length % 2 = 0 := by rw [List.length_reverse, h]
  obtain ⟨clauses, n, hle, hparts, hrun⟩ := conditionals_eq args.reverse hlength [] w
  rw [List.reverse_reverse] at hparts
  rw [List.append_nil] at hrun
  refine ⟨clauses, n, hle, hparts, ?_⟩
  unfold cond
  rw [if_neg (by omega)]
  exact lift_of_eq hrun

/-- An odd number of forms is a fault. -/
theorem cond_eq_error {args : List Value} (h : args.length % 2 = 1) (w : World) :
    cond args w = .error (.fault (.condShape args.length)) w := by
  unfold cond
  rw [if_pos h]
  rfl

/-- What forms are expanded to are the conditionals of their clauses. -/
theorem exists_clauses {args : List Value} {form : Value} (h : cond args w = .ok form w') :
    ∃ clauses, parts clauses = args ∧ form = nested clauses := by
  rcases Nat.mod_two_eq_zero_or_one args.length with heven | hodd
  · obtain ⟨clauses, n, -, hparts, hrun⟩ := cond_eq_ok heven w
    cases hrun.symm.trans h
    exact ⟨clauses, hparts, rfl⟩
  · cases (cond_eq_error hodd w).symm.trans h

end Expander

/-! ## The conditionals -/

namespace Clause

theorem eval_conditional (c : Clause) (otherwise : Value) (depth : Nat) :
    Direct.eval (depth + 1) (c.conditional otherwise) env = Direct.remember (c.conditional otherwise) (do
      let v ← Direct.eval depth c.test env
      if v.isTruthy then Direct.eval depth c.form env else Direct.eval depth otherwise env) := by
  have hstyle : (Node.bare c.node).style ≠ .program := nofun
  have hname : Special.ofName? "if" = some .conditional := rfl
  exact Direct.evalForm_special hstyle hname

/-- The value of a test chooses between two forms. -/
theorem endAlike_branch {rest : Nat → Act Value} {otherwise : Value} (c : Clause)
    (h : EndAlike (fun depth => Direct.eval depth otherwise env) rest) :
    EndAlike (fun depth => Direct.eval depth (c.conditional otherwise) env)
      fun fuel => Direct.remember (c.conditional otherwise) (do
        let v ← Quasiquote.valueIn env fuel c.test
        if v.isTruthy then Quasiquote.valueIn env fuel c.form else rest fuel) := by
  refine .of_succ (Direct.persists_eval _ env) ?_
  simp only [eval_conditional]
  refine EndAlike.bind ((Quasiquote.endAlike_value c.test).bind fun v => ?_) fun v => .const _
  cases v.isTruthy with
  | true => exact Quasiquote.endAlike_value c.form
  | false => exact h

/-- **Nested conditionals choose a clause.** -/
theorem endAlike_nested (clauses : List Clause) :
    EndAlike (fun depth => Direct.eval depth (nested clauses) env)
      fun fuel => choose (Quasiquote.valueIn env fuel) clauses := by
  induction clauses with
  | nil => exact .of_succ (Direct.persists_eval Value.nil env) (.const (pure Value.nil))
  | cons c rest ih => exact endAlike_branch c ih

end Clause

/-! ## The call -/

/-- Nothing was evaluated on the way from one world to another but a symbol. -/
structure World.LooksUp (id : NodeId) (w w' : World) : Prop where
  nextId : w.nextId ≤ w'.nextId
  frames : w'.frames = w.frames
  atoms : w'.atoms = w.atoms
  keywords : w'.keywords = w.keywords
  output : w'.output = w.output
  files : w'.files = w.files
  results : ∀ other, other ≠ id → w'.results.get? other = w.results.get? other

namespace Direct

/-- A symbol that has a value comes to it. -/
theorem exists_evalSymbol {id : NodeId} {name : String} {v : Value} (h : w.lookup? env name = some v) :
    ∃ w', evalSymbol id name env w = .ok v w' ∧ w.LooksUp id w' ∧ w'.expansions = w.expansions := by
  let recordings := w.recordings.modifyHead ([⟨env, name, v⟩].reverse ++ ·)
  let kept : World := { w with recordings := recordings, results := w.results.set id v }
  have hresults : ∀ other, other ≠ id → (w.results.set id v).get? other = w.results.get? other := by
    intro other hother
    rw [Table.get?_set, if_neg hother]
  have hrecord : (record env name v w).2 = { w with recordings := recordings } := recordAll_snd [⟨env, name, v⟩] w
  have hkept : (setResult (.symbol id name) v { w with recordings := recordings }).2 = kept := rfl
  unfold evalSymbol
  rw [bind_of_eq_ok (lookup_of_some h), bind_lift, hrecord, bind_lift, Act.get_bind, hkept]
  cases kept.site? env name with
  | none => exact ⟨_, rfl, ⟨Nat.le_refl _, rfl, rfl, rfl, rfl, rfl, hresults⟩, rfl⟩
  | some site => exact ⟨_, rfl, ⟨Nat.le_refl _, rfl, rfl, rfl, rfl, rfl, hresults⟩, rfl⟩

end Direct

/-- What serves the call of a built-in expander is a form that this expander made. -/
theorem exists_constant_of_served {R : Registry} {call : Call} {function : NodeId} {code : Builtin} {data form : Value}
    (hw : ∀ id e, w.expansions.get? id = some e → R.Serves id e) (hf : R.Known (.builtin function code data))
    (h : (Machine.servedForm? call (.builtin function code data) w).1 = some form) :
    ∃ reads, w.expansions.get? call.node.id = some (.constant (.builtin function code data) form reads) ∧
      Machine.servedForm? call (.builtin function code data) w = (some form, (recordAll reads w).2) := by
  revert h
  unfold Machine.servedForm?
  rw [Change.get_bind]
  cases hkept : w.expansions.get? call.node.id with
  | none => exact nofun
  | some e =>
    have hserved := hw _ _ hkept
    dsimp only
    by_cases hserves : e.servesFor w (.builtin function code data)
    · rw [if_pos hserves]
      have hsame := (Bool.and_eq_true_iff.mp hserves).1
      cases e with
      | constant maker form' reads =>
        have hmaker : maker = .builtin function code data := by
          have hsame : (Value.builtin function code data).identical maker = true := hsame
          cases maker with
          | builtin =>
            obtain rfl := eq_of_beq hsame
            exact Option.some.inj (hserved.1.symm.trans hf)
          | _ => cases hsame
        subst hmaker
        rintro ⟨⟩
        exact ⟨reads, rfl, rfl⟩
      | bound maker template env =>
        obtain ⟨-, _, _, _, _, _, _, _, _, rfl, -⟩ := hserved
        cases hsame
      | unchanged => exact nofun
    · rw [if_neg hserves]
      exact nofun

/-- `(cond t₁ e₁ …)` -/
def condCall (node : Node) (head : NodeId) (args : List Value) : Call := ⟨node, .symbol head "cond" :: args⟩

/-- The direct evaluation of a call of `cond` expands it and evaluates what it is expanded to. -/
theorem exists_eval_cond {node : Node} {head : NodeId} {args : List Value} {f : Value} (hstyle : node.style ≠ .program)
    (hf : w.lookup? env "cond" = some f) (hexpander : f.isExpander = true) :
    ∃ w₁, w.LooksUp head w₁ ∧ w₁.expansions = w.expansions ∧ ∀ depth,
      Direct.eval (depth + 2) (condCall node head args).toValue env w =
        Direct.remember (condCall node head args).toValue (do
          let form ← Direct.expand (Direct.parts (depth + 1)) (condCall node head args) f
          Direct.eval (depth + 1) form env) w₁ := by
  obtain ⟨w₁, hsymbol, hlooks, hkept⟩ := @Direct.exists_evalSymbol w env head "cond" f hf
  refine ⟨w₁, hlooks, hkept, fun depth => ?_⟩
  let call := condCall node head args
  have heval : Direct.eval (depth + 2) call.toValue env = Direct.remember call.toValue
      (Direct.evalCall (Direct.parts (depth + 1)) (.symbol head "cond") call env) := by
    show Direct.evalForm (Direct.parts (depth + 1)) call.toValue env = _
    dsimp only [Direct.evalForm, call, condCall, Call.toValue, Value.headName?, Option.bind]
    rw [if_neg hstyle]
    rfl
  have hhead : (Direct.parts (depth + 1)).eval (.symbol head "cond") env w = .ok f w₁ := hsymbol
  rw [heval]
  refine bind_of_eq ?_ _
  unfold Direct.evalCall
  rw [bind_of_eq_ok hhead, Direct.functionId?_of_isExpander hexpander, hexpander]
  rfl

namespace Session

variable {s : Session} {node : Node} {head : NodeId} {args : List Value} {function : NodeId} {data : Value}

/-- **A call of `cond` is expanded to the conditionals of its clauses**, or fails if it has an odd number of forms,
whether something is kept on it or not. -/
theorem Reachable.expand_cond (hs : s.Reachable) (hc : s.Has (condCall node head args).toValue)
    (hf : s.world.lookup? env "cond" = some (.builtin function .cond data)) (hlooks : s.world.LooksUp head w)
    (hkept : w.expansions = s.world.expansions) :
    (args.length % 2 = 0 → ∃ clauses w', parts clauses = args ∧ s.world.LooksUp head w' ∧ ∀ p,
      Direct.expand p (condCall node head args) (.builtin function .cond data) w = .ok (nested clauses) w') ∧
    (args.length % 2 = 1 → ∀ p, Direct.expand p (condCall node head args) (.builtin function .cond data) w =
      .error (.fault (.condShape args.length)) w) := by
  obtain ⟨R, hsound⟩ := hs.exists_sound
  have hknown : R.Known (.builtin function .cond data) := hsound.world.known_lookup? hf
  have hserves : ∀ id e, w.expansions.get? id = some e → R.Serves id e := by
    rw [hkept]
    exact hsound.world.expansions
  cases hserved : (Machine.servedForm? (condCall node head args) (.builtin function .cond data) w).1 with
  | some form =>
    obtain ⟨reads, hconstant, hrun⟩ := exists_constant_of_served hserves hknown hserved
    rw [hkept] at hconstant
    obtain ⟨rfl, _, _, hmade⟩ := hs.form_of_builtin hc hconstant
    obtain ⟨clauses, hparts, rfl⟩ := Expander.exists_clauses hmade
    refine ⟨fun _ => ⟨clauses, _, hparts, ?_, fun p => bind_of_eq_ok (lift_of_eq hrun)⟩, fun hodd => ?_⟩
    · rw [recordAll_snd]
      exact { hlooks with }
    · have hparts : parts clauses = args := hparts
      rw [← hparts, length_parts] at hodd
      omega
  | none =>
    have hanew : ∀ p, Direct.expand p (condCall node head args) (.builtin function .cond data) w =
        Direct.expandAnew p (condCall node head args) (.builtin function .cond data) w :=
      fun p => bind_of_eq_ok (lift_of_eq (Machine.servedForm?_eq_none hserved))
    let started : World := { w with recordings := [] :: w.recordings }
    have hrecorded := recorded_of_quiet (Builtin.quiet_evaluate .cond args) w
    refine ⟨fun heven => ?_, fun hodd p => ?_⟩
    · obtain ⟨clauses, n, hle, hparts, hmade⟩ := Expander.cond_eq_ok heven started
      have hmade : Builtin.cond.evaluate args started = _ := hmade
      rw [hmade] at hrecorded
      let kept : Expansion := .constant (.builtin function .cond data) (nested clauses) []
      refine ⟨clauses, { w with nextId := n, expansions := w.expansions.set node.id kept }, hparts, ?_, fun p => ?_⟩
      · exact { hlooks with nextId := Nat.le_trans hlooks.nextId hle }
      · exact (hanew p).trans (bind_of_eq_ok hrecorded)
    · have hfails : Builtin.cond.evaluate args started = _ := Expander.cond_eq_error hodd started
      rw [hfails] at hrecorded
      exact (hanew p).trans (bind_of_eq_error hrecorded)

/-- **`cond` evaluates lazily and in order.** In every session that can be reached and every chain of frames in which
`cond` names the built-in expander, a call is evaluated to the ends to which `Clause.choose` comes for the pairs of its
forms, in the frames of the call and whatever is pending: the call keeps the value, which is then handed to what is
pending. An odd number of forms is a fault of binding. Up to there nothing was evaluated but the name `cond`, whether
the call is expanded now or was before. -/
theorem Reachable.ends_cond_iff (hs : s.Reachable) (hc : s.Has (condCall node head args).toValue)
    (hstyle : node.style ≠ .program) (hf : s.world.lookup? env "cond" = some (.builtin function .cond data))
    (stack : List Pending) :
    (args.length % 2 = 0 → ∃ clauses w, parts clauses = args ∧ s.world.LooksUp head w ∧ ∀ r,
      (Ends (fun fuel => Machine.drive fuel ⟨.eval (condCall node head args).toValue env, stack⟩) s.world r ↔
        Ends (fun fuel => do
          let v ← Direct.remember (condCall node head args).toValue (choose (Quasiquote.valueIn env fuel) clauses)
          Machine.drive fuel ⟨.ret v, stack⟩) w r)) ∧
    (args.length % 2 = 1 → (Fault.condShape args.length).kind = .binding ∧ ∃ w, s.world.LooksUp head w ∧
      Ends (fun fuel => Machine.drive fuel ⟨.eval (condCall node head args).toValue env, stack⟩) s.world
        (.error (.fault (.condShape args.length)) w)) := by
  obtain ⟨w₁, hlooks, hkept, heval⟩ := @exists_eval_cond s.world env node head args _ hstyle hf rfl
  obtain ⟨heven, hodd⟩ := hs.expand_cond hc hf hlooks hkept
  let call : Value := (condCall node head args).toValue
  simp only [Machine.ends_drive_pending_iff]
  refine ⟨fun h => ?_, fun h => ⟨rfl, w₁, hlooks, ?_⟩⟩
  · obtain ⟨clauses, w₂, hparts, hlooks₂, hexpand⟩ := heven h
    refine ⟨clauses, w₂, hparts, hlooks₂, fun r => ?_⟩
    let inner : Nat → Act Value := fun depth => Direct.remember call (Direct.eval depth (nested clauses) env)
    have hinner : EndAlike inner fun fuel => Direct.remember call (choose (Quasiquote.valueIn env fuel) clauses) :=
      (endAlike_nested clauses).bind fun v => .const _
    have hstarts : ∀ depth, Direct.eval (depth + 2) call env s.world = inner (depth + 1) w₂ := fun depth =>
      (heval depth).trans (bind_of_eq (bind_of_eq_ok (hexpand _)) _)
    have hsame : ∀ r, Ends (fun depth => Direct.eval depth call env) s.world r ↔ Ends inner w₂ r := fun r =>
      calc Ends (fun depth => Direct.eval depth call env) s.world r
          ↔ Ends (fun depth => Direct.eval (depth + 2) call env) s.world r := Ends.succ_iff.symm.trans Ends.succ_iff.symm
        _ ↔ Ends (fun depth => inner (depth + 1)) w₂ r := Ends.iff_of_eq hstarts
        _ ↔ Ends inner w₂ r := Ends.succ_iff
    rw [Ends.bind_congr (Direct.persists_eval call env) hinner.left hsame]
    exact (hinner.bind fun v => .refl (Machine.persists_drive ⟨.ret v, stack⟩)).iff w₂ r
  · have hfails : Ends (fun depth => Direct.eval (depth + 2) call env) s.world
        (.error (.fault (.condShape args.length)) w₁) :=
      ⟨nofun, 0, fun depth _ => (heval depth).trans (bind_of_eq_error (bind_of_eq_error (hodd h _)))⟩
    exact (Ends.succ_iff.mp (Ends.succ_iff.mp hfails)).bind_error

/-- A program that is a call of `cond` is evaluated; the call keeps what it was expanded to. -/
def keepsCond (first : World) : Bool :=
  match EditableLisp.readProgram "(cond nil 1 true 2)" first with
  | (.ok (.seq shape program [.seq .list node (.symbol head name :: args)]), w) =>
    match evalIn 90 (.seq shape program [.seq .list node (.symbol head name :: args)]) .global w with
    | .ok v w' =>
      match w'.lookup? .global "cond" with
      | some (.builtin _ .cond _) =>
        name == "cond" && decide (node.style ≠ .program) && args.length == 4 &&
          (w'.expansions.get? node.id).any Expansion.isExpanderCall && v.equal (.num 2)
      | _ => false
    | _ => false
  | _ => false

/-- A call that was evaluated before, and is served what it keeps. -/
theorem Reachable.ends_cond_iff_served : ∃ s node head args function data, Reachable s ∧
    s.Has (condCall node head args).toValue ∧ node.style ≠ .program ∧
    s.world.lookup? .global "cond" = some (.builtin function .cond data) ∧
    (s.world.expansions.get? node.id).any Expansion.isExpanderCall ∧
    ∃ clauses w, parts clauses = args ∧ s.world.LooksUp head w ∧ ∀ r,
      (Ends (fun fuel => Machine.drive fuel ⟨.eval (condCall node head args).toValue .global, []⟩) s.world r ↔
        Ends (fun fuel => do
          let v ← Direct.remember (condCall node head args).toValue (choose (Quasiquote.valueIn .global fuel) clauses)
          Machine.drive fuel ⟨.ret v, []⟩) w r) := by
  have test : keepsCond World.full = true := by decide +kernel
  have hfull := Reachable.full
  generalize World.full = first at test hfull
  unfold keepsCond at test
  split at test
  · rename_i shape program node head name args w hread
    split at test
    · rename_i v w' heval
      split at test
      · rename_i function data hcond
        simp only [Bool.and_eq_true, beq_iff_eq, decide_eq_true_eq] at test
        obtain ⟨⟨⟨⟨rfl, hstyle⟩, hlength⟩, hkept⟩, -⟩ := test
        let p : Value := .seq shape program [(condCall node head args).toValue]
        let read : Session := ⟨w, [p], [], []⟩
        let run : Session := { read with world := w', held := v :: read.held }
        have hread : Step ⟨first, [], [], []⟩ read := .read hread
        have hrun : read.Step run := .evaluate (.held List.mem_cons_self) .global heval
        have hreached : run.Reachable := (hfull.step hread).step hrun
        have hp : run.Has p := .held (List.mem_cons_of_mem _ List.mem_cons_self)
        have hcall : run.Has (condCall node head args).toValue := hp.item List.mem_cons_self
        have heven : args.length % 2 = 0 := by rw [hlength]
        exact ⟨run, node, head, args, function, data, hreached, hcall, hstyle, hcond, hkept,
          (hreached.ends_cond_iff hcall hstyle hcond []).1 heven⟩
      · cases test
    · cases test
  · cases test

end Session

end EditableLisp
