import EditableLisp.Proofs.Positions
import EditableLisp.Proofs.Session
import EditableLisp.Proofs.Unread

/-!
# Accesses in range

The machine with positions never takes an element out of a node where there is none, and never rebuilds a map
that lacks a key or has one twice: `Session.Reachable.agrees_steps`.

`Follows` says that a checked act finds what it accesses and does what an act of the machine does. Each function
of the machine with positions follows its counterpart if what is pending is well formed, and what is pending
afterwards is well formed again (`follows_step`). Only the rebuilding of maps needs more than that: the keys of
a map have different names, which the registry of a session says.
-/

namespace EditableLisp.Indexed

variable {α β γ : Type}

/-! ## Acts that follow others -/

/-- Two ends are the same, and none of them is at an access out of range. -/
inductive Agrees (Q : α → β → Prop) :
    EStateM.Result Halt World (Option α) → EStateM.Result Halt World β → Prop where
  | ok {a : α} {b : β} {w : World} : Q a b → Agrees Q (.ok (some a) w) (.ok b w)
  | error {h : Halt} {w : World} : Agrees Q (.error h w) (.error h w)

/-- A checked act finds what it accesses and does what an act does. -/
def Follows (c : Checked α) (act : Act β) (Q : α → β → Prop) : Prop := ∀ w, Agrees Q (c.run w) (act w)

theorem run_bind_of_some {c : Checked α} {f : α → Checked β} {w w' : World} {a : α}
    (h : c.run w = .ok (some a) w') : (c >>= f).run w = (f a).run w' := by
  rw [OptionT.run_bind]
  exact bind_of_eq_ok h

theorem run_bind_of_error {c : Checked α} {f : α → Checked β} {w w' : World} {b : Halt}
    (h : c.run w = .error b w') : (c >>= f).run w = .error b w' := by
  rw [OptionT.run_bind]
  exact bind_of_eq_error h

namespace Follows

variable {Q : α → β → Prop}

theorem pure {a : α} {b : β} (h : Q a b) : Follows (Pure.pure a) (Pure.pure b) Q := fun _ => .ok h

theorem fail (f : Fault) : Follows (liftM (fail f : Act α)) (fail f : Act β) Q := fun _ => .error

theorem bind {δ : Type} {c : Checked α} {act : Act β} (h : Follows c act Q) {f : α → Checked γ} {g : β → Act δ}
    {P : γ → δ → Prop} (hf : ∀ a b, Q a b → Follows (f a) (g b) P) : Follows (c >>= f) (act >>= g) P := by
  intro w
  have hw := h w
  generalize hc : c.run w = r at hw
  generalize ha : act w = r' at hw
  cases hw with
  | ok hq =>
    rw [run_bind_of_some hc, bind_of_eq_ok ha]
    exact hf _ _ hq _
  | error =>
    rw [run_bind_of_error hc, bind_of_eq_error ha]
    exact .error

/-- An act is the same whether it is checked or not. -/
theorem lift (act : Act α) : Follows (liftM act) act Eq := by
  intro w
  show Agrees Eq ((some <$> act) w) (act w)
  cases e : act w with
  | ok a w' =>
    have h : (some <$> act) w = .ok (some a) w' := by
      show EStateM.map some act w = _
      unfold EStateM.map
      rw [e]
    rw [h]
    exact .ok rfl
  | error b w' =>
    have h : (some <$> act) w = .error b w' := by
      show EStateM.map some act w = _
      unfold EStateM.map
      rw [e]
    rw [h]
    exact .error

/-- A checked act goes on as an act does after the same first part. -/
theorem bind_lift {P : β → γ → Prop} (act : Act α) {f : α → Checked β} {g : α → Act γ}
    (hf : ∀ a, Follows (f a) (g a) P) : Follows (liftM act >>= f) (act >>= g) P :=
  (lift act).bind fun a _ h => h ▸ hf a

/-- An access that is in range. -/
theorem access {P : β → γ → Prop} {found : Option α} {a : α} (h : found = some a) {f : α → Checked β} {act : Act γ}
    (hf : Follows (f a) act P) : Follows (access found >>= f) act P := by
  intro w
  have hfound : (Indexed.access found).run w = .ok (some a) w := congrArg (EStateM.Result.ok · w) h
  rw [run_bind_of_some hfound]
  exact hf w

end Follows

/-! ## States -/

/-- A state is well formed, and without its positions it is a state of the machine. -/
structure State.Places (s : State) (s' : EditableLisp.State) : Prop where
  erase : s.erase = s'
  wellFormed : s.WellFormed

variable {stack : List Frame} (hs : ∀ frame ∈ stack, frame.WellFormed)

include hs

/-- Nothing more is pending. -/
theorem places_here (control : Control) :
    State.Places ⟨control, stack⟩ ⟨control, stack.map Frame.erase⟩ := ⟨rfl, hs⟩

/-- One thing more is pending. -/
theorem places_push (frame : Frame) (hf : frame.WellFormed) {p : Pending} (hp : frame.erase = p)
    (control : Control) : State.Places ⟨control, frame :: stack⟩ ⟨control, p :: stack.map Frame.erase⟩ := by
  subst hp
  exact ⟨rfl, List.forall_mem_cons.mpr ⟨hf, hs⟩⟩

/-! ## Bodies and calls -/

omit hs in
/-- What is left of a list where there is an element. -/
theorem drop_of_getElem? {items : List α} {i : Nat} {a : α} (h : items[i]? = some a) :
    items.drop i = a :: items.drop (i + 1) := by
  obtain ⟨hi, rfl⟩ := List.getElem?_eq_some_iff.mp h
  exact List.drop_eq_getElem_cons hi

omit hs in
/-- What is left of a list where it ends. -/
theorem drop_of_getElem?_none {items : List α} {i : Nat} (h : items[i]? = none) : items.drop i = [] :=
  List.drop_eq_nil_of_le (List.getElem?_eq_none_iff.mp h)

/-- The form at a position is evaluated, in place of the others if it is the last one. -/
theorem follows_evalAt (pend : Nat → Frame) (left : List Value → Pending) (go : List Value → EditableLisp.State)
    {items : List Value} {index : Nat} {env : Env} (hindex : index < items.length)
    (hpend : ∀ i < items.length, (pend i).WellFormed) (herase : ∀ i, (pend i).erase = left (items.drop i))
    (hlast : ∀ form, go [form] = ⟨.eval form env, stack.map Frame.erase⟩)
    (hmore : ∀ form next rest, go (form :: next :: rest) =
      ⟨.eval form env, left (next :: rest) :: stack.map Frame.erase⟩) :
    Follows (evalAt pend items index env stack) (pure (go (items.drop index))) State.Places := by
  have hform : items[index]? = some items[index] := List.getElem?_eq_getElem hindex
  refine .access hform ?_
  rw [drop_of_getElem? hform]
  by_cases hnext : index + 1 = items.length
  · rw [if_pos hnext, List.drop_eq_nil_of_le (Nat.le_of_eq hnext.symm), hlast]
    exact .pure (places_here hs _)
  · have hlt : index + 1 < items.length := by omega
    have hleft := herase (index + 1)
    rw [drop_of_getElem? (List.getElem?_eq_getElem hlt)] at hleft ⊢
    rw [if_neg hnext, hmore]
    exact .pure (places_push hs _ (hpend _ hlt) hleft _)

theorem follows_evalBody (call : Call) (start : Nat) (env : Env) :
    Follows (evalBody call start env stack)
      (pure (Machine.evalBody call.items.length (call.items.drop start) env (stack.map Frame.erase)))
      State.Places := by
  unfold evalBody
  split
  · rename_i hle
    rw [List.drop_eq_nil_of_le hle]
    exact .pure (places_here hs _)
  · rename_i hlt
    exact follows_evalAt hs (.body call · env) (.body call.items.length · env)
      (Machine.evalBody call.items.length · env (stack.map Frame.erase)) (Nat.lt_of_not_le hlt) (fun _ h => h)
      (fun _ => rfl) (fun _ => rfl) fun _ _ _ => rfl

theorem wellFormed_memo (node : Value) : ∀ frame ∈ memo node stack, frame.WellFormed := by
  unfold memo
  split
  · obtain ⟨hnodes, hbelow⟩ := List.forall_mem_cons.mp hs
    split
    · exact hs
    · exact List.forall_mem_cons.mpr ⟨List.append_ne_nil_of_right_ne_nil _ (List.cons_ne_nil _ _), hbelow⟩
  · exact List.forall_mem_cons.mpr ⟨List.cons_ne_nil _ _, hs⟩

omit hs in
theorem erase_memo (node : Value) (stack : List Frame) :
    (memo node stack).map Frame.erase = Machine.memo node (stack.map Frame.erase) := by
  cases stack with
  | nil => rfl
  | cons frame below =>
    cases frame with
    | memo nodes =>
      unfold memo Machine.memo
      simp only [List.map_cons, Frame.erase]
      split <;> rfl
    | quasi template =>
      cases template <;> rfl
    | _ => rfl

theorem places_afterOutcome (outcome : Outcome) :
    State.Places (afterOutcome outcome stack) (Machine.afterOutcome outcome (stack.map Frame.erase)) := by
  cases outcome with
  | value v => exact places_here hs _
  | call job f args => exact places_push hs (.job job) trivial rfl _

theorem places_finishExpansion (form : Value) (target : Option Env) :
    State.Places (finishExpansion form target stack)
      (Machine.finishExpansion form target (stack.map Frame.erase)) := by
  cases target with
  | none => exact places_here hs _
  | some env => exact places_here hs _

theorem follows_apply (f : Value) (args : List Value) :
    Follows (apply f args stack) (Machine.apply f args (stack.map Frame.erase)) State.Places := by
  cases f with
  | builtin id code data => exact .bind_lift _ fun outcome => .pure (places_afterOutcome hs outcome)
  | closure id kind params body env data => exact .bind_lift _ fun frame => .pure (places_here hs _)
  | _ => exact .bind_lift _ fun text => .fail _

theorem follows_evalArgs (f : Value) (call : Call) {next : Nat} {done : Array Value} (env : Env)
    (hnext : next = done.size + 1) :
    Follows (evalArgs f call next done env stack)
      (Machine.evalArgs f call (call.items.drop next) done env (stack.map Frame.erase)) State.Places := by
  unfold evalArgs
  split
  · rename_i arg harg
    rw [drop_of_getElem? harg]
    have hlt := (List.getElem?_eq_some_iff.mp harg).1
    exact .pure (places_push hs (.args f call (next + 1) done env) ⟨congrArg (· + 1) hnext, hlt⟩ rfl _)
  · rename_i hnone
    rw [drop_of_getElem?_none hnone]
    exact follows_apply hs f done.toList

/-! ## Expanders -/

theorem follows_expandAnew {call : Call} (hcall : call.items ≠ []) (f : Value) (target : Option Env) :
    Follows (expandAnew call f target stack) (Machine.expandAnew call f target (stack.map Frame.erase))
      State.Places := by
  have hslice : slice? call.items 1 = some call.items.tail := by
    have hpos : 1 ≤ call.items.length := List.length_pos_iff.mpr hcall
    unfold slice?
    rw [if_pos hpos, List.drop_one]
  refine .access hslice ?_
  cases f with
  | builtin id code data =>
    exact .bind_lift _ fun p => .bind_lift _ fun _ => .pure (places_finishExpansion hs p.1 target)
  | closure id kind params body env data =>
    refine .bind_lift _ fun frame => ?_
    split
    · exact .bind_lift _ fun form => .bind_lift _ fun _ => .pure (places_finishExpansion hs form target)
    · exact .bind_lift _ fun depth => .pure (places_push hs (.expansion call _ depth target) hcall rfl _)
  | _ => exact .bind_lift _ fun text => .fail _

theorem follows_expandCall {call : Call} (hcall : call.items ≠ []) (f : Value) (target : Option Env) :
    Follows (expandCall call f target stack) (Machine.expandCall call f target (stack.map Frame.erase))
      State.Places := by
  refine .bind_lift _ fun served => ?_
  cases served with
  | some form => exact .pure (places_finishExpansion hs form target)
  | none => exact follows_expandAnew hs hcall f target

theorem follows_expandOnce (form : Value) (env : Env) :
    Follows (expandOnce form env stack) (Machine.expandOnce form env (stack.map Frame.erase)) State.Places := by
  cases form with
  | seq shape node items =>
    cases shape with
    | vector => exact .pure (places_here hs _)
    | list =>
      unfold expandOnce Machine.expandOnce
      dsimp only
      cases hname : Value.headName? items with
      | none => exact .pure (places_here hs _)
      | some name =>
        have hitems : items ≠ [] := by
          rintro rfl
          cases hname
        refine .bind_lift _ fun w => ?_
        cases w.lookup? env name with
        | none => exact .pure (places_here hs _)
        | some f =>
          dsimp only
          split
          · exact @follows_expandCall _ hs ⟨node, items⟩ hitems f none
          · exact .pure (places_here hs _)
  | _ => exact .pure (places_here hs _)

theorem follows_begin (f : Value) {call : Call} (hcall : call.items ≠ []) (env : Env) :
    Follows (begin f call env stack) (Machine.begin f call env (stack.map Frame.erase)) State.Places := by
  have hpos : 1 ≤ call.items.length := List.length_pos_iff.mpr hcall
  unfold begin Machine.begin
  split
  · exact .bind_lift _ fun text => .fail _
  · split
    · exact follows_expandCall hs hcall f (some env)
    · refine .bind_lift _ fun _ => ?_
      refine .access (if_pos hpos) ?_
      rw [← List.drop_one]
      exact follows_evalArgs hs f call env rfl

/-! ## Patterns -/

omit hs

mutual

theorem follows_validate (pattern : Value) : Follows (validate pattern) (Pattern.validate pattern) Eq := by
  unfold validate
  cases pattern with
  | symbol id name =>
    unfold Pattern.validate
    dsimp only
    split
    · exact .fail _
    · exact .pure rfl
  | seq shape node items =>
    cases shape with
    | list => exact .bind_lift _ fun text => .fail _
    | vector =>
      unfold Pattern.validate
      exact follows_validateFrom (.seq .vector node items) items 0
  | _ => exact .bind_lift _ fun text => .fail _
termination_by (sizeOf pattern, 0)

/-- The elements are checked from a position on. -/
theorem follows_validateFrom (whole : Value) (items : List Value) (i : Nat) :
    Follows (validateFrom whole items i) (Pattern.validateItems whole (items.drop i)) Eq := by
  unfold validateFrom
  split
  · rename_i hnone
    rw [drop_of_getElem?_none hnone]
    exact .pure rfl
  · rename_i item hitem
    obtain ⟨hi, -⟩ := List.getElem?_eq_some_iff.mp hitem
    rw [drop_of_getElem? hitem]
    unfold Pattern.validateItems
    split
    · -- The pattern after the mark is the last one exactly if it is at the last position.
      split
      · rename_i hlength
        cases hrest : items.drop (i + 1) with
        | nil => exact .bind_lift _ fun text => .fail _
        | cons last rest =>
          cases rest with
          | nil =>
            have hlen := congrArg List.length hrest
            rw [List.length_drop, List.length_singleton] at hlen
            omega
          | cons => exact .bind_lift _ fun text => .fail _
      · rename_i hlength
        have hlt : i + 1 < items.length := by omega
        split
        · rename_i last hlast
          have hrest : items.drop (i + 1) = [last] := by
            rw [drop_of_getElem? hlast, List.drop_eq_nil_of_le (by omega)]
          rw [hrest]
          exact follows_validate last
        · rename_i hlast
          rw [List.getElem?_eq_getElem hlt] at hlast
          cases hlast
    · exact (follows_validate item).bind fun _ _ _ => follows_validateFrom whole items (i + 1)
termination_by (sizeOf items, items.length + 1 - i)
decreasing_by
  · exact Prod.Lex.left _ _ (List.sizeOf_lt_of_mem (List.mem_of_getElem? ‹items[i]? = some _›))
  · exact Prod.Lex.right _ (by omega)
  · exact Prod.Lex.left _ _ (List.sizeOf_lt_of_mem (List.mem_of_getElem? ‹items[i + 1]? = some _›))

end

theorem follows_makeClosure (params : Value) (body : List Value) (env : Env) (kind : ClosureKind) :
    Follows (makeClosure params body env kind) (Machine.makeClosure params body env kind) Eq := by
  cases params with
  | seq shape node items =>
    cases shape with
    | list => exact .bind_lift _ fun text => .fail _
    | vector =>
      exact (follows_validate _).bind fun _ _ _ => .bind_lift _ fun form => .bind_lift _ fun id => .pure rfl
  | _ => exact .bind_lift _ fun text => .fail _

/-! ## Special forms -/

include hs

theorem follows_evalDefinition (call : Call) (env : Env) :
    Follows (evalDefinition call env stack) (Machine.evalDefinition call env (stack.map Frame.erase))
      State.Places := by
  obtain ⟨node, items⟩ := call
  rcases items with _ | ⟨head, _ | ⟨name, rest⟩⟩
  case cons.cons =>
    cases name with
    | symbol id name =>
      rcases rest with _ | ⟨form, _ | ⟨extra, rest⟩⟩
      case cons.nil =>
        exact .pure (places_push hs (.definition name ⟨node, [head, .symbol id name, form]⟩ env) rfl rfl _)
      all_goals exact .bind_lift _ fun text => .fail _
    | _ => exact .bind_lift _ fun text => .fail _
  all_goals exact .bind_lift _ fun text => .fail _

theorem follows_evalNamed (kind : ClosureKind) (call : Call) (env : Env) :
    Follows (evalNamed kind call env stack) (Machine.evalNamed kind call env (stack.map Frame.erase))
      State.Places := by
  obtain ⟨node, items⟩ := call
  unfold evalNamed Machine.evalNamed
  split
  · exact .fail _
  · rcases items with _ | ⟨head, _ | ⟨name, rest⟩⟩
    case cons.cons =>
      cases name with
      | symbol id name =>
        cases rest with
        | nil => exact .bind_lift _ fun text => .fail _
        | cons params body =>
          refine (follows_makeClosure params body env kind).bind ?_
          rintro f _ rfl
          exact .bind_lift _ fun _ => .pure (places_here hs _)
      | _ => exact .bind_lift _ fun text => .fail _
    all_goals exact .bind_lift _ fun text => .fail _

theorem follows_evalAnonymous (kind : ClosureKind) (call : Call) (env : Env) :
    Follows (evalAnonymous kind call env stack) (Machine.evalAnonymous kind call env (stack.map Frame.erase))
      State.Places := by
  obtain ⟨node, items⟩ := call
  rcases items with _ | ⟨head, _ | ⟨params, body⟩⟩
  case cons.cons =>
    refine (follows_makeClosure params body env kind).bind ?_
    rintro f _ rfl
    exact .pure (places_here hs _)
  all_goals exact .bind_lift _ fun text => .fail _

omit hs in
theorem erase_binding {bindings : List Value} {index : Nat} (hlt : index < bindings.length) (call : Call) (env : Env) :
    (Frame.binding bindings index call env).erase =
      .binding index bindings[index] (bindings.drop (index + 2)) call env := by
  show Pending.binding index (bindings.getD index .nil) _ call env = _
  rw [List.getD_eq_getElem?_getD, List.getElem?_eq_getElem hlt]
  rfl

/-- Where a binding begins, its pattern and its form are there. -/
theorem follows_evalBinding {bindings : List Value} {index : Nat} {call : Call} (env : Env)
    (heven : bindings.length % 2 = 0) (hindex : index % 2 = 0) (hlt : index < bindings.length)
    (hcall : 2 ≤ call.items.length) :
    Follows (evalBinding bindings index call env stack)
      (pure (Machine.evalBindings index (bindings.drop index) call env (stack.map Frame.erase))) State.Places := by
  have hpattern := List.getElem?_eq_getElem hlt
  have hform : bindings[index + 1]? = some bindings[index + 1] := List.getElem?_eq_getElem (by omega)
  refine .access hform ?_
  rw [drop_of_getElem? hpattern, drop_of_getElem? hform]
  exact .pure (places_push hs (.binding bindings index call env) ⟨heven, hindex, hlt, hcall⟩
    (erase_binding hlt call env) _)

theorem follows_evalLet (call : Call) (env : Env) :
    Follows (evalLet call env stack) (Machine.evalLet call env (stack.map Frame.erase)) State.Places := by
  obtain ⟨node, items⟩ := call
  rcases items with _ | ⟨head, _ | ⟨bindings, rest⟩⟩
  case cons.cons =>
    cases bindings with
    | seq shape vector bindings =>
      cases shape with
      | list => exact .bind_lift _ fun text => .fail _
      | vector =>
        let call : Call := ⟨node, head :: .seq .vector vector bindings :: rest⟩
        have hcall : 2 ≤ call.items.length := Nat.le_add_left _ _
        unfold evalLet Machine.evalLet
        dsimp only
        by_cases heven : bindings.length % 2 = 0
        · rw [if_neg (not_not_intro heven), if_neg (by omega)]
          refine .bind_lift _ fun frame => ?_
          cases bindings with
          | nil => exact follows_evalBody hs call 2 frame
          | cons pattern bindings => exact follows_evalBinding hs frame heven rfl (Nat.zero_lt_succ _) hcall
        · rw [if_pos heven, if_pos (by omega)]
          exact .fail _
    | _ => exact .bind_lift _ fun text => .fail _
  all_goals exact .bind_lift _ fun text => .fail _

theorem follows_bindAt (v : Value) {bindings : List Value} {index : Nat} {call : Call} (env : Env)
    (heven : bindings.length % 2 = 0) (hindex : index % 2 = 0) (hlt : index < bindings.length)
    (hcall : 2 ≤ call.items.length) :
    Follows (bindAt v bindings index call env stack)
      (Machine.resume v ((Frame.binding bindings index call env :: stack).map Frame.erase)) State.Places := by
  have hpattern := List.getElem?_eq_getElem hlt
  refine .access hpattern ?_
  rw [List.map_cons, erase_binding hlt]
  refine .bind_lift _ fun _ => ?_
  dsimp only
  split
  · rename_i hle
    rw [List.drop_eq_nil_of_le hle]
    exact follows_evalBody hs call 2 env
  · exact follows_evalBinding hs env heven (by omega) (by omega) hcall

theorem follows_evalConditional (call : Call) (env : Env) :
    Follows (evalConditional call env stack) (Machine.evalConditional call env (stack.map Frame.erase))
      State.Places := by
  obtain ⟨node, items⟩ := call
  rcases items with _ | ⟨head, _ | ⟨test, _ | ⟨yes, _ | ⟨no, _ | ⟨extra, rest⟩⟩⟩⟩⟩
  case cons.cons.cons.nil =>
    exact .pure (places_push hs (.branch ⟨node, [head, test, yes]⟩ env) (.inl rfl) rfl _)
  case cons.cons.cons.cons.nil =>
    exact .pure (places_push hs (.branch ⟨node, [head, test, yes, no]⟩ env) (.inr rfl) rfl _)
  all_goals exact .bind_lift _ fun text => .fail _

/-- The branch that a test chooses is there. -/
theorem follows_evalBranch (v : Value) {call : Call} (env : Env)
    (hcall : call.items.length = 3 ∨ call.items.length = 4) :
    Follows (pure (evalBranch v call env stack))
      (Machine.resume v ((Frame.branch call env :: stack).map Frame.erase)) State.Places := by
  obtain ⟨node, items⟩ := call
  unfold evalBranch Machine.resume
  rcases hcall with hthree | hfour
  · obtain ⟨head, test, yes, rfl⟩ := List.length_eq_three.mp hthree
    dsimp only [List.map_cons, Frame.erase]
    cases v.isTruthy <;> exact .pure (places_here hs _)
  · obtain ⟨head, test, yes, no, rfl⟩ : ∃ a b c d, items = [a, b, c, d] := by
      match items, hfour with
      | [a, b, c, d], _ => exact ⟨a, b, c, d, rfl⟩
    dsimp only [List.map_cons, Frame.erase]
    cases v.isTruthy <;> exact .pure (places_here hs _)

/-! ## Templates -/

/-- Where a template goes on, its next element is at the position or there is none left. -/
theorem follows_quasiAt {shape : Shape} {node : Node} {items : List Value} (hitems : items ≠ []) (index : Nat)
    (done : Array Value) (env : Env) :
    Follows (quasiAt (.seq shape node items) index done env stack)
      (Machine.quasiItems shape items.length (items.drop index) done env (stack.map Frame.erase)) State.Places := by
  unfold quasiAt
  dsimp only
  split
  · rename_i item hitem
    have hlt := (List.getElem?_eq_some_iff.mp hitem).1
    have hframe : ∀ splice, (Frame.quasi (.seq shape node items) (index + 1) done splice env).WellFormed :=
      fun _ => ⟨shape, node, items, rfl, hitems, Nat.le_add_left 1 index, hlt⟩
    rw [drop_of_getElem? hitem]
    refine .bind_lift _ fun spliced => ?_
    cases spliced with
    | some form => exact .pure (places_push hs (.quasi _ _ done true env) (hframe true) rfl _)
    | none => exact .pure (places_push hs (.quasi _ _ done false env) (hframe false) rfl _)
  · rename_i hnone
    rw [drop_of_getElem?_none hnone]
    exact .bind_lift _ fun v => .pure (places_here hs _)

/-! ## All rules -/

theorem follows_conjunction {call : Call} {index : Nat} (env : Env) (hindex : index < call.items.length) :
    Follows (evalAt (.conjunction call · env) call.items index env stack)
      (pure (Machine.evalConjunction call.items.length (call.items.drop index) env (stack.map Frame.erase)))
      State.Places :=
  follows_evalAt hs (.conjunction call · env) (.conjunction call.items.length · env)
    (Machine.evalConjunction call.items.length · env (stack.map Frame.erase)) hindex (fun _ h => h)
    (fun _ => rfl) (fun _ => rfl) fun _ _ _ => rfl

theorem follows_disjunction {call : Call} {index : Nat} (env : Env) (hindex : index < call.items.length) :
    Follows (evalAt (.disjunction call · env) call.items index env stack)
      (pure (Machine.evalDisjunction call.items.length (call.items.drop index) env (stack.map Frame.erase)))
      State.Places :=
  follows_evalAt hs (.disjunction call · env) (.disjunction call.items.length · env)
    (Machine.evalDisjunction call.items.length · env (stack.map Frame.erase)) hindex (fun _ h => h)
    (fun _ => rfl) (fun _ => rfl) fun _ _ _ => rfl

theorem follows_evalSpecial (special : Special) {call : Call} (hcall : call.items ≠ []) (env : Env) :
    Follows (evalSpecial special call env stack)
      (Machine.evalSpecial special call env (stack.map Frame.erase)) State.Places := by
  have hpos : 1 ≤ call.items.length := List.length_pos_iff.mpr hcall
  unfold evalSpecial Machine.evalSpecial
  cases special with
  | definition => exact follows_evalDefinition hs call env
  | named kind => exact follows_evalNamed hs kind call env
  | anonymous kind => exact follows_evalAnonymous hs kind call env
  | bindings => exact follows_evalLet hs call env
  | body =>
    dsimp only
    rw [← List.drop_one]
    exact follows_evalBody hs call 1 env
  | conditional => exact follows_evalConditional hs call env
  | quote => exact .bind_lift _ fun v => .pure (places_here hs _)
  | quasiquote => exact .bind_lift _ fun v => .pure (places_here hs _)
  | macroexpand => exact .bind_lift _ fun v => follows_expandOnce hs v env
  | evaluate => exact .bind_lift _ fun v => .pure (places_push hs (.evaluate env) trivial rfl _)
  | conjunction =>
    dsimp only
    rw [← List.drop_one]
    split
    · rename_i hone
      rw [List.drop_eq_nil_of_le (Nat.le_of_eq hone)]
      exact .pure (places_here hs _)
    · exact follows_conjunction hs env (by omega)
  | disjunction =>
    dsimp only
    rw [← List.drop_one]
    split
    · rename_i hone
      rw [List.drop_eq_nil_of_le (Nat.le_of_eq hone)]
      exact .pure (places_here hs _)
    · exact follows_disjunction hs env (by omega)

/-! ## Collections -/

theorem follows_evalVector {items : List Value} {next : Nat} {done : Array Value} (env : Env)
    (hnext : next = done.size) :
    Follows (evalVector items next done env stack)
      (liftM (Machine.evalVector items.length (items.drop next) done env (stack.map Frame.erase)))
      State.Places := by
  unfold evalVector
  split
  · rename_i form hform
    have hlt := (List.getElem?_eq_some_iff.mp hform).1
    rw [drop_of_getElem? hform]
    exact .pure (places_push hs (.vector items (next + 1) done env) ⟨congrArg (· + 1) hnext, hlt⟩ rfl _)
  · rename_i hnone
    rw [drop_of_getElem?_none hnone]
    exact .bind_lift _ fun v => .pure (places_here hs _)

omit hs in
theorem entry?_toValue (key : Key) (v : Value) : entry? (key.toValue, v) = some (key, v) := by
  cases key <;> rfl

omit hs in
/-- Keys of entries with other values are entries with the same names. -/
theorem entries_of_keys {entries : Entries} {done : List (Value × Value)}
    (hkeys : done.map Prod.fst = entries.map fun e => e.1.toValue) :
    done.mapM entry? = some (done.filterMap entry?) ∧
      Entries.names (done.filterMap entry?) = Entries.names entries := by
  induction done generalizing entries with
  | nil =>
    cases entries with
    | nil => exact ⟨rfl, rfl⟩
    | cons e rest => cases hkeys
  | cons pair done ih =>
    cases entries with
    | nil => cases hkeys
    | cons e rest =>
      obtain ⟨k, v⟩ := pair
      obtain ⟨hkey, hrest⟩ := List.cons.inj hkeys
      obtain ⟨hmap, hnames⟩ := ih hrest
      have hentry : entry? (k, v) = some (e.1, v) := by
        rw [← entry?_toValue]
        exact congrArg (fun k => entry? (k, v)) hkey
      rw [List.filterMap_cons_some hentry, List.mapM_cons, hentry, hmap]
      exact ⟨rfl, congrArg (List.cons e.1.name) hnames⟩

/-- Where the entries end, all keys have been taken and the map is rebuilt from them. -/
theorem follows_evalMap {entries : Entries} {next : Nat} {done : Array (Value × Value)} (env : Env)
    (hnodup : (Entries.names entries).Nodup) (hnext : next = done.size)
    (hkeys : done.toList.map Prod.fst = (entries.take done.size).map fun e => e.1.toValue) :
    Follows (evalMap entries next done env stack)
      (liftM (Machine.evalMap entries.length (entries.drop next) (done.filterMap entry?) env
        (stack.map Frame.erase))) State.Places := by
  unfold evalMap
  split
  · rename_i key form hentry
    have hlt := (List.getElem?_eq_some_iff.mp hentry).1
    have herase : (Frame.map entries (next + 1) done env).erase =
        .map entries.length key (entries.drop (next + 1)) (done.filterMap entry?) env := by
      show Pending.map _ (Frame.keyBefore entries (next + 1)) _ _ _ = _
      unfold Frame.keyBefore
      rw [Nat.add_sub_cancel, hentry]
    rw [drop_of_getElem? hentry]
    exact .pure (places_push hs (.map entries (next + 1) done env)
      ⟨congrArg (· + 1) hnext, hlt, hnodup, hkeys⟩ herase _)
  · rename_i hnone
    have hall : entries.take done.size = entries :=
      List.take_of_length_le (hnext ▸ List.getElem?_eq_none_iff.mp hnone)
    rw [hall] at hkeys
    obtain ⟨hmap, hnames⟩ := entries_of_keys hkeys
    have hdone : (Entries.names (done.toList.filterMap entry?)).Nodup := hnames ▸ hnodup
    have hrebuilt : rebuild? done.toList = some (done.toList.filterMap entry?) := by
      unfold rebuild?
      rw [hmap]
      exact if_pos hdone
    refine .access hrebuilt ?_
    rw [drop_of_getElem?_none hnone]
    unfold Machine.evalMap
    dsimp only
    rw [Array.toList_filterMap, Entries.ofPairs_of_nodup hdone]
    exact .bind_lift _ fun v => .pure (places_here hs _)

/-! ## Steps -/

/-- **What is pending goes on with elements that are there.** -/
theorem follows_resume (v : Value) :
    Follows (resume v stack) (Machine.resume v (stack.map Frame.erase)) State.Places := by
  cases stack with
  | nil => exact .pure (places_here hs _)
  | cons frame stack =>
    obtain ⟨hframe, hbelow⟩ := List.forall_mem_cons.mp hs
    cases frame with
    | body call next env => exact follows_evalBody hbelow call next env
    | head call env => exact follows_begin hbelow v hframe env
    | args f call next done env =>
      have hnext : next = (done.push v).size + 1 := by
        rw [hframe.1, Array.size_push]
      exact follows_evalArgs hbelow f call env hnext
    | branch call env => exact follows_evalBranch hbelow v env hframe
    | definition name call env => exact .bind_lift _ fun _ => .pure (places_here hbelow _)
    | binding bindings index call env =>
      obtain ⟨heven, hindex, hlt, hcall⟩ := hframe
      exact follows_bindAt hbelow v env heven hindex hlt hcall
    | quasi template next done splice env =>
      obtain ⟨shape, node, items, rfl, hitems, -, -⟩ := hframe
      exact .bind_lift _ fun done => follows_quasiAt hbelow hitems next done env
    | expansion call maker depth target =>
      exact .bind_lift _ fun reads => .bind_lift _ fun _ => .pure (places_finishExpansion hbelow v target)
    | evaluate env => exact .pure (places_here hbelow _)
    | conjunction call next env =>
      unfold resume Machine.resume
      dsimp only [List.map_cons, Frame.erase]
      split
      · exact follows_conjunction hbelow env hframe
      · exact .pure (places_here hbelow _)
    | disjunction call next env =>
      unfold resume Machine.resume
      dsimp only [List.map_cons, Frame.erase]
      split
      · exact .pure (places_here hbelow _)
      · exact follows_disjunction hbelow env hframe
    | vector items next done env =>
      have hnext : next = (done.push v).size := by
        rw [hframe.1, Array.size_push]
      exact follows_evalVector hbelow env hnext
    | map entries next done env =>
      obtain ⟨hnext, hle, hnodup, hkeys⟩ := hframe
      have hlt : done.size < entries.length := by omega
      have hentry := List.getElem?_eq_getElem hlt
      have hprevious : difference? next 1 = some done.size := by
        unfold difference?
        rw [hnext, if_pos (Nat.le_add_left _ _), Nat.add_sub_cancel]
      have hkey : Frame.keyBefore entries next = entries[done.size].1 := by
        unfold Frame.keyBefore
        rw [hnext, Nat.add_sub_cancel, hentry]
      refine .access hprevious (.access hentry ?_)
      have hpush : (done.filterMap entry?).push (entries[done.size].1, v) =
          (done.push (entries[done.size].1.toValue, v)).filterMap entry? :=
        (Array.filterMap_push_some (entry?_toValue _ v) (Array.size_push _)).symm
      show Follows _ (liftM (Machine.evalMap _ _ ((done.filterMap entry?).push
        (Frame.keyBefore entries next, v)) env _)) _
      rw [hkey, hpush]
      refine follows_evalMap hbelow env hnodup ?_ ?_
      · rw [hnext, Array.size_push]
      · rw [Array.toList_push, List.map_append, hkeys, Array.size_push, List.take_succ_eq_append_getElem hlt,
          List.map_append]
        rfl
    | memo nodes => exact .bind_lift _ fun _ => .pure (places_here hbelow _)
    | job job => exact .bind_lift _ fun outcome => .pure (places_afterOutcome hbelow outcome)

theorem follows_evalSymbol (id : NodeId) (name : String) (env : Env) :
    Follows (evalSymbol id name env stack) (Machine.evalSymbol id name env (stack.map Frame.erase)) State.Places := by
  refine .bind_lift _ fun v => .bind_lift _ fun _ => .bind_lift _ fun _ => .bind_lift _ fun w => ?_
  cases w.site? env name with
  | none => exact follows_resume hs v
  | some site => exact .bind_lift _ fun _ => follows_resume hs v

theorem follows_evalList (node : Node) (items : List Value) (env : Env) :
    Follows (evalList node items env stack) (Machine.evalList node items env (stack.map Frame.erase))
      State.Places := by
  unfold evalList Machine.evalList
  dsimp only
  rw [← erase_memo]
  split
  · exact follows_evalBody (wellFormed_memo hs _) ⟨node, items⟩ 0 env
  · cases items with
    | nil => exact follows_resume hs _
    | cons head rest =>
      have hcall : (⟨node, head :: rest⟩ : Call).items ≠ [] := List.cons_ne_nil _ _
      rw [if_neg (by simp)]
      dsimp only
      cases (Value.headName? (head :: rest)).bind Special.ofName? with
      | some special => exact follows_evalSpecial (wellFormed_memo hs _) special hcall env
      | none =>
        exact .access rfl (.pure (places_push (wellFormed_memo hs _) (.head ⟨node, head :: rest⟩ env) hcall rfl _))

/-- A map whose keys differ is taken apart and rebuilt. -/
theorem follows_eval {form : Value} (env : Env)
    (hform : ∀ node entries, form = .map node entries → (Entries.names entries).Nodup) :
    Follows (eval form env stack) (Machine.eval form env (stack.map Frame.erase)) State.Places := by
  cases form with
  | seq shape node items =>
    cases shape with
    | list => exact follows_evalList hs node items env
    | vector =>
      unfold eval Machine.eval
      dsimp only
      rw [← erase_memo]
      split
      · exact follows_resume hs _
      · exact follows_evalVector (wellFormed_memo hs _) env rfl
  | map node entries =>
    unfold eval Machine.eval
    dsimp only
    rw [← erase_memo]
    split
    · exact follows_resume hs _
    · exact follows_evalMap (wellFormed_memo hs _) env (hform node entries rfl) rfl rfl
  | symbol id name => exact follows_evalSymbol hs id name env
  | _ => exact follows_resume hs _

theorem follows_quasi (form : Value) (env : Env) :
    Follows (quasi form env stack) (Machine.quasi form env (stack.map Frame.erase)) State.Places := by
  cases form with
  | seq shape node items =>
    unfold quasi Machine.quasi
    dsimp only
    split
    · match items with
      | [_, form] => exact .pure (places_here hs _)
      | [] => exact .fail _
      | [_] => exact .fail _
      | _ :: _ :: _ :: _ => exact .fail _
    · split
      · exact follows_resume hs _
      · rename_i hempty
        exact follows_quasiAt hs (fun h => hempty (List.isEmpty_iff.mpr h)) 0 #[] env
  | _ => exact follows_resume hs _

omit hs

/-- **A step goes on with elements that are there**, and is that of the machine without positions. -/
theorem follows_step {s : State} (hs : s.WellFormed)
    (hmap : ∀ node entries env, s.control = .eval (.map node entries) env → (Entries.names entries).Nodup) :
    Follows (step s) (Machine.step s.erase) State.Places := by
  obtain ⟨control, stack⟩ := s
  cases control with
  | eval form env =>
    refine follows_eval hs env ?_
    rintro node entries rfl
    exact hmap node entries env rfl
  | quasi form env => exact follows_quasi hs form env
  | ret v => exact follows_resume hs v
  | call f args => exact follows_apply hs f args
  | landed v => exact .pure ⟨rfl, hs⟩

/-- **Any number of steps goes on with elements that are there.** -/
theorem agrees_steps (n : Nat) {R : Registry} {s : State} (hs : s.WellFormed) (ho : R.Open)
    (hk : R.StateKnown s.erase) {w : World} (hw : R.Ok w) : Agrees State.Places ((steps n s).run w) (Machine.steps n s.erase w) := by
  induction n generalizing R s w with
  | zero => exact .ok ⟨rfl, hs⟩
  | succ n ih =>
    have hmap : ∀ node entries env, s.control = .eval (.map node entries) env →
        (Entries.names entries).Nodup := by
      intro node entries env hc
      have hknown := hk.1
      unfold State.erase at hknown
      rw [hc] at hknown
      exact (hw.partsKnown hknown.1).1
    have hstep := follows_step hs hmap w
    obtain ⟨R', hle, hdone⟩ := Machine.keeps_step ho hk w hw
    unfold steps Machine.steps
    generalize hc : (step s).run w = r at hstep
    generalize hm : Machine.step s.erase w = r' at hstep hdone
    cases hstep with
    | @ok next next' w' hplaces =>
      rw [run_bind_of_some hc, bind_of_eq_ok hm, ← hplaces.erase]
      refine ih hplaces.wellFormed (ho.mono hle) ?_ hdone.1
      rw [hplaces.erase]
      exact hdone.2
    | error =>
      rw [run_bind_of_error hc, bind_of_eq_error hm]
      exact .error

end EditableLisp.Indexed

namespace EditableLisp.Session

/-- **No step takes an element out of a node where there is none.** From every form within reach in every frame
within reach, any number of steps of the machine with positions comes to a state in which all that is pending is
well formed, or fails as the machine fails; it is never stuck at an access that is out of range, at a map that
lacks a key or at one that has a key twice. Without its positions the state is the one that the machine comes to
in as many steps, in the same world. -/
theorem Reachable.steps_in_range {s : Session} (h : s.Reachable) {form : Value} {env : Env} (hf : s.Has form)
    (he : s.HasFrame env) (n : Nat) :
    (∀ w, (Indexed.steps n ⟨.eval form env, []⟩).run s.world ≠ .ok none w) ∧
    (∀ c w, (Indexed.steps n ⟨.eval form env, []⟩).run s.world = .ok (some c) w →
      c.WellFormed ∧ Machine.steps n ⟨.eval form env, []⟩ s.world = .ok c.erase w) ∧
    ∀ b w, (Indexed.steps n ⟨.eval form env, []⟩).run s.world = .error b w →
      Machine.steps n ⟨.eval form env, []⟩ s.world = .error b w := by
  obtain ⟨R, hsound⟩ := h.exists_sound
  have hstate : R.StateKnown ⟨.eval form env, []⟩ :=
    ⟨⟨hsound.known hf, hsound.inScope he⟩, Registry.stackKnown_nil⟩
  have hagrees := @Indexed.agrees_steps n R ⟨.eval form env, []⟩ nofun hsound.free hstate s.world hsound.world
  change Indexed.Agrees _ _ (Machine.steps n ⟨.eval form env, []⟩ s.world) at hagrees
  generalize (Indexed.steps n ⟨.eval form env, []⟩).run s.world = r at hagrees
  generalize Machine.steps n ⟨.eval form env, []⟩ s.world = r' at hagrees
  cases hagrees with
  | @ok c next w hplaces =>
    refine ⟨nofun, ?_, nofun⟩
    rintro _ _ ⟨⟩
    exact ⟨hplaces.wellFormed, by rw [hplaces.erase]⟩
  | error =>
    refine ⟨nofun, nofun, ?_⟩
    rintro _ _ ⟨⟩
    rfl

/-- The state that some number of steps come to at the root, if they do. -/
def reached? (n : Nat) (form : Value) (w : World) : Option (Indexed.State × World) :=
  match (Indexed.steps n ⟨.eval form .global, []⟩).run w with
  | .ok (some c) w' => some (c, w')
  | _ => none

theorem reached?_eq_some {n : Nat} {form : Value} {c : Indexed.State} {w w' : World}
    (h : reached? n form w = some (c, w')) :
    (Indexed.steps n ⟨.eval form .global, []⟩).run w = .ok (some c) w' := by
  unfold reached? at h
  split at h
  · cases h
    assumption
  · cases h

/-- In the middle of a vector in a map. -/
theorem Reachable.steps_in_range_nested : ∃ (s : Session) (form : Value) (c : Indexed.State) (w : World),
    s.Reachable ∧ s.Has form ∧ (Indexed.steps 5 ⟨.eval form .global, []⟩).run s.world = .ok (some c) w ∧
    State.describeStack c.erase.stack = "<EvalVector 2 <Memo 1 <EvalMap 2 <Memo 2 <Return>>>>>" ∧
    c.WellFormed ∧ Machine.steps 5 ⟨.eval form .global, []⟩ s.world = .ok c.erase w := by
  have test : ((readForms? "\x7b:a 1 :b [2 3]\x7d" World.initial).any fun r =>
      (reached? 5 (.seq .list r.1 r.2.1) r.2.2).any fun q =>
        State.describeStack q.1.erase.stack == "<EvalVector 2 <Memo 1 <EvalMap 2 <Memo 2 <Return>>>>>") = true := by
    decide +kernel
  obtain ⟨⟨node, items, w⟩, hread, hrest⟩ := (Option.any_eq_true _ _).mp test
  obtain ⟨⟨c, w'⟩, hreached, hstack⟩ := (Option.any_eq_true _ _).mp hrest
  let form : Value := .seq .list node items
  let read : Session := ⟨w, [form], [], []⟩
  have hsession : read.Reachable := Reachable.bare.step (.read (readForms?_eq_some hread))
  have hheld : read.Has form := .held List.mem_cons_self
  have hrun := reached?_eq_some hreached
  obtain ⟨hwell, hmachine⟩ := (hsession.steps_in_range hheld .global 5).2.1 c w' hrun
  exact ⟨read, form, c, w', hsession, hheld, hrun, beq_iff_eq.mp hstack, hwell, hmachine⟩

end EditableLisp.Session
