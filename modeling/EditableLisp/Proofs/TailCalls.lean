import EditableLisp.Proofs.Refinement
import EditableLisp.Proofs.Session
import EditableLisp.Proofs.Waiting

/-!
# Tail calls

The last form of a program, of a body, of a `let` or of a function, the branch that is chosen, the last form of an
`and` or `or`, what `eval` got for a form and the expansion of a call are evaluated in place of the list that they
belong to. `Tail` says this without the machine: the forms that are evaluated before, and not in place of the list,
have the values that direct evaluation gives.

* `Machine.reaches_tail`: from a list and any pending steps the machine comes to the form in its place. Only a memo
  step was added, for the list; what was pending for the forms before is gone.
* `Machine.reaches_tails`: a run through any number of such places adds the lists to one memo step.
* `Machine.Tidy.step`: no step puts a memo step on another, or a node twice into one.
* **`tail_calls_proper`** puts these together.
-/

namespace EditableLisp

open Direct (parts)

/-! ## Places in tail position -/

namespace Call

/-- The special form that a list is, if it is one. -/
def special? (c : Call) : Option Special :=
  if c.node.style = .program then none else (Value.headName? c.items).bind Special.ofName?

/-- A list is a call: no program, not empty, and no special form. -/
def IsCall (c : Call) (head : Value) (args : List Value) : Prop :=
  c.node.style ≠ .program ∧ c.items = head :: args ∧ (Value.headName? c.items).bind Special.ofName? = none

end Call

/-- The evaluation of a list in a chain and a world comes to that of a form in its place, in a chain and a world.
What is evaluated before has the value that direct evaluation gives to at most so many levels. -/
inductive Tail (depth : Nat) (env : Env) (w : World) : Value → Value → Env → World → Prop where
  | program {c : Call} {before vs : List Value} {last : Value} {w' : World} : c.node.style = .program →
      c.items = before ++ [last] → Direct.evalEach (parts depth) env before w = .ok vs w' →
      Tail depth env w c.toValue last env w'
  | body {c : Call} {head last : Value} {before vs : List Value} {w' : World} : c.special? = some .body →
      c.items = head :: (before ++ [last]) → Direct.evalEach (parts depth) env before w = .ok vs w' →
      Tail depth env w c.toValue last env w'
  | bindings {c : Call} {head last : Value} {node : Node} {bindings before vs : List Value} {frame : Env}
      {w₁ w₂ w' : World} : c.special? = some .bindings →
      c.items = head :: .seq .vector node bindings :: (before ++ [last]) → bindings.length % 2 ≠ 1 →
      newChild env w = (frame, w₁) → Direct.bindEach (parts depth) frame bindings w₁ = .ok () w₂ →
      Direct.evalEach (parts depth) frame before w₂ = .ok vs w' → Tail depth env w c.toValue last frame w'
  | yes {c : Call} {head test yes v : Value} {no : Option Value} {w' : World} : c.special? = some .conditional →
      c.items = head :: test :: yes :: no.toList → Direct.eval depth test env w = .ok v w' → v.isTruthy = true →
      Tail depth env w c.toValue yes env w'
  | no {c : Call} {head test yes no v : Value} {w' : World} : c.special? = some .conditional →
      c.items = [head, test, yes, no] → Direct.eval depth test env w = .ok v w' → v.isTruthy = false →
      Tail depth env w c.toValue no env w'
  | conjunction {c : Call} {head last : Value} {before vs : List Value} {w' : World} :
      c.special? = some .conjunction → c.items = head :: (before ++ [last]) →
      Direct.evalEach (parts depth) env before w = .ok vs w' → (∀ v ∈ vs, v.isTruthy = true) →
      Tail depth env w c.toValue last env w'
  | disjunction {c : Call} {head last : Value} {before vs : List Value} {w' : World} :
      c.special? = some .disjunction → c.items = head :: (before ++ [last]) →
      Direct.evalEach (parts depth) env before w = .ok vs w' → (∀ v ∈ vs, v.isTruthy = false) →
      Tail depth env w c.toValue last env w'
  | evaluate {c : Call} {head form v : Value} {w' : World} : c.special? = some .evaluate →
      c.items = [head, form] → Direct.eval depth form env w = .ok v w' → Tail depth env w c.toValue v env.root w'
  | call {c : Call} {head params body data : Value} {args vs : List Value} {id : NodeId} {scope frame : Env}
      {w₁ w₂ w' : World} : c.IsCall head args →
      Direct.eval depth head env w = .ok (.closure id .function params body scope data) w₁ →
      Direct.evalEach (parts depth) env args (Machine.markOrdinary c w₁).2 = .ok vs w₂ →
      Machine.enter scope params vs w₂ = .ok frame w' → Tail depth env w c.toValue body frame w'
  | expansion {c : Call} {head f form : Value} {args : List Value} {w₁ w' : World} : c.IsCall head args →
      Direct.eval depth head env w = .ok f w₁ → f.isExpander = true →
      Direct.expand (parts depth) c f w₁ = .ok form w' → Tail depth env w c.toValue form env w'

/-- A run of places in tail position, each reached from the one before; the lists on the way are `nodes`. -/
inductive Tails : List Value → Env → World → Value → Value → Env → World → Prop where
  | here {env : Env} {w : World} {form : Value} : Tails [] env w form form env w
  | there {depth : Nat} {nodes : List Value} {env env' env'' : Env} {w w' w'' : World} {form form' form'' : Value} :
      Tail depth env w form form' env' w' → Tails nodes env' w' form' form'' env'' w'' →
      Tails (form :: nodes) env w form form'' env'' w''

namespace Machine

variable {stack : List Pending} {act next : Act State} {w w' w₁ : World} {depth : Nat} {env : Env}

/-! ## What is evaluated before -/

theorem Reaches.bind {α : Type} {m : Act α} {f : α → Act State} {a : α} (e : m w = .ok a w₁)
    (h : Reaches (f a) w₁ next w') : Reaches (m >>= f) w next w' := (Reaches.of_eq (bind_of_eq_ok e)).trans h

/-- A form that something waits for is evaluated, and its value goes to what waits. -/
theorem reaches_eval {form v : Value} (h : Direct.eval depth form env w = .ok v w₁) (wait : Pending)
    (hwait : wait.isMemo = false) (stack : List Pending) :
    Reaches (pure ⟨.eval form env, wait :: stack⟩) w (resume v (wait :: stack)) w₁ := by
  have hagrees := agrees_eval depth form env (wait :: stack) w
  rw [h] at hagrees
  cases hagrees with
  | value _ hreaches =>
    have hnot : ∀ nodes below, wait :: stack ≠ .memo nodes :: below :=
      fun nodes _ he => by
        cases he
        cases hwait
    exact ((Reaches.step ⟨.eval form env, wait :: stack⟩ rfl).trans hreaches).trans (reaches_pend hnot v _ _)

/-- The values of several forms are those of the first and of the others. -/
theorem evalEach_cons {form : Value} {rest vs : List Value}
    (h : Direct.evalEach (parts depth) env (form :: rest) w = .ok vs w') :
    ∃ v vs' w₁, vs = v :: vs' ∧ Direct.eval depth form env w = .ok v w₁ ∧
      Direct.evalEach (parts depth) env rest w₁ = .ok vs' w' := by
  unfold Direct.evalEach at h
  obtain ⟨v, w₁, hfirst, h⟩ := bind_eq_ok h
  obtain ⟨vs', w₂, hrest, h⟩ := bind_eq_ok h
  cases h
  exact ⟨v, vs', w₁, rfl, hfirst, hrest⟩

/-- Forms are evaluated in turn where each value that may be passed over leads to the next one, and the last one is
evaluated in place of all of them. -/
theorem reaches_last {stack : List Pending} {last : Value} (go : List Value → State) (wait : List Value → Pending)
    (passes : Value → Prop) (hgo : ∀ form rest, go (form :: (rest ++ [last])) =
      ⟨.eval form env, wait (rest ++ [last]) :: stack⟩) (hlast : go [last] = ⟨.eval last env, stack⟩)
    (hwait : ∀ rest, (wait rest).isMemo = false)
    (hresume : ∀ v rest, passes v → resume v (wait rest :: stack) = pure (go rest)) {before vs : List Value}
    (h : Direct.evalEach (parts depth) env before w = .ok vs w') (hvs : ∀ v ∈ vs, passes v) :
    Reaches (pure (go (before ++ [last]))) w (pure ⟨.eval last env, stack⟩) w' := by
  induction before generalizing w vs with
  | nil =>
    cases h
    rw [List.nil_append, hlast]
    exact .of_eq rfl
  | cons form rest ih =>
    obtain ⟨v, vs', w₁, rfl, hfirst, hrest⟩ := evalEach_cons h
    obtain ⟨hv, hvs'⟩ := List.forall_mem_cons.mp hvs
    rw [List.cons_append, hgo]
    refine (reaches_eval hfirst (wait (rest ++ [last])) (hwait _) stack).trans ?_
    rw [hresume v _ hv]
    exact ih hrest hvs'

/-- The forms of a body before the last one are evaluated, and the last one in place of the body. -/
theorem reaches_evalBody {before vs : List Value} (h : Direct.evalEach (parts depth) env before w = .ok vs w')
    (total : Nat) (last : Value) (stack : List Pending) :
    Reaches (pure (evalBody total (before ++ [last]) env stack)) w (pure ⟨.eval last env, stack⟩) w' := by
  have hgo : ∀ form rest, evalBody total (form :: (rest ++ [last])) env stack =
      ⟨.eval form env, .body total (rest ++ [last]) env :: stack⟩ := fun form rest => by cases rest <;> rfl
  exact reaches_last (evalBody total · env stack) (.body total · env) (fun _ => True) hgo rfl (fun _ => rfl)
    (fun _ _ _ => rfl) h fun _ _ => trivial

theorem reaches_evalConjunction {before vs : List Value}
    (h : Direct.evalEach (parts depth) env before w = .ok vs w') (htrue : ∀ v ∈ vs, v.isTruthy = true)
    (total : Nat) (last : Value) (stack : List Pending) :
    Reaches (pure (evalConjunction total (before ++ [last]) env stack)) w (pure ⟨.eval last env, stack⟩) w' := by
  have hgo : ∀ form rest, evalConjunction total (form :: (rest ++ [last])) env stack =
      ⟨.eval form env, .conjunction total (rest ++ [last]) env :: stack⟩ := fun form rest => by cases rest <;> rfl
  exact reaches_last (evalConjunction total · env stack) (.conjunction total · env) _ hgo rfl (fun _ => rfl)
    (fun _ _ hv => if_pos hv) h htrue

theorem reaches_evalDisjunction {before vs : List Value}
    (h : Direct.evalEach (parts depth) env before w = .ok vs w') (hfalse : ∀ v ∈ vs, v.isTruthy = false)
    (total : Nat) (last : Value) (stack : List Pending) :
    Reaches (pure (evalDisjunction total (before ++ [last]) env stack)) w (pure ⟨.eval last env, stack⟩) w' := by
  have hgo : ∀ form rest, evalDisjunction total (form :: (rest ++ [last])) env stack =
      ⟨.eval form env, .disjunction total (rest ++ [last]) env :: stack⟩ := fun form rest => by cases rest <;> rfl
  exact reaches_last (evalDisjunction total · env stack) (.disjunction total · env) _ hgo rfl (fun _ => rfl)
    (fun _ _ hv => if_neg (Bool.eq_false_iff.mp hv)) h hfalse

/-- The bindings of a `let` are made, and its body is evaluated. -/
theorem reaches_evalBindings {bindings : List Value} (h : Direct.bindEach (parts depth) env bindings w = .ok () w')
    (index : Nat) (call : Call) (stack : List Pending) :
    Reaches (pure (evalBindings index bindings call env stack)) w
      (pure (evalBody call.items.length (call.items.drop 2) env stack)) w' := by
  induction bindings using Direct.bindEach.induct generalizing w index with
  | case1 pattern form rest ih =>
    unfold Direct.bindEach at h
    obtain ⟨v, w₁, hform, h⟩ := bind_eq_ok h
    obtain ⟨_, w₂, hpattern, hrest⟩ := bind_eq_ok h
    refine (reaches_eval hform (.binding index pattern rest call env) rfl stack).trans ?_
    exact Reaches.bind hpattern (ih hrest (index + 2))
  | case2 rest hrest =>
    have hdone : Direct.bindEach (parts depth) env rest = pure () := by
      unfold Direct.bindEach
      split
      · exact absurd rfl (hrest _ _ _)
      · rfl
    rw [hdone] at h
    cases h
    unfold evalBindings
    split
    · exact absurd rfl (hrest _ _ _)
    · exact .of_eq rfl

/-- The arguments of a call are evaluated, and the function is called on them. -/
theorem reaches_evalArgs {args vs : List Value} (h : Direct.evalEach (parts depth) env args w = .ok vs w')
    (f : Value) (call : Call) (done : Array Value) (stack : List Pending) :
    Reaches (evalArgs f call args done env stack) w (apply f (done.toList ++ vs) stack) w' := by
  induction args generalizing w vs done with
  | nil =>
    cases h
    rw [List.append_nil]
    exact .of_eq rfl
  | cons form rest ih =>
    obtain ⟨v, vs', w₁, rfl, hfirst, hrest⟩ := evalEach_cons h
    have hnext := ih hrest (done.push v)
    rw [Array.toList_push, List.append_assoc, List.singleton_append] at hnext
    exact (reaches_eval hfirst (.args f call rest done env) rfl stack).trans hnext

/-- The call of an expander is expanded, whether anew or not, and the expansion is evaluated in its place. -/
theorem reaches_expandCall {call : Call} {f form : Value} (h : Direct.expand (parts depth) call f w = .ok form w')
    (target : Option Env) (stack : List Pending) :
    Reaches (expandCall call f target stack) w (pure (finishExpansion form target stack)) w' := by
  unfold Direct.expand at h
  obtain ⟨served, w₁, hserved, h⟩ := bind_eq_ok h
  refine Reaches.bind hserved ?_
  cases served with
  | some kept =>
    cases h
    exact .of_eq rfl
  | none =>
    unfold Direct.expandAnew at h
    cases f with
    | builtin id code data =>
      obtain ⟨made, w₂, hmade, h⟩ := bind_eq_ok h
      cases h
      exact Reaches.bind hmade (.of_eq rfl)
    | closure id kind params body scope data =>
      obtain ⟨frame, w₂, henter, h⟩ := bind_eq_ok h
      refine Reaches.bind henter ?_
      split at h
      · rename_i hkind
        rw [if_pos hkind]
        cases h
        exact .of_eq rfl
      · rename_i hkind
        rw [if_neg hkind]
        obtain ⟨outer, w₃, hstart, h⟩ := bind_eq_ok h
        obtain ⟨made, w₄, hmade, h⟩ := bind_eq_ok h
        cases h
        refine Reaches.bind hstart ?_
        exact (reaches_eval hmade (.expansion call _ outer target) rfl stack).trans (.of_eq rfl)
    | _ =>
      obtain ⟨_, _, _, h⟩ := bind_eq_ok h
      cases h

/-! ## Forms in place of a list -/

theorem eval_program {c : Call} (h : c.node.style = .program) (env : Env) (stack : List Pending) :
    eval c.toValue env stack = pure (evalBody c.items.length c.items env (memo c.toValue stack)) := if_pos h

theorem eval_special {c : Call} {special : Special} (h : c.special? = some special) (env : Env)
    (stack : List Pending) : eval c.toValue env stack = evalSpecial special c env (memo c.toValue stack) := by
  obtain ⟨node, items⟩ := c
  obtain ⟨hstyle, hname⟩ := Option.ite_none_left_eq_some.mp h
  cases items with
  | nil => cases hname
  | cons head rest =>
    have hlist : eval (Call.toValue ⟨node, head :: rest⟩) env stack = _ := if_neg hstyle
    have hname : (Value.headName? (head :: rest)).bind Special.ofName? = some special := hname
    rw [hname] at hlist
    exact hlist

theorem eval_call {c : Call} {head : Value} {args : List Value} (h : c.IsCall head args) (env : Env)
    (stack : List Pending) :
    eval c.toValue env stack = pure ⟨.eval head env, .head c env :: memo c.toValue stack⟩ := by
  obtain ⟨node, items⟩ := c
  obtain ⟨hstyle, hitems, hname⟩ := h
  obtain rfl : items = head :: args := hitems
  have hlist : eval (Call.toValue ⟨node, head :: args⟩) env stack = _ := if_neg hstyle
  have hname : (Value.headName? (head :: args)).bind Special.ofName? = none := hname
  rw [hname] at hlist
  exact hlist

/-- The call of an expander is expanded. -/
theorem begin_of_isExpander {f : Value} (h : f.isExpander = true) (c : Call) (env : Env) (stack : List Pending) :
    begin f c env stack = expandCall c f (some env) stack := by
  have hfunction : ¬ f.functionId?.isNone = true := by
    cases f with
    | builtin | closure => nofun
    | _ => cases h
  exact (if_neg hfunction).trans (if_pos h)

/-- **A form in tail position is evaluated in place of its list**: it has the list to keep the value for, on top of
what was pending for the list, and nothing else. -/
theorem reaches_tail {form form' : Value} {env' : Env} (h : Tail depth env w form form' env' w')
    (stack : List Pending) :
    Reaches (eval form env stack) w (pure ⟨.eval form' env', memo form stack⟩) w' := by
  cases h with
  | program hstyle hitems hbefore =>
    rw [eval_program hstyle, hitems]
    exact reaches_evalBody hbefore _ _ _
  | @body c head last before vs w' hspecial hitems hbefore =>
    rw [eval_special hspecial]
    have hbody : evalSpecial .body c env (memo c.toValue stack) =
        pure (evalBody c.items.length (before ++ [form']) env (memo c.toValue stack)) := by
      unfold evalSpecial
      rw [hitems]
      rfl
    rw [hbody]
    exact reaches_evalBody hbefore _ _ _
  | @bindings c head last node bindings before vs frame w₁ w₂ w' hspecial hitems heven hchild hbind hbefore =>
    rw [eval_special hspecial]
    have hlet : evalSpecial .bindings c env (memo c.toValue stack) = (liftM (newChild env) : Act Env) >>= fun frame =>
        pure (evalBindings 0 bindings c frame (memo c.toValue stack)) := by
      unfold evalSpecial evalLet
      rw [hitems]
      exact if_neg heven
    have hbody : c.items.drop 2 = before ++ [form'] := by rw [hitems]; rfl
    rw [hlet]
    refine Reaches.bind (lift_of_eq hchild) ((reaches_evalBindings hbind 0 c _).trans ?_)
    rw [hbody]
    exact reaches_evalBody hbefore _ _ _
  | @yes c head test yes v no w' hspecial hitems htest htrue =>
    rw [eval_special hspecial]
    have hbranch : evalSpecial .conditional c env (memo c.toValue stack) =
        pure ⟨.eval test env, .branch form' no env :: memo c.toValue stack⟩ := by
      unfold evalSpecial evalConditional
      rw [hitems]
      cases no <;> rfl
    rw [hbranch]
    refine (reaches_eval htest (.branch form' no env) rfl _).trans (.of_eq ?_)
    unfold resume
    rw [htrue]
  | @no c head test yes no v w' hspecial hitems htest hfalse =>
    rw [eval_special hspecial]
    have hbranch : evalSpecial .conditional c env (memo c.toValue stack) =
        pure ⟨.eval test env, .branch yes (some form') env :: memo c.toValue stack⟩ := by
      unfold evalSpecial evalConditional
      rw [hitems]
    rw [hbranch]
    refine (reaches_eval htest (.branch yes (some form') env) rfl _).trans (.of_eq ?_)
    unfold resume
    rw [hfalse]
  | @conjunction c head last before vs w' hspecial hitems hbefore htrue =>
    rw [eval_special hspecial]
    have hforms : evalSpecial .conjunction c env (memo c.toValue stack) =
        pure (evalConjunction c.items.length (before ++ [form']) env (memo c.toValue stack)) := by
      unfold evalSpecial
      rw [hitems]
      rfl
    rw [hforms]
    exact reaches_evalConjunction hbefore htrue _ _ _
  | @disjunction c head last before vs w' hspecial hitems hbefore hfalse =>
    rw [eval_special hspecial]
    have hforms : evalSpecial .disjunction c env (memo c.toValue stack) =
        pure (evalDisjunction c.items.length (before ++ [form']) env (memo c.toValue stack)) := by
      unfold evalSpecial
      rw [hitems]
      rfl
    rw [hforms]
    exact reaches_evalDisjunction hbefore hfalse _ _ _
  | @evaluate c head inner v w' hspecial hitems hform =>
    rw [eval_special hspecial]
    have hinner : evalSpecial .evaluate c env (memo c.toValue stack) =
        pure ⟨.eval inner env, .evaluate env :: memo c.toValue stack⟩ := by
      unfold evalSpecial onlyArgument
      rw [hitems]
      rfl
    rw [hinner]
    exact (reaches_eval hform (.evaluate env) rfl _).trans (.of_eq rfl)
  | @call c head params body data args vs id scope frame w₁ w₂ w' hcall hhead hargs henter =>
    rw [eval_call hcall]
    refine (reaches_eval hhead (.head c env) rfl _).trans ?_
    have htail : c.items.tail = args := by rw [hcall.2.1]; rfl
    have hbegin : begin (.closure id .function params form' scope data) c env (memo c.toValue stack) =
        (liftM (markOrdinary c) : Act Unit) >>= fun _ =>
          evalArgs (.closure id .function params form' scope data) c args #[] env (memo c.toValue stack) := by
      rw [← htail]
      rfl
    refine Reaches.trans (.of_eq (congrFun hbegin w₁)) (Reaches.bind (lift_of_eq rfl) ?_)
    exact (reaches_evalArgs hargs _ c #[] _).trans (Reaches.bind henter (.of_eq rfl))
  | @expansion c head f form' args w₁ w' hcall hhead hexpander hexpand =>
    rw [eval_call hcall]
    refine (reaches_eval hhead (.head c env) rfl _).trans ?_
    refine Reaches.trans (.of_eq (congrFun (begin_of_isExpander hexpander c env _) w₁)) ?_
    exact reaches_expandCall hexpand (some env) _

/-- A state that is reached from the step of another is so by steps from that one. -/
theorem Reaches.exists_steps {s s' : State} (h : Reaches (Machine.step s) w (pure s') w') :
    ∃ n, Machine.steps n s w = .ok s' w' := by
  obtain ⟨n, hn⟩ := h
  exact ⟨n + 1, hn⟩

/-- **Any number of places in tail position adds the lists on the way**, and nothing else. -/
theorem reaches_tails {nodes : List Value} {form form' : Value} {env' : Env}
    (h : Tails nodes env w form form' env' w') (stack : List Pending) :
    ∃ n, steps n ⟨.eval form env, stack⟩ w = .ok ⟨.eval form' env', pend nodes stack⟩ w' := by
  induction h generalizing stack with
  | here => exact ⟨0, rfl⟩
  | @there depth nodes env env₁ env' w w₁ w' form form₁ form' hfirst _ ih =>
    obtain ⟨m, hm⟩ := @Reaches.exists_steps w w₁ ⟨.eval form env, stack⟩ _ (reaches_tail hfirst stack)
    obtain ⟨n, hn⟩ := ih (memo form stack)
    refine ⟨m + n, ?_⟩
    rw [steps_add, bind_of_eq_ok hm, hn]
    rfl

/-! ## Memo steps on a stack -/

/-- No memo step stands directly on another, and none has a node twice. -/
def Tidy : List Pending → Prop
  | [] => True
  | .memo nodes :: rest =>
    nodes.Pairwise (fun a b => a.identical b = false) ∧ (∀ more below, rest ≠ .memo more :: below) ∧ Tidy rest
  | _ :: rest => Tidy rest

/-- What is pending besides memo steps. -/
def withoutMemos (stack : List Pending) : List Pending :=
  stack.filter fun p => !p.isMemo

theorem tidy_cons {p : Pending} (hp : p.isMemo = false) : Tidy (p :: stack) ↔ Tidy stack := by
  cases p with
  | memo nodes => cases hp
  | _ => rfl

theorem Tidy.tail {p : Pending} (h : Tidy (p :: stack)) : Tidy stack := by
  cases p with
  | memo nodes => exact h.2.2
  | _ => exact h

/-- A memo step is made where there is none at the top, and gets a node that it does not have. -/
theorem Tidy.memo (h : Tidy stack) (node : Value) : Tidy (memo node stack) := by
  unfold Machine.memo
  split
  · rename_i nodes below
    obtain ⟨hnodes, hbelow, htail⟩ := h
    split
    · exact ⟨hnodes, hbelow, htail⟩
    · rename_i hnew
      refine ⟨List.pairwise_append.mpr ⟨hnodes, List.pairwise_singleton _ _, fun a ha b hb => ?_⟩, hbelow, htail⟩
      obtain rfl := List.mem_singleton.mp hb
      exact Bool.eq_false_iff.mpr fun hsame => hnew (List.any_eq_true.mpr ⟨a, ha, hsame⟩)
  · rename_i hnot
    exact ⟨List.pairwise_singleton _ _, hnot, h⟩

theorem Tidy.shifts {stack stack' : List Pending} (h : Tidy stack) (hs : Shifts stack stack') : Tidy stack' := by
  induction hs with
  | stays => exact h
  | pushes hp => exact (tidy_cons hp).mpr h
  | pops _ _ ih => exact ih h.tail

/-- **A step leaves a tidy stack tidy.** -/
theorem Tidy.step {s s' : State} (h : Tidy s.stack) (hs : Machine.step s w = .ok s' w') : Tidy s'.stack := by
  have hentered : Tidy s.entered := by
    rcases s.entered_cases with he | ⟨form, env, -, -, he⟩
    · rw [he]
      exact h
    · rw [he]
      exact h.memo form
  rcases stack_of_step hs with hshifts | ⟨nodes, hstack⟩
  · exact hentered.shifts hshifts
  · rw [hstack] at hentered
    exact hentered.tail

theorem Tidy.steps {n : Nat} {s s' : State} (h : Tidy s.stack) (hs : Machine.steps n s w = .ok s' w') :
    Tidy s'.stack := by
  induction n generalizing s w with
  | zero =>
    cases hs
    exact h
  | succ n ih =>
    obtain ⟨next, w₁, hfirst, hrest⟩ := bind_eq_ok hs
    exact ih (h.step hfirst) hrest

/-- Nodes that wait on a stack change nothing else that is pending. -/
theorem withoutMemos_pend (nodes : List Value) (stack : List Pending) :
    withoutMemos (pend nodes stack) = withoutMemos stack := by
  have hgains := pend_gains nodes stack
  generalize pend nodes stack = stack' at hgains
  cases hgains <;> rfl

end Machine

open Machine in
/-- The runs of a session that can be reached have tidy stacks. -/
theorem Session.Reachable.tidy {s : Session} (h : s.Reachable) : ∀ state ∈ s.runs, Tidy state.stack := by
  induction h with
  | full => nofun
  | bare => nofun
  | step _ hstep ih =>
    cases hstep with
    | start _ _ => exact List.forall_mem_cons.mpr ⟨trivial, ih⟩
    | startCall _ _ => exact List.forall_mem_cons.mpr ⟨trivial, ih⟩
    | advance hmem hs => exact List.forall_mem_cons.mpr ⟨(ih _ hmem).step hs, ih⟩
    | _ => exact ih

open Machine in
/-- **Tail calls are proper.** Whatever is pending for a list, each form in its tail position is evaluated with the
list added to the memo step for what is pending, and nothing else. So a run through any number of tail calls has
the same pending steps, memo steps aside, at each function body and each other form that it enters. In every run
that a host takes step by step, in every evaluation, call and expansion that it asks for, and after any number of
steps, no memo step stands directly on another and none has a node twice. -/
theorem tail_calls_proper :
    (∀ depth env w form form' env' w', Tail depth env w form form' env' w' → ∀ stack, ∃ n,
      steps n ⟨.eval form env, stack⟩ w = .ok ⟨.eval form' env', memo form stack⟩ w') ∧
    (∀ nodes env w body body' env' w', Tails nodes env w body body' env' w' → ∀ stack, ∃ n stack',
      steps n ⟨.eval body env, stack⟩ w = .ok ⟨.eval body' env', stack'⟩ w' ∧ stack' = pend nodes stack ∧
      withoutMemos stack' = withoutMemos stack) ∧
    (∀ s : Session, s.Reachable → ∀ state ∈ s.runs, Tidy state.stack) ∧
    (∀ n control w next w', steps n ⟨control, []⟩ w = .ok next w' → Tidy next.stack) ∧
    ∀ n form env w next w', (expandOnce form env [] >>= steps n) w = .ok next w' → Tidy next.stack := by
  refine ⟨fun depth env w form form' env' w' h stack =>
    @Reaches.exists_steps w w' ⟨.eval form env, stack⟩ _ (reaches_tail h stack),
    fun nodes env w body body' env' w' h stack => ?_, fun s hs => hs.tidy, fun n control w next w' h => ?_,
    fun n form env w next w' h => ?_⟩
  · obtain ⟨n, hn⟩ := reaches_tails h stack
    exact ⟨n, _, hn, rfl, withoutMemos_pend nodes stack⟩
  · exact @Tidy.steps w w' n ⟨control, []⟩ next trivial h
  · obtain ⟨first, w₁, hfirst, hrest⟩ := bind_eq_ok h
    have hstart : Tidy first.stack := @Tidy.shifts [] first.stack trivial ((waits_expandOnce form).shifts _ _ _ hfirst)
    exact hstart.steps hrest

open Machine in
/-- A function is called as soon as it is made, and its body is a `do`: the last form of the `do` is evaluated with
one memo step more than the call, which has the call and the `do`. -/
theorem tail_calls_proper_call :
    let body : Value := .seq .list (.bare 4) [.symbol 5 "do", .nil]
    let form : Value := .seq .list (.bare 0) [.seq .list (.bare 1) [.symbol 2 "fn", .seq .vector (.bare 3) [], body]]
    ∃ env w n, steps n ⟨.eval form .global, [.evaluate .global]⟩ { World.initial with nextId := 6 } =
      .ok ⟨.eval .nil env, [.memo [form, body], .evaluate .global]⟩ w := by
  intro body form
  let head : Value := .seq .list (.bare 1) [.symbol 2 "fn", .seq .vector (.bare 3) [], body]
  have hbody : ∀ env w, Tail 3 env w body .nil env w := fun env w =>
    @Tail.body 3 env w ⟨.bare 4, [.symbol 5 "do", .nil]⟩ (.symbol 5 "do") .nil [] [] w rfl rfl rfl
  have hcall : ∃ frame w, Tail 3 .global { World.initial with nextId := 6 } form body frame w :=
    ⟨_, _, @Tail.call 3 .global _ ⟨.bare 0, [head]⟩ head (.seq .vector (.bare 3) []) body .nil [] [] _ .global
      _ _ _ _ ⟨nofun, rfl, rfl⟩ rfl rfl rfl⟩
  obtain ⟨frame, w, hcall⟩ := hcall
  obtain ⟨n, stack', hsteps, hpend, -⟩ := tail_calls_proper.2.1 _ _ _ _ _ _ _
    (.there hcall (.there (hbody frame w) .here)) [.evaluate .global]
  rw [hpend] at hsteps
  exact ⟨frame, w, n, hsteps⟩

end EditableLisp
