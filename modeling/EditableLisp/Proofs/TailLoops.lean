import EditableLisp.Proofs.Expanding
import EditableLisp.Proofs.SettledRuns

/-!
# Loops in tail position

Nodes that are evaluated in place of one another share a memo step, and a node enters it once. So the memo step of a
loop has no more nodes than the loop evaluates different ones, and a run that makes no more forms evaluates only
nodes that were there.

* **`Session.Reachable.memos_bounded`**: a run that makes forms in finitely many steps has bounded memo steps, however
  long it goes on. Runs that end do so, and loops whose macros are served what they were expanded to.
* `memos_bounded_spin`: a loop by way of a macro that goes on for ever and makes its last form in its first round.
  `Cycle`, `Loop` and `Turn` say what a round relies on, and the five states that it goes through.
-/

namespace EditableLisp

namespace Machine

variable {w w' : World} {s s' : State} {stack : List Pending}

/-! ## Nodes that wait were evaluated -/

/-- A node that waits after a step did so before, or the step began its evaluation. -/
theorem mem_waiting_step (h : step s w = .ok s' w') {x : Option NodeId × List Pending}
    (hx : x ∈ waiting s'.stack) :
    x ∈ waiting s.stack ∨ ∃ form env, s.control = .eval form env ∧ form.keepsResult ∧ x.1 = form.nodeId? := by
  have hentered : x ∈ waiting s.entered := by
    rcases stack_of_step h with hshifts | ⟨nodes, hstack⟩
    · rwa [hshifts.waiting_eq] at hx
    · rw [hstack]
      exact List.mem_append_right _ hx
  rcases s.entered_cases with he | ⟨form, env, hcontrol, hkeeps, he⟩
  · rw [he] at hentered
    exact .inl hentered
  · rw [he] at hentered
    rcases mem_waiting_memo.mp hentered with rfl | hx
    · exact .inr ⟨form, env, hcontrol, hkeeps, rfl⟩
    · exact .inl hx

/-- What holds of the identities of all nodes that wait and of all that a run evaluates holds of those that wait at
its end. -/
theorem forall_waiting_steps {P : Option NodeId → Prop} {n : Nat} (h : steps n s w = .ok s' w')
    (hs : ∀ x ∈ waiting s.stack, P x.1)
    (heval : ∀ m form env stack w₁, steps m s w = .ok ⟨.eval form env, stack⟩ w₁ → form.keepsResult →
      P form.nodeId?) : ∀ x ∈ waiting s'.stack, P x.1 := by
  induction n generalizing s w with
  | zero =>
    cases h
    exact hs
  | succ n ih =>
    obtain ⟨next, w₁, hstep, hrest⟩ := bind_eq_ok h
    refine ih hrest (fun x hx => ?_) fun m form env stack w₂ hm => ?_
    · rcases mem_waiting_step hstep hx with hx | ⟨form, env, hcontrol, hkeeps, hid⟩
      · exact hs x hx
      · obtain ⟨control, stack⟩ := s
        obtain rfl : control = .eval form env := hcontrol
        rw [hid]
        exact heval 0 form env stack w rfl hkeeps
    · exact heval (m + 1) form env stack w₂ ((bind_of_eq_ok hstep).trans hm)

/-- The nodes of a memo step wait. -/
theorem exists_mem_waiting {nodes : List Value} (h : .memo nodes ∈ stack) {node : Value} (hn : node ∈ nodes) :
    ∃ below, (node.nodeId?, below) ∈ waiting stack := by
  induction stack with
  | nil => cases h
  | cons p stack ih =>
    rcases List.mem_cons.mp h with rfl | h
    · exact ⟨stack, List.mem_append_left _ (List.mem_map_of_mem hn)⟩
    · obtain ⟨below, hbelow⟩ := ih h
      refine ⟨below, ?_⟩
      cases p with
      | memo => exact List.mem_append_right _ hbelow
      | _ => exact hbelow

/-- No memo step on a tidy stack has a node twice. -/
theorem Tidy.pairwise (h : Tidy stack) {nodes : List Value} (hm : .memo nodes ∈ stack) :
    nodes.Pairwise fun a b => a.identical b = false := by
  induction stack with
  | nil => cases hm
  | cons p stack ih =>
    rcases List.mem_cons.mp hm with rfl | hm
    · exact h.1
    · exact ih h.tail hm

/-- Steps come from a known state to a known state. -/
theorem keeps_steps {R : Registry} (n : Nat) (ho : R.Open) (h : R.StateKnown s) :
    Keeps R (steps n s) Registry.StateKnown := by
  induction n generalizing R s with
  | zero => exact Keeps.pure h
  | succ n ih => exact Keeps.bind (keeps_step ho h) fun R' next hle hnext => ih (ho.mono hle) hnext

end Machine

/-- Known nodes that are not identical have different identities. -/
theorem Registry.AllKnown.nodup_ids {R : Registry} {nodes : List Value} (h : R.AllKnown nodes)
    (hids : ∀ node ∈ nodes, node.nodeId? ≠ none) (hdiffer : nodes.Pairwise fun a b => a.identical b = false) :
    (nodes.map Value.nodeId?).Nodup := by
  refine List.pairwise_map.mpr (hdiffer.imp_of_mem fun {a b} ha hb hab hsame => ?_)
  obtain ⟨id, hid⟩ := Option.ne_none_iff_exists'.mp (hids a ha)
  have heq : a = b :=
    Option.some.inj (((h a ha).node_eq hid).symm.trans ((h b hb).node_eq (hsame.symm.trans hid)))
  rw [← heq] at hab
  cases a with
  | symbol | seq | map => simp [Value.identical] at hab
  | _ => cases hid

open Machine in
/-- A memo step has at most as many nodes as there are identities of forms that the run evaluates. -/
theorem Session.Reachable.memos_le {s : Session} (hs : s.Reachable) {form : Value} {env : Env} (hform : s.Has form)
    (henv : s.HasFrame env) {bound : Nat}
    (heval : ∀ n part scope stack w id, steps n ⟨.eval form env, []⟩ s.world = .ok ⟨.eval part scope, stack⟩ w →
      part.nodeId? = some id → id < bound) {n : Nat} {state : State} {w : World} {nodes : List Value}
    (hsteps : steps n ⟨.eval form env, []⟩ s.world = .ok state w) (hmem : .memo nodes ∈ state.stack) :
    nodes.length ≤ bound := by
  have hwaiting : ∀ node ∈ nodes, node.nodeId? ∈ (List.range bound).map some := by
    intro node hn
    obtain ⟨below, hbelow⟩ := exists_mem_waiting hmem hn
    refine forall_waiting_steps (P := (· ∈ (List.range bound).map some)) hsteps nofun
      (fun m part scope stack w₁ hm hkeeps => ?_) _ hbelow
    obtain ⟨id, hid⟩ : ∃ id, part.nodeId? = some id := by
      cases part with
      | seq | map => exact ⟨_, rfl⟩
      | _ => cases hkeeps
    rw [hid]
    exact List.mem_map_of_mem (List.mem_range.mpr (heval m part scope stack w₁ id hm hid))
  have hdiffer : nodes.Pairwise fun a b => a.identical b = false := by
    have htidy : Tidy state.stack := @Tidy.steps s.world w n ⟨.eval form env, []⟩ state trivial hsteps
    exact htidy.pairwise hmem
  obtain ⟨R, hsound⟩ := hs.exists_sound
  obtain ⟨R', -, hreached⟩ :=
    keeps_steps n (s := ⟨.eval form env, []⟩) hsound.free ⟨⟨hsound.known hform, hsound.inScope henv⟩, nofun⟩ _ hsound.world
  rw [hsteps] at hreached
  have hknown : R'.AllKnown nodes := hreached.2.2 _ hmem
  have hnodup : (nodes.map Value.nodeId?).Nodup := hknown.nodup_ids
    (fun node hn he => by
      have hmem := hwaiting node hn
      rw [he] at hmem
      simp at hmem) hdiffer
  have hle := hnodup.length_le_of_subset (List.forall_mem_map.mpr hwaiting)
  rwa [List.length_map, List.length_map, List.length_range] at hle

namespace Machine

/-- As many steps as one likes give out finitely many identities. -/
theorem exists_nextId_le (s : State) (w : World) (count : Nat) :
    ∃ bound, ∀ n t v, n < count → steps n s w = .ok t v → v.nextId ≤ bound := by
  induction count with
  | zero => exact ⟨0, nofun⟩
  | succ count ih =>
    obtain ⟨bound, hbound⟩ := ih
    cases hlast : steps count s w with
    | ok t v =>
      refine ⟨max bound v.nextId, fun n t' v' hn hs => ?_⟩
      rcases Nat.lt_succ_iff_lt_or_eq.mp hn with hn | rfl
      · exact Nat.le_trans (hbound n t' v' hn hs) (Nat.le_max_left ..)
      · cases hlast.symm.trans hs
        exact Nat.le_max_right ..
    | error h v =>
      refine ⟨bound, fun n t' v' hn hs => ?_⟩
      rcases Nat.lt_succ_iff_lt_or_eq.mp hn with hn | rfl
      · exact hbound n t' v' hn hs
      · cases hlast.symm.trans hs

/-- **A run that makes forms in finitely many steps evaluates forms of finitely many identities.** -/
theorem exists_evaluated_lt {R : Registry} (ho : R.Open) {s : State} {w : World} (hw : R.Ok w) (hs : R.StateKnown s)
    {settled : Nat} (hsettled : ∀ n t v, settled ≤ n → steps n s w = .ok t v → t.makesForm v = false) :
    ∃ bound, ∀ n form env stack w' id, steps n s w = .ok ⟨.eval form env, stack⟩ w' → form.nodeId? = some id →
      id < bound := by
  obtain ⟨bound, hbound⟩ := exists_nextId_le s w (settled + 1)
  refine ⟨bound, fun n form env stack w' id h hid => ?_⟩
  rcases Nat.lt_or_ge settled n with hn | hn
  · -- The last form was made before: code is what was known then.
    obtain ⟨m, rfl⟩ := Nat.exists_eq_add_of_lt hn
    rw [Nat.add_assoc, steps_add] at h
    obtain ⟨t, v, hfirst, hrest⟩ := bind_eq_ok h
    obtain ⟨R', -, hreached⟩ := keeps_steps settled ho hs w hw
    rw [hfirst] at hreached
    have hlt : id < v.nextId := Settled.lt_nextId hreached.1 hreached.2 (fun m t' v' hm =>
      hsettled (settled + m) t' v' (Nat.le_add_right ..) (by rw [steps_add, bind_of_eq_ok hfirst, hm])) hrest hid
    exact Nat.lt_of_lt_of_le hlt (hbound settled t v (Nat.lt_succ_self _) hfirst)
  · obtain ⟨R', -, hreached⟩ := keeps_steps n ho hs w hw
    rw [h] at hreached
    have hlt : id < w'.nextId := (hreached.1.nodes id).mpr (hreached.2.1.1.isSome_node hid)
    exact Nat.lt_of_lt_of_le hlt (hbound n _ w' (Nat.lt_succ_of_le hn) h)

end Machine

/-! ## Rounds of a loop -/

/-- What a round relies on is as it was: the frames, how a call was expanded, and the identities given out. -/
structure World.Carries (call : NodeId) (w w' : World) : Prop where
  frame : ∀ id, w'.frame id = w.frame id
  expansion : w'.expansions.get? call = w.expansions.get? call
  nextId : w.nextId ≤ w'.nextId

namespace World.Carries

variable {call : NodeId} {w w₁ w' : World}

theorem refl (call : NodeId) (w : World) : Carries call w w := ⟨fun _ => rfl, rfl, Nat.le_refl _⟩

theorem trans (h : Carries call w w₁) (h' : Carries call w₁ w') : Carries call w w' where
  frame id := (h'.frame id).trans (h.frame id)
  expansion := h'.expansion.trans h.expansion
  nextId := Nat.le_trans h.nextId h'.nextId

theorem lookup? (h : Carries call w w') (env : Env) (name : String) : w'.lookup? env name = w.lookup? env name :=
  lookup?_congr (fun id _ => h.frame id) name

end World.Carries

/-- A form calls `f` without arguments. -/
structure Repeats (call : NodeId) (w : World) (c : Call) : Prop where
  items : ∃ id, c.items = [.symbol id "f"]
  style : c.node.style ≠ .program
  other : c.node.id ≠ call
  given : c.node.id < w.nextId

/-- A function `f` without parameters has a call for a body, whose head is `go`. -/
structure Cycle (call : Call) (scope : Env) (w : World) : Prop where
  head : ∃ id args, call.IsCall (.symbol id "go") args
  given : call.node.id < w.nextId
  function : ∃ id node data,
    w.lookup? scope "f" = some (.closure id .function (.seq .vector node []) call.toValue scope data)

variable {call made c : Call} {scope env : Env} {frame : FrameId} {w w₁ w' : World}

theorem Repeats.mono {id : NodeId} (h : Repeats id w c) (hle : w.nextId ≤ w'.nextId) : Repeats id w' c :=
  ⟨h.items, h.style, h.other, Nat.lt_of_lt_of_le h.given hle⟩

theorem Cycle.carried (h : Cycle call scope w) (hw : World.Carries call.node.id w w') : Cycle call scope w' where
  head := h.head
  given := Nat.lt_of_lt_of_le h.given hw.nextId
  function := by
    rw [hw.lookup?]
    exact h.function

/-- A call that is marked as an ordinary one is not the call of the template. -/
theorem Machine.carries_markOrdinary {id : NodeId} (h : c.node.id ≠ id) (w : World) :
    World.Carries id w (markOrdinary c w).2 := by
  have hset : World.Carries id w (setExpansion c.node.id .unchanged w).2 := by
    refine ⟨fun _ => rfl, ?_, Nat.le_refl _⟩
    show (w.expansions.set c.node.id .unchanged).get? id = _
    rw [Table.get?_set, if_neg h.symm]
  unfold markOrdinary
  rw [Change.get_bind]
  cases w.expansions.get? c.node.id with
  | none => exact hset
  | some e =>
    cases e with
    | unchanged => exact .refl id w
    | _ => exact hset

/-- A function without parameters is entered by a frame without bindings. -/
theorem Machine.enter_nothing (scope : Env) (node : Node) (w : World) :
    enter scope (.seq .vector node []) [] w =
      .ok (scope.child w.frames.size) { w with frames := w.frames.push .empty, nextId := w.nextId + 1 } := rfl

/-- The call that is the body of `f`, and the chain in which `f` was made, if the state is at a call of `f`. -/
def State.cycle? (s : State) (w : World) : Option (Call × Env) :=
  match s.control with
  | .eval (.seq .list node [.symbol _ "f"]) env =>
    match w.lookup? env "f" with
    | some (.closure _ .function (.seq .vector _ []) (.seq .list call (.symbol head "go" :: args)) scope _) =>
      if env = scope.child env.frame ∧ (w.frame env.frame).isEmpty = true ∧
          (node.style ≠ .program ∧ node.id ≠ call.id ∧ node.id < w.nextId) ∧
          call.style ≠ .program ∧ call.id < w.nextId then
        some (⟨call, .symbol head "go" :: args⟩, scope)
      else none
    | _ => none
  | _ => none

theorem State.exists_cycle {s : State} (h : s.cycle? w = some (call, scope)) :
    ∃ c frame, s = ⟨.eval c.toValue (scope.child frame), s.stack⟩ ∧ Cycle call scope w ∧
      Repeats call.node.id w c ∧ w.frame frame = [] := by
  obtain ⟨control, stack⟩ := s
  unfold cycle? at h
  dsimp only at h
  split at h
  · rename_i node id env
    split at h
    · rename_i fid params body head args made data hfunction
      obtain ⟨⟨henv, hempty, hnode, hcall⟩, heq⟩ := Option.ite_none_right_eq_some.mp h
      cases heq
      have hempty : w.frame env.frame = [] := List.isEmpty_iff.mp hempty
      rw [henv, World.lookup?_child_of_nil hempty scope] at hfunction
      refine ⟨⟨node, [.symbol id "f"]⟩, env.frame, ?_, ?_, ⟨⟨id, rfl⟩, hnode.1, hnode.2.1, hnode.2.2⟩, hempty⟩
      · rw [← henv]
        rfl
      · exact ⟨⟨head, args, hcall.1, rfl, rfl⟩, hcall.2, fid, params, data, hfunction⟩
    · cases h
  · cases h

/-! ## A loop that is served -/

/-- The body of `f` is the call of a macro. It was expanded to a `do` with a call of `f`, and is served that. -/
structure Loop (call made : Call) (scope : Env) (w : World) : Prop extends Cycle call scope w where
  served : ∃ maker kept reads, w.lookup? scope "go" = some maker ∧ maker.isExpander = true ∧
    w.expansions.get? call.node.id = some (.constant kept made.toValue reads) ∧
    w.servesConstant call.node.id maker = true
  rule : made.special? = some .body
  again : ∃ head again, made.items = [head, Call.toValue again] ∧ Repeats call.node.id w again

theorem Loop.carried (h : Loop call made scope w) (hw : World.Carries call.node.id w w') :
    Loop call made scope w' where
  toCycle := h.toCycle.carried hw
  served := by
    obtain ⟨maker, kept, reads, hmaker, hexpander, hkept, hserves⟩ := h.served
    refine ⟨maker, kept, reads, ?_, hexpander, hw.expansion.trans hkept, ?_⟩
    · rw [hw.lookup?]
      exact hmaker
    · rw [World.servesConstant_congr hw.frame hw.expansion]
      exact hserves
  rule := h.rule
  again := by
    obtain ⟨head, again, hitems, hrepeats⟩ := h.again
    exact ⟨head, again, hitems, hrepeats.mono hw.nextId⟩

/-- The states that a round of the loop goes through, from a call of `f` by the macro to a call of `f`. -/
inductive Turn (call made : Call) (scope : Env) (w : World) : State → Prop where
  | again {c : Call} {frame : FrameId} {stack : List Pending} : Repeats call.node.id w c → w.frame frame = [] →
      Turn call made scope w ⟨.eval c.toValue (scope.child frame), stack⟩
  | function {c : Call} {id : NodeId} {frame : FrameId} {stack : List Pending} : Repeats call.node.id w c →
      w.frame frame = [] → Turn call made scope w
        ⟨.eval (.symbol id "f") (scope.child frame), .head c (scope.child frame) :: stack⟩
  | body {frame : FrameId} {stack : List Pending} : w.frame frame = [] →
      Turn call made scope w ⟨.eval call.toValue (scope.child frame), stack⟩
  | head {id : NodeId} {frame : FrameId} {stack : List Pending} : w.frame frame = [] → Turn call made scope w
      ⟨.eval (.symbol id "go") (scope.child frame), .head call (scope.child frame) :: stack⟩
  | form {frame : FrameId} {stack : List Pending} : w.frame frame = [] →
      Turn call made scope w ⟨.eval made.toValue (scope.child frame), stack⟩

/-- A call makes no form before its head has a value. -/
theorem State.makesForm_of_isCall {head : Value} {args : List Value} (h : c.IsCall head args) (env : Env)
    (stack : List Pending) (w : World) : State.makesForm ⟨.eval c.toValue env, stack⟩ w = false := by
  obtain ⟨node, items⟩ := c
  obtain ⟨hstyle, hitems, hname⟩ := h
  obtain rfl : items = head :: args := hitems
  have hspecial : Call.special? ⟨node, head :: args⟩ = none := (if_neg hstyle).trans hname
  show ((Call.special? ⟨node, head :: args⟩).any _) = false
  rw [hspecial]
  rfl

/-- A `do` makes no form. -/
theorem State.makesForm_of_body (h : c.special? = some .body) (env : Env) (stack : List Pending) (w : World) :
    State.makesForm ⟨.eval c.toValue env, stack⟩ w = false := by
  obtain ⟨node, items⟩ := c
  cases items with
  | nil =>
    obtain ⟨-, hname⟩ := Option.ite_none_left_eq_some.mp h
    cases hname
  | cons head rest =>
    show ((Call.special? ⟨node, head :: rest⟩).any _) = false
    rw [h]
    rfl

/-- A name that has a value makes what the next pending step makes of the value. -/
theorem State.makesForm_symbol {name : String} {v : Value} (h : w.lookup? env name = some v) (id : NodeId) (p : Pending)
    (stack : List Pending) : State.makesForm ⟨.eval (.symbol id name) env, p :: stack⟩ w = p.makesForm w v := by
  have hpassed : (Control.eval (.symbol id name) env).passed? w = some v := h
  unfold State.makesForm
  rw [hpassed]

/-- **Each step of a round makes no form**, goes on to the next state of the round, and changes nothing that the
round relies on. -/
theorem Turn.step {s : State} (ht : Turn call made scope w s) (h : Loop call made scope w) :
    s.makesForm w = false ∧ ∃ s' w', Machine.step s w = .ok s' w' ∧ World.Carries call.node.id w w' ∧
      Turn call made scope w' s' := by
  cases ht with
  | @again c frame stack hc hempty =>
    obtain ⟨symbol, hitems⟩ := hc.items
    have hcalled : c.IsCall (.symbol symbol "f") [] := ⟨hc.style, hitems, by rw [hitems]; rfl⟩
    have hstep := congrFun (Machine.eval_call hcalled (scope.child frame) stack) w
    exact ⟨State.makesForm_of_isCall hcalled _ _ _, _, w, hstep, .refl _ w, .function hc hempty⟩
  | @function c id frame stack hc hempty =>
    obtain ⟨fid, node, data, hfunction⟩ := h.function
    obtain ⟨symbol, hitems⟩ := hc.items
    have hf := (congrFun (World.lookup?_child_of_nil hempty scope) "f").trans hfunction
    obtain ⟨results, sites, recordings, hstep⟩ :=
      Machine.evalSymbol_of_some hf id (.head c (scope.child frame) :: stack)
    generalize hw₁ : ({ w with results := results, sites := sites, recordings := recordings } : World) = w₁ at hstep
    have hcarries₁ : World.Carries call.node.id w w₁ := hw₁ ▸ ⟨fun _ => rfl, rfl, Nat.le_refl _⟩
    have hcarries₂ := hcarries₁.trans (Machine.carries_markOrdinary hc.other w₁)
    generalize hmarked : (Machine.markOrdinary c w₁).2 = w₂ at hcarries₂
    let w₃ : World := { w₂ with frames := w₂.frames.push .empty, nextId := w₂.nextId + 1 }
    have hcarries₃ : World.Carries call.node.id w w₃ :=
      hcarries₂.trans ⟨frame_newChild w₂ scope, rfl, Nat.le_succ _⟩
    have hempty₃ : w₃.frame w₂.frames.size = [] :=
      (frame_newChild w₂ scope _).trans (World.frame_of_size_le (Nat.le_refl _))
    refine ⟨?_, ⟨.eval call.toValue (scope.child w₂.frames.size), stack⟩, w₃, ?_, hcarries₃, .body hempty₃⟩
    · exact (State.makesForm_symbol hf _ _ _).trans rfl
    · have hargs : c.items.tail = [] := by rw [hitems]; rfl
      let f : Value := .closure fid .function (.seq .vector node []) call.toValue scope data
      have hbegin : Machine.begin f c (scope.child frame) stack w₁ =
          Machine.evalArgs f c c.items.tail #[] (scope.child frame) stack (Machine.markOrdinary c w₁).2 := rfl
      rw [hargs, hmarked] at hbegin
      exact hstep.trans hbegin
  | @body frame stack hempty =>
    obtain ⟨id, args, hcalled⟩ := h.head
    have hstep := congrFun (Machine.eval_call hcalled (scope.child frame) stack) w
    exact ⟨State.makesForm_of_isCall hcalled _ _ _, _, w, hstep, .refl _ w, .head hempty⟩
  | @head id frame stack hempty =>
    obtain ⟨maker, kept, reads, hmaker, hexpander, hkept, hserves⟩ := h.served
    have hgo := (congrFun (World.lookup?_child_of_nil hempty scope) "go").trans hmaker
    obtain ⟨results, sites, recordings, hstep⟩ :=
      Machine.evalSymbol_of_some hgo id (.head call (scope.child frame) :: stack)
    generalize hw₁ : ({ w with results := results, sites := sites, recordings := recordings } : World) = w₁ at hstep
    have hcarries₁ : World.Carries call.node.id w w₁ := hw₁ ▸ ⟨fun _ => rfl, rfl, Nat.le_refl _⟩
    have hserved : (Machine.begin maker call (scope.child frame) stack) w₁ =
        .ok ⟨.eval made.toValue (scope.child frame), stack⟩ (recordAll reads w₁).2 := by
      rw [Machine.begin_of_isExpander hexpander]
      refine Machine.expandCall_of_servesConstant ?_ (hcarries₁.expansion.trans hkept) (some (scope.child frame)) stack
      rw [World.servesConstant_congr hcarries₁.frame hcarries₁.expansion]
      exact hserves
    refine ⟨?_, _, _, hstep.trans hserved, hcarries₁.trans ?_, .form ?_⟩
    · rw [State.makesForm_symbol hgo, Pending.makesForm, World.expandsAnew, hexpander, hserves]
      rfl
    · rw [recordAll_snd]
      exact ⟨fun _ => rfl, rfl, Nat.le_refl _⟩
    · rw [recordAll_snd]
      exact (hcarries₁.frame _).trans hempty
  | @form frame stack hempty =>
    obtain ⟨head, again, hitems, hrepeats⟩ := h.again
    have hbody : Machine.evalSpecial .body made (scope.child frame) (Machine.memo made.toValue stack) =
        pure ⟨.eval again.toValue (scope.child frame), Machine.memo made.toValue stack⟩ := by
      unfold Machine.evalSpecial
      rw [hitems]
      rfl
    have hstep := congrFun ((Machine.eval_special h.rule (scope.child frame) stack).trans hbody) w
    exact ⟨State.makesForm_of_body h.rule _ _ _, _, w, hstep, .refl _ w, .again hrepeats hempty⟩

/-- **A run from a round of the loop stays in the loop**, and makes no form. -/
theorem Turn.steps {s : State} (ht : Turn call made scope w s) (h : Loop call made scope w) (n : Nat) :
    ∃ s' w', Machine.steps n s w = .ok s' w' ∧ s'.makesForm w' = false := by
  induction n generalizing s w with
  | zero => exact ⟨s, w, rfl, (ht.step h).1⟩
  | succ n ih =>
    obtain ⟨-, s₁, w₁, hstep, hcarries, ht₁⟩ := ht.step h
    obtain ⟨s', w', hrest, hm⟩ := ih ht₁ (h.carried hcarries)
    exact ⟨s', w', (bind_of_eq_ok hstep).trans hrest, hm⟩

/-- A state is at a call of `f` in a round of the loop. -/
def State.isInLoop (s : State) (w : World) : Bool :=
  match s.cycle? w with
  | some (call, scope) =>
    match w.lookup? scope "go", w.expansions.get? call.node.id with
    | some maker, some (.constant _ (.seq .list made [.symbol _ "do", .seq .list again [.symbol _ "f"]]) _) =>
      decide ((again.style ≠ .program ∧ again.id ≠ call.node.id ∧ again.id < w.nextId) ∧ made.style ≠ .program ∧
        maker.isExpander = true ∧ w.servesConstant call.node.id maker = true)
    | _, _ => false
  | none => false

theorem State.exists_turn {s : State} (h : s.isInLoop w = true) :
    ∃ call made scope, Loop call made scope w ∧ Turn call made scope w s := by
  unfold isInLoop at h
  split at h
  · rename_i call scope hcycle
    obtain ⟨c, frame, hs, hcycle, hc, hempty⟩ := State.exists_cycle hcycle
    split at h
    · rename_i maker kept made head again id reads hmaker hkept
      obtain ⟨hagain, hmade, hexpander, hserves⟩ := of_decide_eq_true h
      refine ⟨call, ⟨made, [.symbol head "do", .seq .list again [.symbol id "f"]]⟩, scope, ?_, hs ▸ .again hc hempty⟩
      exact {
        toCycle := hcycle
        served := ⟨maker, kept, reads, hmaker, hexpander, hkept, hserves⟩
        rule := if_neg hmade
        again := ⟨_, ⟨again, [.symbol id "f"]⟩, rfl, ⟨id, rfl⟩, hagain.1, hagain.2.1, hagain.2.2⟩ }
    · cases h
  · cases h

/-- The program binds a macro and a function that calls itself by way of it, and calls the function. -/
def spin : String := "(defmacro go [x] (list 'do x)) (defn f [] (go (f))) (f)"

/-- A run of the program comes to a round of the loop. -/
def entersLoop (w : World) : Bool :=
  match readProgram spin w with
  | (.ok p, w₁) =>
    match Machine.steps 20 ⟨.eval p .global, []⟩ w₁ with
    | .ok s w₂ => s.isInLoop w₂
    | .error .. => false
  | _ => false

/-! ## Memo steps of loops -/

open Machine in
/-- **A loop that makes no forms of its own has bounded memo steps**, however long it goes on: in any session that
can be reached, if a run makes forms in finitely many steps, there is a bound on the nodes of its memo steps. A run
that ends makes forms in finitely many steps; so does a loop without templates, `eval` and functions with several
forms for a body, once the macros that it calls are served what they were expanded to. -/
theorem Session.Reachable.memos_bounded {s : Session} (hs : s.Reachable) {form : Value} {env : Env}
    (hform : s.Has form) (henv : s.HasFrame env) {settled : Nat}
    (hsettled : ∀ n state w, settled ≤ n → steps n ⟨.eval form env, []⟩ s.world = .ok state w →
      state.makesForm w = false) :
    ∃ bound, ∀ n state w nodes, steps n ⟨.eval form env, []⟩ s.world = .ok state w → .memo nodes ∈ state.stack →
      nodes.length ≤ bound := by
  obtain ⟨R, hsound⟩ := hs.exists_sound
  obtain ⟨bound, hbound⟩ := exists_evaluated_lt hsound.free (s := ⟨.eval form env, []⟩) hsound.world
    ⟨⟨hsound.known hform, hsound.inScope henv⟩, nofun⟩ hsettled
  exact ⟨bound, fun n state w nodes hsteps hmem => hs.memos_le hform henv hbound hsteps hmem⟩

open Machine in
/-- A function calls itself by way of a macro, for ever: from the second round on the call of the macro is served. -/
theorem memos_bounded_spin : ∃ p w, readProgram spin World.full = (.ok p, w) ∧
    Session.Reachable ⟨w, [p], [], []⟩ ∧ (∀ n, ∃ state w', steps n ⟨.eval p .global, []⟩ w = .ok state w') ∧
    (∀ n state w', 20 ≤ n → steps n ⟨.eval p .global, []⟩ w = .ok state w' → state.makesForm w' = false) ∧
    ∃ bound, ∀ n state w' nodes, steps n ⟨.eval p .global, []⟩ w = .ok state w' → .memo nodes ∈ state.stack →
      nodes.length ≤ bound := by
  have test : entersLoop World.full = true := by decide +kernel
  have hfull : Session.Reachable ⟨World.full, [], [], []⟩ := .full
  generalize World.full = first at hfull test ⊢
  unfold entersLoop at test
  split at test
  · rename_i p w hread
    split at test
    · rename_i s w₂ hs
      obtain ⟨call, made, scope, hloop, hturn⟩ := State.exists_turn test
      have hreachable : Session.Reachable ⟨w, [p], [], []⟩ := hfull.step (.read hread)
      have hsettled : ∀ n state w', 20 ≤ n → steps n ⟨.eval p .global, []⟩ w = .ok state w' →
          state.makesForm w' = false := by
        intro n state w' hn h
        obtain ⟨m, rfl⟩ := Nat.exists_eq_add_of_le hn
        rw [steps_add, bind_of_eq_ok hs] at h
        obtain ⟨state', w'', hrest, hm⟩ := hturn.steps hloop m
        cases hrest.symm.trans h
        exact hm
      refine ⟨p, w, hread, hreachable, ?_, hsettled, ?_⟩
      · intro n
        obtain ⟨state, w', h, -⟩ := hturn.steps hloop n
        have hall : steps (20 + n) ⟨.eval p .global, []⟩ w = .ok state w' := by
          rw [steps_add, bind_of_eq_ok hs]
          exact h
        rw [Nat.add_comm, steps_add] at hall
        obtain ⟨state', w'', hfirst, -⟩ := bind_eq_ok hall
        exact ⟨state', w'', hfirst⟩
      · exact hreachable.memos_bounded (.held List.mem_cons_self) .global hsettled
    · cases test
  · cases test

end EditableLisp
