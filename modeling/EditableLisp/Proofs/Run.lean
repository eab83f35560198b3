import EditableLisp.Machine.Step
import EditableLisp.Proofs.Act

/-!
# Runs of the machine

What a run of the machine from a step comes to, and what tail position does to the stack.

* `Reaches act w next w'`: a machine that takes the step `act` in `w` comes, some steps later, to the step
  `next` in `w'`. `Leads` says the same of what the run comes to in the end. `Breaks` and `Starves` are the other
  two ends: a failure, and too few steps.
* `pend nodes stack`: the stack on which nodes evaluated in tail position wait for their value. It has
  gained nodes in a memo step at its top and nothing else (`pend_gains`), and when that step runs, they all
  keep the value (`leads_pend`).
-/

namespace EditableLisp.Machine

/-! ## Runs from a step -/

/-- From the step `act` in `w` the machine comes to the step `next` in `w'`. -/
def Leads (act : Act State) (w : World) (next : Act State) (w' : World) : Prop :=
  ∃ steps, ∀ fuel, (act >>= drive (steps + fuel)) w = (next >>= drive fuel) w'

/-- From the step `act` in `w` the machine comes to a failure in `w'`. -/
def Breaks (act : Act State) (w : World) (h : Halt) (w' : World) : Prop :=
  ∃ steps, ∀ fuel, (act >>= drive (steps + fuel)) w = .error h w'

/-- From the step `act` in `w` the machine is not done with less than `fuel` more steps. -/
def Starves (fuel : Nat) (act : Act State) (w : World) : Prop :=
  ∀ n < fuel, ∃ w', (act >>= drive n) w = .error .exhausted w'

variable {act act' next : Act State} {w w₁ w₂ : World} {fuel : Nat} {h : Halt}

/-- What follows a step depends on its outcome alone. -/
theorem bind_congr_of_eq (e : act w = act' w₁) (f : State → Act Value) :
    (act >>= f) w = (act' >>= f) w₁ := by
  show EStateM.bind act f w = EStateM.bind act' f w₁
  unfold EStateM.bind
  rw [e]

theorem Leads.of_eq (e : act w = next w₁) : Leads act w next w₁ :=
  ⟨0, fun fuel => by rw [Nat.zero_add]; exact bind_congr_of_eq e _⟩

theorem Leads.trans (h₁ : Leads act w next w₁) (h₂ : Leads next w₁ act' w₂) :
    Leads act w act' w₂ := by
  obtain ⟨m, hm⟩ := h₁
  obtain ⟨n, hn⟩ := h₂
  exact ⟨m + n, fun fuel => by rw [Nat.add_assoc, hm, hn]⟩

/-- A step that hands on a state leads to the step from that state. -/
theorem bind_drive_succ {s : State} (e : act w = .ok s w₁) (hs : ∀ v, s.control ≠ .landed v)
    (fuel : Nat) : (act >>= drive (fuel + 1)) w = (step s >>= drive fuel) w₁ := by
  show EStateM.bind act _ w = _
  unfold EStateM.bind
  rw [e]
  show drive (fuel + 1) s w₁ = _
  rw [drive_step fuel hs]

theorem Leads.step (s : State) (e : act w = .ok s w₁) (hs : ∀ v, s.control ≠ .landed v) :
    Leads act w (step s) w₁ :=
  ⟨1, fun fuel => by rw [Nat.add_comm]; exact bind_drive_succ e hs fuel⟩

theorem Breaks.of_error (e : act w = .error h w₁) : Breaks act w h w₁ :=
  ⟨0, fun fuel => by
    show EStateM.bind act _ w = _
    unfold EStateM.bind
    rw [e]⟩

theorem Leads.breaks (h₁ : Leads act w next w₁) (h₂ : Breaks next w₁ h w₂) : Breaks act w h w₂ := by
  obtain ⟨m, hm⟩ := h₁
  obtain ⟨n, hn⟩ := h₂
  exact ⟨m + n, fun fuel => by rw [Nat.add_assoc, hm, hn]⟩

/-! ## States on the way -/

/-- The state after some number of steps. -/
def steps : Nat → State → Act State
  | 0, s => pure s
  | n + 1, s => do steps n (← step s)

/-- From the step `act` in `w` the machine takes some steps and then the step `next` in `w'`. -/
def Reaches (act : Act State) (w : World) (next : Act State) (w' : World) : Prop :=
  ∃ n, (act >>= steps n) w = next w'

theorem steps_add (m n : Nat) (s : State) : steps (m + n) s = steps m s >>= steps n := by
  induction m generalizing s with
  | zero =>
    rw [Nat.zero_add]
    exact (pure_bind s _).symm
  | succ m ih =>
    rw [Nat.succ_add]
    unfold steps
    rw [bind_assoc]
    exact bind_congr ih

theorem Reaches.of_eq (e : act w = next w₁) : Reaches act w next w₁ :=
  ⟨0, (congrFun (bind_pure act) w).trans e⟩

theorem Reaches.step (s : State) (e : act w = .ok s w₁) : Reaches act w (step s) w₁ := by
  refine ⟨1, ?_⟩
  rw [bind_of_eq_ok e]
  exact congrFun (bind_pure (Machine.step s)) w₁

theorem Reaches.trans (h₁ : Reaches act w next w₁) (h₂ : Reaches next w₁ act' w₂) :
    Reaches act w act' w₂ := by
  obtain ⟨m, hm⟩ := h₁
  obtain ⟨n, hn⟩ := h₂
  refine ⟨m + n, ?_⟩
  have hsteps : (act >>= steps (m + n)) = (act >>= steps m) >>= steps n := by
    rw [bind_assoc]
    exact bind_congr fun s => steps_add m n s
  rw [hsteps, ← hn]
  show EStateM.bind (act >>= steps m) (steps n) w = EStateM.bind next (steps n) w₁
  unfold EStateM.bind
  rw [hm]

/-! ## Too few steps -/

/-- A run that is done is done with any more steps. -/
theorem bind_drive_add {n : Nat} (more : Nat) {r : EStateM.Result Halt World Value}
    (e : (act >>= drive n) w = r) (hr : ∀ w', r ≠ .error .exhausted w') :
    (act >>= drive (n + more)) w = r := by
  revert e
  show EStateM.bind act _ w = r → EStateM.bind act _ w = r
  unfold EStateM.bind
  split
  · rename_i s w' _
    exact fun e => drive_add more e hr
  · exact id

/-- A run that is not done with some steps is not done with fewer. -/
theorem exhausted_of_le {m n : Nat} (hle : m ≤ n)
    (e : ∃ w', (act >>= drive n) w = .error .exhausted w') :
    ∃ w', (act >>= drive m) w = .error .exhausted w' := by
  obtain ⟨w', hw'⟩ := e
  refine Classical.byContradiction fun hn => ?_
  have hm : ∀ w₂, (act >>= drive m) w ≠ .error .exhausted w₂ := fun w₂ h => hn ⟨w₂, h⟩
  have := bind_drive_add (n - m) rfl hm
  rw [Nat.add_sub_cancel' hle, hw'] at this
  exact hm w' this.symm

theorem Starves.mono {m : Nat} (h : Starves fuel act w) (hle : m ≤ fuel) : Starves m act w :=
  fun n hn => h n (Nat.lt_of_lt_of_le hn hle)

theorem Starves.of_error (e : act w = .error .exhausted w₁) : Starves fuel act w := fun n _ =>
  ⟨w₁, by
    show EStateM.bind act _ w = _
    unfold EStateM.bind
    rw [e]⟩

/-- A run that leads to one that is not done is not done. -/
theorem Leads.starves (h₁ : Leads act w next w₁) (h₂ : Starves fuel next w₁) :
    Starves fuel act w := by
  intro n hn
  obtain ⟨steps, hs⟩ := h₁
  refine exhausted_of_le (Nat.le_add_left n steps) ?_
  obtain ⟨w', hw'⟩ := h₂ n hn
  exact ⟨w', by rw [hs, hw']⟩

/-- A step that hands on a state takes one step more. -/
theorem Starves.step {s : State} (e : act w = .ok s w₁) (hs : ∀ v, s.control ≠ .landed v)
    (h : Starves fuel (step s) w₁) : Starves (fuel + 1) act w := by
  intro n hn
  cases n with
  | zero =>
    refine ⟨w₁, ?_⟩
    show EStateM.bind act _ w = _
    unfold EStateM.bind
    rw [e]
    rfl
  | succ n =>
    obtain ⟨w', hw'⟩ := h n (Nat.lt_of_succ_lt_succ hn)
    exact ⟨w', by rw [bind_drive_succ e hs, hw']⟩

/-! ## Nodes in tail position -/

/-- A stack on which nodes wait for one value. -/
def pend (nodes : List Value) (stack : List Pending) : List Pending :=
  nodes.foldl (fun stack node => memo node stack) stack

/-- The world in which nodes keep a value. -/
def kept (v : Value) (nodes : List Value) (w : World) : World := (keepResults v nodes w).2

/-- The world in which a node keeps a value. -/
def keptAt (v node : Value) (w : World) : World := (setResult node v w).2

theorem kept_cons (v node : Value) (nodes : List Value) (w : World) :
    kept v (node :: nodes) w = kept v nodes (keptAt v node w) := rfl

theorem kept_append (v : Value) (nodes more : List Value) (w : World) :
    kept v (nodes ++ more) w = kept v more (kept v nodes w) := by
  induction nodes generalizing w with
  | nil => rfl
  | cons node nodes ih => rw [List.cons_append, kept_cons, ih, kept_cons]

theorem keptAt_of_nodeId {node : Value} {id : NodeId} (e : node.nodeId? = some id) (v : Value)
    (w : World) : keptAt v node w = { w with results := w.results.set id v } := by
  unfold keptAt setResult
  rw [e]
  rfl

theorem keptAt_of_none {node : Value} (e : node.nodeId? = none) (v : Value) (w : World) :
    keptAt v node w = w := by
  unfold keptAt setResult
  rw [e]
  rfl

/-- The order in which two nodes are given one value does not matter. -/
theorem keptAt_comm (v a b : Value) (w : World) :
    keptAt v a (keptAt v b w) = keptAt v b (keptAt v a w) := by
  cases ha : a.nodeId? with
  | none => rw [keptAt_of_none ha, keptAt_of_none ha]
  | some i =>
    cases hb : b.nodeId? with
    | none => rw [keptAt_of_none hb, keptAt_of_none hb]
    | some j =>
      simp only [keptAt_of_nodeId ha, keptAt_of_nodeId hb]
      rw [Table.set_comm]

/-- A node may be given the value after the others. -/
theorem kept_cons_eq (v node : Value) (nodes : List Value) (w : World) :
    kept v (node :: nodes) w = keptAt v node (kept v nodes w) := by
  induction nodes generalizing w with
  | nil => rfl
  | cons other nodes ih =>
    rw [kept_cons, kept_cons, keptAt_comm, ← kept_cons, ih, kept_cons]

/-- The order in which two groups of nodes are given one value does not matter. -/
theorem kept_comm (v : Value) (nodes more : List Value) (w : World) :
    kept v nodes (kept v more w) = kept v more (kept v nodes w) := by
  induction nodes generalizing w with
  | nil => rfl
  | cons node nodes ih => rw [kept_cons, ← kept_cons_eq, kept_cons, ih, ← kept_cons]

theorem nodeId?_of_identical {a b : Value} (h : a.identical b = true) : a.nodeId? = b.nodeId? := by
  cases a <;> cases b <;>
    simp_all only [Value.identical, Value.nodeId?, Bool.and_eq_true, beq_iff_eq, Bool.false_eq_true]

/-- A node that was given the value already is not changed by it. -/
theorem keptAt_kept {v a node : Value} {nodes : List Value} (hm : a ∈ nodes)
    (ha : a.nodeId? = node.nodeId?) (w : World) :
    keptAt v node (kept v nodes w) = kept v nodes w := by
  induction nodes generalizing w with
  | nil => cases hm
  | cons other nodes ih =>
    rcases List.mem_cons.mp hm with rfl | hm'
    · rw [kept_cons_eq]
      cases hn : node.nodeId? with
      | none => rw [keptAt_of_none hn]
      | some i =>
        rw [keptAt_of_nodeId (ha.trans hn), keptAt_of_nodeId hn]
        simp only
        rw [Table.set_eq_self]
        rw [Table.get?_set, if_pos rfl]
    · rw [kept_cons, ih hm']

/-- Nodes, with others added that are not among them. -/
def addNodes (nodes more : List Value) : List Value :=
  more.foldl (fun nodes node => if nodes.any (·.identical node) then nodes else nodes ++ [node]) nodes

theorem memo_memo (node : Value) (nodes : List Value) (stack : List Pending) :
    memo node (.memo nodes :: stack) = .memo (addNodes nodes [node]) :: stack := by
  unfold memo addNodes
  rw [List.foldl_cons, List.foldl_nil]
  exact (apply_ite (fun nodes => Pending.memo nodes :: stack) _ _ _).symm

theorem pend_memo (more nodes : List Value) (stack : List Pending) :
    pend more (.memo nodes :: stack) = .memo (addNodes nodes more) :: stack := by
  induction more generalizing nodes with
  | nil => rfl
  | cons node more ih =>
    show pend more (memo node (.memo nodes :: stack)) = _
    rw [memo_memo, ih]
    rfl

/-- Nodes that were left out because they were there already get the value all the same. -/
theorem kept_addNodes (v : Value) (nodes more : List Value) (w : World) :
    kept v (addNodes nodes more) w = kept v more (kept v nodes w) := by
  induction more generalizing nodes with
  | nil => rfl
  | cons node more ih =>
    show kept v (addNodes (if nodes.any (·.identical node) then nodes else nodes ++ [node]) more) w = _
    by_cases hi : nodes.any (·.identical node) = true
    · obtain ⟨a, hm, ha⟩ := List.any_eq_true.mp hi
      rw [if_pos hi, ih, kept_cons, keptAt_kept hm (nodeId?_of_identical ha)]
    · rw [if_neg hi, ih, kept_append]
      rfl

/-- The nodes that wait on a stack without a memo step at its top. -/
theorem pend_cons_of_not_memo {stack : List Pending}
    (hs : ∀ nodes below, stack ≠ .memo nodes :: below) (node : Value) (nodes : List Value) :
    pend (node :: nodes) stack = .memo (addNodes [node] nodes) :: stack := by
  show pend nodes (memo node stack) = _
  have : memo node stack = .memo [node] :: stack := by
    unfold memo
    split
    · exact absurd rfl (hs _ _)
    · rfl
  rw [this, pend_memo]

/-- Nodes wait for a value on a stack that gained them, or those of them that did not wait there before, in
a memo step at its top. -/
inductive Gains (nodes : List Value) : List Pending → List Pending → Prop where
  | nothing {stack : List Pending} : nodes = [] → Gains nodes stack stack
  | fresh {stack : List Pending} {gained : List Value} : gained ⊆ nodes →
      (∀ node ∈ nodes, ∃ n ∈ gained, n.nodeId? = node.nodeId?) →
      Gains nodes stack (.memo gained :: stack)
  | shared {stack : List Pending} {old gained : List Value} : gained ⊆ nodes →
      (∀ node ∈ nodes, ∃ n ∈ old ++ gained, n.nodeId? = node.nodeId?) →
      Gains nodes (.memo old :: stack) (.memo (old ++ gained) :: stack)

/-- Adding nodes keeps the old ones and adds some of the new ones, so that each new one is there. -/
theorem addNodes_eq (old more : List Value) :
    ∃ gained, addNodes old more = old ++ gained ∧ gained ⊆ more ∧
      ∀ node ∈ more, ∃ n ∈ old ++ gained, n.nodeId? = node.nodeId? := by
  induction more generalizing old with
  | nil => exact ⟨[], (List.append_nil old).symm, List.Subset.refl _, nofun⟩
  | cons node more ih =>
    by_cases hi : old.any (·.identical node) = true
    · obtain ⟨gained, hg, hsub, hall⟩ := ih old
      refine ⟨gained, ?_, List.subset_cons_of_subset _ hsub, ?_⟩
      · rw [← hg]
        unfold addNodes
        rw [List.foldl_cons, if_pos hi]
      · intro other ho
        rcases List.mem_cons.mp ho with rfl | ho
        · obtain ⟨n, hn, hid⟩ := List.any_eq_true.mp hi
          exact ⟨n, List.mem_append_left _ hn, nodeId?_of_identical hid⟩
        · exact hall other ho
    · obtain ⟨gained, hg, hsub, hall⟩ := ih (old ++ [node])
      rw [← List.append_cons] at hg hall
      refine ⟨node :: gained, ?_, List.cons_subset_cons _ hsub, ?_⟩
      · rw [← hg]
        unfold addNodes
        rw [List.foldl_cons, if_neg hi]
      · intro other ho
        rcases List.mem_cons.mp ho with rfl | ho
        · exact ⟨other, List.mem_append_right _ List.mem_cons_self, rfl⟩
        · exact hall other ho

theorem mem_of_mem_addNodes {old more : List Value} {node : Value} (h : node ∈ addNodes old more) :
    node ∈ old ∨ node ∈ more := by
  obtain ⟨gained, hg, hsub, -⟩ := addNodes_eq old more
  rw [hg] at h
  exact (List.mem_append.mp h).imp_right fun hn => hsub hn

/-- A node that is not among the old ones makes them more. -/
theorem length_lt_addNodes {old more : List Value} {node : Value} (h : node ∈ more)
    (hnew : ∀ n ∈ old, n.nodeId? ≠ node.nodeId?) : old.length < (addNodes old more).length := by
  obtain ⟨gained, hgained, -, hall⟩ := addNodes_eq old more
  obtain ⟨n, hn, hid⟩ := hall node h
  rcases List.mem_append.mp hn with hn | hn
  · exact absurd hid (hnew n hn)
  · rw [hgained, List.length_append]
    exact Nat.lt_add_of_pos_right (List.length_pos_of_mem hn)

/-- **A stack gains nodes in a memo step at its top and nothing else.** -/
theorem pend_gains (nodes : List Value) (stack : List Pending) :
    Gains nodes stack (pend nodes stack) := by
  by_cases hm : ∃ old below, stack = .memo old :: below
  · obtain ⟨old, below, rfl⟩ := hm
    obtain ⟨gained, hg, hsub, hall⟩ := addNodes_eq old nodes
    rw [pend_memo, hg]
    exact Gains.shared hsub hall
  · have hs : ∀ ns below, stack ≠ .memo ns :: below := fun ns below e => hm ⟨ns, below, e⟩
    cases nodes with
    | nil => exact Gains.nothing rfl
    | cons node nodes =>
      rw [pend_cons_of_not_memo hs]
      obtain ⟨gained, hg, hsub, hall⟩ := addNodes_eq [node] nodes
      rw [hg]
      refine Gains.fresh (List.cons_subset_cons _ hsub) fun other ho => ?_
      rcases List.mem_cons.mp ho with rfl | ho
      · exact ⟨other, List.mem_cons_self, rfl⟩
      · exact hall other ho

/-- A value that waiting nodes keep is handed on to what is pending below them. -/
theorem leads_pend {stack : List Pending} (hs : ∀ nodes below, stack ≠ .memo nodes :: below)
    (v : Value) (nodes : List Value) (w : World) :
    Leads (resume v (pend nodes stack)) w (resume v stack) (kept v nodes w) := by
  cases nodes with
  | nil => exact Leads.of_eq rfl
  | cons node nodes =>
    rw [pend_cons_of_not_memo hs]
    have e : kept v (node :: nodes) w = kept v (addNodes [node] nodes) w := by
      rw [kept_addNodes, kept_cons]
      rfl
    rw [e]
    exact Leads.step ⟨.ret v, stack⟩ rfl (by nofun)

/-- A value that waiting nodes keep is handed on to the stack on which they wait. -/
theorem leads_resume_pend (v : Value) (nodes : List Value) (stack : List Pending) (w : World) :
    Leads (resume v (pend nodes stack)) w (resume v stack) (kept v nodes w) := by
  by_cases hm : ∃ old below, stack = .memo old :: below
  · obtain ⟨old, below, rfl⟩ := hm
    refine Leads.of_eq ?_
    rw [pend_memo]
    show EStateM.Result.ok _ (kept v (addNodes old nodes) w) = .ok _ (kept v old (kept v nodes w))
    rw [kept_addNodes, kept_comm]
  · exact leads_pend (fun old below h => hm ⟨old, below, h⟩) v nodes w

/-- A value that waiting nodes keep reaches what is pending below them. -/
theorem reaches_pend {stack : List Pending} (hs : ∀ nodes below, stack ≠ .memo nodes :: below)
    (v : Value) (nodes : List Value) (w : World) :
    Reaches (resume v (pend nodes stack)) w (resume v stack) (kept v nodes w) := by
  cases nodes with
  | nil => exact Reaches.of_eq rfl
  | cons node nodes =>
    rw [pend_cons_of_not_memo hs]
    have e : kept v (node :: nodes) w = kept v (addNodes [node] nodes) w := by
      rw [kept_addNodes, kept_cons]
      rfl
    rw [e]
    exact Reaches.step ⟨.ret v, stack⟩ rfl

end EditableLisp.Machine
