import EditableLisp.Proofs.Session
import EditableLisp.Proofs.Waiting

/-!
# The last results of nodes

A node remembers the value of its own last evaluation: `Session.Recalled.evaluated`.

What that is, is said here without the memo steps of the machine and without what it keeps. The evaluation of a
node begins when the machine is about to evaluate it, and is over when what was pending then gets a value.
`Memory` holds for each node the value that ended its last evaluation that is over, unless the node was
invalidated since. `Session.Recalled` carries it along everything that a host can do with a world, runs of the
machine that are taken step by step and fail in the middle included.
-/

namespace EditableLisp

open Registry

/-! ## Evaluations that are underway -/

/-- An evaluation of a node that has begun, with what is pending for its value. A memo step hands on what it
gets, so what is pending is said without one at the top. -/
structure Evaluating where
  node : Value
  below : List Pending

/-- The value that ended the last evaluation of each node. -/
abbrev Memory := NodeId → Option Value

namespace State

/-- The evaluation that begins in a state, if one does. -/
def begins (s : State) : List Evaluating :=
  match s.control with
  | .eval form _ => if form.keepsResult then [⟨form, Machine.beneath s.stack⟩] else []
  | _ => []

/-- Nothing more is pending than what was pending for the value of an evaluation. -/
def isBack (s : State) (e : Evaluating) : Bool := s.stack.length ≤ e.below.length

/-- The evaluations that go on in a state. -/
def goesOn (s : State) (underway : List Evaluating) : List Evaluating := underway.filter fun e => !s.isBack e

/-- What is remembered when the machine has come to a state: the value at hand is that of every evaluation that
is over. -/
def remembers (s : State) (underway : List Evaluating) (m : Memory) : Memory := fun id =>
  match s.control with
  | .ret v => if underway.any (fun e => s.isBack e && e.node.nodeId? == some id) then some v else m id
  | _ => m id

end State

namespace Machine

/-- What is remembered after a run of at most so many steps. -/
def remember : Nat → State → List Evaluating → World → Memory → Memory
  | 0, _, _, _, m => m
  | fuel + 1, s, underway, w, m =>
    match s.control with
    | .landed _ => m
    | _ =>
      match step s w with
      | .error _ _ => m
      | .ok next w' =>
        let begun := s.begins ++ underway
        remember fuel next (next.goesOn begun) w' (next.remembers begun m)

/-! ## Evaluations and nodes that wait -/

/-- The evaluations underway are those of the nodes that wait for their value. -/
def Tracks (stack : List Pending) (underway : List Evaluating) : Prop :=
  ∀ x, x ∈ underway.map (fun e => (e.node.nodeId?, e.below)) ↔ x ∈ waiting stack

variable {s next : State} {underway : List Evaluating} {m : Memory} {w w' : World} {results : Table Value}

theorem Tracks.nil : Tracks [] [] := fun _ => Iff.rfl

theorem Tracks.mem {stack : List Pending} (h : Tracks stack underway) {e : Evaluating} (he : e ∈ underway) :
    (e.node.nodeId?, e.below) ∈ waiting stack := (h _).mp (List.mem_map_of_mem he)

/-- An evaluation that begins is that of a node that begins to wait. -/
theorem Tracks.entered (h : Tracks s.stack underway) : Tracks s.entered (s.begins ++ underway) := by
  intro x
  obtain ⟨control, stack⟩ := s
  rw [List.map_append, List.mem_append, h x]
  cases control with
  | eval form env =>
    unfold State.entered State.begins
    dsimp only
    by_cases hk : form.keepsResult
    · rw [if_pos hk, if_pos hk, mem_waiting_memo, List.map_singleton, List.mem_singleton]
    · rw [if_neg hk, if_neg hk]
      exact or_iff_right List.not_mem_nil
  | _ => exact or_iff_right List.not_mem_nil

/-- What is pending for a value is pending below. -/
theorem suffix_of_mem_waiting {stack below : List Pending} {id : Option NodeId}
    (h : (id, below) ∈ waiting stack) : below <:+ stack := by
  induction stack with
  | nil => cases h
  | cons p stack ih =>
    have deeper : (id, below) ∈ waiting stack → below <:+ p :: stack := fun h => (ih h).trans (List.suffix_cons _ _)
    cases p with
    | memo nodes =>
      rcases List.mem_append.mp h with h | h
      · obtain ⟨node, -, he⟩ := List.mem_map.mp h
        cases he
        exact List.suffix_cons _ _
      · exact deeper h
    | _ => exact deeper h

/-- What holds of the evaluations that have begun when the machine has come to the next state. -/
structure Settled (begun : List Evaluating) (results : Table Value) (next : State) (w' : World) : Prop where
  tracks : Tracks next.stack (next.goesOn begun)
  /-- What was pending for a value is pending still, and where nothing more is pending, it gets a value. -/
  pending : ∀ e ∈ begun, e.below <:+ next.stack ∧ (next.isBack e = true → ∃ v, next = ⟨.ret v, e.below⟩)
  /-- The results are those that are remembered. -/
  remembers : ∀ (m : Memory) (id : NodeId), results.get? id = m id →
    w'.results.get? id = next.remembers begun m id

theorem isBack_of_mem_waiting {e : Evaluating} (h : (e.node.nodeId?, e.below) ∈ waiting next.stack) :
    next.isBack e = false := by
  have hlt := length_lt_of_mem_waiting h
  unfold State.isBack
  exact decide_eq_false (Nat.not_le.mpr hlt)

/-- A step after which the same nodes wait ends no evaluation. -/
theorem Settled.of_waits {stack : List Pending} (h : Tracks stack underway) (hs : waiting next.stack = waiting stack)
    (hr : w'.results = results) : Settled underway results next w' := by
  have hback : ∀ e ∈ underway, next.isBack e = false := fun e he =>
    isBack_of_mem_waiting (hs ▸ h.mem he)
  have hall : next.goesOn underway = underway :=
    List.filter_eq_self.mpr fun e he => by rw [hback e he]; rfl
  refine ⟨?_, fun e he => ⟨suffix_of_mem_waiting (hs ▸ h.mem he), fun hb => ?_⟩, fun m id hm => ?_⟩
  · rw [hall]
    unfold Tracks
    rw [hs]
    exact h
  · rw [hback e he] at hb
    cases hb
  · rw [hr, hm]
    unfold State.remembers
    split
    · have hnone : underway.any (fun e => next.isBack e && e.node.nodeId? == some id) = false :=
        List.any_eq_false.mpr fun e he => by simp [hback e he]
      rw [hnone]
      rfl
    · rfl

/-- A step in which waiting nodes get their value ends their evaluations and no others. -/
theorem Settled.of_ends {nodes : List Value} {below : List Pending} (h : Tracks (.memo nodes :: below) underway)
    (v : Value) (hr : w.results = results) : Settled underway results ⟨.ret v, below⟩ (kept v nodes w) := by
  -- Each evaluation is that of one of the nodes, or of a node that waits further below.
  have hcases : ∀ e ∈ underway, (e.below = below ∧ e.node.nodeId? ∈ nodes.map Value.nodeId?) ∨
      (e.node.nodeId?, e.below) ∈ waiting below := by
    intro e he
    rcases List.mem_append.mp (h.mem he) with hm | hm
    · obtain ⟨node, hnode, heq⟩ := List.mem_map.mp hm
      obtain ⟨hid, hb⟩ := Prod.mk.inj heq
      exact .inl ⟨hb.symm, hid ▸ List.mem_map_of_mem hnode⟩
    · exact .inr hm
  have hback : ∀ e ∈ underway, State.isBack ⟨.ret v, below⟩ e = true ↔ e.below = below := by
    intro e he
    unfold State.isBack
    rw [decide_eq_true_iff]
    constructor
    · intro hle
      rcases hcases e he with ⟨hb, -⟩ | hm
      · exact hb
      · exact absurd (length_lt_of_mem_waiting hm) (Nat.not_lt.mpr hle)
    · exact fun hb => hb ▸ Nat.le_refl _
  refine ⟨fun x => ?_, fun e he => ⟨?_, fun hb => ⟨v, ?_⟩⟩, fun m id hm => ?_⟩
  · unfold State.goesOn
    constructor
    · intro hx
      obtain ⟨e, he, rfl⟩ := List.mem_map.mp hx
      obtain ⟨hmem, hnot⟩ := List.mem_filter.mp he
      rcases hcases e hmem with ⟨hb, -⟩ | hm
      · rw [(hback e hmem).mpr hb] at hnot
        cases hnot
      · exact hm
    · intro hx
      have hw : x ∈ waiting (.memo nodes :: below) := List.mem_append_right _ hx
      obtain ⟨e, he, rfl⟩ := List.mem_map.mp ((h x).mpr hw)
      refine List.mem_map.mpr ⟨e, List.mem_filter.mpr ⟨he, ?_⟩, rfl⟩
      rw [@isBack_of_mem_waiting ⟨.ret v, below⟩ e hx]
      rfl
  · rcases hcases e he with ⟨hb, -⟩ | hm
    · exact hb ▸ List.suffix_rfl
    · exact suffix_of_mem_waiting hm
  · rw [(hback e he).mp hb]
  · rw [get?_kept, hr, hm]
    unfold State.remembers
    dsimp only
    have hiff : some id ∈ nodes.map Value.nodeId? ↔
        underway.any (fun e => State.isBack ⟨.ret v, below⟩ e && e.node.nodeId? == some id) = true := by
      rw [List.any_eq_true]
      constructor
      · intro hid
        obtain ⟨node, hnode, hid⟩ := List.mem_map.mp hid
        have hx : (some id, below) ∈ waiting (.memo nodes :: below) :=
          List.mem_append_left _ (List.mem_map.mpr ⟨node, hnode, by rw [hid]⟩)
        obtain ⟨e, he, heq⟩ := List.mem_map.mp ((h _).mpr hx)
        obtain ⟨heid, hb⟩ := Prod.mk.inj heq
        exact ⟨e, he, by rw [(hback e he).mpr hb, heid]; simp⟩
      · rintro ⟨e, he, hboth⟩
        obtain ⟨hb, hid⟩ := Bool.and_eq_true_iff.mp hboth
        rcases hcases e he with ⟨-, hmem⟩ | hm
        · exact (beq_iff_eq.mp hid) ▸ hmem
        · have hlt := length_lt_of_mem_waiting hm
          rw [(hback e he).mp hb] at hlt
          exact absurd hlt (Nat.lt_irrefl _)
    by_cases hid : some id ∈ nodes.map Value.nodeId?
    · rw [if_pos hid, if_pos (hiff.mp hid)]
    · rw [if_neg hid, if_neg fun h => hid (hiff.mpr h)]

/-- **A step ends the evaluations whose values it hands on**, and each of their nodes keeps the value. -/
theorem Tracks.step (h : Tracks s.stack underway) (hs : step s w = .ok next w') :
    ∃ results, s.Keeps w results ∧ Settled (s.begins ++ underway) results next w' := by
  obtain ⟨results, hkeeps, hsettles⟩ := settles_step s w
  refine ⟨results, hkeeps, ?_⟩
  have hentered := h.entered
  rw [hs] at hsettles
  generalize hr : EStateM.Result.ok next w' = r at hsettles
  cases hsettles with
  | waits hshifts hresults =>
    cases hr
    exact .of_waits hentered hshifts.waiting_eq hresults
  | @ends nodes below v w₁ hstack hresults =>
    cases hr
    rw [hstack] at hentered
    exact .of_ends hentered v hresults
  | fails => cases hr

end Machine

/-! ## What is remembered of a world -/

namespace Registry

variable {R R' : Registry} {w w' : World} {m : Memory} {s : State} {underway : List Evaluating}

/-- The results of nodes are those that are remembered. Symbols have results of another kind. -/
def Recalls (R : Registry) (w : World) (m : Memory) : Prop :=
  ∀ id, (∀ name, R.node id ≠ some (.symbol id name)) → w.results.get? id = m id

theorem Recalls.mono (h : R.Recalls w m) (hle : R ≤ R') : R'.Recalls w m :=
  fun id hid => h id fun name hname => hid name (hle.1 _ _ hname)

theorem Recalls.of_eq (h : R.Recalls w m) (hr : w'.results = w.results) : R.Recalls w' m := by
  intro id hid
  rw [hr]
  exact h id hid

/-- What a step keeps of a symbol does not count. -/
theorem Recalls.keeps (h : R.Recalls w m) (hs : R.StateKnown s) {results : Table Value}
    (hk : s.Keeps w results) {id : NodeId} (hid : ∀ name, R.node id ≠ some (.symbol id name)) :
    results.get? id = m id := by
  rcases hk with rfl | ⟨other, name, env, v, hc, rfl⟩
  · exact h id hid
  · have hknown := hs.1
    rw [hc] at hknown
    have hne : id ≠ other := by
      rintro rfl
      exact hid name hknown.1
    rw [Table.get?_set, if_neg hne]
    exact h id hid

/-- A step that fails ends no evaluation. -/
theorem Recalls.error (h : R.Recalls w m) (hs : R.StateKnown s) {e : Halt} (he : Machine.step s w = .error e w') :
    R.Recalls w' m := by
  intro id hid
  obtain ⟨results, hk, hsettles⟩ := Machine.settles_step s w
  rw [he] at hsettles
  cases hsettles with
  | fails hr =>
    rw [hr]
    exact h.keeps hs hk hid

/-- What is remembered after a step. -/
theorem Recalls.step (h : R.Recalls w m) (hs : R.StateKnown s) (ht : Machine.Tracks s.stack underway)
    {next : State} (he : Machine.step s w = .ok next w') :
    R.Recalls w' (next.remembers (s.begins ++ underway) m) := by
  intro id hid
  obtain ⟨results, hk, hsettled⟩ := ht.step he
  exact hsettled.remembers m id (h.keeps hs hk hid)

/-- What an act comes to is known, the world that it leaves is ok, and its results are those that are
remembered then. -/
def Remembers (R : Registry) {α : Type} (act : Act α) (w : World) (Q : Registry → α → Prop) (m : Memory) : Prop :=
  ∃ R', R ≤ R' ∧ R'.Recalls (worldAfter act w) m ∧ R'.Ok (worldAfter act w) ∧
    ∀ a w', act w = .ok a w' → Q R' a

namespace Remembers

variable {α β : Type} {act : Act α} {Q : Registry → α → Prop}

/-- An act that leaves the results alone. -/
theorem of_unwritten (h : Keeps R act Q) (hact : Unwritten act) (hw : R.Ok w) (hm : R.Recalls w m) :
    R.Remembers act w Q m := by
  obtain ⟨R', hle, hdone⟩ := h w hw
  refine ⟨R', hle, (hm.mono hle).of_eq (hact w), ?_⟩
  cases e : act w with
  | ok a w' =>
    rw [e] at hdone
    rw [worldAfter_of_ok e]
    refine ⟨hdone.1, ?_⟩
    rintro _ _ ⟨⟩
    exact hdone.2
  | error b w' =>
    rw [e] at hdone
    rw [worldAfter_of_error e]
    refine ⟨hdone, ?_⟩
    rintro _ _ ⟨⟩

/-- An act that goes on where another one succeeded. -/
theorem bind {f : α → Act β} {P : Registry → β → Prop} {m' : Memory} (h : R.Remembers act w Q m)
    (hf : ∀ R' a w', R ≤ R' → act w = .ok a w' → R'.Recalls w' m → R'.Ok w' → Q R' a → R'.Remembers (f a) w' P m')
    (herror : ∀ b w', act w = .error b w' → m' = m) : R.Remembers (act >>= f) w P m' := by
  obtain ⟨R₁, hle, hrecalls, hok, hdone⟩ := h
  cases e : act w with
  | ok a w₁ =>
    rw [worldAfter_of_ok e] at hrecalls hok
    obtain ⟨R₂, hle', hend⟩ := hf R₁ a w₁ hle e hrecalls hok (hdone a w₁ e)
    refine ⟨R₂, le_trans hle hle', ?_⟩
    rw [worldAfter, bind_of_eq_ok e]
    exact hend
  | error b w₁ =>
    rw [worldAfter_of_error e] at hrecalls hok
    rw [herror b w₁ e]
    refine ⟨R₁, hle, ?_⟩
    rw [worldAfter_of_error (bind_of_eq_error e), bind_of_eq_error e]
    refine ⟨hrecalls, hok, ?_⟩
    rintro _ _ ⟨⟩

/-- Dropping the recordings that a failure leaves open leaves the results alone. -/
theorem balanced (h : R.Remembers act w Q m) : R.Remembers (balanced act) w Q m := by
  obtain ⟨R', hle, hrecalls, hok, hdone⟩ := h
  refine ⟨R', hle, ?_⟩
  cases e : act w with
  | ok a w' =>
    have hb : EditableLisp.balanced act w = .ok a w' := by
      unfold EditableLisp.balanced
      simp only [e]
    rw [worldAfter_of_ok e] at hrecalls hok
    rw [worldAfter_of_ok hb, hb]
    exact ⟨hrecalls, hok, e ▸ hdone⟩
  | error b w' =>
    rw [worldAfter_of_error e] at hrecalls hok
    cases b with
    | fault f =>
      have hb : EditableLisp.balanced act w = .error (.fault f) (w'.abandon w.recordings.length) := by
        unfold EditableLisp.balanced
        simp only [e]
      rw [worldAfter_of_error hb, hb]
      exact ⟨hrecalls, hok.abandon _, nofun⟩
    | crash =>
      have hb : EditableLisp.balanced act w = .error .crash w' := by
        unfold EditableLisp.balanced
        simp only [e]
      rw [worldAfter_of_error hb, hb]
      exact ⟨hrecalls, hok, nofun⟩
    | exhausted =>
      have hb : EditableLisp.balanced act w = .error .exhausted w' := by
        unfold EditableLisp.balanced
        simp only [e]
      rw [worldAfter_of_error hb, hb]
      exact ⟨hrecalls, hok, nofun⟩

end Remembers

end Registry

namespace Machine

variable {R : Registry} {w : World} {m : Memory}

/-- **A step keeps what is remembered**, whether it fails or not. -/
theorem remembers_step {s : State} (ho : R.Open) (hs : R.StateKnown s) {underway : List Evaluating}
    (ht : Tracks s.stack underway) (hw : R.Ok w) (hm : R.Recalls w m) :
    R.Remembers (step s) w StateKnown
      (match step s w with
        | .ok next _ => next.remembers (s.begins ++ underway) m
        | .error _ _ => m) := by
  obtain ⟨R', hle, hdone⟩ := keeps_step ho hs w hw
  refine ⟨R', hle, ?_⟩
  cases e : step s w with
  | ok next w' =>
    rw [e] at hdone
    rw [worldAfter_of_ok e]
    refine ⟨(hm.step hs ht e).mono hle, hdone.1, ?_⟩
    rintro _ _ ⟨⟩
    exact hdone.2
  | error b w' =>
    rw [e] at hdone
    rw [worldAfter_of_error e]
    exact ⟨(hm.error hs e).mono hle, hdone, nofun⟩

/-- **A run keeps what is remembered**, whether it ends or not. -/
theorem remembers_drive (fuel : Nat) {s : State} (ho : R.Open) (hs : R.StateKnown s)
    {underway : List Evaluating} (ht : Tracks s.stack underway) (hw : R.Ok w) (hm : R.Recalls w m) :
    R.Remembers (drive fuel s) w Known (remember fuel s underway w m) := by
  induction fuel generalizing R s underway w m with
  | zero => exact ⟨R, le_refl R, hm, hw, nofun⟩
  | succ fuel ih =>
    by_cases hl : ∃ v, s.control = .landed v
    · obtain ⟨v, hv⟩ := hl
      obtain ⟨control, stack⟩ := s
      cases hv
      refine ⟨R, le_refl R, hm, hw, ?_⟩
      rintro _ _ ⟨⟩
      exact hs.1
    · have hl : ∀ v, s.control ≠ .landed v := fun v hv => hl ⟨v, hv⟩
      have hremember : remember (fuel + 1) s underway w m =
          match step s w with
          | .error _ _ => m
          | .ok next w' =>
            remember fuel next (next.goesOn (s.begins ++ underway)) w' (next.remembers (s.begins ++ underway) m) := by
        rw [remember]
        split
        · rename_i v hv
          exact absurd hv (hl v)
        · rfl
      have hstep := remembers_step ho hs ht hw hm
      rw [drive_step fuel hl, hremember]
      cases e : step s w with
      | error b w₁ =>
        rw [e] at hstep
        exact hstep.bind (fun _ _ _ _ h => nomatch e.symm.trans h) fun _ _ _ => rfl
      | ok next w₁ =>
        rw [e] at hstep
        refine hstep.bind (fun R₁ a w₁' hle h hrecalls hok hknown => ?_) fun b w' h => nomatch e.symm.trans h
        cases e.symm.trans h
        obtain ⟨_, -, hsettled⟩ := ht.step e
        exact ih (ho.mono hle) hknown hsettled.tracks hok hrecalls

end Machine

theorem remembers_runFrom {R : Registry} (fuel : Nat) {s : State} (ho : R.Open) (hs : R.StateKnown s)
    (ht : Machine.Tracks s.stack []) {w : World} (hw : R.Ok w) {m : Memory} (hm : R.Recalls w m) :
    R.Remembers (runFrom fuel s) w Known (Machine.remember fuel s [] w m) :=
  (Machine.remembers_drive fuel ho hs ht hw hm).balanced

/-! ## Requests -/

theorem quiet_relayout (node : Node) (count index : Nat) : Quiet (liftM (relayout node count index)) :=
  fun _ => ⟨rfl, List.prefix_rfl⟩

theorem quiet_replacementKey (others : List String) (v : Value) : Quiet (replacementKey others v) := by
  unfold replacementKey
  split
  · exact (quiet_print v).bind fun _ => Quiet.fail _
  · split
    · exact (quiet_print v).bind fun _ => Quiet.fail _
    · exact Quiet.pure _

theorem quiet_replaceChild (owner : Value) (index : Nat) (child : Value) : Quiet (owner.replaceChild index child) := by
  unfold Value.replaceChild
  split
  · split
    · exact Quiet.fail _
    · exact (quiet_relayout _ _ _).bind fun _ => Quiet.pure _
  · rename_i node entries
    dsimp only
    split
    · exact Quiet.fail _
    · rename_i key value _
      have finish : ∀ entry : Key × Value, Quiet (liftM (relayout node (2 * entries.length) index) >>= fun node' =>
          (pure (Value.map node' (entries.set (index / 2) entry)) : Act Value)) :=
        fun entry => (quiet_relayout _ _ _).bind fun _ => Quiet.pure _
      split
      · exact (quiet_replacementKey _ _).bind fun key' => finish (key', value)
      · exact finish (key, child)
  · exact (quiet_print _).bind fun _ => Quiet.fail _

namespace Tree

theorem quiet_rebuild (t : Tree) (id : Nat) (v : Value) : Quiet (t.rebuild id v) := by
  induction id using Nat.strongRecOn generalizing v with
  | ind id ih =>
    rw [rebuild]
    split
    · split
      · rename_i p _ hlt
        exact (quiet_replaceChild _ _ _).bind fun owner => ih p.owner hlt owner
      · exact Quiet.pure _
    · exact Quiet.pure _

theorem quiet_replace (t : Tree) (id : Nat) (v : Value) : Quiet (t.replace id v) := by
  unfold replace
  split
  · exact Quiet.fail _
  · refine (quiet_rebuild t id v).bind fun u => ?_
    dsimp only
    split
    · exact Quiet.pure _
    · exact Quiet.fail _

end Tree

theorem quiet_expandedForm (v : Value) : Quiet (liftM (expandedForm v)) := by
  unfold expandedForm
  split
  · rw [lift_bind]
    refine Quiet.lift_get.bind fun w => ?_
    split
    · exact Quiet.pure _
    · exact quiet_instantiate _ _
    · exact Quiet.pure _
    · rw [lift_bind]
      exact Quiet.lift_get.bind fun _ => Quiet.pure _
  · rw [lift_bind]
    exact Quiet.lift_get.bind fun _ => Quiet.pure _

namespace Session

/-- What is remembered after a request: what its run remembers, and nothing of a node that it invalidates. -/
def Request.remembered (r : Request) (w : World) (m : Memory) : Memory :=
  match r with
  | .evaluate fuel form env => Machine.remember fuel ⟨.eval form env, []⟩ [] w m
  | .apply fuel f args => Machine.remember fuel ⟨.call f args, []⟩ [] w m
  | .macroexpand fuel form =>
    match Machine.expandOnce form .global [] w with
    | .ok s w' => Machine.remember fuel s [] w' m
    | .error _ _ => m
  | .invalidate v => fun id => if v.nodeId? = some id then none else m id
  | _ => m

/-- Invalidating a node drops its own result and no other. -/
theorem results_invalidate (v : Value) (w : World) (id : NodeId) :
    (EditableLisp.invalidate v w).2.results.get? id =
      if v.nodeId? = some id then none else w.results.get? id := by
  have erased : ∀ other, (w.results.erase other).get? id =
      if some other = some id then none else w.results.get? id := by
    intro other
    rw [Table.get?_erase]
    exact ite_congr (propext ⟨fun h => congrArg some h.symm, fun h => (Option.some.inj h).symm⟩) (fun _ => rfl)
      fun _ => rfl
  cases v with
  | symbol other name => exact erased other
  | seq shape node items => exact erased node.id
  | map node entries => exact erased node.id
  | _ => rfl

/-- **A request keeps what is remembered.** -/
theorem Request.remembers_run (r : Request) {R : Registry} (ho : R.Open) (hv : R.AllKnown r.values)
    (he : ∀ env, r.frame? = some env → R.InScope env) {w : World} (hw : R.Ok w) {m : Memory}
    (hm : R.Recalls w m) : R.Remembers r.run w AllKnown (r.remembered w m) := by
  have ran : ∀ {act : Act Value} {m' : Memory}, R.Remembers act w Known m' →
      R.Remembers (act >>= fun v => pure [v]) w AllKnown m' := fun h =>
    h.bind (fun R' a w' _ _ hrecalls hok hknown => ⟨R', le_refl R', hrecalls, hok, by
      rintro _ _ ⟨⟩
      exact List.forall_mem_singleton.mpr hknown⟩) fun _ _ _ => rfl
  have idle : Unwritten r.run → R.Remembers r.run w AllKnown m := fun h =>
    .of_unwritten (r.keeps_run ho hv he) h hw hm
  have single : ∀ {α : Type} {act : Act α} {f : α → List Value}, Quiet act →
      Unwritten (act >>= fun a => pure (f a)) := fun h => (h.bind fun _ => Quiet.pure _).unwritten
  cases r with
  | evaluate fuel form env =>
    have hs : R.StateKnown ⟨.eval form env, []⟩ := ⟨⟨List.forall_mem_singleton.mp hv, he env rfl⟩, stackKnown_nil⟩
    exact ran (remembers_runFrom fuel ho hs .nil hw hm)
  | apply fuel f args =>
    have hs : R.StateKnown ⟨.call f args, []⟩ := ⟨allKnown_cons.mp hv, stackKnown_nil⟩
    exact ran (remembers_runFrom fuel ho hs .nil hw hm)
  | macroexpand fuel form =>
    have hwaits : Machine.Waits [] (Machine.expandOnce form .global []) := Machine.waits_expandOnce form
    have hstart : R.Remembers (Machine.expandOnce form .global []) w StateKnown m :=
      .of_unwritten (Machine.keeps_expandOnce (List.forall_mem_singleton.mp hv) stackKnown_nil .global)
        hwaits.unwritten hw hm
    refine ran (hstart.bind (fun R' s w' hle e hrecalls hok hs => ?_) fun b w' e => ?_)
    · have ht : Machine.Tracks s.stack [] := by
        unfold Machine.Tracks
        rw [(hwaits.shifts s w w' e).waiting_eq]
        exact Machine.Tracks.nil
      unfold remembered
      dsimp only
      rw [e]
      exact remembers_runFrom fuel (ho.mono hle) hs ht hok hrecalls
    · unfold remembered
      dsimp only
      rw [e]
  | invalidate v =>
    obtain ⟨R', hle, hdone⟩ := Request.keeps_run (.invalidate v) ho hv he w hw
    refine ⟨R', hle, fun id hid => ?_, hdone.1, ?_⟩
    · show (EditableLisp.invalidate v w).2.results.get? id = if v.nodeId? = some id then none else m id
      rw [results_invalidate, hm.mono hle id hid]
    · rintro _ _ ⟨⟩
      exact hdone.2
  | readProgram src =>
    refine idle (((quiet_readProgram src).bind fun result => ?_).unwritten)
    split <;> exact Quiet.pure _
  | readForm src =>
    refine idle (((quiet_readForm src).bind fun result => ?_).unwritten)
    split <;> exact Quiet.pure _
  | decode text => exact idle (single (quiet_decodeJson text))
  | symbol name => exact idle (single (quiet_newSymbol name))
  | sequence shape items => exact idle (single (quiet_newSeq shape items))
  | map pairs => exact idle (single (quiet_newMap _))
  | atom content => exact idle (single (quiet_newAtom content))
  | expand form => exact idle (single (quiet_expandedForm form))
  | print v => exact idle (single (quiet_print v))
  | printPlain v => exact idle (single (quiet_printPlain v))
  | copy v => exact idle (single (quiet_deepCopy v))
  | replaceChild owner index child => exact idle (single (quiet_replaceChild owner index child))
  | replaceNode root id v => exact idle (single (Tree.quiet_replace _ id v))
  | define env name v => exact idle ((unwritten_define env name v).bind fun _ => (Quiet.pure _).unwritten)
  | defineAt env name v site =>
    exact idle ((unwritten_defineAt env name v site).bind fun _ => (Quiet.pure _).unwritten)

/-! ## Sessions -/

/-- A session with the evaluations that are underway in each state of a run that it has come to, and with what is
remembered of its nodes. -/
inductive Recalled : Session → List (State × List Evaluating) → Memory → Prop where
  | full : Recalled ⟨World.full, [], [], []⟩ [] fun _ => none
  | bare : Recalled ⟨World.initial, [], [], []⟩ [] fun _ => none
  | served {s : Session} {runs : List (State × List Evaluating)} {m : Memory} {r : Request} {vs : List Value}
      {w : World} : Recalled s runs m → (∀ v ∈ r.values, s.Has v) → (∀ env, r.frame? = some env → s.HasFrame env) →
      r.run s.world = .ok vs w → Recalled { s with world := w, held := vs ++ s.held } runs (r.remembered s.world m)
  | failed {s : Session} {runs : List (State × List Evaluating)} {m : Memory} {r : Request} {h : Halt}
      {w : World} : Recalled s runs m → (∀ v ∈ r.values, s.Has v) → (∀ env, r.frame? = some env → s.HasFrame env) →
      r.run s.world = .error h w → Recalled { s with world := w } runs (r.remembered s.world m)
  | take {s : Session} {runs : List (State × List Evaluating)} {m : Memory} {v : Value} : Recalled s runs m →
      s.Has v → Recalled { s with held := v :: s.held } runs m
  | newFrame {s : Session} {runs : List (State × List Evaluating)} {m : Memory} {env : Env} : Recalled s runs m →
      s.HasFrame env → Recalled { s with
        world := (newChild env s.world).2, frames := (newChild env s.world).1 :: s.frames } runs m
  | start {s : Session} {runs : List (State × List Evaluating)} {m : Memory} {form : Value} {env : Env} :
      Recalled s runs m → s.Has form → s.HasFrame env →
      Recalled { s with runs := ⟨.eval form env, []⟩ :: s.runs } ((⟨.eval form env, []⟩, []) :: runs) m
  | startCall {s : Session} {runs : List (State × List Evaluating)} {m : Memory} {f : Value} {args : List Value} :
      Recalled s runs m → s.Has f → (∀ v ∈ args, s.Has v) →
      Recalled { s with runs := ⟨.call f args, []⟩ :: s.runs } ((⟨.call f args, []⟩, []) :: runs) m
  | advance {s : Session} {runs : List (State × List Evaluating)} {m : Memory} {state next : State}
      {underway : List Evaluating} {w : World} : Recalled s runs m → (state, underway) ∈ runs →
      Machine.step state s.world = .ok next w →
      Recalled { s with world := w, runs := next :: s.runs } ((next, next.goesOn (state.begins ++ underway)) :: runs)
        (next.remembers (state.begins ++ underway) m)
  | stuck {s : Session} {runs : List (State × List Evaluating)} {m : Memory} {state : State} {h : Halt}
      {w : World} : Recalled s runs m → state ∈ s.runs → Machine.step state s.world = .error h w →
      Recalled { s with world := w } runs m

/-- What is remembered of a session is what its world has. -/
structure Recalling (R : Registry) (s : Session) (runs : List (State × List Evaluating)) (m : Memory) : Prop where
  sound : Sound R s
  recalls : R.Recalls s.world m
  states : runs.map Prod.fst = s.runs
  tracks : ∀ run ∈ runs, Machine.Tracks run.1.stack run.2

variable {s : Session} {runs : List (State × List Evaluating)} {m : Memory}

theorem results_installAll (functions : List Builtin) (w : World) :
    (installAll functions w).2.results = w.results := by
  induction functions generalizing w with
  | nil => rfl
  | cons b rest ih => exact ih _

/-- No node has a result in a world with the built-in functions. -/
theorem results_full : World.full.results = .empty := by
  unfold World.full
  show ((installAll (Builtin.functions ++ Builtin.expanders) >>= fun _ => define .global "PI" (.num pi))
    World.initial).2.results = .empty
  generalize Builtin.functions ++ Builtin.expanders = functions
  exact results_installAll functions World.initial

theorem Recalling.first {R : Registry} {w : World} (hs : Sound R ⟨w, [], [], []⟩) (hw : w.results = .empty) :
    Recalling R ⟨w, [], [], []⟩ [] fun _ => none where
  sound := hs
  recalls id _ := by rw [hw, Table.get?_empty]
  states := rfl
  tracks := nofun

/-- **What is remembered of a session is what its world has**, whatever the host did. -/
theorem Recalled.exists_recalling (h : s.Recalled runs m) : ∃ R, Recalling R s runs m := by
  induction h with
  | full =>
    obtain ⟨R, hle, hok⟩ := exists_ok_full
    exact ⟨R, .first (.first hok hle) results_full⟩
  | bare => exact ⟨firstRegistry, .first (.first ok_initial (le_refl _)) rfl⟩
  | @served s runs m r vs w _ hv he hr ih =>
    obtain ⟨R, hs⟩ := ih
    obtain ⟨R', hle, hrecalls, hok, hdone⟩ := r.remembers_run hs.sound.free (fun v hm => hs.sound.known (hv v hm))
      (fun env hf => hs.sound.inScope (he env hf)) hs.sound.world hs.recalls
    rw [worldAfter_of_ok hr] at hrecalls hok
    have hgrown := hs.sound.grow hle hok
    refine ⟨R', ?_, hrecalls, hs.states, hs.tracks⟩
    exact { hgrown with held := allKnown_append.mpr ⟨hdone vs w hr, hgrown.held⟩ }
  | @failed s runs m r h w _ hv he hr ih =>
    obtain ⟨R, hs⟩ := ih
    obtain ⟨R', hle, hrecalls, hok, -⟩ := r.remembers_run hs.sound.free (fun v hm => hs.sound.known (hv v hm))
      (fun env hf => hs.sound.inScope (he env hf)) hs.sound.world hs.recalls
    rw [worldAfter_of_error hr] at hrecalls hok
    exact ⟨R', hs.sound.grow hle hok, hrecalls, hs.states, hs.tracks⟩
  | take _ hv ih =>
    obtain ⟨R, hs⟩ := ih
    have hheld := List.forall_mem_cons.mpr ⟨hs.sound.known hv, hs.sound.held⟩
    exact ⟨R, { hs.sound with held := hheld }, hs.recalls, hs.states, hs.tracks⟩
  | @newFrame s runs m env _ he ih =>
    obtain ⟨R, hs⟩ := ih
    obtain ⟨R', hle, hok, hframe⟩ := keeps_newScope (hs.sound.inScope he) s.world hs.sound.world
    have hgrown := hs.sound.grow hle hok
    refine ⟨R', ?_, hs.recalls.mono hle, hs.states, hs.tracks⟩
    exact { hgrown with frames := List.forall_mem_cons.mpr ⟨hframe, hgrown.frames⟩ }
  | start _ hf he ih =>
    obtain ⟨R, hs⟩ := ih
    have hstate := And.intro (And.intro (hs.sound.known hf) (hs.sound.inScope he)) (@stackKnown_nil R)
    exact ⟨R, { hs.sound with runs := List.forall_mem_cons.mpr ⟨hstate, hs.sound.runs⟩ }, hs.recalls,
      congrArg (List.cons _) hs.states, List.forall_mem_cons.mpr ⟨.nil, hs.tracks⟩⟩
  | startCall _ hf ha ih =>
    obtain ⟨R, hs⟩ := ih
    have hstate := And.intro (And.intro (hs.sound.known hf) fun v hv => hs.sound.known (ha v hv)) (@stackKnown_nil R)
    exact ⟨R, { hs.sound with runs := List.forall_mem_cons.mpr ⟨hstate, hs.sound.runs⟩ }, hs.recalls,
      congrArg (List.cons _) hs.states, List.forall_mem_cons.mpr ⟨.nil, hs.tracks⟩⟩
  | @advance s runs m state next underway w _ hrun hstep ih =>
    obtain ⟨R, hs⟩ := ih
    have hmem : state ∈ s.runs := hs.states ▸ List.mem_map_of_mem hrun
    have htracks := hs.tracks _ hrun
    obtain ⟨R', hle, hrecalls, hok, hdone⟩ := Machine.remembers_step hs.sound.free (hs.sound.runs state hmem) htracks
      hs.sound.world hs.recalls
    rw [worldAfter_of_ok hstep] at hrecalls hok
    rw [hstep] at hrecalls
    obtain ⟨_, -, hsettled⟩ := htracks.step hstep
    have hgrown := hs.sound.grow hle hok
    refine ⟨R', ?_, hrecalls, congrArg (List.cons next) hs.states,
      List.forall_mem_cons.mpr ⟨hsettled.tracks, hs.tracks⟩⟩
    exact { hgrown with runs := List.forall_mem_cons.mpr ⟨hdone next w hstep, hgrown.runs⟩ }
  | @stuck s runs m state h w _ hmem hstep ih =>
    obtain ⟨R, hs⟩ := ih
    obtain ⟨⟨_, underway⟩, hrun, rfl⟩ := List.mem_map.mp (hs.states ▸ hmem)
    obtain ⟨R', hle, hrecalls, hok, -⟩ := Machine.remembers_step hs.sound.free (hs.sound.runs _ hmem) (hs.tracks _ hrun)
      hs.sound.world hs.recalls
    rw [worldAfter_of_error hstep] at hrecalls hok
    rw [hstep] at hrecalls
    exact ⟨R', hs.sound.grow hle hok, hrecalls, hs.states, hs.tracks⟩

/-- Of every session that can be reached something is remembered. -/
theorem Reachable.exists_recalled (h : s.Reachable) : ∃ runs m, s.Recalled runs m := by
  induction h with
  | full => exact ⟨_, _, .full⟩
  | bare => exact ⟨_, _, .bare⟩
  | step _ hs ih =>
    obtain ⟨runs, m, h⟩ := ih
    cases hs with
    | served hv he hr => exact ⟨_, _, h.served hv he hr⟩
    | failed hv he hr => exact ⟨_, _, h.failed hv he hr⟩
    | take hv => exact ⟨_, _, h.take hv⟩
    | newFrame he => exact ⟨_, _, h.newFrame he⟩
    | start hf he => exact ⟨_, _, h.start hf he⟩
    | startCall hf ha => exact ⟨_, _, h.startCall hf ha⟩
    | advance hm hstep =>
      obtain ⟨R, hr⟩ := h.exists_recalling
      obtain ⟨⟨_, underway⟩, hrun, rfl⟩ := List.mem_map.mp (hr.states ▸ hm)
      exact ⟨_, _, h.advance hrun hstep⟩
    | stuck hm hstep => exact ⟨_, _, h.stuck hm hstep⟩

/-- What a node evaluates to, said by its result. -/
theorem evaluated_of_keepsResult {v : Value} (hk : v.keepsResult) {id : NodeId} (hid : v.nodeId? = some id)
    (w : World) : w.evaluated v = (w.results.get? id).getD v := by
  unfold World.evaluated
  cases v with
  | seq | map => cases hid; rfl
  | _ => cases hk

/-- One identity is that of one node. -/
theorem Recalling.unique {R : Registry} (h : Recalling R s runs m) {u v : Value} {id : NodeId} (hu : s.Has u)
    (hv : s.Has v) (hidu : u.nodeId? = some id) (hidv : v.nodeId? = some id) : u = v :=
  Option.some.inj (((h.sound.known hu).node_eq hidu).symm.trans ((h.sound.known hv).node_eq hidv))

/-- **A node evaluates to the value of its own last evaluation.** In every session that can be reached, in the
middle of runs and after those that failed too, a program, and a list, vector or map that is not empty, has the
value that ended the last of its evaluations that is over, and none if it was not evaluated since it was
invalidated. It is one node wherever it stands. What ends an evaluation is the value that the machine returns to
what was pending when the evaluation began: until then that is pending still. -/
theorem Reachable.evaluated_eq_remembered (h : s.Reachable) :
    (∃ runs m, s.Recalled runs m) ∧
    ∀ runs m, s.Recalled runs m →
      (∀ v id, s.Has v → v.keepsResult → v.nodeId? = some id →
        s.world.evaluated v = (m id).getD v ∧ ∀ u, s.Has u → u.nodeId? = some id → u = v) ∧
      runs.map Prod.fst = s.runs ∧
      ∀ state underway, (state, underway) ∈ runs → ∀ next w, Machine.step state s.world = .ok next w →
        ∀ e ∈ state.begins ++ underway, e.below <:+ next.stack ∧
          (next.isBack e → ∃ v, next = ⟨.ret v, e.below⟩) := by
  refine ⟨h.exists_recalled, fun runs m hm => ?_⟩
  obtain ⟨R, hr⟩ := hm.exists_recalling
  refine ⟨fun v id hv hk hid => ⟨?_, fun u hu hidu => hr.unique hu hv hidu hid⟩, hr.states, ?_⟩
  · -- The node is no symbol, so its result is one that is remembered.
    have hnode : ∀ name, R.node id ≠ some (.symbol id name) := by
      intro name hname
      have hknown := hr.sound.known hv
      cases v with
      | seq | map =>
        cases hid
        cases hknown.symm.trans hname
      | _ => cases hk
    rw [evaluated_of_keepsResult hk hid, hr.recalls id hnode]
  · intro state underway hrun next w hstep
    obtain ⟨_, -, hsettled⟩ := (hr.tracks _ hrun).step hstep
    exact hsettled.pending

/-- A host reads a program and evaluates it in vain. The result is the program and the failure, each with the
world that it was come to in. -/
def readThenFail (src : String) (w : World) : Option ((Value × World) × (Halt × World)) :=
  match EditableLisp.readProgram src w with
  | (.ok p, w₁) =>
    match evalIn 100 p .global w₁ with
    | .error b w₂ => some ((p, w₁), (b, w₂))
    | .ok .. => none
  | _ => none

theorem readThenFail_eq_some {src : String} {w w₁ w₂ : World} {p : Value} {b : Halt}
    (h : readThenFail src w = some ((p, w₁), (b, w₂))) :
    EditableLisp.readProgram src w = (.ok p, w₁) ∧ evalIn 100 p .global w₁ = .error b w₂ := by
  unfold readThenFail at h
  split at h
  · rename_i hread
    split at h
    · rename_i hrun
      cases h
      exact ⟨hread, hrun⟩
    · cases h
  · cases h

/-- What is remembered of the host's session then. -/
theorem exists_recalled_of_readThenFail {src : String} {w w₁ w₂ : World} {p : Value} {b : Halt}
    (h : readThenFail src w = some ((p, w₁), (b, w₂))) (hw : Reachable ⟨w, [], [], []⟩)
    (hm : Recalled ⟨w, [], [], []⟩ [] fun _ => none) :
    Reachable ⟨w₂, [p], [], []⟩ ∧
      Recalled ⟨w₂, [p], [], []⟩ [] (Machine.remember 100 ⟨.eval p .global, []⟩ [] w₁ fun _ => none) := by
  obtain ⟨hread, hrun⟩ := readThenFail_eq_some h
  let read : Session := ⟨w₁, [p], [], []⟩
  have hp : ∀ v ∈ (Request.evaluate 100 p .global).values, read.Has v :=
    List.forall_mem_singleton.mpr (.held List.mem_cons_self)
  have hframe : ∀ env, (Request.evaluate 100 p .global).frame? = some env → read.HasFrame env := by
    rintro _ ⟨⟩
    exact .global
  have hserved : (Request.readProgram src).run w = .ok [p] w₁ := by
    show ((liftM (EditableLisp.readProgram src) : Act _) >>= _) w = _
    rw [bind_of_eq_ok (lift_of_eq hread)]
    rfl
  have hfailed : (Request.evaluate 100 p .global).run read.world = .error b w₂ := bind_of_eq_error hrun
  have hreads : Recalled read [] fun _ => none :=
    @Recalled.served _ _ _ (.readProgram src) _ _ hm (List.forall_mem_nil _) (by rintro _ ⟨⟩) hserved
  exact ⟨(hw.step (.read hread)).step (@Step.failed read (.evaluate 100 p .global) _ _ hp hframe hfailed),
    @Recalled.failed read _ _ (.evaluate 100 p .global) _ _ hreads hp hframe hfailed⟩

/-- A run that fails after its first form was evaluated: the form has the value that it had. -/
theorem Reachable.evaluated_eq_remembered_failed : ∃ (s : Session) (sum : Value), s.Reachable ∧ s.Has sum ∧
    sum.keepsResult ∧ (s.world.evaluated sum).equal (.num 3) = true := by
  have test : ((readThenFail "(+ 1 2) oops" World.full).any fun r => r.1.1.children.head?.any fun sum =>
      sum.keepsResult && sum.nodeId?.any fun id =>
        ((Machine.remember 100 ⟨.eval r.1.1 .global, []⟩ [] r.1.2 (fun _ => none) id).getD sum).equal (.num 3)) =
      true := by decide +kernel
  have hfull := Reachable.full
  have hfirst := Recalled.full
  generalize World.full = first at test hfull hfirst
  obtain ⟨⟨⟨p, w₁⟩, b, w₂⟩, hrun, hsum⟩ := (Option.any_eq_true _ _).mp test
  obtain ⟨sum, hhead, hcheck⟩ := (Option.any_eq_true _ _).mp hsum
  obtain ⟨hkeeps, hid⟩ := Bool.and_eq_true_iff.mp hcheck
  obtain ⟨id, hid, hvalue⟩ := (Option.any_eq_true _ _).mp hid
  obtain ⟨hreached, hrecalled⟩ := exists_recalled_of_readThenFail hrun hfull hfirst
  have hheld : Has ⟨w₂, [p], [], []⟩ sum := by
    have hmem : sum ∈ p.children := List.mem_of_head? hhead
    have hp : Has ⟨w₂, [p], [], []⟩ p := .held List.mem_cons_self
    cases p with
    | seq shape node items => exact hp.item hmem
    | map node entries => exact hp.entry hmem
    | _ => cases hmem
  have hevaluated := ((hreached.evaluated_eq_remembered.2 _ _ hrecalled).1 sum id hheld hkeeps hid).1
  exact ⟨_, sum, hreached, hheld, hkeeps, hevaluated ▸ hvalue⟩

end Session

end EditableLisp
