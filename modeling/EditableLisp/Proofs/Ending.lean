import EditableLisp.Interpreter
import EditableLisp.Proofs.Refinement

/-!
# Runs that come to an end

`Ends run w r`: with enough steps the run comes to the end `r`, which is then its only end. A run of the machine
ends as the direct evaluation does (`Machine.ends_drive_iff`, `Machine.ends_expandOnce_iff`), and so does what a
host runs, the recordings of a failure apart (`Hosts`). So what is to be shown of the runs of a host can be shown
of direct evaluation at any depth that is large enough.

* `EndAlike` relates runs with the same ends, and goes through sequences (`EndAlike.bind`).
* A form is evaluated on a stack as it is on its own, and the value is then handed to the stack
  (`Machine.ends_drive_pending_iff`).
-/

namespace EditableLisp

variable {α β : Type} {w : World} {r : EStateM.Result Halt World α}

/-- The run came to an end; it was not cut off. -/
def Halted (r : EStateM.Result Halt World α) : Prop := ∀ w', r ≠ .error .exhausted w'

/-- With enough steps a run comes to this end. -/
def Ends (run : Nat → Act α) (w : World) (r : EStateM.Result Halt World α) : Prop :=
  Halted r ∧ ∃ least, ∀ fuel, least ≤ fuel → run fuel w = r

/-- One run that ends is enough: with more steps it comes to the same end. -/
def Persists (run : Nat → Act α) : Prop :=
  ∀ ⦃fuel : Nat⦄ ⦃w : World⦄ ⦃r : EStateM.Result Halt World α⦄, run fuel w = r → Halted r → Ends run w r

theorem halted_ok (a : α) (w : World) : Halted (.ok a w) := nofun

namespace Ends

variable {run : Nat → Act α} {next : Nat → α → Act β} {w₁ : World}

theorem eq {r' : EStateM.Result Halt World α} (h : Ends run w r) (h' : Ends run w r') : r = r' := by
  obtain ⟨-, least, hr⟩ := h
  obtain ⟨-, most, hr'⟩ := h'
  exact (hr (max least most) (Nat.le_max_left _ _)).symm.trans (hr' (max least most) (Nat.le_max_right _ _))

/-- Runs that come to one end come to no other. -/
theorem congr {run' : Nat → Act α} {common : EStateM.Result Halt World α} (h : Ends run w common)
    (h' : Ends run' w common) : Ends run w r ↔ Ends run' w r := by
  constructor
  · intro hr
    rw [hr.eq h]
    exact h'
  · intro hr
    rw [hr.eq h']
    exact h

theorem exists_halted (h : Ends run w r) : ∃ fuel, Halted (run fuel w) := by
  obtain ⟨hr, least, hleast⟩ := h
  refine ⟨least, ?_⟩
  rw [hleast least (Nat.le_refl _)]
  exact hr

/-- What goes on after a value ends as it does from there. -/
theorem bind_iff {a : α} (h : Ends run w (.ok a w₁)) {r : EStateM.Result Halt World β} :
    Ends (fun fuel => run fuel >>= next fuel) w r ↔ Ends (fun fuel => next fuel a) w₁ r := by
  obtain ⟨-, least, hrun⟩ := h
  have hafter : ∀ fuel, least ≤ fuel → (run fuel >>= next fuel) w = next fuel a w₁ :=
    fun fuel hle => bind_of_eq_ok (hrun fuel hle)
  constructor
  · rintro ⟨hr, most, hends⟩
    refine ⟨hr, max least most, fun fuel hle => ?_⟩
    exact (hafter fuel (by omega)).symm.trans (hends fuel (by omega))
  · rintro ⟨hr, most, hends⟩
    refine ⟨hr, max least most, fun fuel hle => ?_⟩
    exact (hafter fuel (by omega)).trans (hends fuel (by omega))

/-- Nothing goes on after a failure. -/
theorem bind_error {e : Halt} (h : Ends run w (.error e w₁)) :
    Ends (fun fuel => run fuel >>= next fuel) w (.error e w₁) := by
  obtain ⟨hr, least, hrun⟩ := h
  refine ⟨fun w' he => hr w' (by cases he; rfl), least, fun fuel hle => ?_⟩
  exact bind_of_eq_error (hrun fuel hle)

theorem succ_iff : Ends (fun fuel => run (fuel + 1)) w r ↔ Ends run w r := by
  constructor
  · rintro ⟨hhalted, least, hr⟩
    refine ⟨hhalted, least + 1, fun fuel hle => ?_⟩
    obtain ⟨n, rfl⟩ := Nat.exists_eq_add_of_lt hle
    have := hr (least + n) (Nat.le_add_right _ _)
    exact this
  · rintro ⟨hhalted, least, hr⟩
    exact ⟨hhalted, least, fun fuel hle => hr (fuel + 1) (Nat.le_succ_of_le hle)⟩

/-- Runs that come to the same are alike, also from different worlds. -/
theorem iff_of_eq {run' : Nat → Act α} {w' : World} (h : ∀ fuel, run fuel w = run' fuel w') :
    Ends run w r ↔ Ends run' w' r := by
  unfold Ends
  simp only [h]

/-- A run in two parts ends in its second part, or with a failure of its first part. -/
theorem of_bind (hp : Persists run) {r : EStateM.Result Halt World β}
    (h : Ends (fun fuel => run fuel >>= next fuel) w r) :
    (∃ a w₁, Ends run w (.ok a w₁)) ∨ ∃ e w₁, Ends run w (.error e w₁) ∧ r = .error e w₁ := by
  obtain ⟨hr, least, hends⟩ := h
  have hleast : (run least >>= next least) w = r := hends least (Nat.le_refl _)
  cases e : run least w with
  | ok a w₁ => exact .inl ⟨a, w₁, hp e (halted_ok a w₁)⟩
  | error h w₁ =>
    rw [bind_of_eq_error e] at hleast
    subst hleast
    exact .inr ⟨h, w₁, hp e (fun w' he => hr w' (by cases he; rfl)), rfl⟩

/-- What a run in two parts comes to depends on what its first part comes to. -/
theorem of_bind_congr {run' : Nat → Act α} {w' : World} (hp : Persists run)
    (hs : ∀ r, Ends run w r → Ends run' w' r) {r : EStateM.Result Halt World β}
    (h : Ends (fun fuel => run fuel >>= next fuel) w r) : Ends (fun fuel => run' fuel >>= next fuel) w' r := by
  rcases h.of_bind hp with ⟨a, w₁, ha⟩ | ⟨e, w₁, he, rfl⟩
  · exact (hs _ ha).bind_iff.mpr (ha.bind_iff.mp h)
  · exact (hs _ he).bind_error

theorem bind_congr {run' : Nat → Act α} {w' : World} (hp : Persists run) (hp' : Persists run')
    (hs : ∀ r, Ends run w r ↔ Ends run' w' r) {r : EStateM.Result Halt World β} :
    Ends (fun fuel => run fuel >>= next fuel) w r ↔ Ends (fun fuel => run' fuel >>= next fuel) w' r :=
  ⟨of_bind_congr hp fun r => (hs r).mp, of_bind_congr hp' fun r => (hs r).mpr⟩

end Ends

theorem Persists.bind {run : Nat → Act α} {next : Nat → α → Act β} (hp : Persists run)
    (hn : ∀ a, Persists fun fuel => next fuel a) : Persists fun fuel => run fuel >>= next fuel := by
  intro fuel w r e hr
  change (run fuel >>= next fuel) w = r at e
  cases erun : run fuel w with
  | ok a w₁ =>
    rw [bind_of_eq_ok erun] at e
    exact (hp erun (halted_ok a w₁)).bind_iff.mpr (hn a e hr)
  | error h w₁ =>
    rw [bind_of_eq_error erun] at e
    subst e
    exact (hp erun fun w' he => hr w' (by cases he; rfl)).bind_error

/-- An act that needs no steps comes to its end at once. -/
theorem Persists.const (act : Act α) : Persists fun _ => act := fun _ _ _ e hr => ⟨hr, 0, fun _ _ => e⟩

/-! ## Runs with the same ends -/

/-- Two runs come to the same ends in every world. -/
structure EndAlike (run run' : Nat → Act α) : Prop where
  left : Persists run
  right : Persists run'
  iff : ∀ w r, Ends run w r ↔ Ends run' w r

namespace EndAlike

variable {run run' : Nat → Act α} {next next' : Nat → α → Act β}

theorem refl (h : Persists run) : EndAlike run run := ⟨h, h, fun _ _ => Iff.rfl⟩

theorem const (act : Act α) : EndAlike (fun _ => act) fun _ => act := refl (.const act)

theorem symm (h : EndAlike run run') : EndAlike run' run := ⟨h.right, h.left, fun w r => (h.iff w r).symm⟩

/-- The end of a run in two parts is that of another whose parts end alike. -/
theorem ends_bind (h : EndAlike run run') (hn : ∀ a, EndAlike (fun fuel => next fuel a) fun fuel => next' fuel a)
    {r : EStateM.Result Halt World β} (hr : Ends (fun fuel => run fuel >>= next fuel) w r) :
    Ends (fun fuel => run' fuel >>= next' fuel) w r := by
  rcases hr.of_bind h.left with ⟨a, w₁, ha⟩ | ⟨e, w₁, he, rfl⟩
  · rw [ha.bind_iff] at hr
    exact ((h.iff w _).mp ha).bind_iff.mpr (((hn a).iff w₁ r).mp hr)
  · exact ((h.iff w _).mp he).bind_error

theorem bind (h : EndAlike run run') (hn : ∀ a, EndAlike (fun fuel => next fuel a) fun fuel => next' fuel a) :
    EndAlike (fun fuel => run fuel >>= next fuel) fun fuel => run' fuel >>= next' fuel :=
  ⟨h.left.bind fun a => (hn a).left, h.right.bind fun a => (hn a).right,
    fun _ _ => ⟨h.ends_bind hn, h.symm.ends_bind fun a => (hn a).symm⟩⟩

/-- A run may be given a step more. -/
theorem of_succ (hp : Persists run) (h : EndAlike (fun fuel => run (fuel + 1)) run') : EndAlike run run' :=
  ⟨hp, h.right, fun w r => Ends.succ_iff.symm.trans (h.iff w r)⟩

end EndAlike

/-! ## The machine and direct evaluation -/

namespace Machine

variable {act : Act State} {r : EStateM.Result Halt World Value}

theorem persists_bind_drive (act : Act State) : Persists fun fuel => act >>= drive fuel := by
  intro fuel w r e hr
  refine ⟨hr, fuel, fun more hle => ?_⟩
  obtain ⟨n, rfl⟩ := Nat.exists_eq_add_of_le hle
  exact bind_drive_add n e hr

theorem persists_drive (s : State) : Persists fun fuel => drive fuel s := persists_bind_drive (Pure.pure s)

/-- A direct evaluation with an end is that of a run which it refines. -/
theorem Refines.ends {n : Nat} {direct : Act Value} (h : Refines n [] act direct) (e : direct w = r)
    (hr : Halted r) : Ends (fun fuel => act >>= drive fuel) w r := by
  have hagrees := h w
  rw [e] at hagrees
  cases hagrees with
  | @value v nodes w₁ hleads =>
    obtain ⟨steps, hs⟩ := hleads.trans (leads_pend (by nofun) v nodes w₁)
    have hlanded : (act >>= drive (steps + 1)) w = .ok v (kept v nodes w₁) := by
      rw [hs]
      rfl
    exact persists_bind_drive act hlanded hr
  | failure hbreaks =>
    obtain ⟨steps, hs⟩ := hbreaks
    exact persists_bind_drive act (hs 0) hr
  | deep => exact absurd rfl (hr _)

/-- A run ends as the direct evaluation that it refines does. -/
theorem ends_bind_drive_iff {direct : Nat → Act Value} (h : ∀ n, Refines (n + 1) [] act (direct n)) :
    Ends (fun fuel => act >>= drive fuel) w r ↔ Ends direct w r := by
  constructor
  · rintro ⟨hr, least, hends⟩
    exact ⟨hr, least, fun n hle => (h n).eq_of_bind_drive (hends n hle) hr⟩
  · rintro ⟨hr, least, hends⟩
    exact (h least).ends (hends least (Nat.le_refl _)) hr

theorem ends_drive_iff (form : Value) (env : Env) :
    Ends (fun fuel => drive fuel ⟨.eval form env, []⟩) w r ↔ Ends (fun depth => Direct.eval depth form env) w r := by
  rw [← Ends.succ_iff, ← @Ends.succ_iff _ _ _ fun depth => Direct.eval depth form env]
  exact ends_bind_drive_iff fun n => (covers_parts (n + 1)).eval form env []

theorem ends_expandOnce_iff (form : Value) (env : Env) :
    Ends (fun fuel => expandOnce form env [] >>= drive fuel) w r ↔
      Ends (fun depth => Direct.expandOnce (Direct.parts depth) form env) w r :=
  ends_bind_drive_iff fun n => refines_expandOnce (covers_parts n) form env []

end Machine

theorem Direct.persists_eval (form : Value) (env : Env) : Persists fun depth => Direct.eval depth form env := by
  intro depth w r e hr
  rw [← Machine.ends_drive_iff, ← Ends.succ_iff]
  exact ((Machine.covers_parts depth).eval form env []).ends e hr

theorem Direct.persists_expandOnce (form : Value) (env : Env) :
    Persists fun depth => Direct.expandOnce (Direct.parts depth) form env := by
  intro depth w r e hr
  rw [← Machine.ends_expandOnce_iff]
  exact (Machine.refines_expandOnce (Machine.covers_parts depth) form env []).ends e hr

namespace Machine

/-! ## Evaluation on a stack -/

/-- A step that leads to another comes to the same ends. -/
theorem Leads.ends_iff {act next : Act State} {w' : World} (h : Leads act w next w')
    {r : EStateM.Result Halt World Value} :
    Ends (fun fuel => act >>= drive fuel) w r ↔ Ends (fun fuel => next >>= drive fuel) w' r := by
  obtain ⟨steps, hsteps⟩ := h
  constructor
  · rintro ⟨hr, least, hends⟩
    have hnext : (next >>= drive least) w' = r :=
      (hsteps least).symm.trans (hends _ (Nat.le_add_left least steps))
    exact persists_bind_drive next hnext hr
  · rintro ⟨hr, least, hends⟩
    have hact : (act >>= drive (steps + least)) w = r := (hsteps least).trans (hends least (Nat.le_refl _))
    exact persists_bind_drive act hact hr

variable {form : Value} {env : Env} {stack : List Pending} {r : EStateM.Result Halt World Value}

theorem ends_drive_pending_of_halted {depth : Nat} (h : Halted (Direct.eval depth form env w)) :
    Ends (fun fuel => drive fuel ⟨.eval form env, stack⟩) w r ↔
      Ends (fun fuel => Direct.eval fuel form env >>= fun v => drive fuel ⟨.ret v, stack⟩) w r := by
  have hdirect : Ends (fun depth => Direct.eval depth form env) w (Direct.eval depth form env w) :=
    Direct.persists_eval form env rfl h
  have hagrees := agrees_eval depth form env stack w
  have hstep : ∀ w r, Ends (fun fuel => drive fuel ⟨.eval form env, stack⟩) w r ↔
      Ends (fun fuel => eval form env stack >>= drive fuel) w r := fun _ _ => Ends.succ_iff.symm
  rw [hstep]
  generalize Direct.eval depth form env w = direct at h hdirect hagrees
  cases hagrees with
  | @value v nodes w₁ hleads =>
    calc Ends (fun fuel => eval form env stack >>= drive fuel) w r
        ↔ Ends (fun fuel => resume v stack >>= drive fuel) (kept v nodes w₁) r :=
          (hleads.trans (leads_resume_pend v nodes stack w₁)).ends_iff
      _ ↔ Ends (fun fuel => drive fuel ⟨.ret v, stack⟩) (kept v nodes w₁) r :=
          @Ends.succ_iff _ _ _ fun fuel => drive fuel ⟨.ret v, stack⟩
      _ ↔ Ends (fun fuel => Direct.eval fuel form env >>= fun v => drive fuel ⟨.ret v, stack⟩) w r :=
          (@Ends.bind_iff _ _ w _ (fun fuel v => drive fuel ⟨.ret v, stack⟩) _ v hdirect r).symm
  | failure hbreaks =>
    obtain ⟨steps, hsteps⟩ := hbreaks
    have hfails := persists_bind_drive (eval form env stack) (hsteps 0) fun w' he => h w' (by cases he; rfl)
    exact hfails.congr hdirect.bind_error
  | deep => exact absurd rfl (h _)

/-- A form that is evaluated to an end on a stack comes to an end on its own. -/
theorem exists_halted_eval (h : Ends (fun fuel => drive fuel ⟨.eval form env, stack⟩) w r) :
    ∃ depth, Halted (Direct.eval depth form env w) := by
  obtain ⟨hr, least, hends⟩ := h
  have hrun : ∀ fuel, least ≤ fuel → (eval form env stack >>= drive fuel) w = r :=
    fun fuel hle => hends (fuel + 1) (Nat.le_succ_of_le hle)
  refine ⟨least + 1, fun w' hexhausted => ?_⟩
  have hagrees := agrees_eval (least + 1) form env stack w
  rw [hexhausted] at hagrees
  cases hagrees with
  | failure hbreaks =>
    obtain ⟨steps, hsteps⟩ := hbreaks
    exact hr w' ((hrun _ (Nat.le_add_left least steps)).symm.trans (hsteps least))
  | deep hstarves =>
    obtain ⟨w'', hleast⟩ := hstarves least (Nat.lt_succ_self least)
    exact hr w'' ((hrun least (Nat.le_refl _)).symm.trans hleast)

/-- **A form is evaluated on a stack as on its own**, and its value is handed to the stack. -/
theorem ends_drive_pending_iff : Ends (fun fuel => drive fuel ⟨.eval form env, stack⟩) w r ↔
    Ends (fun fuel => Direct.eval fuel form env >>= fun v => drive fuel ⟨.ret v, stack⟩) w r := by
  constructor
  · intro hr
    obtain ⟨depth, hhalted⟩ := exists_halted_eval hr
    exact (ends_drive_pending_of_halted hhalted).mp hr
  · intro hr
    have hhalted : ∃ depth, Halted (Direct.eval depth form env w) := by
      rcases hr.of_bind (Direct.persists_eval form env) with ⟨v, w₁, hv⟩ | ⟨e, w₁, he, -⟩
      · exact hv.exists_halted
      · exact he.exists_halted
    obtain ⟨depth, hhalted⟩ := hhalted
    exact (ends_drive_pending_of_halted hhalted).mpr hr

end Machine

/-! ## Runs of a host -/

/-- The end of a run for a host: a failure drops all recordings but the outer ones. -/
def abandoned (depth : Nat) : EStateM.Result Halt World α → EStateM.Result Halt World α
  | .error (.fault f) w => .error (.fault f) (w.abandon depth)
  | r => r

theorem balanced_eq (act : Act α) (w : World) : balanced act w = abandoned w.recordings.length (act w) := by
  unfold balanced
  cases act w with
  | ok a w' => rfl
  | error h w' => cases h <;> rfl

theorem abandoned_eq_ok {depth : Nat} {a : α} {w : World} (h : abandoned depth r = .ok a w) : r = .ok a w := by
  cases r with
  | ok => exact h
  | error e => cases e <;> cases h

/-- The world that a host is left with after a failure. -/
def World.afterFailure (w : World) (depth : Nat) : Halt → World
  | .fault _ => w.abandon depth
  | _ => w

theorem abandoned_error (depth : Nat) (e : Halt) (w : World) :
    abandoned depth (.error e w : EStateM.Result Halt World α) = .error e (w.afterFailure depth e) := by
  cases e <;> rfl

theorem halted_abandoned {depth : Nat} : Halted (abandoned depth r) ↔ Halted r := by
  cases r with
  | ok a w' => exact Iff.rfl
  | error h w' =>
    cases h with
    | fault f => exact ⟨fun _ => nofun, fun _ => nofun⟩
    | crash | exhausted => exact Iff.rfl

/-- A host comes to what a direct evaluation comes to, the recordings of a failure apart. -/
def Hosts (host direct : Nat → Act α) : Prop :=
  ∀ w, ∃ depth, ∀ r, Ends host w r ↔ ∃ r', Ends direct w r' ∧ r = abandoned depth r'

/-- A host may run one thing after another. -/
theorem Hosts.bind {host direct : Nat → Act α} {next direct' : Nat → α → Act β} (h : Hosts host direct)
    (hp : Persists host) (hd : Persists direct)
    (hn : ∀ a, Hosts (fun fuel => next fuel a) fun fuel => direct' fuel a) :
    Hosts (fun fuel => host fuel >>= next fuel) fun fuel => direct fuel >>= direct' fuel := by
  intro w
  obtain ⟨depth, hends⟩ := h w
  by_cases hok : ∃ a w₁, Ends direct w (.ok a w₁)
  · obtain ⟨a, w₁, ha⟩ := hok
    obtain ⟨depth', hends'⟩ := hn a w₁
    refine ⟨depth', fun r => ?_⟩
    simp only [((hends _).mpr ⟨_, ha, rfl⟩ : Ends host w (.ok a w₁)).bind_iff, ha.bind_iff, hends']
  · refine ⟨depth, fun r => ⟨fun hr => ?_, ?_⟩⟩
    · rcases hr.of_bind hp with ⟨a, w₁, ha⟩ | ⟨e, w₁, he, rfl⟩
      · obtain ⟨r', hr', heq⟩ := (hends _).mp ha
        exact absurd ⟨a, w₁, abandoned_eq_ok heq.symm ▸ hr'⟩ hok
      · obtain ⟨r', hr', heq⟩ := (hends _).mp he
        cases r' with
        | ok => cases heq
        | error e' w' =>
          rw [abandoned_error] at heq
          cases heq
          exact ⟨_, hr'.bind_error, (abandoned_error depth e w').symm⟩
    · rintro ⟨r', hr', rfl⟩
      rcases hr'.of_bind hd with ha | ⟨e, w₁, he, rfl⟩
      · exact absurd ha hok
      · have hhost := (hends _).mpr ⟨_, he, rfl⟩
        rw [abandoned_error] at hhost ⊢
        exact hhost.bind_error

theorem ends_runFrom_iff {s : State} {r : EStateM.Result Halt World Value} :
    Ends (fun fuel => runFrom fuel s) w r ↔
      ∃ r', Ends (fun fuel => Machine.drive fuel s) w r' ∧ r = abandoned w.recordings.length r' := by
  constructor
  · rintro ⟨hr, least, hends⟩
    have hleast : balanced (Machine.drive least s) w = r := hends least (Nat.le_refl _)
    rw [balanced_eq] at hleast
    rw [← hleast, halted_abandoned] at hr
    exact ⟨_, Machine.persists_drive s rfl hr, hleast.symm⟩
  · rintro ⟨r', ⟨hr, least, hends⟩, rfl⟩
    refine ⟨halted_abandoned.mpr hr, least, fun fuel hle => ?_⟩
    show balanced (Machine.drive fuel s) w = _
    rw [balanced_eq]
    exact congrArg _ (hends fuel hle)

/-- A form is evaluated to the end that its direct evaluation comes to. -/
theorem ends_evalForm_iff {form : Value} {r : EStateM.Result Halt World Value} :
    Ends (fun fuel => evalForm fuel form) w r ↔
      ∃ r', Ends (fun depth => Direct.eval depth form .global) w r' ∧ r = abandoned w.recordings.length r' := by
  unfold evalForm evalIn
  rw [ends_runFrom_iff]
  simp only [Machine.ends_drive_iff]

/-- A host evaluates a form as direct evaluation does. -/
theorem hosts_evalForm (form : Value) :
    Hosts (fun fuel => evalForm fuel form) fun depth => Direct.eval depth form .global :=
  fun w => ⟨w.recordings.length, fun _ => ends_evalForm_iff⟩

theorem persists_evalForm (form : Value) : Persists fun fuel => evalForm fuel form := by
  intro fuel w r e hr
  have hclosed : abandoned w.recordings.length (Machine.drive fuel ⟨.eval form .global, []⟩ w) = r := by
    rw [← balanced_eq]
    exact e
  rw [← hclosed, halted_abandoned] at hr
  exact ends_runFrom_iff.mpr ⟨_, Machine.persists_drive _ rfl hr, hclosed.symm⟩

/-- What an expansion by a host comes to is, the recordings apart, what the run from its first step comes
to. -/
theorem expandForm_eq (form : Value) (w : World) : ∃ depth, ∀ fuel, expandForm fuel form w =
    abandoned depth ((Machine.expandOnce form .global [] >>= Machine.drive fuel) w) := by
  unfold expandForm
  cases e : Machine.expandOnce form .global [] w with
  | ok s w₁ =>
    refine ⟨w₁.recordings.length, fun fuel => ?_⟩
    rw [bind_of_eq_ok e, bind_of_eq_ok e]
    exact balanced_eq _ _
  | error h w₁ =>
    refine ⟨w₁.recordings.length, fun fuel => ?_⟩
    rw [bind_of_eq_error e, bind_of_eq_error e]
    cases h with
    | fault f =>
      show _ = EStateM.Result.error _ (w₁.abandon _)
      unfold World.abandon
      rw [Nat.sub_self, List.drop_zero]
    | crash | exhausted => rfl

/-- A host expands a form as direct expansion does. -/
theorem hosts_expandForm (form : Value) : Hosts (fun fuel => expandForm fuel form)
    fun depth => Direct.expandOnce (Direct.parts depth) form .global := by
  intro w
  obtain ⟨outer, heq⟩ := expandForm_eq form w
  refine ⟨outer, fun r => ⟨?_, ?_⟩⟩
  · rintro ⟨hr, least, hends⟩
    have hleast : expandForm least form w = r := hends least (Nat.le_refl _)
    rw [heq] at hleast
    rw [← hleast, halted_abandoned] at hr
    exact ⟨_, (Machine.ends_expandOnce_iff form .global).mp (Machine.persists_bind_drive _ rfl hr), hleast.symm⟩
  · rintro ⟨r', hends, rfl⟩
    obtain ⟨hr, least, hends⟩ := (Machine.ends_expandOnce_iff form .global).mpr hends
    refine ⟨halted_abandoned.mpr hr, least, fun fuel hle => ?_⟩
    show expandForm fuel form w = _
    rw [heq]
    exact congrArg _ (hends fuel hle)

theorem persists_expandForm (form : Value) : Persists fun fuel => expandForm fuel form := by
  intro fuel w r e hr
  obtain ⟨outer, heq⟩ := expandForm_eq form w
  change expandForm fuel form w = r at e
  rw [heq] at e
  rw [← e, halted_abandoned] at hr
  obtain ⟨-, least, hends⟩ := Machine.persists_bind_drive _ rfl hr
  rw [← e]
  refine ⟨halted_abandoned.mpr hr, least, fun fuel hle => ?_⟩
  show expandForm fuel form w = _
  rw [heq]
  exact congrArg _ (hends fuel hle)

end EditableLisp
