import EditableLisp.Proofs.Quiet
import EditableLisp.Proofs.Session

/-!
# Frames that a call writes

A call binds its arguments in a new frame. What its body defines goes into that frame, what it binds by
`let` into newer ones, and a function that it calls gets a new frame in turn. Only `eval` goes back to a
frame that was there before: the root of the chain in which it is executed.

* `Env.Owned`: a chain whose innermost frame was made since a call began, or is the root of an `eval` that
  the call executed. `State.Owned` says this of all that a state does and has pending above the steps that
  were pending when the call began.
* `Machine.confined_step`: a step keeps states owned and writes owned frames only, unless it hands a value
  to the steps that were pending when the call began; `State.Calling.owned` follows for a run of a call.
* **`Session.frames_of_call`**: a call writes no frame that was there when it began, except the global one,
  and that only if it executes `eval`.
-/

namespace EditableLisp

variable {α β : Type} {size : Nat} {roots : List FrameId} {outer : List Pending}

/-! ## Acts that write owned frames only -/

/-- The frames below a bound keep their bindings, with the sites of definitions, except for some roots. -/
structure KeepsFrames (size : Nat) (roots : List FrameId) (w w' : World) : Prop where
  size_le : w.frames.size ≤ w'.frames.size
  frame_eq : ∀ id < size, id ∉ roots → w'.frame id = w.frame id

namespace KeepsFrames

variable {w w' w'' : World}

theorem of_frames_eq (h : w'.frames = w.frames) : KeepsFrames size roots w w' where
  size_le := Nat.le_of_eq (by rw [h])
  frame_eq id _ _ := World.frame_congr h id

theorem trans (h : KeepsFrames size roots w w') (h' : KeepsFrames size roots w' w'') :
    KeepsFrames size roots w w'' where
  size_le := Nat.le_trans h.size_le h'.size_le
  frame_eq id hid hr := (h'.frame_eq id hid hr).trans (h.frame_eq id hid hr)

/-- With more roots less is said. -/
theorem mono {more : List FrameId} (h : KeepsFrames size roots w w') (hr : roots ⊆ more) :
    KeepsFrames size more w w' where
  size_le := h.size_le
  frame_eq id hid hn := h.frame_eq id hid fun hm => hn (hr hm)

end KeepsFrames

/-- A chain that a call may write: its innermost frame is not below the bound, or it is one of the roots. -/
def Env.Owned (size : Nat) (roots : List FrameId) (env : Env) : Prop := size ≤ env.frame ∨ env.frame ∈ roots

/-- From a world the act writes no other frame below the bound than the roots, and its result is as said. -/
def ConfinedAt (size : Nat) (roots : List FrameId) (act : Act α) (result : α → Prop) (w : World) : Prop :=
  KeepsFrames size roots w (worldAfter act w) ∧ ∀ a w', act w = .ok a w' → result a

/-- The act is confined from every world with all frames below the bound. -/
def Confined (size : Nat) (roots : List FrameId) (act : Act α) (result : α → Prop) : Prop :=
  ∀ w, size ≤ w.frames.size → ConfinedAt size roots act result w

namespace Confined

variable {act : Act α} {P Q : α → Prop}

theorem of_frames_eq (h : ∀ w, (worldAfter act w).frames = w.frames) :
    Confined size roots act fun _ => True := fun w _ => ⟨.of_frames_eq (h w), fun _ _ _ => trivial⟩

theorem of_quiet (h : Quiet act) : Confined size roots act fun _ => True :=
  of_frames_eq fun w => congrArg Evaluation.frames (h w).evaluation

theorem pure {a : α} (h : P a) : Confined size roots (Pure.pure a) P := by
  intro w _
  refine ⟨.of_frames_eq rfl, ?_⟩
  rintro _ _ ⟨⟩
  exact h

theorem fail (f : Fault) : Confined size roots (EditableLisp.fail f : Act α) P :=
  fun _ _ => ⟨.of_frames_eq rfl, nofun⟩

theorem bind {f : α → Act β} {R : β → Prop} (h : Confined size roots act P)
    (hf : ∀ a, P a → Confined size roots (f a) R) : Confined size roots (act >>= f) R := by
  intro w hw
  obtain ⟨hkeeps, hresult⟩ := h w hw
  cases e : act w with
  | ok a w₁ =>
    rw [worldAfter_of_ok e] at hkeeps
    obtain ⟨hkeeps', hresult'⟩ := hf a (hresult a w₁ e) w₁ (Nat.le_trans hw hkeeps.size_le)
    rw [ConfinedAt, worldAfter, bind_of_eq_ok e]
    exact ⟨hkeeps.trans hkeeps', hresult'⟩
  | error b w₁ =>
    rw [worldAfter_of_error e] at hkeeps
    rw [ConfinedAt, worldAfter_of_error (bind_of_eq_error e), bind_of_eq_error e]
    refine ⟨hkeeps, fun a w₂ hok => ?_⟩
    cases hok

/-- What follows an act that leaves evaluations alone. -/
theorem after (h : Quiet act) {f : α → Act β} {R : β → Prop} (hf : ∀ a, Confined size roots (f a) R) :
    Confined size roots (act >>= f) R := bind (of_quiet h) fun a _ => hf a

theorem failWith (h : Quiet act) (f : α → Fault) {R : β → Prop} :
    Confined size roots (act >>= fun a => EditableLisp.fail (f a)) R := after h fun _ => fail _

end Confined

/-- A binding is written into the innermost frame of a chain. -/
theorem KeepsFrames.bind {w : World} {env : Env} (h : env.Owned size roots) (name : String) (b : Binding) :
    KeepsFrames size roots w (w.bind env.frame name b) where
  size_le := by
    show w.frames.size ≤ (w.frames.modify env.frame _).size
    exact Nat.le_of_eq Array.size_modify.symm
  frame_eq id hid hr := by
    rw [World.frame_bind]
    refine if_neg fun hw => ?_
    obtain rfl := hw.1
    exact h.elim (Nat.not_le_of_lt hid) hr

theorem confined_define {env : Env} (h : env.Owned size roots) (name : String) (v : Value) :
    Confined size roots (liftM (define env name v)) fun _ => True :=
  fun _ _ => ⟨.bind h name ⟨v, none⟩, fun _ _ _ => trivial⟩

theorem confined_defineAt {env : Env} (h : env.Owned size roots) (name : String) (v site : Value) :
    Confined size roots (liftM (defineAt env name v site)) fun _ => True :=
  fun _ _ => ⟨.bind h name ⟨v, some site⟩, fun _ _ _ => trivial⟩

/-- A new frame is not below the bound, whatever it is made for. -/
theorem confined_newChild (env : Env) :
    Confined size roots (liftM (newChild env)) (Env.Owned size roots) := by
  intro w hw
  refine ⟨⟨?_, fun id _ _ => frame_newChild w env id⟩, ?_⟩
  · show w.frames.size ≤ (w.frames.push .empty).size
    rw [Array.size_push]
    exact Nat.le_succ _
  · rintro _ _ ⟨⟩
    exact .inl hw

namespace Pattern

mutual

theorem confined_destructure {env : Env} (h : env.Owned size roots) (pattern value : Value) :
    Confined size roots (destructure env pattern value) fun _ => True := by
  match pattern with
  | .symbol _ name =>
    unfold destructure
    exact confined_define h name value
  | .seq .vector node items =>
    unfold destructure
    split
    · exact confined_destructureItems h _ _ _ _ items
    · exact .after (quiet_print _) fun _ => .failWith (quiet_print _) _
  | .nil | .bool _ | .num _ | .text _ | .keyword _ | .seq .list _ _ | .map _ _ | .builtin _ _ _
  | .closure _ _ _ _ _ _ | .atom _ =>
    unfold destructure
    exact .failWith (quiet_print _) _

theorem confined_destructureItems {env : Env} (h : env.Owned size roots) (whole : Value)
    (wanted got : Nat) (values : List Value) (items : List Value) :
    Confined size roots (destructureItems env whole wanted got values items) fun _ => True := by
  match items with
  | [] =>
    unfold destructureItems
    refine .of_quiet ?_
    split <;> simp
  | item :: rest =>
    unfold destructureItems
    split
    · split
      · exact .after (quiet_newVector _) fun _ => confined_destructure h _ _
      · exact .failWith (quiet_print _) _
    · split
      · exact (confined_destructure h item _).bind fun _ _ =>
          confined_destructureItems h whole wanted got _ rest
      · exact .fail _

end

end Pattern

theorem Machine.confined_enter (env : Env) (params : Value) (args : List Value) :
    Confined size roots (enter env params args) (Env.Owned size roots) := by
  refine (confined_newChild env).bind fun frame hframe => ?_
  refine .after (quiet_newVector args) fun vector => ?_
  exact (Pattern.confined_destructure hframe params vector).bind fun _ _ => .pure hframe

/-! ## Owned states -/

/-- The chain of a pending step is owned. An `eval` that waits for its form has its root among the roots. -/
def Pending.Owned (size : Nat) (roots : List FrameId) : Pending → Prop
  | .body _ _ env | .head _ env | .args _ _ _ _ env | .branch _ _ env | .definition _ _ env
  | .binding _ _ _ _ env | .quasi _ _ _ _ _ env | .conjunction _ _ env | .disjunction _ _ env
  | .vector _ _ _ env | .map _ _ _ _ env => env.Owned size roots
  | .expansion _ _ _ target => ∀ env, target = some env → env.Owned size roots
  | .evaluate env => env.rootFrame ∈ roots
  | .memo _ | .job _ => True

/-- The chain in which the machine works is owned. -/
def Control.Owned (size : Nat) (roots : List FrameId) : Control → Prop
  | .eval _ env | .quasi _ env => env.Owned size roots
  | .ret _ | .call _ _ | .landed _ => True

/-- Owned steps above those that were pending when a call began. The topmost of these may have got more
nodes to keep the value for, as the body of a call is evaluated in place of the call. -/
inductive Over (size : Nat) (roots : List FrameId) (outer : List Pending) : List Pending → Prop where
  | same : Over size roots outer outer
  | shared {nodes more : List Value} {below : List Pending} : outer = .memo nodes :: below →
      Over size roots outer (.memo (nodes ++ more) :: below)
  | push {p : Pending} {stack : List Pending} : p.Owned size roots → Over size roots outer stack →
      Over size roots outer (p :: stack)

/-- All that a state does, and all that is pending since a call began, is owned. -/
structure State.Owned (size : Nat) (roots : List FrameId) (outer : List Pending) (s : State) : Prop where
  control : s.control.Owned size roots
  stack : Over size roots outer s.stack

section more

variable {more : List FrameId}

theorem Env.Owned.mono {env : Env} (h : env.Owned size roots) (hr : roots ⊆ more) : env.Owned size more :=
  h.imp_right fun hm => hr hm

theorem Pending.Owned.mono {p : Pending} (h : p.Owned size roots) (hr : roots ⊆ more) :
    p.Owned size more := by
  cases p with
  | memo | job => trivial
  | evaluate => exact hr h
  | expansion => exact fun env e => Env.Owned.mono (h env e) hr
  | _ => exact Env.Owned.mono h hr

theorem Over.mono {stack : List Pending} (h : Over size roots outer stack) (hr : roots ⊆ more) :
    Over size more outer stack := by
  induction h with
  | same => exact .same
  | shared h => exact .shared h
  | push hp _ ih => exact .push (hp.mono hr) ih

theorem State.Owned.mono {s : State} (h : s.Owned size roots outer) (hr : roots ⊆ more) :
    s.Owned size more outer := by
  refine ⟨?_, h.stack.mono hr⟩
  obtain ⟨control, stack⟩ := s
  cases control with
  | eval | quasi => exact Env.Owned.mono h.control hr
  | _ => trivial

end more

/-- What stands above the steps that were pending when the call began is owned. -/
theorem Over.exists_owned {stack : List Pending} (h : Over size roots outer stack)
    (hl : outer.length < stack.length) :
    ∃ p below, stack = p :: below ∧ p.Owned size roots ∧ Over size roots outer below := by
  cases h with
  | same => exact absurd hl (Nat.lt_irrefl _)
  | shared h =>
    subst h
    exact absurd hl (Nat.lt_irrefl _)
  | push hp h => exact ⟨_, _, rfl, hp, h⟩

namespace Machine

variable {stack : List Pending} {env : Env} {call : Call}

theorem over_memo (node : Value) (h : Over size roots outer stack) :
    Over size roots outer (memo node stack) := by
  unfold memo
  split
  · split
    · exact h
    · cases h with
      | same => exact .shared rfl
      | shared h =>
        rw [List.append_assoc]
        exact .shared h
      | push _ h => exact .push trivial h
  · exact .push trivial h

section owned

variable (he : env.Owned size roots) (hs : Over size roots outer stack)

include he hs

theorem owned_evalBody (total : Nat) (rest : List Value) :
    (evalBody total rest env stack).Owned size roots outer := by
  unfold evalBody
  split
  · exact ⟨trivial, hs⟩
  · exact ⟨he, hs⟩
  · exact ⟨he, .push he hs⟩

theorem owned_evalConjunction (total : Nat) (rest : List Value) :
    (evalConjunction total rest env stack).Owned size roots outer := by
  unfold evalConjunction
  split
  · exact ⟨trivial, hs⟩
  · exact ⟨he, hs⟩
  · exact ⟨he, .push he hs⟩

theorem owned_evalDisjunction (total : Nat) (rest : List Value) :
    (evalDisjunction total rest env stack).Owned size roots outer := by
  unfold evalDisjunction
  split
  · exact ⟨trivial, hs⟩
  · exact ⟨he, hs⟩
  · exact ⟨he, .push he hs⟩

theorem owned_evalBindings (index : Nat) (rest : List Value) :
    (evalBindings index rest call env stack).Owned size roots outer := by
  unfold evalBindings
  split
  · exact ⟨he, .push he hs⟩
  · exact owned_evalBody he hs _ _

end owned

section acts

variable (hs : Over size roots outer stack)

include hs

theorem owned_afterOutcome (outcome : Outcome) : (afterOutcome outcome stack).Owned size roots outer := by
  cases outcome with
  | value v => exact ⟨trivial, hs⟩
  | call job f args => exact ⟨trivial, .push trivial hs⟩

theorem owned_finishExpansion {target : Option Env} (ht : ∀ env, target = some env → env.Owned size roots)
    (form : Value) : (finishExpansion form target stack).Owned size roots outer := by
  cases target with
  | none => exact ⟨trivial, hs⟩
  | some env => exact ⟨ht env rfl, hs⟩

/-! ## Calls -/

/-- **A call works in a frame of its own.** -/
theorem confined_apply (f : Value) (args : List Value) :
    Confined size roots (apply f args stack) (State.Owned size roots outer) := by
  unfold apply
  split
  · exact .after (Builtin.quiet_run _ _) fun _ => .pure (owned_afterOutcome hs _)
  · exact (confined_enter _ _ _).bind fun frame hframe => .pure ⟨hframe, hs⟩
  · exact .failWith (quiet_print _) _

theorem confined_evalArgs (he : env.Owned size roots) (f : Value) (rest : List Value)
    (done : Array Value) :
    Confined size roots (evalArgs f call rest done env stack) (State.Owned size roots outer) := by
  unfold evalArgs
  split
  · exact .pure ⟨he, .push he hs⟩
  · exact confined_apply hs f _

omit hs in
theorem frames_recordAll (reads : List Lookup) (w : World) : (recordAll reads w).2.frames = w.frames := by
  rw [recordAll_snd]

omit hs in
theorem confined_servedForm? (f : Value) :
    Confined size roots (liftM (servedForm? call f)) fun _ => True := by
  unfold servedForm?
  rw [lift_bind]
  refine .after Quiet.lift_get fun w => ?_
  split
  · split
    · split
      · rw [lift_bind]
        refine Confined.bind (P := fun _ => True) (.of_frames_eq (frames_recordAll _)) fun _ _ => ?_
        exact .pure trivial
      · rw [lift_bind]
        exact .after (quiet_instantiate _ _) fun _ => .pure trivial
      · exact .pure trivial
    · exact .pure trivial
  · exact .pure trivial

theorem confined_expandAnew {target : Option Env} (ht : ∀ env, target = some env → env.Owned size roots)
    (f : Value) : Confined size roots (expandAnew call f target stack) (State.Owned size roots outer) := by
  unfold expandAnew
  split
  · refine .after (Builtin.quiet_evaluate _ _).recorded fun p => ?_
    refine Confined.bind (.of_frames_eq fun _ => rfl) fun _ _ => ?_
    exact .pure (owned_finishExpansion hs ht p.1)
  · refine (confined_enter _ _ _).bind fun frame hframe => ?_
    split
    · refine .after (quiet_instantiate _ _) fun form => ?_
      refine Confined.bind (.of_frames_eq fun _ => rfl) fun _ _ => ?_
      exact .pure (owned_finishExpansion hs ht form)
    · refine Confined.bind (.of_frames_eq fun _ => rfl) fun depth _ => ?_
      exact .pure ⟨hframe, .push ht hs⟩
  · exact .failWith (quiet_print _) _

theorem confined_expandCall {target : Option Env} (ht : ∀ env, target = some env → env.Owned size roots)
    (f : Value) : Confined size roots (expandCall call f target stack) (State.Owned size roots outer) := by
  refine (confined_servedForm? f).bind fun served _ => ?_
  split
  · exact .pure (owned_finishExpansion hs ht _)
  · exact confined_expandAnew hs ht f

theorem confined_expandOnce (form : Value) (env : Env) :
    Confined size roots (expandOnce form env stack) (State.Owned size roots outer) := by
  have unexpanded : ∀ v, State.Owned size roots outer ⟨.ret v, stack⟩ := fun _ => ⟨trivial, hs⟩
  have no_target : ∀ target, (none : Option Env) = some target → target.Owned size roots := nofun
  unfold expandOnce
  split
  · split
    · refine .after Quiet.get fun w => ?_
      split
      · split
        · exact confined_expandCall hs no_target _
        · exact .pure (unexpanded _)
      · exact .pure (unexpanded _)
    · exact .pure (unexpanded _)
  · exact .pure (unexpanded _)

omit hs in
theorem frames_markOrdinary (call : Call) (w : World) : (markOrdinary call w).2.frames = w.frames := by
  unfold markOrdinary
  rw [Change.get_bind]
  cases w.expansions.get? call.node.id with
  | none => rfl
  | some e => cases e <;> rfl

theorem confined_begin (he : env.Owned size roots) (f : Value) :
    Confined size roots (begin f call env stack) (State.Owned size roots outer) := by
  unfold begin
  split
  · exact .failWith (quiet_print _) _
  · split
    · refine confined_expandCall hs ?_ f
      rintro _ ⟨⟩
      exact he
    · refine Confined.bind (.of_frames_eq (frames_markOrdinary call)) fun _ _ => ?_
      exact confined_evalArgs hs he f _ _

/-! ## Special forms -/

theorem confined_quasiItems (he : env.Owned size roots) (shape : Shape) (total : Nat)
    (rest : List Value) (done : Array Value) :
    Confined size roots (quasiItems shape total rest done env stack) (State.Owned size roots outer) := by
  unfold quasiItems
  split
  · exact .after (quiet_newSeq _ _) fun _ => .pure ⟨trivial, hs⟩
  · refine .after (quiet_spliced? _) fun form => ?_
    split <;> exact .pure ⟨he, .push he hs⟩

theorem confined_evalNamed (he : env.Owned size roots) (kind : ClosureKind) :
    Confined size roots (evalNamed kind call env stack) (State.Owned size roots outer) := by
  unfold evalNamed
  split
  · exact .fail _
  · split
    · refine .after (quiet_makeClosure _ _ _ _) fun f => ?_
      exact (confined_defineAt he _ _ _).bind fun _ _ => .pure ⟨trivial, hs⟩
    · exact .failWith (quiet_print _) _

theorem confined_evalLet : Confined size roots (evalLet call env stack) (State.Owned size roots outer) := by
  unfold evalLet
  split
  · split
    · exact .fail _
    · exact (confined_newChild env).bind fun frame hframe => .pure (owned_evalBindings hframe hs _ _)
  · exact .failWith (quiet_print _) _

/-- A special form writes the frame at hand at most; `eval` is the one that will go to the root. -/
theorem confined_evalSpecial (he : env.Owned size roots) (special : Special)
    (hr : special = .evaluate → env.rootFrame ∈ roots) :
    Confined size roots (evalSpecial special call env stack) (State.Owned size roots outer) := by
  cases special with
  | definition =>
    unfold evalSpecial evalDefinition
    dsimp only
    split
    · exact .pure ⟨he, .push he hs⟩
    · exact .failWith (quiet_print _) _
  | named kind => exact confined_evalNamed hs he kind
  | anonymous kind =>
    unfold evalSpecial evalAnonymous
    dsimp only
    split
    · exact .after (quiet_makeClosure _ _ _ _) fun _ => .pure ⟨trivial, hs⟩
    · exact .failWith (quiet_print _) _
  | bindings => exact confined_evalLet hs
  | body => exact .pure (owned_evalBody he hs _ _)
  | conditional =>
    unfold evalSpecial evalConditional
    dsimp only
    split
    · exact .pure ⟨he, .push he hs⟩
    · exact .pure ⟨he, .push he hs⟩
    · exact .failWith (quiet_print _) _
  | quote => exact .after (quiet_onlyArgument _ _) fun _ => .pure ⟨trivial, hs⟩
  | quasiquote => exact .after (quiet_onlyArgument _ _) fun _ => .pure ⟨he, hs⟩
  | macroexpand => exact .after (quiet_onlyArgument _ _) fun form => confined_expandOnce hs form env
  | evaluate => exact .after (quiet_onlyArgument _ _) fun _ => .pure ⟨he, .push (hr rfl) hs⟩
  | conjunction => exact .pure (owned_evalConjunction he hs _ _)
  | disjunction => exact .pure (owned_evalDisjunction he hs _ _)

/-! ## Values that arrive -/

theorem confined_evalVector (he : env.Owned size roots) (total : Nat) (rest : List Value)
    (done : Array Value) :
    Confined size roots (liftM (evalVector total rest done env stack)) (State.Owned size roots outer) := by
  unfold evalVector
  split
  · exact .pure ⟨he, .push he hs⟩
  · rw [lift_bind]
    exact .after (quiet_newVector _) fun _ => .pure ⟨trivial, hs⟩

theorem confined_evalMap (he : env.Owned size roots) (total : Nat) (rest : Entries)
    (done : Array (Key × Value)) :
    Confined size roots (liftM (evalMap total rest done env stack)) (State.Owned size roots outer) := by
  unfold evalMap
  split
  · exact .pure ⟨he, .push he hs⟩
  · rw [lift_bind]
    exact .after (quiet_newMap _) fun _ => .pure ⟨trivial, hs⟩

omit hs in
theorem frames_setResult (node v : Value) (w : World) : (setResult node v w).2.frames = w.frames := by
  unfold setResult
  cases node.nodeId? <;> rfl

omit hs in
theorem confined_keepResults (v : Value) (nodes : List Value) :
    Confined size roots (liftM (keepResults v nodes)) fun _ => True := by
  induction nodes with
  | nil => exact .pure trivial
  | cons node rest ih =>
    unfold keepResults
    rw [lift_bind]
    exact Confined.bind (.of_frames_eq (frames_setResult node v)) fun _ _ => ih

omit hs in
theorem frames_finishRecording (depth : Nat) (w : World) :
    (finishRecording depth w).2.frames = w.frames := by
  rcases finishRecording_cases depth w with hnone | ⟨top, rest, hrest, hdepth⟩
  · rw [hnone]
  · rw [finishRecording_of_abandon hrest hdepth]

/-- An owned step that was pending goes on in its own chain. -/
theorem confined_resume {p : Pending} (hp : p.Owned size roots) (v : Value) :
    Confined size roots (resume v (p :: stack)) (State.Owned size roots outer) := by
  cases p with
  | body total rest env => exact .pure (owned_evalBody hp hs _ _)
  | head call env => exact confined_begin hs hp v
  | args f call rest done env => exact confined_evalArgs hs hp f _ _
  | branch yes no env =>
    unfold resume
    dsimp only
    split
    · exact .pure ⟨hp, hs⟩
    · exact .pure ⟨hp, hs⟩
    · exact .pure ⟨trivial, hs⟩
  | definition name call env => exact (confined_defineAt hp _ _ _).bind fun _ _ => .pure ⟨trivial, hs⟩
  | binding index pattern rest call env =>
    exact (Pattern.confined_destructure hp _ _).bind fun _ _ => .pure (owned_evalBindings hp hs _ _)
  | quasi shape total rest done splice env =>
    exact .after (quiet_addQuasi _ _ _) fun _ => confined_quasiItems hs hp _ _ _ _
  | expansion call maker depth target =>
    refine Confined.bind (.of_frames_eq (frames_finishRecording depth)) fun reads _ => ?_
    refine Confined.bind (.of_frames_eq fun _ => rfl) fun _ _ => ?_
    exact .pure (owned_finishExpansion hs hp v)
  | evaluate env => exact .pure ⟨.inr hp, hs⟩
  | conjunction total rest env =>
    unfold resume
    dsimp only
    split
    · exact .pure (owned_evalConjunction hp hs _ _)
    · exact .pure ⟨trivial, hs⟩
  | disjunction total rest env =>
    unfold resume
    dsimp only
    split
    · exact .pure ⟨trivial, hs⟩
    · exact .pure (owned_evalDisjunction hp hs _ _)
  | vector total rest done env => exact confined_evalVector hs hp _ _ _
  | map total key rest done env => exact confined_evalMap hs hp _ _ _
  | memo nodes => exact (confined_keepResults _ _).bind fun _ _ => .pure ⟨trivial, hs⟩
  | job job => exact .after (Job.quiet_resume _ _) fun _ => .pure (owned_afterOutcome hs _)

end acts

end Machine

/-! ## Values that are handed on -/

/-- The value with which the next step goes on to what is pending, if there is nothing else to do before. -/
def Control.passed? (w : World) : Control → Option Value
  | .ret v => some v
  | .eval (.symbol _ name) env => w.lookup? env name
  | .eval (.seq shape node items) _ =>
    if items.isEmpty ∧ ¬ (shape = .list ∧ node.style = .program) then some (.seq shape node items) else none
  | .eval (.map node entries) _ => if entries.isEmpty then some (.map node entries) else none
  | .eval form _ => some form
  | .quasi (.seq shape node items) _ => if items.isEmpty then some (.seq shape node items) else none
  | .quasi form _ => some form
  | .call _ _ | .landed _ => none

/-- The next step hands a value to the steps that were pending when a call began. -/
def State.HandsOn (w : World) (outer : List Pending) (s : State) : Prop :=
  (s.control.passed? w).isSome ∧ s.stack.length ≤ outer.length

/-- The chain in which a state executes the special form `eval`, if it does. -/
def State.evalScope? (s : State) : Option Env :=
  match s.control with
  | .eval (.seq .list node items) env =>
    if node.style ≠ .program ∧ (Value.headName? items).bind Special.ofName? = some .evaluate then some env
    else none
  | _ => none

namespace Machine

/-- A name that has a value is looked up, and the value goes to what is pending. -/
theorem evalSymbol_of_some {w : World} {env : Env} {name : String} {v : Value}
    (h : w.lookup? env name = some v) (id : NodeId) (stack : List Pending) :
    ∃ results sites recordings, evalSymbol id name env stack w =
      resume v stack { w with results := results, sites := sites, recordings := recordings } := by
  let recordings := w.recordings.modifyHead ([⟨env, name, v⟩] ++ ·)
  let seen : World := { w with recordings := recordings, results := w.results.set id v }
  have hrecord : record env name v w = ((), { w with recordings := recordings }) := by
    rw [record_eq_recordAll]
    exact Prod.ext rfl (recordAll_snd _ w)
  have hseen : (setResult (.symbol id name) v { w with recordings := recordings }).2 = seen := rfl
  unfold evalSymbol
  rw [bind_of_eq_ok (lookup_of_some h), bind_lift, hrecord, bind_lift, Act.get_bind, hseen]
  cases seen.site? env name with
  | some site => exact ⟨seen.results, seen.sites.set id site, recordings, rfl⟩
  | none => exact ⟨seen.results, seen.sites, recordings, rfl⟩

theorem quasi_of_passed {w : World} {form : Value} {env : Env} {v : Value}
    (h : (Control.quasi form env).passed? w = some v) (stack : List Pending) :
    quasi form env stack = resume v stack := by
  cases form with
  | seq shape node items =>
    cases items with
    | nil =>
      cases h
      unfold quasi
      dsimp only
      rw [if_neg fun h => nomatch h.2]
      rfl
    | cons => cases h
  | _ =>
    cases h
    rfl

theorem eval_of_passed {w : World} {form : Value} {env : Env} {v : Value}
    (h : (Control.eval form env).passed? w = some v) (stack : List Pending) :
    ∃ results sites recordings, eval form env stack w =
      resume v stack { w with results := results, sites := sites, recordings := recordings } := by
  cases form with
  | symbol id name => exact evalSymbol_of_some h id stack
  | seq shape node items =>
    obtain ⟨hempty, hv⟩ := Option.ite_none_right_eq_some.mp h
    obtain rfl := List.isEmpty_iff.mp hempty.1
    cases hv
    refine ⟨w.results, w.sites, w.recordings, ?_⟩
    cases shape with
    | list =>
      have hstyle : node.style ≠ .program := fun he => hempty.2 ⟨rfl, he⟩
      show evalList node [] env stack w = _
      unfold evalList
      dsimp only
      rw [if_neg hstyle]
      rfl
    | vector => rfl
  | map node entries =>
    obtain ⟨hempty, hv⟩ := Option.ite_none_right_eq_some.mp h
    obtain rfl := List.isEmpty_iff.mp hempty
    cases hv
    exact ⟨w.results, w.sites, w.recordings, rfl⟩
  | _ =>
    cases h
    exact ⟨w.results, w.sites, w.recordings, rfl⟩

/-- **A value that a state passes on goes to what is pending**; if it is that of a symbol, it is kept and recorded before. -/
theorem step_of_passed {w : World} {c : Control} {v : Value} (h : c.passed? w = some v)
    (stack : List Pending) :
    ∃ results sites recordings, step ⟨c, stack⟩ w =
      resume v stack { w with results := results, sites := sites, recordings := recordings } := by
  cases c with
  | eval form env => exact eval_of_passed h stack
  | quasi form env => exact ⟨w.results, w.sites, w.recordings, congrFun (quasi_of_passed h stack) w⟩
  | ret u =>
    cases h
    exact ⟨w.results, w.sites, w.recordings, rfl⟩
  | call f args => cases h
  | landed u => cases h

section steps

variable {w : World} (hw : size ≤ w.frames.size)

include hw

theorem confined_quasi {form : Value} (he : env.Owned size roots) (hs : Over size roots outer stack)
    (hp : (Control.quasi form env).passed? w = none) :
    ConfinedAt size roots (quasi form env stack) (State.Owned size roots outer) w := by
  cases form with
  | seq shape node items =>
    cases items with
    | nil => cases hp
    | cons item rest =>
      unfold quasi
      dsimp only
      split
      · split
        · exact Confined.pure ⟨he, hs⟩ w hw
        · exact Confined.fail _ w hw
      · rw [if_neg (by simp)]
        exact confined_quasiItems hs he _ _ _ _ w hw
  | _ => cases hp

theorem confined_evalList {node : Node} {items : List Value} (he : env.Owned size roots)
    (hs : Over size roots outer stack)
    (hp : (Control.eval (.seq .list node items) env).passed? w = none)
    (hr : node.style ≠ .program → (Value.headName? items).bind Special.ofName? = some .evaluate →
      env.rootFrame ∈ roots) :
    ConfinedAt size roots (evalList node items env stack) (State.Owned size roots outer) w := by
  unfold evalList
  dsimp only
  split
  · exact Confined.pure (owned_evalBody he (over_memo _ hs) _ _) w hw
  · rename_i hstyle
    split
    · -- An empty list that is no program is its own value.
      have hpassed : (Control.eval (.seq .list node []) env).passed? w = some (.seq .list node []) :=
        if_pos ⟨rfl, fun h => hstyle h.2⟩
      rw [hpassed] at hp
      cases hp
    · split
      · rename_i special hspecial
        refine confined_evalSpecial (over_memo _ hs) he special (fun h => hr hstyle ?_) w hw
        rw [hspecial, h]
      · exact Confined.pure ⟨he, .push he (over_memo _ hs)⟩ w hw

theorem confined_eval {form : Value} (he : env.Owned size roots) (hs : Over size roots outer stack)
    (hp : (Control.eval form env).passed? w = none)
    (hr : ∀ scope, State.evalScope? ⟨.eval form env, stack⟩ = some scope → scope.rootFrame ∈ roots) :
    ConfinedAt size roots (eval form env stack) (State.Owned size roots outer) w := by
  cases form with
  | symbol id name =>
    have herror : eval (.symbol id name) env stack w = .error _ w :=
      bind_of_eq_error (lookup_of_none hp)
    rw [ConfinedAt, worldAfter_of_error herror, herror]
    exact ⟨.of_frames_eq rfl, nofun⟩
  | seq shape node items =>
    cases shape with
    | list => exact confined_evalList hw he hs hp fun hstyle hspecial => hr env (if_pos ⟨hstyle, hspecial⟩)
    | vector =>
      cases items with
      | nil => cases hp
      | cons => exact confined_evalVector (over_memo _ hs) he _ _ _ w hw
  | map node entries =>
    cases entries with
    | nil => cases hp
    | cons => exact confined_evalMap (over_memo _ hs) he _ _ _ w hw
  | _ => cases hp

/-- **A step of a call writes owned frames only**, as long as it hands nothing to the steps that were
pending when the call began. -/
theorem confined_step {s : State} (hs : s.Owned size roots outer) (hn : ¬ s.HandsOn w outer)
    (hr : ∀ scope, s.evalScope? = some scope → scope.rootFrame ∈ roots) :
    ConfinedAt size roots (step s) (State.Owned size roots outer) w := by
  obtain ⟨control, stack⟩ := s
  cases hp : control.passed? w with
  | some v =>
    have hl : outer.length < stack.length := Nat.lt_of_not_le fun hl => hn ⟨Option.isSome_of_eq_some hp, hl⟩
    obtain ⟨p, below, rfl, hown, hbelow⟩ := hs.stack.exists_owned hl
    obtain ⟨results, sites, recordings, hstep⟩ := step_of_passed hp (p :: below)
    let w₁ : World := { w with results := results, sites := sites, recordings := recordings }
    have hresume := confined_resume hbelow hown v w₁ hw
    have hafter : worldAfter (step ⟨control, p :: below⟩) w = worldAfter (resume v (p :: below)) w₁ := by
      unfold worldAfter
      rw [hstep]
    rw [ConfinedAt, hafter, hstep]
    have hkeeps : KeepsFrames size roots w w₁ := .of_frames_eq rfl
    exact ⟨hkeeps.trans hresume.1, hresume.2⟩
  | none =>
    cases control with
    | eval form env => exact confined_eval hw hs.control hs.stack hp hr
    | quasi form env => exact confined_quasi hw hs.control hs.stack hp
    | ret v => cases hp
    | call f args => exact confined_apply hs.stack f args w hw
    | landed v => exact Confined.pure hs w hw

end steps

end Machine

/-! ## Calls -/

/-- The next step of a state calls a function on values, with some steps pending: because that is what the
machine does now, because the last argument of a call arrives, or because the head of a call without
arguments does. -/
inductive State.Applies (w : World) (f : Value) (outer : List Pending) : List Value → State → Prop where
  | call (args : List Value) : Applies w f outer args ⟨.call f args, outer⟩
  | args {c : Control} {v : Value} (call : Call) (done : Array Value) (env : Env) :
      c.passed? w = some v → Applies w f outer (done.push v).toList ⟨c, .args f call [] done env :: outer⟩
  | head {c : Control} {call : Call} (env : Env) : c.passed? w = some f → f.functionId?.isSome →
      ¬ f.isExpander → call.items.tail = [] → Applies w f outer [] ⟨c, .head call env :: outer⟩

/-- The step calls the function. -/
theorem State.Applies.step_eq {w : World} {f : Value} {args : List Value} {t : State}
    (h : t.Applies w f outer args) :
    ∃ w₁ : World, w₁.frames = w.frames ∧ Machine.step t w = Machine.apply f args outer w₁ := by
  cases h with
  | call => exact ⟨w, rfl, rfl⟩
  | args call done env hp =>
    obtain ⟨results, sites, recordings, hstep⟩ := Machine.step_of_passed hp (.args f call [] done env :: outer)
    exact ⟨{ w with results := results, sites := sites, recordings := recordings }, rfl, hstep⟩
  | @head c call env hp hf he hargs =>
    obtain ⟨results, sites, recordings, hstep⟩ := Machine.step_of_passed hp (.head call env :: outer)
    let w₁ : World := { w with results := results, sites := sites, recordings := recordings }
    refine ⟨(Machine.markOrdinary call w₁).2, Machine.frames_markOrdinary call w₁, ?_⟩
    rw [hstep]
    show Machine.begin f call env outer w₁ = _
    unfold Machine.begin
    rw [if_neg (by simpa [Option.isSome_iff_ne_none] using hf), if_neg he, hargs]
    rfl

/-- A run of a call: the states and worlds that the machine comes to, step by step, until it hands a value
to the steps that were pending when the call began, with the chains in which it executed `eval` on the
way. -/
inductive State.Calling (outer : List Pending) (t : State) (w : World) : State → World → List Env → Prop where
  | first {s : State} {w' : World} : Machine.step t w = .ok s w' → Calling outer t w s w' []
  | next {s s' : State} {w' w'' : World} {scopes : List Env} : Calling outer t w s w' scopes →
      ¬ s.HandsOn w' outer → Machine.step s w' = .ok s' w'' →
      Calling outer t w s' w'' (s.evalScope?.toList ++ scopes)

/-- A call fails, in its first step or in a later one, with some world. -/
inductive State.CallFails (outer : List Pending) (t : State) (w : World) : World → List Env → Prop where
  | first {h : Halt} {w' : World} : Machine.step t w = .error h w' → CallFails outer t w w' []
  | next {s : State} {h : Halt} {w' w'' : World} {scopes : List Env} : Calling outer t w s w' scopes →
      ¬ s.HandsOn w' outer → Machine.step s w' = .error h w'' →
      CallFails outer t w w'' (s.evalScope?.toList ++ scopes)

namespace State

variable {w w' : World} {f : Value} {args : List Value} {s t : State} {scopes : List Env}

/-- The first step of a call, whether it succeeds or fails. -/
theorem Applies.confinedAt (h : t.Applies w f outer args) :
    ConfinedAt w.frames.size [] (Machine.step t) (Owned w.frames.size [] outer) w := by
  obtain ⟨w₁, hframes, hstep⟩ := h.step_eq
  have hsize : w.frames.size ≤ w₁.frames.size := Nat.le_of_eq (congrArg Array.size hframes.symm)
  have happly := Machine.confined_apply (@Over.same w.frames.size [] outer) f args w₁ hsize
  rw [ConfinedAt, worldAfter, hstep]
  exact ⟨(KeepsFrames.of_frames_eq hframes).trans happly.1, happly.2⟩

theorem map_rootFrame_subset (s : State) (scopes : List Env) :
    scopes.map Env.rootFrame ⊆ (s.evalScope?.toList ++ scopes).map Env.rootFrame :=
  List.map_subset _ (List.subset_append_right _ _)

/-- The step after some steps of a call, whether it succeeds or fails. -/
theorem confinedAt_next (hkeeps : KeepsFrames w.frames.size (scopes.map Env.rootFrame) w w')
    (hs : s.Owned w.frames.size (scopes.map Env.rootFrame) outer) (hn : ¬ s.HandsOn w' outer) :
    let roots := (s.evalScope?.toList ++ scopes).map Env.rootFrame
    ConfinedAt w.frames.size roots (Machine.step s) (Owned w.frames.size roots outer) w' := by
  refine Machine.confined_step hkeeps.size_le (hs.mono (map_rootFrame_subset s scopes)) hn fun scope h => ?_
  rw [h]
  exact List.mem_map_of_mem (List.mem_append_left _ List.mem_cons_self)

/-- **What a run of a call comes to is owned.** -/
theorem Calling.owned (h : t.Calling outer w s w' scopes) (ht : t.Applies w f outer args) :
    KeepsFrames w.frames.size (scopes.map Env.rootFrame) w w' ∧
      s.Owned w.frames.size (scopes.map Env.rootFrame) outer := by
  induction h with
  | first hstep =>
    have hfirst := ht.confinedAt
    rw [ConfinedAt, worldAfter_of_ok hstep] at hfirst
    exact ⟨hfirst.1, hfirst.2 _ _ hstep⟩
  | next _ hn hstep ih =>
    have hnext := confinedAt_next ih.1 ih.2 hn
    rw [ConfinedAt, worldAfter_of_ok hstep] at hnext
    exact ⟨(ih.1.mono (map_rootFrame_subset _ _)).trans hnext.1, hnext.2 _ _ hstep⟩

theorem CallFails.keepsFrames (h : t.CallFails outer w w' scopes) (ht : t.Applies w f outer args) :
    KeepsFrames w.frames.size (scopes.map Env.rootFrame) w w' := by
  cases h with
  | first hstep =>
    have hfirst := ht.confinedAt
    rw [ConfinedAt, worldAfter_of_error hstep] at hfirst
    exact hfirst.1
  | next hrun hn hstep =>
    obtain ⟨hkeeps, howned⟩ := hrun.owned ht
    have hnext := confinedAt_next hkeeps howned hn
    rw [ConfinedAt, worldAfter_of_error hstep] at hnext
    exact (hkeeps.mono (map_rootFrame_subset _ _)).trans hnext.1

end State

/-! ## Calls in a session -/

namespace Session

/-- The chain in which a state executes `eval` is that of the form. -/
theorem inScope_evalScope {R : Registry} {state : State} {scope : Env} (h : R.StateKnown state)
    (he : state.evalScope? = some scope) : R.InScope scope := by
  obtain ⟨control, stack⟩ := state
  unfold State.evalScope? at he
  split at he
  · rename_i node items env hcontrol
    obtain ⟨-, hscope⟩ := Option.ite_none_right_eq_some.mp he
    cases hscope
    have hknown := h.1
    rw [hcontrol] at hknown
    exact hknown.2
  · cases he

/-- The steps of a call are steps of a session, and `eval` is executed in chains that end at the global
frame. -/
theorem exists_reachable_of_calling {s : Session} (hs : s.Reachable) {t u : State} (ht : t ∈ s.runs)
    {outer : List Pending} {w : World} {scopes : List Env} (h : t.Calling outer s.world u w scopes) :
    (∃ s' : Session, s'.Reachable ∧ s'.world = w ∧ u ∈ s'.runs) ∧ ∀ scope ∈ scopes, scope.IsRooted := by
  induction h with
  | first hstep => exact ⟨⟨_, hs.step (.advance ht hstep), rfl, List.mem_cons_self⟩, nofun⟩
  | @next u next w' w'' scopes _ _ hstep ih =>
    obtain ⟨⟨s', hs', rfl, hu⟩, hscopes⟩ := ih
    refine ⟨⟨_, hs'.step (.advance hu hstep), rfl, List.mem_cons_self⟩, fun scope hm => ?_⟩
    rcases List.mem_append.mp hm with hm | hm
    · obtain ⟨R, hsound⟩ := hs'.exists_sound
      exact (inScope_evalScope (hsound.runs u hu) (Option.mem_toList.mp hm)).2
    · exact hscopes scope hm

/-- The global frame is the only root at which a call executes `eval`. -/
theorem isRooted_of_callFails {s : Session} (hs : s.Reachable) {t : State} (ht : t ∈ s.runs)
    {outer : List Pending} {w : World} {scopes : List Env} (h : t.CallFails outer s.world w scopes) :
    ∀ scope ∈ scopes, scope.IsRooted := by
  cases h with
  | first => nofun
  | @next u halt w' _ scopes hrun _ _ =>
    obtain ⟨⟨s', hs', rfl, hu⟩, hscopes⟩ := exists_reachable_of_calling hs ht hrun
    intro scope hm
    rcases List.mem_append.mp hm with hm | hm
    · obtain ⟨R, hsound⟩ := hs'.exists_sound
      exact (inScope_evalScope (hsound.runs u hu) (Option.mem_toList.mp hm)).2
    · exact hscopes scope hm

/-- A frame that is not the global one is not the root of a chain that ends there. -/
theorem frame_eq_of_isRooted {size : Nat} {scopes : List Env} {w w' : World}
    (h : KeepsFrames size (scopes.map Env.rootFrame) w w') (hr : ∀ scope ∈ scopes, scope.IsRooted)
    {id : FrameId} (hid : id < size) (hn : id ≠ Env.global.frame ∨ scopes = []) :
    w'.frame id = w.frame id := by
  refine h.frame_eq id hid fun hm => ?_
  obtain ⟨scope, hscope, rfl⟩ := List.mem_map.mp hm
  rcases hn with hn | rfl
  · exact hn (hr scope hscope).rootFrame_eq
  · cases hscope

/-- **A call writes no frame that was there when it began**, at no step until it hands its value on or
fails. A frame keeps all its bindings, with the sites of definitions, if it has a parent, that is, unless
it is the global frame: every chain within reach ends there and has it at no other place. The global frame
keeps its bindings as well as long as the call has executed no `eval`. -/
theorem frames_of_call {s : Session} (hs : s.Reachable) {t : State} (ht : t ∈ s.runs) {f : Value}
    {args : List Value} {outer : List Pending} (hcall : t.Applies s.world f outer args) :
    (∀ u w scopes, t.Calling outer s.world u w scopes → ∀ id < s.world.frames.size,
      id ≠ Env.global.frame ∨ scopes = [] → w.frame id = s.world.frame id) ∧
    (∀ w scopes, t.CallFails outer s.world w scopes → ∀ id < s.world.frames.size,
      id ≠ Env.global.frame ∨ scopes = [] → w.frame id = s.world.frame id) ∧
    ∀ env, s.HasFrame env → env.IsRooted := by
  refine ⟨fun u w scopes hrun id hid hn => ?_, fun w scopes hfails id hid hn => ?_, fun env henv => ?_⟩
  · have hrooted := (exists_reachable_of_calling hs ht hrun).2
    exact frame_eq_of_isRooted (hrun.owned hcall).1 hrooted hid hn
  · have hrooted := isRooted_of_callFails hs ht hfails
    exact frame_eq_of_isRooted (hfails.keepsFrames hcall) hrooted hid hn
  · obtain ⟨R, hsound⟩ := hs.exists_sound
    exact (hsound.inScope henv).2

/-- The state after some more steps of a call, if it hands nothing to what is pending and executes no `eval`. -/
def goesOn (outer : List Pending) : Nat → State → World → Option (State × World)
  | 0, s, w => some (s, w)
  | n + 1, s, w =>
    if ((s.control.passed? w).isSome ∧ s.stack.length ≤ outer.length) ∨ s.evalScope?.isSome then none
    else
      match Machine.step s w with
      | .ok next w' => goesOn outer n next w'
      | .error .. => none

theorem calling_of_goesOn {outer : List Pending} {t s u : State} {n : Nat} {w w' w'' : World}
    (h : t.Calling outer w s w' []) (hrun : goesOn outer n s w' = some (u, w'')) : t.Calling outer w u w'' [] := by
  induction n generalizing s w' with
  | zero =>
    cases hrun
    exact h
  | succ n ih =>
    obtain ⟨hcond, hrun⟩ := Option.ite_none_left_eq_some.mp hrun
    obtain ⟨hn, hscope⟩ := not_or.mp hcond
    cases hstep : Machine.step s w' with
    | error e w₁ => simp [hstep] at hrun
    | ok next w₁ =>
      rw [hstep] at hrun
      have hnext := h.next hn hstep
      rw [Option.not_isSome_iff_eq_none.mp hscope] at hnext
      exact ih hnext hrun

/-- A function that defines a name is made, and called on itself until the definition is made. -/
def definesInside : Bool :=
  match EditableLisp.readProgram "(fn [x] (def y x))" World.initial with
  | (.ok p, w) =>
    match evalIn 9 p .global w with
    | .ok f w' =>
      match Machine.step ⟨.call f [f], []⟩ w' with
      | .ok s w₁ =>
        match goesOn [] 2 s w₁ with
        | some (_, w₂) => ((w₂.frame w'.frames.size).get? "y").isSome
        | none => false
      | _ => false
    | _ => false
  | _ => false

/-- A function that defines a name, called on itself: the definition is in the frame of the call, and no frame that
was there has it. -/
theorem frames_of_call_definition : ∃ s t f outer u w, Reachable s ∧ t ∈ s.runs ∧
    t.Applies s.world f outer [f] ∧ t.Calling outer s.world u w [] ∧
    ((w.frame s.world.frames.size).get? "y").isSome = true ∧
    ∀ id < s.world.frames.size, w.frame id = s.world.frame id := by
  have test : definesInside = true := by decide +kernel
  unfold definesInside at test
  split at test
  · rename_i p w hread
    split at test
    · rename_i f w' heval
      split at test
      · rename_i s₁ w₁ hstep
        split at test
        · rename_i u w₂ hrun
          let read : Session := ⟨w, [p], [], []⟩
          let run : Session := { read with world := w', held := f :: read.held }
          let started : Session := { run with runs := [⟨.call f [f], []⟩] }
          have hf : run.Has f := .held List.mem_cons_self
          have hread' := @Step.read ⟨World.initial, [], [], []⟩ _ _ _ hread
          have hstarted : read.Step run := .evaluate (.held List.mem_cons_self) .global heval
          have hstart : run.Step started := .startCall hf (List.forall_mem_singleton.mpr hf)
          have hreached : started.Reachable := ((Reachable.bare.step hread').step hstarted).step hstart
          have hcalling : State.Calling [] ⟨.call f [f], []⟩ w' u w₂ [] := calling_of_goesOn (.first hstep) hrun
          refine ⟨started, _, f, [], u, w₂, hreached, List.mem_cons_self, .call [f], hcalling, test, fun id hid => ?_⟩
          exact (frames_of_call hreached List.mem_cons_self (.call [f])).1 u w₂ [] hcalling id hid (.inr rfl)
        · cases test
      · cases test
    · cases test
  · cases test

end Session

end EditableLisp
