import EditableLisp.Proofs.Destructuring
import EditableLisp.Proofs.Quasiquoting

/-!
# Patterns that `let` lets pass

`fn` checks its parameters before there is a value; `let` binds its patterns as they are. What the check refuses is
not always refused by binding: nothing is looked at after the pattern that follows `&`, and `&` is a name like any
other where a single pattern stands.

`isPattern` says of a value alone whether it is checked without a fault, and `isBindable` whether there is a value that
it can be bound to (`isBindable_iff`). So with a pattern that the check refuses, `fn` always fails, and `let` fails
whatever the value is exactly if the pattern is not bindable (**`let_fails_iff`**). With any other one `let` binds
something and runs its body (`ends_let_of_binds`); one of these is `[a & b c]` (`let_binds_more`).
-/

namespace EditableLisp

namespace Pattern

mutual

/-- A value is checked without a fault. -/
def isPattern : Value → Bool
  | .symbol _ name => name != "&"
  | .seq .vector _ items => arePatterns items
  | _ => false

/-- The elements of a vector are those of a pattern. -/
def arePatterns : List Value → Bool
  | [] => true
  | item :: rest =>
    if isRest item then
      match rest with
      | [last] => isPattern last
      | _ => false
    else isPattern item && arePatterns rest

end

mutual

/-- There is a value that this can be bound to, a pattern or not. -/
def isBindable : Value → Bool
  | .symbol _ _ => true
  | .seq .vector _ items => areBindable items
  | _ => false

/-- The elements of a vector can be bound to the parts of some value; none is looked at after the one after `&`. -/
def areBindable : List Value → Bool
  | [] => true
  | item :: rest =>
    if isRest item then
      match rest with
      | last :: _ => isBindable last
      | [] => false
    else isBindable item && areBindable rest

end

/-! ## The check -/

/-- An act fails with a fault of binding in every world. -/
def Refuses {α : Type} (act : Act α) : Prop := ∀ w, ∃ fault w', fault.kind = .binding ∧ act w = .error (.fault fault) w'

namespace Refuses

variable {α β : Type}

theorem fail {fault : Fault} (h : fault.kind = .binding) : Refuses (EditableLisp.fail fault : Act α) :=
  fun w => ⟨fault, w, h, rfl⟩

theorem lift_bind {m : Change α} {f : α → Act β} (h : ∀ a, Refuses (f a)) : Refuses (liftM m >>= f) :=
  fun w => h (m w).1 (m w).2

theorem bind {m : Act α} {f : α → Act β} (h : Refuses m) : Refuses (m >>= f) := by
  intro w
  obtain ⟨fault, w', hkind, hfail⟩ := h w
  exact ⟨fault, w', hkind, bind_of_eq_error hfail⟩

theorem bind_of_pure {m : Act α} {f : α → Act β} {a : α} (hm : m = pure a) (h : Refuses (f a)) : Refuses (m >>= f) := by
  subst hm
  exact h

end Refuses

mutual

/-- The check passes patterns, and changes nothing. -/
theorem validate_of_isPattern (pattern : Value) (h : isPattern pattern = true) : validate pattern = pure () := by
  match pattern with
  | .symbol _ name =>
    unfold validate
    unfold isPattern at h
    exact if_neg (Bool.eq_false_iff.mp ((Bool.not_eq_true' _).mp h))
  | .seq .vector node items =>
    unfold validate
    unfold isPattern at h
    exact validateItems_of_arePatterns items h
  | .seq .list _ _ | .nil | .bool _ | .num _ | .text _ | .keyword _ | .map _ _ | .builtin _ _ _
  | .closure _ _ _ _ _ _ | .atom _ => exact absurd h Bool.false_ne_true

/-- `validate_of_isPattern` for the elements of a vector. -/
theorem validateItems_of_arePatterns {whole : Value} (items : List Value) (h : arePatterns items = true) :
    validateItems whole items = pure () := by
  match items with
  | [] => rfl
  | item :: rest =>
    unfold validateItems
    unfold arePatterns at h
    split at h
    · rename_i hrest
      rw [if_pos hrest]
      split at h
      · exact validate_of_isPattern _ h
      · cases h
    · rename_i hrest
      obtain ⟨hitem, hothers⟩ := Bool.and_eq_true_iff.mp h
      rw [if_neg hrest, validate_of_isPattern item hitem]
      exact validateItems_of_arePatterns rest hothers

end

mutual

/-- The check refuses everything else. -/
theorem refuses_validate (pattern : Value) (h : isPattern pattern = false) : Refuses (validate pattern) := by
  match pattern with
  | .symbol _ name =>
    unfold validate
    unfold isPattern at h
    rw [if_pos ((Bool.not_eq_false' _).mp h)]
    exact .fail rfl
  | .seq .vector node items =>
    unfold validate
    unfold isPattern at h
    exact refuses_validateItems items h
  | .seq .list _ _ | .nil | .bool _ | .num _ | .text _ | .keyword _ | .map _ _ | .builtin _ _ _
  | .closure _ _ _ _ _ _ | .atom _ =>
    unfold validate
    exact .lift_bind fun _ => .fail rfl

/-- `refuses_validate` for the elements of a vector. -/
theorem refuses_validateItems {whole : Value} (items : List Value) (h : arePatterns items = false) :
    Refuses (validateItems whole items) := by
  match items with
  | [] => exact absurd h Bool.true_eq_false.mp
  | item :: rest =>
    unfold validateItems
    unfold arePatterns at h
    split at h
    · rename_i hrest
      rw [if_pos hrest]
      match rest, h with
      | [last], h => exact refuses_validate last h
      | [], _ | _ :: _ :: _, _ => exact .lift_bind fun _ => .fail rfl
    · rename_i hrest
      rw [if_neg hrest]
      cases hitem : isPattern item with
      | false => exact .bind (refuses_validate item hitem)
      | true =>
        rw [hitem, Bool.true_and] at h
        exact .bind_of_pure (validate_of_isPattern item hitem) (refuses_validateItems rest h)

end

/-! ## Binding -/

mutual

/-- What was bound is bindable. -/
theorem isBindable_of_destructure {env : Env} (pattern : Value) {v : Value} {w w' : World}
    (h : destructure env pattern v w = .ok () w') : isBindable pattern = true := by
  match pattern with
  | .symbol _ name => rfl
  | .seq .vector node items =>
    unfold destructure at h
    unfold isBindable
    cases hparts : parts? v with
    | some parts =>
      simp only [hparts] at h
      exact areBindable_of_destructureItems items h
    | none =>
      simp only [hparts] at h
      obtain ⟨_, _, -, h⟩ := bind_eq_ok h
      obtain ⟨_, _, -, h⟩ := bind_eq_ok h
      exact absurd h fail_ne_ok
  | .seq .list _ _ | .nil | .bool _ | .num _ | .text _ | .keyword _ | .map _ _ | .builtin _ _ _
  | .closure _ _ _ _ _ _ | .atom _ =>
    unfold destructure at h
    obtain ⟨_, _, -, h⟩ := bind_eq_ok h
    exact absurd h fail_ne_ok

/-- `isBindable_of_destructure` for the elements of a vector. -/
theorem areBindable_of_destructureItems {env : Env} {whole : Value} {wanted got : Nat} (items : List Value)
    {values : List Value} {w w' : World} (h : destructureItems env whole wanted got values items w = .ok () w') :
    areBindable items = true := by
  match items with
  | [] => rfl
  | item :: rest =>
    unfold destructureItems at h
    unfold areBindable
    split at h
    · rename_i hrest
      rw [if_pos hrest]
      match rest, h with
      | [], h =>
        obtain ⟨_, _, -, h⟩ := bind_eq_ok h
        exact absurd h fail_ne_ok
      | last :: _, h =>
        obtain ⟨_, _, -, h⟩ := bind_eq_ok h
        exact isBindable_of_destructure last h
    · rename_i hrest
      rw [if_neg hrest]
      match values, h with
      | [], h => exact absurd h fail_ne_ok
      | v :: vs, h =>
        obtain ⟨_, _, hitem, h⟩ := bind_eq_ok h
        rw [isBindable_of_destructure item hitem, areBindable_of_destructureItems rest h]
        rfl

end

mutual

/-- What is bindable can be bound to some value, in every frame. -/
theorem exists_binds (pattern : Value) (h : isBindable pattern = true) :
    ∃ values, ∀ node frame, ∃ frame', Binds pattern (.seq .vector node values) frame frame' := by
  match pattern with
  | .symbol _ name =>
    refine ⟨[], fun node frame => ⟨frame.put name ⟨.seq .vector node [], none⟩, ?_⟩⟩
    unfold Binds
    rfl
  | .seq .vector _ items =>
    unfold isBindable at h
    obtain ⟨values, hvalues⟩ := exists_bindsEach items h
    refine ⟨values, fun node frame => ?_⟩
    obtain ⟨frame', hbinds⟩ := hvalues frame
    refine ⟨frame', ?_⟩
    unfold Binds
    exact ⟨values, rfl, hbinds⟩
  | .seq .list _ _ | .nil | .bool _ | .num _ | .text _ | .keyword _ | .map _ _ | .builtin _ _ _
  | .closure _ _ _ _ _ _ | .atom _ => exact absurd h Bool.false_ne_true

/-- `exists_binds` for the elements of a vector. -/
theorem exists_bindsEach (items : List Value) (h : areBindable items = true) :
    ∃ values, ∀ frame, ∃ frame', BindsEach items values frame frame' := by
  match items with
  | [] =>
    refine ⟨[], fun frame => ⟨frame, ?_⟩⟩
    unfold BindsEach
    exact ⟨rfl, rfl⟩
  | item :: rest =>
    unfold areBindable at h
    unfold BindsEach
    split at h
    · rename_i hrest
      match rest, h with
      | last :: _, h =>
        obtain ⟨values, hvalues⟩ := exists_binds last h
        refine ⟨values, fun frame => ?_⟩
        obtain ⟨frame', hbinds⟩ := hvalues (.bare 0) frame
        refine ⟨frame', ?_⟩
        rw [if_pos hrest]
        exact ⟨0, hbinds⟩
    · rename_i hrest
      obtain ⟨hitem, hothers⟩ := Bool.and_eq_true_iff.mp h
      obtain ⟨values, hvalues⟩ := exists_binds item hitem
      obtain ⟨more, hmore⟩ := exists_bindsEach rest hothers
      refine ⟨.seq .vector (.bare 0) values :: more, fun frame => ?_⟩
      obtain ⟨middle, hbinds⟩ := hvalues (.bare 0) frame
      obtain ⟨frame', hbindsEach⟩ := hmore middle
      refine ⟨frame', ?_⟩
      rw [if_neg hrest]
      exact ⟨middle, hbinds, hbindsEach⟩

end

/-- **A pattern is bindable exactly if some value is bound to it in some world.** -/
theorem isBindable_iff (pattern : Value) :
    isBindable pattern = true ↔ ∃ env v w w', destructure env pattern v w = .ok () w' := by
  constructor
  · intro h
    obtain ⟨values, hvalues⟩ := exists_binds pattern h
    obtain ⟨frame', hbinds⟩ := hvalues (.bare 0) []
    obtain ⟨w', hok, -⟩ := @destructure_of_binds .global pattern _ _ _ .initial (by decide) hbinds
    exact ⟨.global, _, .initial, w', hok⟩
  · rintro ⟨env, v, w, w', h⟩
    exact isBindable_of_destructure pattern h

/-- Binding what is not bindable fails, whatever the value is. -/
theorem refuses_destructure {pattern : Value} (h : isBindable pattern = false) (env : Env) (v : Value) :
    Refuses (destructure env pattern v) := by
  intro w
  cases hrun : destructure env pattern v w with
  | ok _ w' => exact absurd ((isBindable_of_destructure pattern hrun).symm.trans h) Bool.true_eq_false.mp
  | error halt w' =>
    obtain ⟨fault, rfl, hkind⟩ := destructure_fault env pattern v w w' halt hrun
    exact ⟨fault, w', hkind, rfl⟩

end Pattern

namespace Machine

/-! ## The forms -/

/-- `(fn [pattern] body …)` -/
def fnForm (node : Node) (head : NodeId) (inner : Node) (pattern : Value) (body : List Value) : Value :=
  .seq .list node (.symbol head "fn" :: .seq .vector inner [pattern] :: body)

/-- `(let [pattern form] body …)` -/
def letForm (node : Node) (head : NodeId) (inner : Node) (pattern form : Value) (body : List Value) : Value :=
  .seq .list node (.symbol head "let" :: .seq .vector inner [pattern, form] :: body)

/-- The rules with the machine for their parts, each run with nothing pending. -/
def runs (fuel : Nat) : Direct.Parts where
  eval form env := drive fuel ⟨.eval form env, []⟩
  quasi t env := drive fuel ⟨.quasi t env, []⟩
  call f args := drive fuel ⟨.call f args, []⟩

theorem endAlike_body (env : Env) (body : List Value) : EndAlike
    (fun depth => Direct.evalBody (Direct.parts depth) env body) fun fuel => Direct.evalBody (runs fuel) env body := by
  match body with
  | [] => exact .const _
  | [form] => exact Quasiquote.endAlike_value form
  | form :: next :: rest => exact (Quasiquote.endAlike_value form).bind fun _ => endAlike_body env (next :: rest)

section forms

variable {node inner : Node} {head : NodeId} {pattern form v : Value} {body : List Value} {env frame : Env}
  {stack : List Pending} {w w₁ w₂ : World}

/-- The rule of a `let` once its form has a value: the pattern is bound to it, and the body is run. -/
def bindAndRun (p : Direct.Parts) (frame : Env) (pattern : Value) (body : List Value) (v : Value) : Act Value := do
  Pattern.destructure frame pattern v
  Direct.evalBody p frame body

theorem eval_let (hstyle : node.style ≠ .program) (depth : Nat) :
    Direct.eval (depth + 1) (letForm node head inner pattern form body) env =
      Direct.remember (letForm node head inner pattern form body) (do
        let frame ← newChild env
        let v ← Direct.eval depth form frame
        bindAndRun (Direct.parts depth) frame pattern body v) := by
  have heval : Direct.eval (depth + 1) (letForm node head inner pattern form body) env =
      Direct.evalForm (Direct.parts depth) (letForm node head inner pattern form body) env := rfl
  rw [heval]
  unfold Direct.evalForm letForm
  dsimp only
  rw [if_neg hstyle]
  have hrule : ∀ p : Direct.Parts, Direct.evalSpecial p .bindings
      ⟨node, .symbol head "let" :: .seq .vector inner [pattern, form] :: body⟩ env = (do
        let frame ← newChild env
        let v ← p.eval form frame
        bindAndRun p frame pattern body v) := by
    intro p
    have hpairs : ¬ [pattern, form].length % 2 = 1 := (by decide : ¬ 2 % 2 = 1)
    unfold Direct.evalSpecial bindAndRun
    dsimp only
    rw [if_neg hpairs]
    simp only [Direct.bindEach, bind_assoc, pure_bind]
  exact congrArg (Direct.remember _) (hrule _)

theorem endAlike_bindAndRun (frame : Env) (pattern : Value) (body : List Value) (v : Value) :
    EndAlike (fun depth => bindAndRun (Direct.parts depth) frame pattern body v)
      fun fuel => bindAndRun (runs fuel) frame pattern body v :=
  (EndAlike.const (Pattern.destructure frame pattern v)).bind fun _ => endAlike_body frame body

/-- **A `let` binds its pattern and runs its body in the new frame**, once the form has its value. -/
theorem ends_let_iff (hstyle : node.style ≠ .program) (hframe : newChild env w = (frame, w₁))
    (hform : Ends (fun fuel => (runs fuel).eval form frame) w₁ (.ok v w₂)) {r : EStateM.Result Halt World Value} :
    Ends (fun fuel => drive fuel ⟨.eval (letForm node head inner pattern form body) env, stack⟩) w r ↔
      Ends (fun fuel => Direct.remember (letForm node head inner pattern form body)
          (bindAndRun (runs fuel) frame pattern body v) >>= fun v => drive fuel ⟨.ret v, stack⟩) w₂ r := by
  have hrule : EndAlike (fun depth => Direct.eval depth (letForm node head inner pattern form body) env)
      fun fuel => Direct.remember (letForm node head inner pattern form body) (do
        let frame ← newChild env
        let v ← (runs fuel).eval form frame
        bindAndRun (runs fuel) frame pattern body v) := by
    refine .of_succ (Direct.persists_eval _ env) ?_
    simp only [eval_let hstyle]
    refine EndAlike.bind ?_ fun _ => .const _
    refine (EndAlike.const (liftM (newChild env))).bind fun frame => ?_
    exact (Quasiquote.endAlike_value form).bind fun v => endAlike_bindAndRun frame pattern body v
  rw [ends_drive_pending_iff, (hrule.bind fun v => .refl (persists_drive ⟨.ret v, stack⟩)).iff w r]
  have hopened : ∀ fuel, (Direct.remember (letForm node head inner pattern form body) (do
      let frame ← newChild env
      let v ← (runs fuel).eval form frame
      bindAndRun (runs fuel) frame pattern body v) >>= fun v => drive fuel ⟨.ret v, stack⟩) w =
      ((runs fuel).eval form frame >>= fun v => Direct.remember (letForm node head inner pattern form body)
        (bindAndRun (runs fuel) frame pattern body v) >>= fun v => drive fuel ⟨.ret v, stack⟩) w₁ := by
    intro fuel
    unfold Direct.remember
    simp only [bind_assoc]
    rw [bind_lift, hframe]
  exact (Ends.iff_of_eq hopened).trans hform.bind_iff

/-- A `let` fails where its pattern cannot be bound. -/
theorem ends_let_of_error (hstyle : node.style ≠ .program) (hframe : newChild env w = (frame, w₁))
    (hform : Ends (fun fuel => (runs fuel).eval form frame) w₁ (.ok v w₂)) {halt : Halt} {w₃ : World}
    (hbind : Pattern.destructure frame pattern v w₂ = .error halt w₃) (hhalted : halt ≠ .exhausted) :
    Ends (fun fuel => drive fuel ⟨.eval (letForm node head inner pattern form body) env, stack⟩) w
      (.error halt w₃) := by
  rw [ends_let_iff hstyle hframe hform]
  refine ⟨fun w' h => ?_, 0, fun fuel _ => ?_⟩
  · cases h
    exact hhalted rfl
  · exact bind_of_eq_error (bind_of_eq_error (bind_of_eq_error hbind))

/-- A `let` runs its body where its pattern can be bound, whether `fn` takes the pattern or not. -/
theorem ends_let_of_binds (hstyle : node.style ≠ .program) (hframe : newChild env w = (frame, w₁))
    (hform : Ends (fun fuel => (runs fuel).eval form frame) w₁ (.ok v w₂)) {w₃ : World}
    (hbind : Pattern.destructure frame pattern v w₂ = .ok () w₃) {r : EStateM.Result Halt World Value} :
    Ends (fun fuel => drive fuel ⟨.eval (letForm node head inner pattern form body) env, stack⟩) w r ↔
      Ends (fun fuel => Direct.remember (letForm node head inner pattern form body)
        (Direct.evalBody (runs fuel) frame body) >>= fun v => drive fuel ⟨.ret v, stack⟩) w₃ r := by
  rw [ends_let_iff hstyle hframe hform]
  refine Ends.iff_of_eq fun fuel => ?_
  unfold Direct.remember bindAndRun
  simp only [bind_assoc]
  rw [bind_of_eq_ok hbind]

theorem refuses_makeClosure (hpattern : Pattern.isPattern pattern = false) (kind : ClosureKind) :
    Pattern.Refuses (makeClosure (.seq .vector inner [pattern]) body env kind) := by
  have hitems : Pattern.isPattern (.seq .vector inner [pattern]) = false := by
    unfold Pattern.isPattern Pattern.arePatterns
    split
    · rfl
    · rw [hpattern, Bool.false_and]
  exact (Pattern.refuses_validate _ hitems).bind

/-- **A `fn` fails with a pattern that the check refuses.** -/
theorem ends_fn (hstyle : node.style ≠ .program) (hpattern : Pattern.isPattern pattern = false) :
    ∃ fault w', fault.kind = .binding ∧
      Ends (fun fuel => drive fuel ⟨.eval (fnForm node head inner pattern body) env, stack⟩) w
        (.error (.fault fault) w') := by
  have hrule : ∀ depth, Direct.eval (depth + 1) (fnForm node head inner pattern body) env =
      Direct.remember (fnForm node head inner pattern body)
        (makeClosure (.seq .vector inner [pattern]) body env .function) := by
    intro depth
    have heval : Direct.eval (depth + 1) (fnForm node head inner pattern body) env =
        Direct.evalForm (Direct.parts depth) (fnForm node head inner pattern body) env := rfl
    rw [heval]
    unfold Direct.evalForm fnForm
    dsimp only
    rw [if_neg hstyle]
    rfl
  obtain ⟨fault, w', hkind, hfail⟩ :=
    (@refuses_makeClosure inner pattern body env hpattern .function).bind w
  refine ⟨fault, w', hkind, ?_⟩
  rw [ends_drive_pending_iff]
  exact Ends.bind_error (Ends.succ_iff.mp ⟨nofun, 0, fun depth _ => (congrFun (hrule depth) w).trans hfail⟩)

end forms

/-! ## What `let` refuses -/

/-- **With a pattern that is refused when a function is made, `fn` always fails, and `let` always fails exactly if the
pattern is not bindable.** The faults are faults of binding, whatever the frame, the body and what is pending are, and
for `let` whatever form there is with whatever value. -/
theorem let_fails_iff {pattern : Value} {w₀ w₀' : World} {halt : Halt}
    (hrefused : Pattern.validate pattern w₀ = .error halt w₀') :
    (∀ (node inner : Node) (head : NodeId) (body : List Value) (env : Env) (stack : List Pending) (w : World),
      node.style ≠ .program → ∃ fault w', fault.kind = .binding ∧
        Ends (fun fuel => drive fuel ⟨.eval (fnForm node head inner pattern body) env, stack⟩) w
          (.error (.fault fault) w')) ∧
    (Pattern.isBindable pattern = false ↔
      ∀ (node inner : Node) (head : NodeId) (form v : Value) (body : List Value) (env frame : Env)
        (stack : List Pending) (w w₁ w₂ : World), node.style ≠ .program → newChild env w = (frame, w₁) →
        Ends (fun fuel => drive fuel ⟨.eval form frame, []⟩) w₁ (.ok v w₂) → ∃ fault w', fault.kind = .binding ∧
          Ends (fun fuel => drive fuel ⟨.eval (letForm node head inner pattern form body) env, stack⟩) w
            (.error (.fault fault) w')) := by
  have hpattern : Pattern.isPattern pattern = false := by
    rw [Bool.eq_false_iff]
    intro h
    rw [Pattern.validate_of_isPattern pattern h] at hrefused
    cases hrefused
  refine ⟨fun node inner head body env stack w hstyle => ends_fn hstyle hpattern, ?_, fun hfails => ?_⟩
  · intro hunbindable node inner head form v body env frame stack w w₁ w₂ hstyle hframe hform
    obtain ⟨fault, w', hkind, hbind⟩ := Pattern.refuses_destructure hunbindable frame v w₂
    exact ⟨fault, w', hkind, ends_let_of_error hstyle hframe hform hbind nofun⟩
  · rw [Bool.eq_false_iff]
    intro hbindable
    -- a quoted value that can be bound, and no body
    obtain ⟨values, hvalues⟩ := Pattern.exists_binds pattern hbindable
    let v : Value := .seq .vector (.bare 2) values
    let form : Value := .seq .list (.bare 1) [.symbol 0 "quote", v]
    let frame : Env := (newChild .global .initial).1
    let w₁ : World := (newChild .global .initial).2
    have hquote : drive 9 ⟨.eval form frame, []⟩ w₁ = .ok v (keptAt v form w₁) := rfl
    have hform : Ends (fun fuel => drive fuel ⟨.eval form frame, []⟩) w₁ (.ok v (keptAt v form w₁)) :=
      persists_drive _ hquote (halted_ok _ _)
    have hin : frame.frame < (keptAt v form w₁).frames.size := (by decide : 1 < 2)
    obtain ⟨frame', hbinds⟩ := hvalues (.bare 2) ((keptAt v form w₁).frame frame.frame)
    obtain ⟨w₃, hbind, -⟩ := Pattern.destructure_of_binds pattern hin hbinds
    have hstyle : (Node.bare 3).style ≠ .program := nofun
    let call : Value := letForm (.bare 3) 5 (.bare 4) pattern form []
    have hkept : Ends (fun fuel => Direct.remember call (Direct.evalBody (runs fuel) frame [])) w₃
        (.ok .nil (keptAt .nil call w₃)) := ⟨halted_ok _ _, 0, fun _ _ => rfl⟩
    have hlanded : Ends (fun fuel => drive fuel ⟨.ret .nil, []⟩) (keptAt .nil call w₃) (.ok .nil (keptAt .nil call w₃)) :=
      persists_drive _ (rfl : drive 2 ⟨.ret .nil, []⟩ (keptAt .nil call w₃) = _) (halted_ok _ _)
    have hruns := (ends_let_of_binds hstyle rfl hform hbind).mpr (hkept.bind_iff.mpr hlanded)
    obtain ⟨fault, w', -, hends⟩ :=
      hfails (.bare 3) (.bare 4) 5 form v [] .global frame [] .initial w₁ _ hstyle rfl hform
    cases hends.eq hruns

/-- Nothing follows `&` in `[a &]`, so neither `fn` nor `let` takes it. -/
theorem let_fails_iff_unfollowed :
    let pattern : Value := .seq .vector (.bare 2) [.symbol 0 "a", .symbol 1 "&"]
    (∃ halt w', Pattern.validate pattern .initial = .error halt w') ∧ ∃ fault w', fault.kind = .binding ∧
      Ends (fun fuel => drive fuel ⟨.eval (letForm (.bare 3) 4 (.bare 5) pattern .nil [.bool true]) .global, []⟩)
        .initial (.error (.fault fault) w') := by
  intro pattern
  obtain ⟨fault, w', -, hrefused⟩ := Pattern.refuses_validate pattern rfl .initial
  have hform : Ends (fun fuel => drive fuel ⟨.eval .nil (newChild .global .initial).1, []⟩) (newChild .global .initial).2
      (.ok .nil (newChild .global .initial).2) :=
    persists_drive _ (rfl : drive 3 ⟨.eval .nil (newChild .global .initial).1, []⟩ _ = _) (halted_ok _ _)
  exact ⟨⟨_, w', hrefused⟩, (let_fails_iff hrefused).2.mp rfl (.bare 3) (.bare 5) 4 .nil .nil [.bool true] .global _ []
    .initial _ _ nofun rfl hform⟩

end Machine

/-! ## A pattern that only `fn` refuses -/

/-- A text has this number for its value. -/
def comesToNumber (x : Number) : Except Failure Value → Bool
  | .ok (.num y) => y == x
  | _ => false

theorem eq_of_comesToNumber {x : Number} {r : Except Failure Value} (h : comesToNumber x r = true) :
    r = .ok (.num x) := by
  unfold comesToNumber at h
  split at h
  · rw [eq_of_beq h]
  · cases h

/-- The evaluation of a text fails with a fault of binding. -/
def failsToBind : Except Failure Value → Bool
  | .error (.halt (.fault fault)) => fault.kind == .binding
  | _ => false

theorem exists_of_failsToBind {r : Except Failure Value} (h : failsToBind r = true) :
    ∃ fault, fault.kind = .binding ∧ r = .error (.halt (.fault fault)) := by
  unfold failsToBind at h
  split at h
  · exact ⟨_, eq_of_beq h, rfl⟩
  · cases h

/-- **Two patterns follow `&` in `[a & b c]`: `fn` refuses it, and `let` binds it and runs its body.** -/
theorem let_binds_more :
    (∃ fault, fault.kind = .binding ∧
      (readEval 60 "(fn [[a & b c]] a)" World.full).1 = .error (.halt (.fault fault))) ∧
    (readEval 60 "(let [[a & b c] [1 2 3]] a)" World.full).1 = .ok (.num 1) := by
  have hfn : failsToBind (readEval 60 "(fn [[a & b c]] a)" World.full).1 = true := by decide +kernel
  have hlet : comesToNumber 1 (readEval 60 "(let [[a & b c] [1 2 3]] a)" World.full).1 = true := by decide +kernel
  exact ⟨exists_of_failsToBind hfn, eq_of_comesToNumber hlet⟩

end EditableLisp
