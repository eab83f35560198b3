import EditableLisp.Proofs.Ending
import EditableLisp.Proofs.Equality

/-!
# Quasiquotation is substitution

`Quasiquote.substitute` is the substitution that a template stands for, as one recursion over the template: a list
headed by `unquote` is the value of its form, another sequence that is not empty is a new one of its substituted
elements, and everything else is itself. An element headed by `splice-unquote` stands for the elements of a value; a
whole template that is headed so is a list like any other. The machine cuts the recursion into steps, with what was
built so far on its stack. From every state the two come to the same ends (**`Quasiquote.ends_quasiquote_iff`**).

* As a form is evaluated on a stack as it is on its own, the forms of a template can be evaluated one by one, each
  with nothing pending (`Quasiquote.endAlike_substitute`).
* A template without marks is copied to an equal value (`Quasiquote.substitute_unmarked`).
-/

namespace EditableLisp

/-! ## The substitution -/

namespace Quasiquote

/-- The forms after the head of a list that is headed by a symbol of this name. -/
def headed? (name : String) : Value → Option (List Value)
  | .seq .list _ items => if Value.headName? items = some name then some items.tail else none
  | _ => none

mutual

/-- What a template stands for, given the values of forms. -/
def substitute (value : Value → Act Value) (t : Value) : Act Value :=
  match headed? "unquote" t with
  | some [form] => value form
  | some _ => fail (.oneForm "unquote")
  | none =>
    match t with
    | .seq shape _ (item :: rest) => do newSeq shape (← substituteEach value (item :: rest))
    | t => pure t

/-- What the elements of a template stand for, from left to right; `splice-unquote` heads a form whose value stands
for its elements. -/
def substituteEach (value : Value → Act Value) : List Value → Act (List Value)
  | [] => pure []
  | item :: rest =>
    match headed? "splice-unquote" item with
    | some [form] => do
      let vs ← Direct.splicedItems (← value form)
      return vs ++ (← substituteEach value rest)
    | some _ => fail (.oneForm "splice-unquote")
    | none => do
      let v ← substitute value item
      return v :: (← substituteEach value rest)

end

/-- The value of a form as the machine comes to it with nothing pending. -/
def valueIn (env : Env) (fuel : Nat) (form : Value) : Act Value := Machine.drive fuel ⟨.eval form env, []⟩

variable {env : Env}

theorem quasiForm_eq (p : Direct.Parts) (t : Value) : Direct.quasiForm p t env =
    match headed? "unquote" t with
    | some [form] => p.eval form env
    | some _ => fail (.oneForm "unquote")
    | none =>
      match t with
      | .seq shape _ (item :: rest) => do newSeq shape (← Direct.quasiEach p env (item :: rest))
      | t => pure t := by
  unfold Direct.quasiForm headed?
  cases t with
  | seq shape node items =>
    cases items with
    | nil => cases shape <;> rfl
    | cons head rest =>
      cases shape with
      | list =>
        by_cases hhead : Value.headName? (head :: rest) = some "unquote"
        · simp only [hhead, and_self, if_true, List.tail_cons]
          match rest with
          | [] | [_] | _ :: _ :: _ => rfl
        · simp [hhead]
      | vector => rfl
  | _ => rfl

theorem spliced?_eq (item : Value) : Machine.spliced? item =
    match headed? "splice-unquote" item with
    | some [form] => pure (some form)
    | some _ => fail (.oneForm "splice-unquote")
    | none => pure none := by
  unfold Machine.spliced? headed?
  cases item with
  | seq shape node items =>
    cases shape with
    | list =>
      by_cases hhead : Value.headName? items = some "splice-unquote"
      · simp only [hhead, if_true]
        match items with
        | [_] | [_, _] | _ :: _ :: _ :: _ => rfl
      · simp [hhead]
    | vector => rfl
  | _ => rfl

theorem persists_quasi (t : Value) : Persists fun depth => (Direct.parts depth).quasi t env := by
  intro depth w r e hr
  have hmachine := ((Machine.covers_parts depth).quasi t env []).ends e hr
  have hrefines := fun n => (Machine.covers_parts (n + 1)).quasi t env []
  exact Ends.succ_iff.mp ((Machine.ends_bind_drive_iff hrefines).mp hmachine)

theorem endAlike_value (form : Value) :
    EndAlike (fun depth => Direct.eval depth form env) fun fuel => valueIn env fuel form :=
  ⟨Direct.persists_eval form env, Machine.persists_drive _, fun _ _ => (Machine.ends_drive_iff form env).symm⟩

mutual

/-- Direct evaluation of a template substitutes. -/
theorem endAlike_substitute (t : Value) : EndAlike (fun depth => Direct.quasiForm (Direct.parts depth) t env)
    fun fuel => substitute (valueIn env fuel) t := by
  simp only [quasiForm_eq]
  unfold substitute
  split
  · exact endAlike_value _
  · exact .const _
  · split
    · rename_i shape node item rest hmark
      exact (endAlike_substituteEach (item :: rest)).bind fun _ => .const _
    · exact .const _

/-- `endAlike_substitute` for the elements of a template. -/
theorem endAlike_substituteEach (items : List Value) :
    EndAlike (fun depth => Direct.quasiEach (Direct.parts depth) env items)
      fun fuel => substituteEach (valueIn env fuel) items := by
  match items with
  | [] => exact .const _
  | item :: rest =>
    have hrest := endAlike_substituteEach rest
    unfold Direct.quasiEach substituteEach
    rw [spliced?_eq]
    split
    · rename_i form _
      simp only [pure_bind]
      exact (endAlike_value form).bind fun v => (EndAlike.const _).bind fun vs => hrest.bind fun _ => .const _
    · exact EndAlike.const (fail (.oneForm "splice-unquote"))
    · simp only [pure_bind]
      have hitem : EndAlike (fun depth => (Direct.parts depth).quasi item env)
          fun fuel => substitute (valueIn env fuel) item := .of_succ (persists_quasi item) (endAlike_substitute item)
      exact hitem.bind fun v => hrest.bind fun _ => .const _

end

/-! ## Templates without marks -/

/-- No list in a template is headed by `unquote` or `splice-unquote`. -/
def Unmarked (t : Value) : Prop :=
  ∀ path u, t.at? path = some u → headed? "unquote" u = none ∧ headed? "splice-unquote" u = none

theorem Unmarked.child {t u : Value} (h : Unmarked t) (hu : u ∈ t.children) : Unmarked u := by
  obtain ⟨i, hi⟩ := List.mem_iff_getElem?.mp hu
  exact fun path v hpart => h (i :: path) v (Value.at?_cons hi hpart)

mutual

/-- **A template without marks is copied**: whatever the values of forms are, it stands for one that is equal to
it. -/
theorem substitute_unmarked (t : Value) (hmarks : Unmarked t) (hnames : t.HasNames) (hnan : ¬ t.HasNaN) (w : World) :
    ∃ v w', (∀ value, substitute value t w = .ok v w') ∧ v.equal t := by
  have hself : t.equal t := (Value.equal_self_iff hnames).mpr hnan
  unfold substitute
  rw [(hmarks [] t rfl).1]
  match t with
  | .seq shape node (item :: rest) =>
    have hitems : ∀ u ∈ item :: rest, Unmarked u ∧ u.HasNames ∧ ¬ u.HasNaN := fun u hu =>
      ⟨hmarks.child hu, hnames.child hu, fun h => hnan (h.of_child hu)⟩
    obtain ⟨vs, w₁, hvs, hequal⟩ := substituteEach_unmarked (item :: rest) hitems w
    refine ⟨.seq shape (.bare w₁.nextId) vs, { w₁ with nextId := w₁.nextId + 1 }, fun value => ?_, hequal⟩
    exact bind_of_eq_ok (hvs value)
  | .seq _ _ [] | .nil | .bool _ | .num _ | .text _ | .keyword _ | .symbol _ _ | .map _ _ | .builtin _ _ _
  | .closure _ _ _ _ _ _ | .atom _ => exact ⟨_, w, fun _ => rfl, hself⟩

/-- `substitute_unmarked` for the elements of a template. -/
theorem substituteEach_unmarked (items : List Value) (h : ∀ u ∈ items, Unmarked u ∧ u.HasNames ∧ ¬ u.HasNaN)
    (w : World) : ∃ vs w', (∀ value, substituteEach value items w = .ok vs w') ∧ Value.equalItems vs items := by
  match items with
  | [] => exact ⟨[], w, fun _ => rfl, rfl⟩
  | item :: rest =>
    obtain ⟨⟨hmarks, hnames, hnan⟩, hrest⟩ := List.forall_mem_cons.mp h
    obtain ⟨v, w₁, hv, hequal⟩ := substitute_unmarked item hmarks hnames hnan w
    obtain ⟨vs, w₂, hvs, hequals⟩ := substituteEach_unmarked rest hrest w₁
    refine ⟨v :: vs, w₂, fun value => ?_, ?_⟩
    · unfold substituteEach
      rw [(hmarks [] item rfl).2]
      dsimp only
      rw [bind_of_eq_ok (hv value), bind_of_eq_ok (hvs value)]
      rfl
    · rw [Value.equalItems, hequal, hequals]
      rfl

end

/-! ## Evaluation -/

/-- The rule of a quasiquotation keeps the copy of the template on the list. -/
theorem eval_quasiquote (t : Value) {node : Node} (hstyle : node.style ≠ .program) (id : NodeId) (depth : Nat) :
    Direct.eval (depth + 1) (.seq .list node [.symbol id "quasiquote", t]) env =
      Direct.remember (.seq .list node [.symbol id "quasiquote", t]) ((Direct.parts depth).quasi t env) := by
  have hform : ∀ form, Direct.eval (depth + 1) form env = Direct.evalForm (Direct.parts depth) form env := fun _ => rfl
  rw [hform]
  unfold Direct.evalForm
  dsimp only
  rw [if_neg hstyle]
  rfl

theorem endAlike_quasiquote (t : Value) {node : Node} (hstyle : node.style ≠ .program) (id : NodeId) :
    EndAlike (fun depth => Direct.eval depth (.seq .list node [.symbol id "quasiquote", t]) env)
      fun fuel => Direct.remember (.seq .list node [.symbol id "quasiquote", t]) (substitute (valueIn env fuel) t) := by
  refine .of_succ (Direct.persists_eval _ env) ?_
  simp only [eval_quasiquote t hstyle]
  have hquasi : EndAlike (fun depth => (Direct.parts depth).quasi t env) fun fuel => substitute (valueIn env fuel) t :=
    .of_succ (persists_quasi t) (endAlike_substitute t)
  exact hquasi.bind fun v => .const _

/-- **Quasiquotation is substitution.** From every state, the evaluation of a quasiquoted template comes to the ends
to which the substitution comes that evaluates the unquoted forms in the same frames, from left to right and each
with nothing pending; the list keeps the value, which is then handed to what is pending. What is malformed is a fault
of binding, what cannot be spliced one of type. A template without marks evaluates to a value that is equal to it,
unless NaN is in it; the keys of its maps have different names in every session that can be reached. -/
theorem ends_quasiquote_iff (t : Value) {node : Node} (hstyle : node.style ≠ .program) (id : NodeId) (env : Env)
    (stack : List Pending) (w : World) :
    let call : Value := .seq .list node [.symbol id "quasiquote", t]
    (∀ r, Ends (fun fuel => Machine.drive fuel ⟨.eval call env, stack⟩) w r ↔
      Ends (fun fuel => do
        let v ← Direct.remember call (substitute (valueIn env fuel) t)
        Machine.drive fuel ⟨.ret v, stack⟩) w r) ∧
    (∀ name text, (Fault.oneForm name).kind = .binding ∧ (Fault.notSpliced text).kind = .type) ∧
    (Unmarked t → t.HasNames → ¬ t.HasNaN → ∃ v w', v.equal t ∧ ∀ r,
      Ends (fun fuel => Machine.drive fuel ⟨.eval call env, stack⟩) w r ↔
        Ends (fun fuel => Machine.drive fuel ⟨.ret v, stack⟩) w' r) ∧
    ∀ s : Session, s.Reachable → s.Has t → t.HasNames := by
  intro call
  have hsubstitutes : ∀ r, Ends (fun fuel => Machine.drive fuel ⟨.eval call env, stack⟩) w r ↔
      Ends (fun fuel => do
        let v ← Direct.remember call (substitute (valueIn env fuel) t)
        Machine.drive fuel ⟨.ret v, stack⟩) w r := by
    intro r
    rw [Machine.ends_drive_pending_iff]
    exact ((endAlike_quasiquote t hstyle id).bind fun v => .refl (Machine.persists_drive ⟨.ret v, stack⟩)).iff w r
  refine ⟨hsubstitutes, fun name text => ⟨rfl, rfl⟩, fun hmarks hnames hnan => ?_, fun s hs ht => hs.hasNames ht⟩
  obtain ⟨v, w₁, hv, hequal⟩ := substitute_unmarked t hmarks hnames hnan w
  have hcopy : Ends (fun fuel => Direct.remember call (substitute (valueIn env fuel) t)) w
      (.ok v (Machine.keptAt v call w₁)) := ⟨halted_ok _ _, 0, fun fuel _ => bind_of_eq_ok (hv (valueIn env fuel))⟩
  exact ⟨v, Machine.keptAt v call w₁, hequal, fun r => (hsubstitutes r).trans hcopy.bind_iff⟩

/-- `[true ~@[nil] ~false]` stands for `[true nil false]`, and `(x)` for itself. -/
theorem ends_quasiquote_iff_spliced :
    let quasiquoted (t : Value) : Value := .seq .list (.bare 9) [.symbol 8 "quasiquote", t]
    let template : Value := .seq .vector (.bare 7) [.bool true,
      .seq .list (.bare 6) [.symbol 5 "splice-unquote", .seq .vector (.bare 4) [.nil]],
      .seq .list (.bare 3) [.symbol 2 "unquote", .bool false]]
    let plain : Value := .seq .list (.bare 1) [.symbol 0 "x"]
    (∃ node w', Ends (fun fuel => do
        let v ← Direct.remember (quasiquoted template) (substitute (valueIn .global fuel) template)
        Machine.drive fuel ⟨.ret v, []⟩) .initial (.ok (.seq .vector node [.bool true, .nil, .bool false]) w')) ∧
    ∃ v w', v.equal plain ∧
      Ends (fun fuel => Machine.drive fuel ⟨.eval (quasiquoted plain) .global, []⟩) .initial (.ok v w') := by
  intro quasiquoted template plain
  have hstyle : (Node.bare 9).style ≠ .program := nofun
  refine ⟨?_, ?_⟩
  · have hrun : ∃ w', Machine.drive 12 ⟨.eval (quasiquoted template) .global, []⟩ .initial =
        .ok (.seq .vector (.bare 1) [.bool true, .nil, .bool false]) w' := ⟨_, rfl⟩
    obtain ⟨w', hrun⟩ := hrun
    have hends := Machine.persists_drive _ hrun (halted_ok _ w')
    exact ⟨.bare 1, w', ((ends_quasiquote_iff template hstyle 8 .global [] .initial).1 _).mp hends⟩
  · have hparts : ∀ path u, plain.at? path = some u → u = plain ∨ u = .symbol 0 "x" := by
      intro path u hat
      match path with
      | [] => exact .inl (Option.some.inj hat).symm
      | [0] => exact .inr (Option.some.inj hat).symm
      | 0 :: _ :: _ | (_ + 1) :: _ => cases hat
    have hmarks : Unmarked plain := by
      intro path u hat
      rcases hparts path u hat with rfl | rfl <;> decide
    have hnames : plain.HasNames := by
      intro path node entries hat
      rcases hparts path _ hat with h | h <;> exact Value.noConfusion h
    have hnan : ¬ plain.HasNaN := by
      rintro ⟨path, x, hat, -⟩
      rcases hparts path _ hat with h | h <;> exact Value.noConfusion h
    obtain ⟨v, w', hequal, hends⟩ := (ends_quasiquote_iff plain hstyle 8 .global [] .initial).2.2.1 hmarks hnames hnan
    have hlanded : Ends (fun fuel => Machine.drive fuel ⟨.ret v, []⟩) w' (.ok v w') :=
      Machine.persists_drive _ (rfl : Machine.drive 2 ⟨.ret v, []⟩ w' = _) (halted_ok v w')
    exact ⟨v, w', hequal, (hends _).mpr hlanded⟩

end Quasiquote

end EditableLisp
