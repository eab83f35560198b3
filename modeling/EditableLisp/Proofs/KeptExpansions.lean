import EditableLisp.Proofs.Ending
import EditableLisp.Proofs.LastResults

/-!
# Acts and kept expansions

`Accounted E act Q`: the act keeps only expansions of which `E` says that they may be kept on the call, and `Q` holds
of what it comes to. Only `setExpansion` keeps an expansion, so every other act of the machine has a rule without a
condition.
-/

namespace EditableLisp

variable {E : NodeId → Expansion → Prop} {α β : Type}

/-- Only expansions as they may be are kept. -/
def World.KeepsOnly (w : World) (E : NodeId → Expansion → Prop) : Prop :=
  ∀ id e, w.expansions.get? id = some e → E id e

theorem World.KeepsOnly.of_eq {w w' : World} (h : w.KeepsOnly E) (he : w'.expansions = w.expansions) :
    w'.KeepsOnly E := by
  intro id e
  rw [he]
  exact h id e

/-! ## Acts -/

/-- From this world the act keeps only expansions as they may be, and comes to what is said. -/
abbrev AccountedAt (E : NodeId → Expansion → Prop) (act : Act α) (Q : α → Prop) (w : World) : Prop :=
  (worldAfter act w).KeepsOnly E ∧ ∀ a w', act w = .ok a w' → Q a

/-- The act keeps only expansions as they may be, and comes to what is said. -/
def Accounted (E : NodeId → Expansion → Prop) (act : Act α) (Q : α → Prop) : Prop :=
  ∀ w, w.KeepsOnly E → AccountedAt E act Q w

theorem AccountedAt.of_eq {act act' : Act α} {Q : α → Prop} {w w' : World} (h : AccountedAt E act' Q w')
    (he : act w = act' w') : AccountedAt E act Q w := by
  unfold AccountedAt worldAfter at h ⊢
  rw [he]
  exact h

namespace Accounted

variable {act : Act α} {P Q : α → Prop}

/-- An act that leaves the expansions alone. -/
theorem of_eq (h : ∀ w, (worldAfter act w).expansions = w.expansions) :
    Accounted E act fun a => ∃ w w', act w = .ok a w' :=
  fun w hw => ⟨hw.of_eq (h w), fun _ w' e => ⟨w, w', e⟩⟩

theorem mono (h : Accounted E act P) (hq : ∀ a, P a → Q a) : Accounted E act Q :=
  fun w hw => ⟨(h w hw).1, fun a w' e => hq a ((h w hw).2 a w' e)⟩

theorem pure {a : α} (h : Q a) : Accounted E (Pure.pure a) Q := by
  refine fun w hw => ⟨hw, ?_⟩
  rintro _ _ ⟨⟩
  exact h

theorem fail (f : Fault) : Accounted E (EditableLisp.fail f : Act α) Q := fun _ hw => ⟨hw, nofun⟩

theorem bind {f : α → Act β} {Q : β → Prop} (h : Accounted E act P) (hf : ∀ a, P a → Accounted E (f a) Q) :
    Accounted E (act >>= f) Q := by
  intro w hw
  obtain ⟨hafter, hdone⟩ := h w hw
  cases e : act w with
  | ok a w₁ =>
    rw [worldAfter_of_ok e] at hafter
    exact (hf a (hdone a w₁ e) w₁ hafter).of_eq (bind_of_eq_ok e)
  | error b w₁ =>
    rw [worldAfter_of_error e] at hafter
    rw [AccountedAt, worldAfter_of_error (bind_of_eq_error e), bind_of_eq_error e]
    refine ⟨hafter, ?_⟩
    rintro _ _ ⟨⟩

end Accounted

theorem Quiet.accounted {act : Act α} (h : Quiet act) : Accounted E act fun a => ∃ w w', act w = .ok a w' :=
  .of_eq fun w => congrArg Evaluation.expansions (h w).evaluation

/-- An act that leaves evaluations alone, and fails. -/
theorem Accounted.failWith {act : Act α} (h : Quiet act) (f : α → Fault) {Q : β → Prop} :
    Accounted E (act >>= fun a => (EditableLisp.fail (f a) : Act β)) Q := h.accounted.bind fun _ _ => .fail _

/-- A change that leaves the expansions alone. -/
theorem accounted_lift {m : Change α} (h : ∀ w, (m w).2.expansions = w.expansions) :
    Accounted E (liftM m) fun _ => True := (@Accounted.of_eq E _ (liftM m) h).mono fun _ _ => trivial

theorem accounted_setResult (node v : Value) : Accounted E (liftM (setResult node v)) fun _ => True := by
  refine accounted_lift fun w => ?_
  unfold setResult
  cases node.nodeId? <;> rfl

theorem accounted_recordAll (reads : List Lookup) : Accounted E (liftM (recordAll reads)) fun _ => True := by
  refine accounted_lift fun w => ?_
  rw [recordAll_snd]

theorem accounted_finishRecording (depth : Nat) :
    Accounted E (liftM (finishRecording depth)) fun _ => True := by
  refine accounted_lift fun w => ?_
  rcases finishRecording_cases depth w with h | ⟨top, rest, h, hdepth⟩
  · rw [h]
  · rw [finishRecording_of_abandon h hdepth]

/-- An expansion as it may be is kept. -/
theorem accounted_setExpansion {id : NodeId} {e : Expansion} (h : E id e) :
    Accounted E (liftM (setExpansion id e)) fun _ => True := by
  refine fun w hw => ⟨fun other e' he => ?_, fun _ _ _ => trivial⟩
  have he : (w.expansions.set id e).get? other = some e' := he
  rw [Table.get?_set] at he
  split at he
  · rename_i hid
    cases he
    exact hid ▸ h
  · exact hw other e' he

namespace Pattern

mutual

theorem accounted_destructure (env : Env) (pattern value : Value) :
    Accounted E (destructure env pattern value) fun _ => True := by
  match pattern with
  | .symbol _ name =>
    unfold destructure
    exact accounted_lift fun _ => rfl
  | .seq .vector node items =>
    unfold destructure
    split
    · exact accounted_destructureItems env _ _ _ _ items
    · exact (quiet_print _).accounted.bind fun _ _ => .failWith (quiet_print _) _
  | .nil | .bool _ | .num _ | .text _ | .keyword _ | .seq .list _ _ | .map _ _ | .builtin _ _ _
  | .closure _ _ _ _ _ _ | .atom _ =>
    unfold destructure
    exact .failWith (quiet_print _) _

theorem accounted_destructureItems (env : Env) (whole : Value) (wanted got : Nat) (values : List Value)
    (items : List Value) : Accounted E (destructureItems env whole wanted got values items) fun _ => True := by
  match items with
  | [] =>
    unfold destructureItems
    split
    · exact .pure trivial
    · exact .fail _
  | item :: rest =>
    unfold destructureItems
    split
    · split
      · exact (quiet_newVector _).accounted.bind fun _ _ => accounted_destructure env _ _
      · exact .failWith (quiet_print _) _
    · split
      · exact (accounted_destructure env item _).bind fun _ _ => accounted_destructureItems env _ _ _ _ rest
      · exact .fail _

end

end Pattern

namespace Machine

theorem accounted_enter (env : Env) (params : Value) (args : List Value) :
    Accounted E (enter env params args) fun _ => True := by
  have hframe : Accounted E (liftM (newChild env)) fun _ => True := accounted_lift fun _ => rfl
  refine hframe.bind fun frame _ => (quiet_newVector args).accounted.bind fun vector _ => ?_
  exact (Pattern.accounted_destructure frame params vector).bind fun _ _ => .pure trivial

theorem accounted_keepResults (v : Value) (nodes : List Value) :
    Accounted E (liftM (keepResults v nodes)) fun _ => True := by
  induction nodes with
  | nil => exact .pure trivial
  | cons node rest ih =>
    unfold keepResults
    rw [lift_bind]
    exact (accounted_setResult node v).bind fun _ _ => ih

theorem accounted_markOrdinary (h : ∀ id, E id .unchanged) (call : Call) :
    Accounted E (liftM (markOrdinary call)) fun _ => True := by
  unfold markOrdinary
  rw [lift_bind]
  refine Quiet.lift_get.accounted.bind fun w _ => ?_
  split
  · exact .pure trivial
  · exact accounted_setExpansion (h _)

theorem accounted_servedForm? (call : Call) (f : Value) :
    Accounted E (liftM (servedForm? call f)) fun _ => True := by
  unfold servedForm?
  rw [lift_bind]
  refine Quiet.lift_get.accounted.bind fun w _ => ?_
  split
  · split
    · split
      · rw [lift_bind]
        exact (accounted_recordAll _).bind fun _ _ => .pure trivial
      · rw [lift_bind]
        exact (quiet_instantiate _ _).accounted.bind fun _ _ => .pure trivial
      · exact .pure trivial
    · exact .pure trivial
  · exact .pure trivial

end Machine

end EditableLisp
