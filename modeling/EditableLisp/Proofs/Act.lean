import EditableLisp.World

/-!
# Acts in sequence

What an act in two parts comes to, in terms of its parts.
-/

namespace EditableLisp

variable {α β : Type}

/-- A change of two parts is one act after another. -/
theorem lift_bind (m : Change α) (f : α → Change β) :
    (liftM (m >>= f) : Act β) = liftM m >>= fun a => liftM (f a) := rfl

/-- A change that does nothing but return. -/
theorem lift_pure (a : α) : (liftM (pure a : Change α) : Act α) = pure a := rfl

/-- A change succeeds. -/
theorem lift_of_eq {m : Change α} {w w₁ : World} {a : α} (h : m w = (a, w₁)) :
    (liftM m : Act α) w = .ok a w₁ := by
  show EStateM.Result.ok (m w).1 (m w).2 = _
  rw [h]

/-- A change goes on after its first part. -/
theorem Change.bind_of_eq {m : Change α} {f : α → Change β} {w w₁ : World} {a : α} (h : m w = (a, w₁)) :
    (m >>= f) w = f a w₁ := by
  show f (m w).1 (m w).2 = _
  rw [h]

/-- An act goes on after a change. -/
theorem bind_lift (m : Change α) (f : α → Act β) (w : World) :
    ((liftM m : Act α) >>= f) w = f (m w).1 (m w).2 := rfl

/-- An act goes on where its first part succeeded. -/
theorem bind_of_eq_ok {m : Act α} {f : α → Act β} {w w₁ : World} {a : α} (h : m w = .ok a w₁) :
    (m >>= f) w = f a w₁ := by
  show EStateM.bind m f w = _
  unfold EStateM.bind
  rw [h]

/-- An act ends where its first part failed. -/
theorem bind_of_eq_error {m : Act α} {f : α → Act β} {w w₁ : World} {h : Halt}
    (e : m w = .error h w₁) : (m >>= f) w = .error h w₁ := by
  show EStateM.bind m f w = _
  unfold EStateM.bind
  rw [e]

/-- An act goes on from where another one comes to the same. -/
theorem bind_of_eq {m m' : Act α} {w w' : World} (h : m w = m' w') (f : α → Act β) : (m >>= f) w = (m' >>= f) w' := by
  show EStateM.bind m f w = EStateM.bind m' f w'
  unfold EStateM.bind
  rw [h]

/-- An act that succeeds succeeded in its first part. -/
theorem bind_eq_ok {m : Act α} {f : α → Act β} {w w' : World} {b : β} (h : (m >>= f) w = .ok b w') :
    ∃ a w₁, m w = .ok a w₁ ∧ f a w₁ = .ok b w' := by
  cases e : m w with
  | ok a w₁ =>
    rw [bind_of_eq_ok e] at h
    exact ⟨a, w₁, rfl, h⟩
  | error c w₁ =>
    rw [bind_of_eq_error e] at h
    cases h

theorem fail_ne_ok {f : Fault} {w w' : World} {a : α} : fail f w ≠ .ok a w' := nofun

end EditableLisp
