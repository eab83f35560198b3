import EditableLisp.Pattern
import EditableLisp.Proofs.Act

/-!
# What patterns bind

`Pattern.Binds pattern v frame frame'` says which bindings the parts of a value add to a frame. It says
nothing of a world: `destructure` succeeds in every world or in none, and what it adds to the innermost
frame is what the pattern binds (`binds_of_destructure`, `destructure_of_binds`).
-/

namespace EditableLisp.Pattern

mutual

/-- A pattern binds its names to the parts of a value, on top of a frame. -/
def Binds : Value → Value → Frame → Frame → Prop
  | .symbol _ name, v, frame, frame' => frame' = frame.put name ⟨v, none⟩
  | .seq .vector _ items, v, frame, frame' =>
    ∃ parts, parts? v = some parts ∧ BindsEach items parts frame frame'
  | _, _, _, _ => False

/-- Patterns bind their names to values in turn. A pattern after `&` takes a new vector of what is left. -/
def BindsEach : List Value → List Value → Frame → Frame → Prop
  | [], values, frame, frame' => values = [] ∧ frame' = frame
  | item :: rest, values, frame, frame' =>
    if isRest item then
      match rest with
      | last :: _ => ∃ id, Binds last (.seq .vector (.bare id) values) frame frame'
      | [] => False
    else
      match values with
      | v :: vs => ∃ middle, Binds item v frame middle ∧ BindsEach rest vs middle frame'
      | [] => False

end

/-! ## Destructuring -/

/-- The world after a new vector was made. -/
theorem newVector_eq (values : List Value) (w : World) :
    (liftM (newVector values) : Act Value) w =
      .ok (.seq .vector (.bare w.nextId) values) { w with nextId := w.nextId + 1 } := rfl

theorem frame_define {env : Env} {w : World} (h : env.frame < w.frames.size) (name : String) (v : Value) :
    ∃ w', (liftM (define env name v) : Act Unit) w = .ok () w' ∧
      w'.frame env.frame = (w.frame env.frame).put name ⟨v, none⟩ ∧
      w'.frames.size = w.frames.size ∧ ∀ id, id ≠ env.frame → w'.frame id = w.frame id := by
  refine ⟨w.bind env.frame name ⟨v, none⟩, rfl, ?_, ?_, fun id hid => ?_⟩
  · rw [World.frame_bind, if_pos ⟨rfl, h⟩]
  · exact Array.size_modify
  · rw [World.frame_bind, if_neg fun e => hid e.1]

mutual

/-- **What destructuring adds to a frame is what the pattern binds**, and no other frame is written. -/
theorem binds_of_destructure {env : Env} (pattern v : Value) {w w' : World}
    (hf : env.frame < w.frames.size) (h : destructure env pattern v w = .ok () w') :
    Binds pattern v (w.frame env.frame) (w'.frame env.frame) ∧
      w'.frames.size = w.frames.size ∧ ∀ id, id ≠ env.frame → w'.frame id = w.frame id := by
  match pattern with
  | .symbol id name =>
    obtain ⟨w₁, h₁, hframe, hrest⟩ := frame_define hf name v
    unfold destructure at h
    rw [h₁] at h
    cases h
    unfold Binds
    exact ⟨hframe, hrest⟩
  | .seq .vector node items =>
    unfold destructure at h
    cases hp : parts? v with
    | none =>
      simp only [hp] at h
      obtain ⟨_, _, _, h⟩ := bind_eq_ok h
      obtain ⟨_, _, _, h⟩ := bind_eq_ok h
      exact absurd h fail_ne_ok
    | some parts =>
      simp only [hp] at h
      obtain ⟨hb, hrest⟩ := binds_of_destructureItems items hf h
      unfold Binds
      exact ⟨⟨parts, hp, hb⟩, hrest⟩
  | .seq .list _ _ | .nil | .bool _ | .num _ | .text _ | .keyword _ | .map _ _ | .builtin _ _ _
  | .closure _ _ _ _ _ _ | .atom _ =>
    unfold destructure at h
    obtain ⟨_, _, _, h⟩ := bind_eq_ok h
    exact absurd h fail_ne_ok

/-- `binds_of_destructure` for the elements of a vector. -/
theorem binds_of_destructureItems {env : Env} {whole : Value} {wanted got : Nat} {values : List Value}
    (items : List Value) {w w' : World} (hf : env.frame < w.frames.size)
    (h : destructureItems env whole wanted got values items w = .ok () w') :
    BindsEach items values (w.frame env.frame) (w'.frame env.frame) ∧
      w'.frames.size = w.frames.size ∧ ∀ id, id ≠ env.frame → w'.frame id = w.frame id := by
  match items with
  | [] =>
    unfold destructureItems at h
    split at h
    · rename_i he
      cases h
      unfold BindsEach
      exact ⟨⟨List.isEmpty_iff.mp he, rfl⟩, rfl, fun _ _ => rfl⟩
    · exact absurd h fail_ne_ok
  | item :: rest =>
    unfold destructureItems at h
    unfold BindsEach
    split at h
    · rename_i hr
      rw [if_pos hr]
      match rest with
      | [] =>
        obtain ⟨_, _, _, h⟩ := bind_eq_ok h
        exact absurd h fail_ne_ok
      | last :: _ =>
        dsimp only at h
        rw [bind_of_eq_ok (newVector_eq values w)] at h
        have hf' : env.frame < { w with nextId := w.nextId + 1 }.frames.size := hf
        obtain ⟨hb, hrest⟩ := binds_of_destructure last _ hf' h
        exact ⟨⟨w.nextId, hb⟩, hrest⟩
    · rename_i hr
      rw [if_neg hr]
      match values with
      | [] => exact absurd h fail_ne_ok
      | v :: vs =>
        obtain ⟨_, w₁, h₁, h₂⟩ := bind_eq_ok h
        obtain ⟨hb, hsize, hother⟩ := binds_of_destructure item v hf h₁
        obtain ⟨hbs, hsize', hother'⟩ := binds_of_destructureItems rest (hsize ▸ hf) h₂
        refine ⟨⟨w₁.frame env.frame, hb, hbs⟩, hsize'.trans hsize, fun id hid => ?_⟩
        rw [hother' id hid, hother id hid]

end

/-- A pattern that binds a vector binds every vector of the same elements. -/
theorem binds_vector {pattern : Value} {node node' : Node} {values : List Value} {frame frame' : Frame}
    (h : Binds pattern (.seq .vector node values) frame frame') :
    ∃ frame'', Binds pattern (.seq .vector node' values) frame frame'' := by
  match pattern with
  | .symbol id name => exact ⟨_, by unfold Binds; rfl⟩
  | .seq .vector n items =>
    unfold Binds at h
    refine ⟨frame', ?_⟩
    unfold Binds
    exact h
  | .seq .list _ _ | .nil | .bool _ | .num _ | .text _ | .keyword _ | .map _ _ | .builtin _ _ _
  | .closure _ _ _ _ _ _ | .atom _ =>
    unfold Binds at h
    exact h.elim

mutual

/-- Destructuring succeeds in every world if the pattern binds the value. -/
theorem destructure_of_binds {env : Env} (pattern : Value) {v : Value} {frame frame' : Frame} {w : World}
    (hf : env.frame < w.frames.size) (h : Binds pattern v frame frame') :
    ∃ w', destructure env pattern v w = .ok () w' ∧ w'.frames.size = w.frames.size := by
  match pattern with
  | .symbol id name =>
    obtain ⟨w₁, h₁, -, hsize, -⟩ := frame_define hf name v
    unfold destructure
    exact ⟨w₁, h₁, hsize⟩
  | .seq .vector node items =>
    unfold Binds at h
    obtain ⟨parts, hp, h⟩ := h
    unfold destructure
    simp only [hp]
    exact destructureItems_of_binds items hf h
  | .seq .list _ _ | .nil | .bool _ | .num _ | .text _ | .keyword _ | .map _ _ | .builtin _ _ _
  | .closure _ _ _ _ _ _ | .atom _ =>
    unfold Binds at h
    exact h.elim

/-- `destructure_of_binds` for the elements of a vector. -/
theorem destructureItems_of_binds {env : Env} {whole : Value} {wanted got : Nat} {values : List Value}
    (items : List Value) {frame frame' : Frame} {w : World} (hf : env.frame < w.frames.size)
    (h : BindsEach items values frame frame') :
    ∃ w', destructureItems env whole wanted got values items w = .ok () w' ∧
      w'.frames.size = w.frames.size := by
  match items with
  | [] =>
    unfold BindsEach at h
    unfold destructureItems
    rw [if_pos (List.isEmpty_iff.mpr h.1)]
    exact ⟨w, rfl, rfl⟩
  | item :: rest =>
    unfold BindsEach at h
    unfold destructureItems
    split
    · rename_i hr
      rw [if_pos hr] at h
      match rest with
      | [] => exact h.elim
      | last :: _ =>
        obtain ⟨id, h⟩ := h
        obtain ⟨frame'', h'⟩ := @binds_vector last _ (.bare w.nextId) _ _ _ h
        dsimp only
        rw [bind_of_eq_ok (newVector_eq values w)]
        have hf' : env.frame < { w with nextId := w.nextId + 1 }.frames.size := hf
        exact destructure_of_binds last hf' h'
    · rename_i hr
      rw [if_neg hr] at h
      match values with
      | [] => exact h.elim
      | v :: vs =>
        obtain ⟨middle, hb, hbs⟩ := h
        obtain ⟨w₁, h₁, hsize⟩ := @destructure_of_binds env item v _ _ w hf hb
        obtain ⟨w₂, h₂, hsize'⟩ := @destructureItems_of_binds env whole wanted got vs rest _ _ w₁ (hsize ▸ hf) hbs
        refine ⟨w₂, ?_, hsize'.trans hsize⟩
        dsimp only
        rw [bind_of_eq_ok h₁, h₂]

end

end EditableLisp.Pattern
