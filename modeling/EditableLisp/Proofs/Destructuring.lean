import Mathlib.Data.List.Forall2
import EditableLisp.Proofs.Binding

/-!
# Exact destructuring

A valid pattern can be bound to a value exactly if the value has its shape, and then each of its names stands for
the part at its place (**`Pattern.destructure_exact`**).

* `Fits` says what the shape is: a symbol takes anything, a vector of patterns takes as many parts, and the pattern
  after `&` takes a vector of the parts that are left.
* `Takes` lists the names of a pattern with their parts from left to right, so that the binding of a name is the last
  one in the list.

`Binds` comes between them and `destructure`: it writes what `Takes` lists (`takes_of_binds`, `binds_of_takes`). A
pattern that cannot be bound fails with a fault of its own kind, whether it is valid or not (`destructure_fault`).
-/

namespace EditableLisp.Pattern

/-- A value has the shape of a pattern. -/
inductive Fits : Value → Value → Prop where
  | symbol {id : NodeId} {name : String} {v : Value} : Fits (.symbol id name) v
  | vector {node : Node} {items parts : List Value} {v : Value} : (∀ item ∈ items, isRest item = false) →
      parts? v = some parts → List.Forall₂ Fits items parts → Fits (.seq .vector node items) v
  | rest {node node' : Node} {before first left : List Value} {marker last v : Value} :
      (∀ item ∈ before, isRest item = false) → isRest marker = true → parts? v = some (first ++ left) →
      List.Forall₂ Fits before first → Fits last (.seq .vector node' left) →
      Fits (.seq .vector node (before ++ [marker, last])) v

mutual

/-- The names of a pattern with the parts of a value that they stand for, from left to right. -/
inductive Takes : Value → Value → List (String × Value) → Prop where
  | symbol {id : NodeId} {name : String} {v : Value} : Takes (.symbol id name) v [(name, v)]
  | vector {node : Node} {items parts : List Value} {v : Value} {taken : List (String × Value)} :
      parts? v = some parts → TakesEach items parts taken → Takes (.seq .vector node items) v taken

/-- `Takes` for patterns and values in turn. The pattern after `&` takes a new vector of what is left. -/
inductive TakesEach : List Value → List Value → List (String × Value) → Prop where
  | nil : TakesEach [] [] []
  | cons {item v : Value} {items values : List Value} {taken others : List (String × Value)} :
      isRest item = false → Takes item v taken → TakesEach items values others →
      TakesEach (item :: items) (v :: values) (taken ++ others)
  | rest {marker last : Value} {values : List Value} {id : NodeId} {taken : List (String × Value)} :
      isRest marker = true → Takes last (.seq .vector (.bare id) values) taken →
      TakesEach [marker, last] values taken

end

mutual

/-- The names of the symbols of a pattern other than `&`, from left to right. -/
def symbols : Value → List String
  | .symbol _ name => if name == "&" then [] else [name]
  | .seq .vector _ items => symbolsEach items
  | _ => []

/-- The names of the symbols of some patterns. -/
def symbolsEach : List Value → List String
  | [] => []
  | item :: rest => symbols item ++ symbolsEach rest

end

/-! ## Shapes -/

section Shapes

variable {item marker v : Value} {items rest values : List Value} {node : Node}

/-- The elements of a vector have the shapes of patterns, up to `&` if there is one. -/
def FitsEach (items values : List Value) : Prop :=
  (∀ item ∈ items, isRest item = false) ∧ List.Forall₂ Fits items values ∨
  ∃ before marker last first left node, items = before ++ [marker, last] ∧ values = first ++ left ∧
    (∀ item ∈ before, isRest item = false) ∧ isRest marker = true ∧ List.Forall₂ Fits before first ∧
    Fits last (.seq .vector node left)

theorem fits_vector_iff :
    Fits (.seq .vector node items) v ↔ ∃ parts, parts? v = some parts ∧ FitsEach items parts := by
  constructor
  · intro h
    cases h with
    | vector hplain hparts heach => exact ⟨_, hparts, .inl ⟨hplain, heach⟩⟩
    | rest hplain hmarker hparts heach hlast =>
      exact ⟨_, hparts, .inr ⟨_, _, _, _, _, _, rfl, rfl, hplain, hmarker, heach, hlast⟩⟩
  · rintro ⟨parts, hparts, ⟨hplain, heach⟩ | ⟨before, marker, last, first, left, node', rfl, rfl, h⟩⟩
    · exact .vector hplain hparts heach
    · obtain ⟨hplain, hmarker, heach, hlast⟩ := h
      exact .rest hplain hmarker hparts heach hlast

theorem fitsEach_nil : FitsEach [] values ↔ values = [] := by
  constructor
  · rintro (⟨-, heach⟩ | ⟨before, marker, last, -, -, -, hitems, -⟩)
    · exact List.forall₂_nil_left_iff.mp heach
    · exact absurd hitems.symm (List.append_ne_nil_of_right_ne_nil before (List.cons_ne_nil marker [last]))
  · rintro rfl
    exact .inl ⟨nofun, .nil⟩

theorem fitsEach_cons (h : isRest item = false) :
    FitsEach (item :: rest) values ↔ ∃ v vs, values = v :: vs ∧ Fits item v ∧ FitsEach rest vs := by
  constructor
  · rintro (⟨hplain, heach⟩ | ⟨before, marker, last, first, left, node, hitems, rfl, hrest⟩)
    · obtain ⟨v, vs, hv, hvs, rfl⟩ := List.forall₂_cons_left_iff.mp heach
      exact ⟨v, vs, rfl, hv, .inl ⟨(List.forall_mem_cons.mp hplain).2, hvs⟩⟩
    · obtain ⟨hplain, hmarker, heach, hlast⟩ := hrest
      cases before with
      | nil =>
        cases hitems
        rw [h] at hmarker
        cases hmarker
      | cons item' before =>
        cases hitems
        obtain ⟨v, vs, hv, hvs, rfl⟩ := List.forall₂_cons_left_iff.mp heach
        exact ⟨v, vs ++ left, rfl, hv, .inr ⟨before, marker, last, vs, left, node, rfl, rfl,
          (List.forall_mem_cons.mp hplain).2, hmarker, hvs, hlast⟩⟩
  · rintro ⟨v, vs, rfl, hv, ⟨hplain, heach⟩ | ⟨before, marker, last, first, left, node, rfl, rfl, hrest⟩⟩
    · exact .inl ⟨List.forall_mem_cons.mpr ⟨h, hplain⟩, .cons hv heach⟩
    · obtain ⟨hplain, hmarker, heach, hlast⟩ := hrest
      exact .inr ⟨item :: before, marker, last, v :: first, left, node, rfl, rfl,
        List.forall_mem_cons.mpr ⟨h, hplain⟩, hmarker, .cons hv heach, hlast⟩

theorem fitsEach_marker (h : isRest marker = true) :
    FitsEach (marker :: rest) values ↔ ∃ last node, rest = [last] ∧ Fits last (.seq .vector node values) := by
  have hnot : isRest marker ≠ false := fun hplain => Bool.noConfusion (h.symm.trans hplain)
  constructor
  · rintro (⟨hplain, -⟩ | ⟨before, marker', last, first, left, node, hitems, rfl, hplain, -, heach, hlast⟩)
    · exact absurd (hplain marker List.mem_cons_self) hnot
    · cases before with
      | nil =>
        cases hitems
        cases heach
        exact ⟨last, node, rfl, hlast⟩
      | cons item before =>
        cases hitems
        exact absurd (hplain marker List.mem_cons_self) hnot
  · rintro ⟨last, node, rfl, hlast⟩
    exact .inr ⟨[], marker, last, [], values, node, rfl, rfl, nofun, h, .nil, hlast⟩

/-- Vectors of the same elements have the same shapes. -/
theorem Fits.of_vector {pattern : Value} {node node' : Node} (h : Fits pattern (.seq .vector node values)) :
    Fits pattern (.seq .vector node' values) := by
  cases h with
  | symbol => exact .symbol
  | vector hplain hparts heach => exact .vector hplain hparts heach
  | rest hplain hmarker hparts heach hlast => exact .rest hplain hmarker hparts heach hlast

end Shapes

mutual

/-- What the names of a pattern stand for has the shape of the pattern. -/
theorem Takes.fits {pattern v : Value} {taken : List (String × Value)} (h : Takes pattern v taken) :
    Fits pattern v := by
  match h with
  | .symbol => exact .symbol
  | .vector hparts heach => exact fits_vector_iff.mpr ⟨_, hparts, heach.fitsEach⟩

/-- `Takes.fits` for patterns in turn. -/
theorem TakesEach.fitsEach {items values : List Value} {taken : List (String × Value)}
    (h : TakesEach items values taken) : FitsEach items values := by
  match h with
  | .nil => exact fitsEach_nil.mpr rfl
  | .cons hitem hv hvs => exact (fitsEach_cons hitem).mpr ⟨_, _, rfl, hv.fits, hvs.fitsEach⟩
  | .rest hmarker hlast => exact (fitsEach_marker hmarker).mpr ⟨_, _, rfl, hlast.fits⟩

end

mutual

/-- The names of a pattern stand for parts of each value of its shape. -/
theorem Fits.exists_takes (pattern : Value) {v : Value} (h : Fits pattern v) : ∃ taken, Takes pattern v taken := by
  match pattern with
  | .symbol _ name => exact ⟨[(name, v)], .symbol⟩
  | .seq .vector _ items =>
    obtain ⟨parts, hparts, heach⟩ := fits_vector_iff.mp h
    obtain ⟨taken, htaken⟩ := FitsEach.exists_takesEach items heach
    exact ⟨taken, .vector hparts htaken⟩
  | .seq .list _ _ | .nil | .bool _ | .num _ | .text _ | .keyword _ | .map _ _ | .builtin _ _ _
  | .closure _ _ _ _ _ _ | .atom _ => cases h

/-- `Fits.exists_takes` for patterns in turn. -/
theorem FitsEach.exists_takesEach (items : List Value) {values : List Value} (h : FitsEach items values) :
    ∃ taken, TakesEach items values taken := by
  match items with
  | [] =>
    obtain rfl := fitsEach_nil.mp h
    exact ⟨[], .nil⟩
  | item :: rest =>
    cases hitem : isRest item with
    | false =>
      obtain ⟨v, vs, rfl, hv, hvs⟩ := (fitsEach_cons hitem).mp h
      obtain ⟨taken, htaken⟩ := Fits.exists_takes item hv
      obtain ⟨others, hothers⟩ := FitsEach.exists_takesEach rest hvs
      exact ⟨taken ++ others, .cons hitem htaken hothers⟩
    | true =>
      obtain ⟨last, node, hrest, hlast⟩ := (fitsEach_marker hitem).mp h
      match rest, hrest with
      | [last'], hrest =>
        cases hrest
        have hlast' : Fits last (.seq .vector (.bare 0) values) := hlast.of_vector
        obtain ⟨taken, htaken⟩ := Fits.exists_takes last hlast'
        exact ⟨taken, .rest hitem htaken⟩

end

/-! ## Writing the parts -/

/-- A frame with parts written under their names, the first one first. -/
def putEach (frame : Frame) (taken : List (String × Value)) : Frame :=
  taken.foldl (fun frame e => frame.put e.1 ⟨e.2, none⟩) frame

section Writing

variable {frame : Frame} {name : String} {taken others : List (String × Value)}

theorem putEach_append : putEach frame (taken ++ others) = putEach (putEach frame taken) others :=
  List.foldl_append

theorem get?_putEach_of_notMem (h : name ∉ taken.map Prod.fst) :
    (putEach frame taken).get? name = frame.get? name := by
  induction taken generalizing frame with
  | nil => rfl
  | cons e taken ih =>
    rw [List.map_cons, List.mem_cons, not_or] at h
    show (putEach (frame.put e.1 ⟨e.2, none⟩) taken).get? name = frame.get? name
    rw [ih h.2, Frame.get?_put, if_neg h.1]

/-- The last part that was written under a name is found under it. -/
theorem get?_putEach_of_last {part : Value} (h : name ∉ others.map Prod.fst) :
    (putEach frame (taken ++ (name, part) :: others)).get? name = some ⟨part, none⟩ := by
  rw [putEach_append]
  show (putEach ((putEach frame taken).put name ⟨part, none⟩) others).get? name = _
  rw [get?_putEach_of_notMem h, Frame.get?_put, if_pos rfl]

theorem isSome_get?_putEach :
    ((putEach frame taken).get? name).isSome ↔ name ∈ taken.map Prod.fst ∨ (frame.get? name).isSome := by
  induction taken generalizing frame with
  | nil => exact (or_iff_right List.not_mem_nil).symm
  | cons e taken ih =>
    show ((putEach (frame.put e.1 ⟨e.2, none⟩) taken).get? name).isSome ↔ _
    rw [ih, Frame.get?_put, List.map_cons, List.mem_cons]
    by_cases hname : name = e.1
    · simp [hname]
    · simp [hname]

end Writing

mutual

/-- A pattern binds the parts that its names stand for. -/
theorem binds_of_takes {pattern v : Value} {taken : List (String × Value)} (h : Takes pattern v taken) (frame : Frame) :
    Binds pattern v frame (putEach frame taken) := by
  match h with
  | .symbol =>
    unfold Binds
    rfl
  | .vector hparts heach =>
    unfold Binds
    exact ⟨_, hparts, bindsEach_of_takesEach heach frame⟩

/-- `binds_of_takes` for patterns in turn. -/
theorem bindsEach_of_takesEach {items values : List Value} {taken : List (String × Value)}
    (h : TakesEach items values taken) (frame : Frame) : BindsEach items values frame (putEach frame taken) := by
  match h with
  | .nil =>
    unfold BindsEach
    exact ⟨rfl, rfl⟩
  | .cons hitem hv hvs =>
    unfold BindsEach
    rw [if_neg (Bool.not_eq_true _ ▸ hitem), putEach_append]
    exact ⟨_, binds_of_takes hv frame, bindsEach_of_takesEach hvs _⟩
  | .rest hmarker hlast =>
    unfold BindsEach
    rw [if_pos hmarker]
    exact ⟨_, binds_of_takes hlast frame⟩

end

/-- The symbol `&` names nothing. -/
theorem symbols_of_isRest {marker : Value} (h : isRest marker = true) : symbols marker = [] := by
  unfold isRest at h
  split at h
  · rw [symbols, if_pos h]
  · cases h

mutual

/-- What a valid pattern binds are parts, one for each of its symbols. -/
theorem takes_of_binds (pattern : Value) {v : Value} {frame frame' : Frame} {w w' : World}
    (hvalid : validate pattern w = .ok () w') (h : Binds pattern v frame frame') :
    ∃ taken, Takes pattern v taken ∧ taken.map Prod.fst = symbols pattern ∧ frame' = putEach frame taken := by
  match pattern with
  | .symbol id name =>
    unfold Binds at h
    unfold validate at hvalid
    split at hvalid
    · exact absurd hvalid fail_ne_ok
    · rename_i hname
      refine ⟨[(name, v)], .symbol, ?_, h⟩
      rw [symbols, if_neg hname]
      rfl
  | .seq .vector node items =>
    unfold Binds at h
    unfold validate at hvalid
    obtain ⟨parts, hparts, heach⟩ := h
    obtain ⟨taken, htaken, hnames, hframe⟩ := takesEach_of_bindsEach items hvalid heach
    exact ⟨taken, .vector hparts htaken, hnames.trans (by rw [symbols]), hframe⟩
  | .seq .list _ _ | .nil | .bool _ | .num _ | .text _ | .keyword _ | .map _ _ | .builtin _ _ _
  | .closure _ _ _ _ _ _ | .atom _ =>
    unfold Binds at h
    exact h.elim

/-- `takes_of_binds` for patterns in turn. -/
theorem takesEach_of_bindsEach (items : List Value) {whole : Value} {values : List Value} {frame frame' : Frame}
    {w w' : World} (hvalid : validateItems whole items w = .ok () w') (h : BindsEach items values frame frame') :
    ∃ taken, TakesEach items values taken ∧ taken.map Prod.fst = symbolsEach items ∧
      frame' = putEach frame taken := by
  match items with
  | [] =>
    unfold BindsEach at h
    obtain ⟨rfl, rfl⟩ := h
    exact ⟨[], .nil, rfl, rfl⟩
  | item :: rest =>
    unfold BindsEach at h
    unfold validateItems at hvalid
    cases hitem : isRest item with
    | false =>
      rw [hitem] at h hvalid
      obtain ⟨_, w₁, hvalidItem, hvalidRest⟩ := bind_eq_ok hvalid
      match values with
      | [] => exact h.elim
      | v :: vs =>
        obtain ⟨middle, hbinds, heach⟩ := h
        obtain ⟨taken, htaken, hnames, rfl⟩ := takes_of_binds item hvalidItem hbinds
        obtain ⟨others, hothers, hnames', rfl⟩ := takesEach_of_bindsEach rest hvalidRest heach
        refine ⟨taken ++ others, .cons hitem htaken hothers, ?_, putEach_append.symm⟩
        rw [symbolsEach, List.map_append, hnames, hnames']
    | true =>
      rw [hitem] at h hvalid
      match rest with
      | [] => exact h.elim
      | [last] =>
        obtain ⟨id, hbinds⟩ := h
        obtain ⟨taken, htaken, hnames, hframe⟩ := takes_of_binds last hvalid hbinds
        refine ⟨taken, .rest hitem htaken, ?_, hframe⟩
        rw [symbolsEach, symbols_of_isRest hitem, symbolsEach, symbolsEach, List.append_nil, hnames]
        rfl
      | _ :: _ :: _ =>
        obtain ⟨_, _, _, hfail⟩ := bind_eq_ok hvalid
        exact absurd hfail fail_ne_ok

end

/-! ## Failures -/

/-- An act fails with faults of binding alone. -/
def FailsBinding (act : Act Unit) : Prop :=
  ∀ w w' halt, act w = .error halt w' → ∃ fault, halt = .fault fault ∧ fault.kind = .binding

namespace FailsBinding

theorem fail {fault : Fault} (h : fault.kind = .binding) : FailsBinding (EditableLisp.fail fault) := by
  rintro w w' halt ⟨⟩
  exact ⟨fault, rfl, h⟩

theorem lift (m : Change Unit) : FailsBinding (liftM m) := nofun

/-- A change cannot fail, so what comes after it decides. -/
theorem lift_bind {α : Type} {m : Change α} {f : α → Act Unit} (h : ∀ a, FailsBinding (f a)) :
    FailsBinding (liftM m >>= f) := fun w => h (m w).1 (m w).2

theorem bind {m : Act Unit} {f : Unit → Act Unit} (hm : FailsBinding m) (hf : FailsBinding (f ())) :
    FailsBinding (m >>= f) := by
  intro w w' halt h
  cases hfirst : m w with
  | ok _ w₁ =>
    rw [bind_of_eq_ok hfirst] at h
    exact hf w₁ w' halt h
  | error halt' w₁ =>
    rw [bind_of_eq_error hfirst] at h
    cases h
    exact hm w w' halt hfirst

end FailsBinding

mutual

/-- Where a pattern cannot be bound, valid or not, the fault is one of binding. -/
theorem destructure_fault (env : Env) (pattern v : Value) : FailsBinding (destructure env pattern v) := by
  match pattern with
  | .symbol _ name =>
    unfold destructure
    exact .lift _
  | .seq .vector node items =>
    unfold destructure
    cases parts? v with
    | none => exact .lift_bind fun _ => .lift_bind fun _ => .fail rfl
    | some parts => exact destructureItems_fault env items
  | .seq .list _ _ | .nil | .bool _ | .num _ | .text _ | .keyword _ | .map _ _ | .builtin _ _ _
  | .closure _ _ _ _ _ _ | .atom _ =>
    unfold destructure
    exact .lift_bind fun _ => .fail rfl

/-- `destructure_fault` for the elements of a vector. -/
theorem destructureItems_fault (env : Env) (items : List Value) {whole : Value} {wanted got : Nat}
    {values : List Value} : FailsBinding (destructureItems env whole wanted got values items) := by
  match items with
  | [] =>
    unfold destructureItems
    split
    · exact .lift (pure ())
    · exact .fail rfl
  | item :: rest =>
    unfold destructureItems
    split
    · match rest with
      | [] => exact .lift_bind fun _ => .fail rfl
      | last :: _ => exact .lift_bind fun left => destructure_fault env last left
    · match values with
      | [] => exact .fail rfl
      | v :: vs => exact .bind (destructure_fault env item v) (destructureItems_fault env rest)

end

/-! ## Exactness -/

/-- **Binding a valid pattern is exact destructuring.** In a frame without bindings it succeeds exactly if the value
has the shape of the pattern. The frame then has the names of the symbols of the pattern, each with the last of the
parts that the name stands for. If it fails, the fault is one of binding. -/
theorem destructure_exact (pattern v : Value) {env : Env} {w w₀ w₀' : World}
    (hvalid : validate pattern w₀ = .ok () w₀') (henv : env.frame < w.frames.size) (hfresh : w.frame env.frame = []) :
    ((∃ w', destructure env pattern v w = .ok () w') ↔ Fits pattern v) ∧
    (∀ w', destructure env pattern v w = .ok () w' →
      (∀ name, w'.hasOwn env name ↔ name ∈ symbols pattern) ∧
      ∃ taken, Takes pattern v taken ∧ taken.map Prod.fst = symbols pattern ∧
        ∀ before name part others, taken = before ++ (name, part) :: others → name ∉ others.map Prod.fst →
          w'.own? env name = some part) ∧
    ∀ w' halt, destructure env pattern v w = .error halt w' →
      ∃ fault, halt = .fault fault ∧ fault.kind = .binding := by
  have htakes : ∀ w', destructure env pattern v w = .ok () w' → ∃ taken, Takes pattern v taken ∧
      taken.map Prod.fst = symbols pattern ∧ w'.frame env.frame = putEach [] taken := by
    intro w' hok
    obtain ⟨hbinds, -, -⟩ := binds_of_destructure pattern v henv hok
    rw [hfresh] at hbinds
    exact takes_of_binds pattern hvalid hbinds
  refine ⟨⟨fun ⟨w', hok⟩ => ?_, fun hfits => ?_⟩, fun w' hok => ?_, destructure_fault env pattern v w⟩
  · obtain ⟨taken, htaken, -, -⟩ := htakes w' hok
    exact htaken.fits
  · obtain ⟨taken, htaken⟩ := hfits.exists_takes
    obtain ⟨w', hok, -⟩ := destructure_of_binds pattern henv (binds_of_takes htaken [])
    exact ⟨w', hok⟩
  · obtain ⟨taken, htaken, hnames, hframe⟩ := htakes w' hok
    refine ⟨fun name => ?_, taken, htaken, hnames, fun before name part others heq hlast => ?_⟩
    · rw [World.hasOwn, World.own?_eq, Option.isSome_map, hframe, isSome_get?_putEach, hnames]
      exact or_iff_left nofun
    · rw [World.own?_eq, hframe, heq, get?_putEach_of_last hlast]
      rfl

/-- The pattern `[a [b & a] & c]` takes three or more parts of which the second has one or more; `a` is the rest of
the second. -/
theorem destructure_exact_nested :
    let child := (newChild .global World.initial).1
    let world := (newChild .global World.initial).2
    let pattern : Value := .seq .vector (.bare 0) [.symbol 0 "a",
      .seq .vector (.bare 1) [.symbol 1 "b", .symbol 2 "&", .symbol 3 "a"], .symbol 4 "&", .symbol 5 "c"]
    let parts : Value := .seq .list (.bare 2) [.nil, .seq .vector (.bare 3) [.bool true, .bool false], .text "t"]
    validate pattern world = .ok () world ∧
    (∃ w', destructure child pattern parts world = .ok () w' ∧
      (∀ name, w'.hasOwn child name ↔ name ∈ ["a", "b", "a", "c"]) ∧
      w'.own? child "a" = some (.seq .vector (.bare 0) [.bool false])) ∧
    ∃ fault w', destructure child pattern .nil world = .error (.fault fault) w' ∧ fault.kind = .binding := by
  intro child world pattern parts
  have hvalid : validate pattern world = .ok () world := rfl
  have henv : child.frame < world.frames.size := by decide
  have hexact := fun v => @destructure_exact pattern v child world _ _ hvalid henv rfl
  have hinner : Fits (.seq .vector (.bare 1) [.symbol 1 "b", .symbol 2 "&", .symbol 3 "a"])
      (.seq .vector (.bare 3) [.bool true, .bool false]) :=
    fits_vector_iff.mpr ⟨_, rfl, (fitsEach_cons rfl).mpr
      ⟨_, _, rfl, .symbol, (fitsEach_marker rfl).mpr ⟨_, .bare 0, rfl, .symbol⟩⟩⟩
  have hfits : Fits pattern parts :=
    fits_vector_iff.mpr ⟨_, rfl, (fitsEach_cons rfl).mpr ⟨_, _, rfl, .symbol, (fitsEach_cons rfl).mpr
      ⟨_, _, rfl, hinner, (fitsEach_marker rfl).mpr ⟨_, .bare 0, rfl, .symbol⟩⟩⟩⟩
  have hnot : ¬ Fits pattern .nil := by
    intro h
    obtain ⟨_, hparts, heach⟩ := fits_vector_iff.mp h
    cases hparts
    obtain ⟨v, vs, hnil, -⟩ := (fitsEach_cons rfl).mp heach
    cases hnil
  refine ⟨hvalid, ?_, ?_⟩
  · obtain ⟨w', hok⟩ := (hexact parts).1.mpr hfits
    refine ⟨w', hok, ((hexact parts).2.1 w' hok).1, ?_⟩
    cases hok
    rfl
  · cases hrun : destructure child pattern .nil world with
    | ok _ w' => exact absurd ((hexact .nil).1.mp ⟨w', hrun⟩) hnot
    | error halt w' =>
      obtain ⟨fault, rfl, hkind⟩ := (hexact .nil).2.2 w' halt hrun
      exact ⟨fault, w', rfl, hkind⟩

end EditableLisp.Pattern
