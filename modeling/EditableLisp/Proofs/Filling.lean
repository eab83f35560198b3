import EditableLisp.Proofs.Direct
import EditableLisp.Proofs.Templates

/-!
# Forms that only put values together

Names, constants, vectors, maps, and what is quoted, or quasiquoted without splicing. `Value.Asks form names`:
the form is such a form, and these are the names that it asks for, in order. `Value.Fills look form v`: `v`
is what the form comes to if its names have the values that `look` says. Such a form evaluates to what fills
it, writes no frame, and records a lookup of every name that it asks for (`fills_of_eval`).

Two values that fill one form are alike exactly if all names that the form asks for have alike values
(`alike_iff_of_fills`).
-/

namespace EditableLisp

open Registry

namespace Value

/-! ## Names -/

/-- A list headed by `splice-unquote`. -/
def IsSpliced : Value → Prop
  | seq .list _ items => headName? items = some "splice-unquote"
  | _ => False

mutual

/-- A form only puts values together, and asks for these names. -/
def Asks : Value → List String → Prop
  | symbol _ name, ns => ns = [name]
  | seq .vector _ items, ns => AsksEach items ns
  | seq .list node items, ns => node.style ≠ .program ∧ AsksCall items ns
  | map _ entries, ns => (Entries.names entries).Nodup ∧ AsksEntries entries ns
  | _, ns => ns = []

/-- `Asks` for the elements of a list: nothing, or something that is quoted or quasiquoted. -/
def AsksCall : List Value → List String → Prop
  | [], ns => ns = []
  | [head, form], ns => ∃ id name, head = symbol id name ∧
    ((name = "quote" ∧ ns = []) ∨ (name = "quasiquote" ∧ AsksHoles form ns))
  | _, _ => False

/-- `Asks` for several forms. -/
def AsksEach : List Value → List String → Prop
  | [], ns => ns = []
  | form :: rest, ns => ∃ first others, Asks form first ∧ AsksEach rest others ∧ ns = first ++ others

/-- `Asks` for the forms of entries. -/
def AsksEntries : List (Key × Value) → List String → Prop
  | [], ns => ns = []
  | (_, form) :: rest, ns =>
    ∃ first others, Asks form first ∧ AsksEntries rest others ∧ ns = first ++ others

/-- `Asks` for what is quasiquoted: the names in what is headed by `unquote`. -/
def AsksHoles : Value → List String → Prop
  | seq shape _ items, ns =>
    if shape = .list ∧ headName? items = some "unquote" then AsksOnly items ns else AsksHolesEach items ns
  | _, ns => ns = []

/-- `Asks` for the only argument of a list. -/
def AsksOnly : List Value → List String → Prop
  | [_, form], ns => Asks form ns
  | _, _ => False

/-- `AsksHoles` for several forms, none of which is spliced. -/
def AsksHolesEach : List Value → List String → Prop
  | [], ns => ns = []
  | form :: rest, ns => ¬ form.IsSpliced ∧
    ∃ first others, AsksHoles form first ∧ AsksHolesEach rest others ∧ ns = first ++ others

end

/-! ## Values -/

mutual

/-- What a form comes to if its names have these values. -/
def Fills (look : String → Option Value) : Value → Value → Prop
  | symbol _ name, v => look name = some v
  | seq .vector node items, v =>
    if items = [] then v = seq .vector node []
    else ∃ id vs, FillsEach look items vs ∧ v = seq .vector (.bare id) vs
  | seq .list node items, v => if items = [] then v = seq .list node [] else FillsCall look items v
  | map node entries, v =>
    if entries = [] then v = map node []
    else ∃ id es, FillsEntries look entries es ∧ v = map (.bare id) es
  | u, v => v = u

/-- `Fills` for the elements of a list that is quoted or quasiquoted. -/
def FillsCall (look : String → Option Value) : List Value → Value → Prop
  | [head, form], v => ∃ id name, head = symbol id name ∧
    ((name = "quote" ∧ v = form) ∨ (name = "quasiquote" ∧ FillsHoles look form v))
  | _, _ => False

/-- `Fills` for several forms. -/
def FillsEach (look : String → Option Value) : List Value → List Value → Prop
  | [], vs => vs = []
  | form :: rest, vs => ∃ x xs, Fills look form x ∧ FillsEach look rest xs ∧ vs = x :: xs

/-- `Fills` for the forms of entries. -/
def FillsEntries (look : String → Option Value) : List (Key × Value) → List (Key × Value) → Prop
  | [], es => es = []
  | (k, form) :: rest, es => ∃ x xs, Fills look form x ∧ FillsEntries look rest xs ∧ es = (k, x) :: xs

/-- `Fills` for what is quasiquoted. -/
def FillsHoles (look : String → Option Value) : Value → Value → Prop
  | seq shape node items, v =>
    if shape = .list ∧ headName? items = some "unquote" then FillsOnly look items v
    else if items = [] then v = seq shape node []
    else ∃ id vs, FillsHolesEach look items vs ∧ v = seq shape (.bare id) vs
  | u, v => v = u

/-- `Fills` for the only argument of a list. -/
def FillsOnly (look : String → Option Value) : List Value → Value → Prop
  | [_, form], v => Fills look form v
  | _, _ => False

/-- `FillsHoles` for several forms. -/
def FillsHolesEach (look : String → Option Value) : List Value → List Value → Prop
  | [], vs => vs = []
  | form :: rest, vs => ∃ x xs, FillsHoles look form x ∧ FillsHolesEach look rest xs ∧ vs = x :: xs

end

/-! ## Alike values -/

/-- Names that have values both ways have alike ones. -/
def AlikeOn (names : List String) (look look' : String → Option Value) : Prop :=
  ∀ name ∈ names, ∀ u v, look name = some u → look' name = some v → u.Alike v

variable {look look' : String → Option Value}

theorem alikeOn_nil : AlikeOn [] look look' := nofun

theorem alikeOn_append {ns ms : List String} :
    AlikeOn (ns ++ ms) look look' ↔ AlikeOn ns look look' ∧ AlikeOn ms look look' :=
  List.forall_mem_append

mutual

/-- **Two values that fill one form are alike exactly if the names in it have alike values.** -/
theorem alike_iff_of_fills (form : Value) {ns : List String} {u v : Value} (ha : Asks form ns)
    (hu : Fills look form u) (hv : Fills look' form v) : u.Alike v ↔ AlikeOn ns look look' := by
  match form with
  | nil | bool _ | num _ | text _ | keyword _ | builtin _ _ _ | closure _ _ _ _ _ _ | atom _ =>
    unfold Asks at ha
    unfold Fills at hu hv
    rw [ha, hu, hv]
    exact iff_of_true (Alike.refl _) alikeOn_nil
  | symbol id name =>
    unfold Asks at ha
    unfold Fills at hu hv
    rw [ha]
    constructor
    · intro h other ho a b hla hlb
      rw [List.mem_singleton.mp ho] at hla hlb
      rw [hu] at hla
      rw [hv] at hlb
      cases hla
      cases hlb
      exact h
    · exact fun h => h name List.mem_cons_self u v hu hv
  | seq .vector node items =>
    unfold Asks at ha
    unfold Fills at hu hv
    by_cases hne : items = []
    · rw [if_pos hne] at hu hv
      subst hne
      unfold AsksEach at ha
      rw [ha, hu, hv]
      exact iff_of_true (Alike.refl _) alikeOn_nil
    · rw [if_neg hne] at hu hv
      obtain ⟨i, us, hus, rfl⟩ := hu
      obtain ⟨j, vs, hvs, rfl⟩ := hv
      rw [alike_vector_iff]
      exact alikeEach_iff_of_fills items ha hus hvs
  | seq .list node items =>
    unfold Asks at ha
    unfold Fills at hu hv
    by_cases hne : items = []
    · rw [if_pos hne] at hu hv
      subst hne
      have hns := ha.2
      unfold AsksCall at hns
      rw [hns, hu, hv]
      exact iff_of_true (Alike.refl _) alikeOn_nil
    · rw [if_neg hne] at hu hv
      exact alike_iff_of_fillsCall items ha.2 hu hv
  | map node entries =>
    unfold Asks at ha
    unfold Fills at hu hv
    by_cases hne : entries = []
    · rw [if_pos hne] at hu hv
      subst hne
      have hns := ha.2
      unfold AsksEntries at hns
      rw [hns, hu, hv]
      exact iff_of_true (Alike.refl _) alikeOn_nil
    · rw [if_neg hne] at hu hv
      obtain ⟨i, es, hes, rfl⟩ := hu
      obtain ⟨j, fs, hfs, rfl⟩ := hv
      rw [alike_map_iff]
      exact alikeEntries_iff_of_fills entries ha.2 hes hfs
termination_by structural form

theorem alike_iff_of_fillsCall (items : List Value) {ns : List String} {u v : Value}
    (ha : AsksCall items ns) (hu : FillsCall look items u) (hv : FillsCall look' items v) :
    u.Alike v ↔ AlikeOn ns look look' := by
  match items with
  | [] | [_] | _ :: _ :: _ :: _ =>
    unfold FillsCall at hu
    exact hu.elim
  | [head, form] =>
    unfold AsksCall at ha
    unfold FillsCall at hu hv
    obtain ⟨id, name, rfl, ha⟩ := ha
    obtain ⟨_, _, he, hu⟩ := hu
    cases he
    obtain ⟨_, _, he, hv⟩ := hv
    cases he
    rcases ha with ⟨rfl, rfl⟩ | ⟨rfl, ha⟩
    · rcases hu with ⟨-, rfl⟩ | ⟨h, -⟩
      · rcases hv with ⟨-, rfl⟩ | ⟨h, -⟩
        · exact iff_of_true (Alike.refl _) alikeOn_nil
        · exact absurd h (by decide)
      · exact absurd h (by decide)
    · rcases hu with ⟨h, -⟩ | ⟨-, hu⟩
      · exact absurd h (by decide)
      · rcases hv with ⟨h, -⟩ | ⟨-, hv⟩
        · exact absurd h (by decide)
        · exact alike_iff_of_fillsHoles form ha hu hv
termination_by structural items

theorem alikeEach_iff_of_fills (items : List Value) {ns : List String} {us vs : List Value}
    (ha : AsksEach items ns) (hu : FillsEach look items us) (hv : FillsEach look' items vs) :
    AlikeEach us vs ↔ AlikeOn ns look look' := by
  match items with
  | [] =>
    unfold AsksEach at ha
    unfold FillsEach at hu hv
    rw [ha, hu, hv]
    exact iff_of_true (AlikeEach.refl _) alikeOn_nil
  | form :: rest =>
    unfold AsksEach at ha
    unfold FillsEach at hu hv
    obtain ⟨first, others, hfirst, hothers, rfl⟩ := ha
    obtain ⟨x, xs, hx, hxs, rfl⟩ := hu
    obtain ⟨y, ys, hy, hys, rfl⟩ := hv
    rw [alikeEach_cons_iff, alikeOn_append, alike_iff_of_fills form hfirst hx hy,
      alikeEach_iff_of_fills rest hothers hxs hys]
termination_by structural items

theorem alikeEntries_iff_of_fills (entries : List (Key × Value)) {ns : List String}
    {es fs : List (Key × Value)} (ha : AsksEntries entries ns) (hu : FillsEntries look entries es)
    (hv : FillsEntries look' entries fs) : AlikeEntries es fs ↔ AlikeOn ns look look' := by
  match entries with
  | [] =>
    unfold AsksEntries at ha
    unfold FillsEntries at hu hv
    rw [ha, hu, hv]
    exact iff_of_true (AlikeEntries.refl _) alikeOn_nil
  | (k, form) :: rest =>
    unfold AsksEntries at ha
    unfold FillsEntries at hu hv
    obtain ⟨first, others, hfirst, hothers, rfl⟩ := ha
    obtain ⟨x, xs, hx, hxs, rfl⟩ := hu
    obtain ⟨y, ys, hy, hys, rfl⟩ := hv
    rw [alikeEntries_cons_iff, alikeOn_append, alike_iff_of_fills form hfirst hx hy,
      alikeEntries_iff_of_fills rest hothers hxs hys]
termination_by structural entries

theorem alike_iff_of_fillsHoles (form : Value) {ns : List String} {u v : Value} (ha : AsksHoles form ns)
    (hu : FillsHoles look form u) (hv : FillsHoles look' form v) : u.Alike v ↔ AlikeOn ns look look' := by
  match form with
  | nil | bool _ | num _ | text _ | keyword _ | builtin _ _ _ | closure _ _ _ _ _ _ | atom _
  | symbol _ _ | map _ _ =>
    unfold AsksHoles at ha
    unfold FillsHoles at hu hv
    rw [ha, hu, hv]
    exact iff_of_true (Alike.refl _) alikeOn_nil
  | seq shape node items =>
    unfold AsksHoles at ha
    unfold FillsHoles at hu hv
    split at ha
    · rename_i hq
      rw [if_pos hq] at hu hv
      exact alike_iff_of_fillsOnly items ha hu hv
    · rename_i hq
      rw [if_neg hq] at hu hv
      by_cases hne : items = []
      · rw [if_pos hne] at hu hv
        subst hne
        unfold AsksHolesEach at ha
        rw [ha, hu, hv]
        exact iff_of_true (Alike.refl _) alikeOn_nil
      · rw [if_neg hne] at hu hv
        obtain ⟨i, us, hus, rfl⟩ := hu
        obtain ⟨j, vs, hvs, rfl⟩ := hv
        rw [alike_vector_iff]
        exact alikeEach_iff_of_fillsHoles items ha hus hvs
termination_by structural form

theorem alike_iff_of_fillsOnly (items : List Value) {ns : List String} {u v : Value}
    (ha : AsksOnly items ns) (hu : FillsOnly look items u) (hv : FillsOnly look' items v) :
    u.Alike v ↔ AlikeOn ns look look' := by
  match items with
  | [] | [_] | _ :: _ :: _ :: _ =>
    unfold FillsOnly at hu
    exact hu.elim
  | [_, form] =>
    unfold AsksOnly at ha
    unfold FillsOnly at hu hv
    exact alike_iff_of_fills form ha hu hv
termination_by structural items

theorem alikeEach_iff_of_fillsHoles (items : List Value) {ns : List String} {us vs : List Value}
    (ha : AsksHolesEach items ns) (hu : FillsHolesEach look items us) (hv : FillsHolesEach look' items vs) :
    AlikeEach us vs ↔ AlikeOn ns look look' := by
  match items with
  | [] =>
    unfold AsksHolesEach at ha
    unfold FillsHolesEach at hu hv
    rw [ha, hu, hv]
    exact iff_of_true (AlikeEach.refl _) alikeOn_nil
  | form :: rest =>
    unfold AsksHolesEach at ha
    unfold FillsHolesEach at hu hv
    obtain ⟨-, first, others, hfirst, hothers, rfl⟩ := ha
    obtain ⟨x, xs, hx, hxs, rfl⟩ := hu
    obtain ⟨y, ys, hy, hys, rfl⟩ := hv
    rw [alikeEach_cons_iff, alikeOn_append, alike_iff_of_fillsHoles form hfirst hx hy,
      alikeEach_iff_of_fillsHoles rest hothers hxs hys]
termination_by structural items

end

end Value

theorem Value.FillsEntries.names {look : String → Option Value} {entries es : Entries}
    (h : FillsEntries look entries es) : Entries.names es = Entries.names entries := by
  induction entries generalizing es with
  | nil =>
    unfold FillsEntries at h
    rw [h]
  | cons e rest ih =>
    obtain ⟨k, form⟩ := e
    unfold FillsEntries at h
    obtain ⟨x, xs, -, hxs, rfl⟩ := h
    show k.name :: Entries.names xs = k.name :: Entries.names rest
    rw [ih hxs]

/-! ## Evaluation -/

/-- From one world to the other, names were looked up along a chain. No frame was written, and every lookup
was added to the recording at hand. -/
structure Reads (env : Env) (names : List String) (w w' : World) : Prop where
  frames : w'.frames = w.frames
  recorded : ∀ top rest, w.recordings = top :: rest → ∃ reads, w'.recordings = (reads ++ top) :: rest ∧
    reads.map Lookup.name = names.reverse ∧ ∀ l ∈ reads, l.env = env ∧ w.lookup? env l.name = some l.value

namespace Reads

variable {env : Env} {ns ms : List String} {w w₁ w₂ : World}

theorem lookup?_eq (h : Reads env ns w w₁) (env' : Env) : w₁.lookup? env' = w.lookup? env' :=
  funext (World.lookup?_congr fun id _ => World.frame_congr h.frames id)

theorem nothing (hf : w₁.frames = w.frames) (hr : w₁.recordings = w.recordings) : Reads env [] w w₁ where
  frames := hf
  recorded _ _ h := ⟨[], hr.trans h, rfl, nofun⟩

theorem append (h : Reads env ns w w₁) (h' : Reads env ms w₁ w₂) : Reads env (ns ++ ms) w w₂ where
  frames := h'.frames.trans h.frames
  recorded top rest hr := by
    obtain ⟨first, hfirst, hnames, hl⟩ := h.recorded top rest hr
    obtain ⟨second, hsecond, hnames', hl'⟩ := h'.recorded _ _ hfirst
    refine ⟨second ++ first, by rw [hsecond, List.append_assoc], ?_, ?_⟩
    · rw [List.map_append, hnames, hnames', List.reverse_append]
    · refine List.forall_mem_append.mpr ⟨fun l hm => ?_, hl⟩
      rw [← h.lookup?_eq]
      exact hl' l hm

theorem andThen (h : Reads env ns w w₁) (hf : w₂.frames = w₁.frames)
    (hr : w₂.recordings = w₁.recordings) : Reads env ns w w₂ := by
  have h' : Reads env (ns ++ []) w w₂ := h.append (nothing hf hr)
  rw [List.append_nil] at h'
  exact h'

end Reads

/-- Keeping a value writes no frame and records nothing. -/
theorem setResult_same (node v : Value) (w : World) :
    (setResult node v w).2.frames = w.frames ∧ (setResult node v w).2.recordings = w.recordings := by
  unfold setResult
  generalize node.nodeId? = id
  cases id with
  | none => exact ⟨rfl, rfl⟩
  | some id => exact ⟨rfl, rfl⟩

theorem lookup_eq_ok {env : Env} {name : String} {w w' : World} {v : Value}
    (h : lookup env name w = .ok v w') : w' = w ∧ w.lookup? env name = some v := by
  unfold lookup at h
  obtain ⟨w₀, w₁, hget, h⟩ := bind_eq_ok h
  cases hget
  cases hl : w.lookup? env name with
  | none =>
    rw [hl] at h
    cases h
  | some found =>
    rw [hl] at h
    cases h
    exact ⟨rfl, rfl⟩

theorem reads_record {env : Env} {name : String} {w : World} {v : Value}
    (h : w.lookup? env name = some v) : Reads env [name] w (record env name v w).2 := by
  rw [record_eq_recordAll, recordAll_snd]
  refine ⟨rfl, fun top rest hr => ⟨[⟨env, name, v⟩], ?_, rfl, List.forall_mem_singleton.mpr ⟨rfl, h⟩⟩⟩
  rw [hr]
  rfl

namespace Direct

theorem remember_eq_ok {node v : Value} {act : Act Value} {w w' : World}
    (h : remember node act w = .ok v w') :
    ∃ w₁, act w = .ok v w₁ ∧ w'.frames = w₁.frames ∧ w'.recordings = w₁.recordings := by
  unfold remember at h
  obtain ⟨v₁, w₁, hact, h⟩ := bind_eq_ok h
  obtain ⟨hf, hr⟩ := setResult_same node v₁ w₁
  cases h
  exact ⟨w₁, hact, hf, hr⟩

theorem reads_evalSymbol {id : NodeId} {name : String} {env : Env} {w w' : World} {v : Value}
    (h : evalSymbol id name env w = .ok v w') : w.lookup? env name = some v ∧ Reads env [name] w w' := by
  unfold evalSymbol at h
  obtain ⟨v₁, w₁, hlookup, hrest⟩ := bind_eq_ok h
  obtain ⟨rfl, hfound⟩ := lookup_eq_ok hlookup
  let w₂ := (record env name v₁ w₁).2
  let w₃ := (setResult (.symbol id name) v₁ w₂).2
  have h₂ : (liftM (record env name v₁) : Act Unit) w₁ = .ok () w₂ := rfl
  have h₃ : (liftM (setResult (.symbol id name) v₁) : Act Unit) w₂ = .ok () w₃ := rfl
  have hget : (get : Act World) w₃ = .ok w₃ w₃ := rfl
  rw [bind_of_eq_ok h₂, bind_of_eq_ok h₃, bind_of_eq_ok hget] at hrest
  obtain ⟨hf, hr⟩ := setResult_same (.symbol id name) v₁ w₂
  have hkept : Reads env [name] w₁ w₃ := (reads_record hfound).andThen hf hr
  cases hs : w₃.site? env name with
  | none =>
    rw [hs] at hrest
    injection hrest with hv hw
    rw [← hv, ← hw]
    exact ⟨hfound, hkept⟩
  | some site =>
    have hsite : (liftM (setSite id site) : Act Unit) w₃ = .ok () (setSite id site w₃).2 := rfl
    rw [hs] at hrest
    dsimp only at hrest
    rw [bind_of_eq_ok hsite] at hrest
    injection hrest with hv hw
    rw [← hv, ← hw]
    exact ⟨hfound, hkept.andThen rfl rfl⟩

/-! ### Rules -/

section Rules

variable {p : Parts} {env : Env} {node : Node} {items : List Value}

theorem evalForm_vector (h : items ≠ []) : evalForm p (.seq .vector node items) env =
    remember (.seq .vector node items) (do newVector (← evalEach p env items)) := by
  unfold evalForm
  exact if_neg fun he => h (List.isEmpty_iff.mp he)

theorem evalForm_map {entries : Entries} (h : entries ≠ []) : evalForm p (.map node entries) env =
    remember (.map node entries) (do newMap (Entries.ofPairs (← evalEntries p env entries))) := by
  unfold evalForm
  exact if_neg fun he => h (List.isEmpty_iff.mp he)

theorem evalForm_special {id : NodeId} {name : String} {special : Special} (hs : node.style ≠ .program)
    (hn : Special.ofName? name = some special) :
    evalForm p (.seq .list node (.symbol id name :: items)) env =
      remember (.seq .list node (.symbol id name :: items))
        (evalSpecial p special ⟨node, .symbol id name :: items⟩ env) := by
  unfold evalForm
  dsimp only
  rw [if_neg hs]
  unfold Value.headName?
  rw [Option.bind_some, hn]

theorem quasiForm_seq {shape : Shape} (hq : ¬ (shape = .list ∧ Value.headName? items = some "unquote"))
    (h : items ≠ []) :
    quasiForm p (.seq shape node items) env = (do newSeq shape (← quasiEach p env items)) := by
  unfold quasiForm
  dsimp only
  rw [if_neg hq, if_neg fun he => h (List.isEmpty_iff.mp he)]

end Rules

/-! ### What fills a form -/

/-- A form that is not spliced is not taken for one that is. -/
theorem spliced?_eq {item : Value} (hs : ¬ item.IsSpliced) : Machine.spliced? item = pure none := by
  unfold Machine.spliced?
  split
  · exact if_neg hs
  · rfl

mutual

/-- **What a form that only puts values together evaluates to fills it**, and its names are looked up. -/
theorem fills_of_eval {env : Env} (form : Value) {ns : List String} {depth : Nat} {w w' : World} {v : Value}
    (ha : form.Asks ns) (h : (parts depth).eval form env w = .ok v w') :
    form.Fills (w.lookup? env) v ∧ Reads env ns w w' := by
  cases depth with
  | zero => cases h
  | succ depth =>
    have h' : evalForm (parts depth) form env w = .ok v w' := h
    match form with
    | .nil | .bool _ | .num _ | .text _ | .keyword _ | .builtin _ _ _ | .closure _ _ _ _ _ _ | .atom _ =>
      unfold Value.Asks at ha
      unfold Value.Fills
      cases h'
      rw [ha]
      exact ⟨rfl, .nothing rfl rfl⟩
    | .symbol id name =>
      unfold Value.Asks at ha
      unfold Value.Fills
      rw [ha]
      exact reads_evalSymbol h'
    | .seq .vector node items =>
      unfold Value.Asks at ha
      unfold Value.Fills
      by_cases hne : items = []
      · subst hne
        unfold Value.AsksEach at ha
        cases h'
        rw [ha]
        exact ⟨rfl, .nothing rfl rfl⟩
      · rw [evalForm_vector hne] at h'
        rw [if_neg hne]
        obtain ⟨w₁, hact, hf, hr⟩ := remember_eq_ok h'
        obtain ⟨vs, w₂, heach, hnew⟩ := bind_eq_ok hact
        rw [Pattern.newVector_eq] at hnew
        cases hnew
        obtain ⟨hfills, hreads⟩ := fills_of_evalEach items ha heach
        exact ⟨⟨_, vs, hfills, rfl⟩, hreads.andThen hf hr⟩
    | .map node entries =>
      unfold Value.Asks at ha
      unfold Value.Fills
      by_cases hne : entries = []
      · subst hne
        have hns := ha.2
        unfold Value.AsksEntries at hns
        cases h'
        rw [hns]
        exact ⟨rfl, .nothing rfl rfl⟩
      · rw [evalForm_map hne] at h'
        rw [if_neg hne]
        obtain ⟨w₁, hact, hf, hr⟩ := remember_eq_ok h'
        obtain ⟨es, w₂, heach, hnew⟩ := bind_eq_ok hact
        obtain ⟨hfills, hreads⟩ := fills_of_evalEntries entries ha.2 heach
        rw [Entries.ofPairs_of_nodup (hfills.names ▸ ha.1)] at hnew
        cases hnew
        exact ⟨⟨_, es, hfills, rfl⟩, hreads.andThen hf hr⟩
    | .seq .list node items =>
      unfold Value.Asks at ha
      unfold Value.Fills
      match items with
      | [] =>
        have hns := ha.2
        unfold Value.AsksCall at hns
        unfold evalForm at h'
        dsimp only at h'
        rw [if_neg ha.1] at h'
        cases h'
        rw [hns]
        exact ⟨rfl, .nothing rfl rfl⟩
      | [_] | _ :: _ :: _ :: _ =>
        have hns := ha.2
        unfold Value.AsksCall at hns
        exact hns.elim
      | [head, arg] =>
        have hns := ha.2
        unfold Value.AsksCall at hns
        rw [if_neg nofun]
        unfold Value.FillsCall
        obtain ⟨id, name, rfl, hns⟩ := hns
        rcases hns with ⟨rfl, rfl⟩ | ⟨rfl, hns⟩
        · rw [@evalForm_special _ _ _ _ _ _ .quote ha.1 rfl] at h'
          obtain ⟨w₁, hact, hf, hr⟩ := remember_eq_ok h'
          have hquote : Machine.onlyArgument "quote" ⟨node, [.symbol id "quote", arg]⟩ w = .ok v w₁ := hact
          cases hquote
          have hreads : Reads env [] w w := .nothing rfl rfl
          exact ⟨⟨id, "quote", rfl, Or.inl ⟨rfl, rfl⟩⟩, hreads.andThen hf hr⟩
        · rw [@evalForm_special _ _ _ _ _ _ .quasiquote ha.1 rfl] at h'
          obtain ⟨w₁, hact, hf, hr⟩ := remember_eq_ok h'
          have hquasi : (parts depth).quasi arg env w = .ok v w₁ := hact
          obtain ⟨hfills, hreads⟩ := fills_of_quasi arg hns hquasi
          exact ⟨⟨id, "quasiquote", rfl, Or.inr ⟨rfl, hfills⟩⟩, hreads.andThen hf hr⟩
termination_by structural form

theorem fills_of_evalEach {env : Env} (items : List Value) {ns : List String} {depth : Nat} {w w' : World}
    {vs : List Value} (ha : Value.AsksEach items ns) (h : evalEach (parts depth) env items w = .ok vs w') :
    Value.FillsEach (w.lookup? env) items vs ∧ Reads env ns w w' := by
  match items with
  | [] =>
    unfold Value.AsksEach at ha
    unfold Value.FillsEach
    cases h
    rw [ha]
    exact ⟨rfl, .nothing rfl rfl⟩
  | form :: rest =>
    unfold Value.AsksEach at ha
    unfold Value.FillsEach
    obtain ⟨first, others, hfirst, hothers, rfl⟩ := ha
    unfold evalEach at h
    obtain ⟨x, w₁, hx, h⟩ := bind_eq_ok h
    obtain ⟨xs, w₂, hxs, h⟩ := bind_eq_ok h
    cases h
    obtain ⟨hfills, hreads⟩ := fills_of_eval form hfirst hx
    obtain ⟨hfills', hreads'⟩ := fills_of_evalEach rest hothers hxs
    rw [hreads.lookup?_eq] at hfills'
    exact ⟨⟨x, xs, hfills, hfills', rfl⟩, hreads.append hreads'⟩
termination_by structural items

theorem fills_of_evalEntries {env : Env} (entries : Entries) {ns : List String} {depth : Nat}
    {w w' : World} {es : Entries} (ha : Value.AsksEntries entries ns)
    (h : evalEntries (parts depth) env entries w = .ok es w') :
    Value.FillsEntries (w.lookup? env) entries es ∧ Reads env ns w w' := by
  match entries with
  | [] =>
    unfold Value.AsksEntries at ha
    unfold Value.FillsEntries
    cases h
    rw [ha]
    exact ⟨rfl, .nothing rfl rfl⟩
  | (k, form) :: rest =>
    unfold Value.AsksEntries at ha
    unfold Value.FillsEntries
    obtain ⟨first, others, hfirst, hothers, rfl⟩ := ha
    unfold evalEntries at h
    obtain ⟨x, w₁, hx, h⟩ := bind_eq_ok h
    obtain ⟨xs, w₂, hxs, h⟩ := bind_eq_ok h
    cases h
    obtain ⟨hfills, hreads⟩ := fills_of_eval form hfirst hx
    obtain ⟨hfills', hreads'⟩ := fills_of_evalEntries rest hothers hxs
    rw [hreads.lookup?_eq] at hfills'
    exact ⟨⟨x, xs, hfills, hfills', rfl⟩, hreads.append hreads'⟩
termination_by structural entries

theorem fills_of_quasi {env : Env} (form : Value) {ns : List String} {depth : Nat} {w w' : World} {v : Value}
    (ha : form.AsksHoles ns) (h : (parts depth).quasi form env w = .ok v w') :
    form.FillsHoles (w.lookup? env) v ∧ Reads env ns w w' := by
  cases depth with
  | zero => cases h
  | succ depth =>
    have h' : quasiForm (parts depth) form env w = .ok v w' := h
    match form with
    | .nil | .bool _ | .num _ | .text _ | .keyword _ | .builtin _ _ _ | .closure _ _ _ _ _ _ | .atom _
    | .symbol _ _ | .map _ _ =>
      unfold Value.AsksHoles at ha
      unfold Value.FillsHoles
      cases h'
      rw [ha]
      exact ⟨rfl, .nothing rfl rfl⟩
    | .seq shape node items =>
      unfold Value.AsksHoles at ha
      unfold Value.FillsHoles
      by_cases hq : shape = .list ∧ Value.headName? items = some "unquote"
      · rw [if_pos hq] at ha ⊢
        unfold quasiForm at h'
        dsimp only at h'
        rw [if_pos hq] at h'
        match items with
        | [] | [_] | _ :: _ :: _ :: _ =>
          unfold Value.AsksOnly at ha
          exact ha.elim
        | [_, arg] =>
          unfold Value.AsksOnly at ha
          unfold Value.FillsOnly
          exact fills_of_eval arg ha h'
      · rw [if_neg hq] at ha ⊢
        by_cases hne : items = []
        · subst hne
          unfold Value.AsksHolesEach at ha
          unfold quasiForm at h'
          dsimp only at h'
          rw [if_neg hq] at h'
          cases h'
          rw [ha]
          exact ⟨rfl, .nothing rfl rfl⟩
        · rw [quasiForm_seq hq hne] at h'
          rw [if_neg hne]
          obtain ⟨vs, w₁, heach, hnew⟩ := bind_eq_ok h'
          cases hnew
          obtain ⟨hfills, hreads⟩ := fills_of_quasiEach items ha heach
          exact ⟨⟨_, vs, hfills, rfl⟩, hreads.andThen rfl rfl⟩
termination_by structural form

theorem fills_of_quasiEach {env : Env} (items : List Value) {ns : List String} {depth : Nat}
    {w w' : World} {vs : List Value} (ha : Value.AsksHolesEach items ns)
    (h : quasiEach (parts depth) env items w = .ok vs w') :
    Value.FillsHolesEach (w.lookup? env) items vs ∧ Reads env ns w w' := by
  match items with
  | [] =>
    unfold Value.AsksHolesEach at ha
    unfold Value.FillsHolesEach
    cases h
    rw [ha]
    exact ⟨rfl, .nothing rfl rfl⟩
  | form :: rest =>
    unfold Value.AsksHolesEach at ha
    unfold Value.FillsHolesEach
    obtain ⟨hplain, first, others, hfirst, hothers, rfl⟩ := ha
    unfold quasiEach at h
    rw [spliced?_eq hplain, pure_bind] at h
    obtain ⟨x, w₁, hx, h⟩ := bind_eq_ok h
    obtain ⟨xs, w₂, hxs, h⟩ := bind_eq_ok h
    cases h
    obtain ⟨hfills, hreads⟩ := fills_of_quasi form hfirst hx
    obtain ⟨hfills', hreads'⟩ := fills_of_quasiEach rest hothers hxs
    rw [hreads.lookup?_eq] at hfills'
    exact ⟨⟨x, xs, hfills, hfills', rfl⟩, hreads.append hreads'⟩
termination_by structural items

end

end Direct

end EditableLisp
