import EditableLisp.Proofs.MirroredFunctions

/-!
# Calls in worlds that mirror each other

What the rules of calls are made of does the same in a world and in its mirror image: recordings of lookups, as
far as they are compared (`sim_finishRecording`), templates, kept expansions, the binding of parameters and
the making of closures.
-/

namespace EditableLisp

variable {α β : Type} [Renamed α] [Renamed β] {m : Mirror} {w w' : World}

instance : Renamed Call := ⟨fun ρ call => ⟨rename ρ call.node, rename ρ call.items⟩⟩

theorem Call.toValue_rename (ρ : Renaming) (call : Call) : (rename ρ call).toValue = rename ρ call.toValue :=
  (rename_seq ρ .list call.node call.items).symm

/-! ## Recordings -/

theorem Lookup.firsts_rename (ρ : Renaming) (reads : List Lookup) :
    firsts (rename ρ reads) = rename ρ (firsts reads) := by
  induction reads with
  | nil => rfl
  | cons l rest ih =>
    rw [rename_cons]
    unfold firsts
    rw [ih, rename_cons, rename_list, rename_list, List.filter_map]
    rfl

theorem firstLookups_rename (ρ : Renaming) (reads : List Lookup) :
    firstLookups (rename ρ reads) = rename ρ (firstLookups reads) := by
  rw [firstLookups_eq_firsts, firstLookups_eq_firsts, Lookup.firsts_rename]

namespace Recorded

variable {ρ : Renaming} {base : Nat} {recordings recordings' : List (List Lookup)}

/-- Lookups that go to the innermost recording on both sides. -/
theorem modifyHead (h : Recorded ρ base recordings recordings') (reads : List Lookup) :
    Recorded ρ base (recordings.modifyHead (reads ++ ·)) (recordings'.modifyHead (rename ρ reads ++ ·)) := by
  obtain ⟨inner, outer, outer', rfl, rfl, houter, houter'⟩ := h
  cases inner with
  | nil => exact ⟨[], _, _, rfl, rfl, (List.length_modifyHead ..).trans houter, (List.length_modifyHead ..).trans houter'⟩
  | cons top rest =>
    have htop : rename ρ reads ++ rename ρ top = rename ρ (reads ++ top) := (rename_append ρ reads top).symm
    refine ⟨(reads ++ top) :: rest, outer, outer', rfl, ?_, houter, houter'⟩
    show (rename ρ reads ++ rename ρ top) :: (rename ρ rest ++ outer') = _
    rw [htop]
    rfl

theorem length_eq (h : Recorded ρ base recordings recordings') : recordings'.length = recordings.length := by
  obtain ⟨inner, outer, outer', rfl, rfl, houter, houter'⟩ := h
  rw [List.length_append, List.length_append, length_rename, houter, houter']

/-- Dropping inner recordings down to one that is compared. -/
theorem drop (h : Recorded ρ base recordings recordings') {n : Nat} (hn : n + base < recordings.length) :
    ∃ top rest rest', recordings.drop n = top :: rest ∧ recordings'.drop n = rename ρ top :: rest' ∧
      Recorded ρ base rest rest' := by
  obtain ⟨inner, outer, outer', rfl, rfl, houter, houter'⟩ := h
  rw [List.length_append, houter] at hn
  cases e : inner.drop n with
  | nil =>
    have hlength := congrArg List.length e
    rw [List.length_drop, List.length_nil] at hlength
    omega
  | cons top rest =>
    have e' : (rename ρ inner).drop n = rename ρ top :: rename ρ rest := by
      rw [rename_list, ← List.map_drop, e]
      rfl
    refine ⟨top, rest ++ outer, rename ρ rest ++ outer', ?_, ?_, rest, outer, outer', rfl, rfl, houter, houter'⟩
    · rw [List.drop_append_of_le_length (by omega), e]
      rfl
    · rw [List.drop_append_of_le_length (by rw [length_rename]; omega), e']
      rfl

end Recorded

theorem grows_recordAll (reads : List Lookup) : Grows (liftM (recordAll reads)) := by
  intro w
  show _ <+: (recordAll reads w).2.keywords.toList
  rw [recordAll_snd]

theorem sim_recordAll (reads : List Lookup) :
    Sim m (liftM (recordAll reads)) (liftM (recordAll (rename m.ρ reads))) := by
  refine .change (grows_recordAll reads) fun w w' hw _ => ⟨rfl, ?_⟩
  rw [recordAll_snd, recordAll_snd, ← rename_reverse]
  exact { hw with recordings := hw.recordings.modifyHead reads.reverse }

theorem sim_record (env : Env) (name : String) (v : Value) :
    Sim m (liftM (record env name v)) (liftM (record env name (rename m.ρ v))) := by
  rw [record_eq_recordAll, record_eq_recordAll]
  exact sim_recordAll [⟨env, name, v⟩]

/-- An act that goes on inside a new recording. -/
theorem Sim.recording {f f' : Nat → Act α} (hgrows : ∀ depth, Grows (f depth))
    (h : ∀ depth, m.base ≤ depth → Sim m (f depth) (f' depth)) :
    Sim m (liftM startRecording >>= f) (liftM startRecording >>= f') where
  grows := by
    have hstart : Grows (liftM startRecording) := fun _ => List.prefix_rfl
    exact hstart.bind hgrows
  matched w w' hw hfits := by
    have hstarted : Mirrors m { w with recordings := [] :: w.recordings }
        { w' with recordings := [] :: w'.recordings } := { hw with
      recordings := by
        obtain ⟨inner, outer, outer', h, h', houter, houter'⟩ := hw.recordings
        exact ⟨[] :: inner, outer, outer', by rw [h]; rfl, by rw [h']; rfl, houter, houter'⟩ }
    have hbase : m.base ≤ w.recordings.length := by
      obtain ⟨inner, outer, outer', h, -, houter, -⟩ := hw.recordings
      rw [h, List.length_append, houter]
      exact Nat.le_add_left _ _
    show Matched m (f w.recordings.length _) (f' w'.recordings.length _)
    rw [hw.recordings.length_eq]
    exact (h _ hbase).matched _ _ hstarted hfits

theorem grows_finishRecording (depth : Nat) : Grows (liftM (finishRecording depth)) := by
  intro w
  show _ <+: (finishRecording depth w).2.keywords.toList
  rcases finishRecording_cases depth w with h | ⟨top, rest, h, hdepth⟩
  · rw [h]
  · rw [finishRecording_of_abandon h hdepth]

theorem finishRecording_of_short {depth : Nat} (h : w.recordings.length ≤ depth) :
    finishRecording depth w = ([], w) := by
  have hall : (w.abandon (depth + 1)).recordings = w.recordings := by
    unfold World.abandon
    rw [Nat.sub_eq_zero_of_le (by omega)]
    rfl
  rcases finishRecording_cases depth w with hnone | ⟨top, rest, hsome, hdepth⟩
  · exact hnone
  · rw [hall] at hsome
    rw [hsome, List.length_cons] at h
    omega

theorem sim_finishRecording {depth : Nat} (hdepth : m.base ≤ depth) :
    Sim m (liftM (finishRecording depth)) (liftM (finishRecording depth)) := by
  refine .change (grows_finishRecording depth) fun w w' hw _ => ?_
  have hlength := hw.recordings.length_eq
  rcases Nat.lt_or_ge depth w.recordings.length with hlt | hge
  · obtain ⟨top, rest, rest', h, h', hrest⟩ := hw.recordings.drop
      (n := w.recordings.length - (depth + 1)) (by omega)
    have htop : (w.abandon (depth + 1)).recordings = top :: rest := h
    have htop' : (w'.abandon (depth + 1)).recordings = rename m.ρ top :: rest' := by
      show w'.recordings.drop (w'.recordings.length - (depth + 1)) = _
      rw [hlength, h']
    have hinner : depth ≤ rest.length := by
      have := congrArg List.length h
      rw [List.length_drop, List.length_cons] at this
      omega
    have hinner' : depth ≤ rest'.length := by
      rw [hrest.length_eq]
      exact hinner
    rw [finishRecording_of_abandon htop hinner, finishRecording_of_abandon htop' hinner', ← rename_reverse,
      firstLookups_rename, ← rename_reverse]
    exact ⟨rfl, { hw with recordings := hrest.modifyHead _ }⟩
  · rw [finishRecording_of_short hge, finishRecording_of_short (hlength.trans_le hge)]
    exact ⟨rfl, hw⟩

theorem Sim.attempt {act act' : Act α} (h : Sim m act act') :
    Sim m (liftM (attempt act)) (liftM (attempt act')) where
  grows w := by
    have hgrows := h.grows w
    show _ <+: (EditableLisp.attempt act w).2.keywords.toList
    unfold EditableLisp.attempt
    unfold worldAfter at hgrows
    cases e : act w <;> rw [e] at hgrows <;> exact hgrows
  matched w w' hw hfits := by
    have hm := h.matched w w' hw
    show (EditableLisp.attempt act' w').1 = rename m.ρ (EditableLisp.attempt act w).1 ∧ Mirrors m _ _
    unfold worldAfter at hm
    have hfits : m.fits (EditableLisp.attempt act w).2.keywords := hfits
    unfold EditableLisp.attempt at hfits ⊢
    cases e : act w with
    | ok a w₁ =>
      rw [e] at hm hfits
      obtain ⟨w₁', e', hw₁⟩ := (hm hfits).of_ok
      rw [e']
      exact ⟨rfl, hw₁⟩
    | error b w₁ =>
      rw [e] at hm hfits
      obtain ⟨w₁', e', hw₁⟩ := (hm hfits).of_error
      rw [e']
      exact ⟨rfl, hw₁⟩

/-- An act with a recording of its own. -/
theorem Sim.recorded {act act' : Act α} (h : Sim m act act') (hquiet : Quiet act) :
    Sim m (recorded act) (recorded act') where
  grows := hquiet.recorded.grows
  matched := by
    refine (Sim.recording (fun depth => ?_) fun depth hdepth => h.attempt.bind fun r =>
      (sim_finishRecording hdepth).bind fun reads => ?_).matched
    · refine h.attempt.grows.bind fun r => (grows_finishRecording depth).bind fun reads => ?_
      cases r with
      | ok a => exact (Quiet.pure _).grows
      | error e => exact (Quiet.throw _).grows
    · cases r with
      | ok a => exact .pure rfl
      | error e => exact .throw e

/-! ## Templates -/

theorem sim_copyGaps (node : Node) (count : Nat) :
    Sim m (liftM (copyGaps node count)) (liftM (copyGaps (rename m.ρ node) count)) := by
  refine .change (quiet_copyGaps node count).grows fun w w' hw _ => ⟨?_, hw.fresh⟩
  show (⟨w'.nextId, node.style, w'.gaps? (rename m.ρ node) count, none⟩ : Node) =
    rename m.ρ (⟨w.nextId, node.style, w.gaps? node count, none⟩ : Node)
  rw [hw.gaps?, hw.node_nextId]
  rfl

section templates

variable {frame : Frame}

theorem sim_substituteItems {items : List Value}
    (h : ∀ v ∈ items, Sim m (liftM (substitute frame v)) (liftM (substitute (rename m.ρ frame) (rename m.ρ v))))
    (done : Array Value) : Sim m (liftM (substituteItems frame done items))
      (liftM (substituteItems (rename m.ρ frame) (rename m.ρ done) (rename m.ρ items))) := by
  induction items generalizing done with
  | nil => exact .pure (toList_rename m.ρ done)
  | cons v rest ih =>
    obtain ⟨hv, hrest⟩ := List.forall_mem_cons.mp h
    rw [rename_cons]
    unfold substituteItems
    rw [lift_bind, lift_bind]
    refine hv.bind fun v' => ?_
    rw [← rename_push]
    exact ih hrest _

theorem sim_substituteEntries {entries : Entries}
    (h : ∀ e ∈ entries, Sim m (liftM (substitute frame e.2))
      (liftM (substitute (rename m.ρ frame) (rename m.ρ e.2))))
    (done : Array (Key × Value)) : Sim m (liftM (substituteEntries frame done entries))
      (liftM (substituteEntries (rename m.ρ frame) (rename m.ρ done) (rename m.ρ entries))) := by
  induction entries generalizing done with
  | nil => exact .pure (toList_rename m.ρ done)
  | cons e rest ih =>
    obtain ⟨he, hrest⟩ := List.forall_mem_cons.mp h
    obtain ⟨k, v⟩ := e
    rw [rename_cons, rename_pair]
    unfold substituteEntries
    rw [lift_bind, lift_bind]
    refine Sim.bind he fun v' => ?_
    rw [← rename_pair, ← rename_push]
    exact ih hrest _

theorem sim_substitute (frame : Frame) (v : Value) :
    Sim m (liftM (substitute frame v)) (liftM (substitute (rename m.ρ frame) (rename m.ρ v))) := by
  induction v using Value.ofParts with
  | symbol id name =>
    refine .pure ?_
    rw [Frame.get?_rename]
    cases frame.get? name <;> rfl
  | seq shape node items ih =>
    have hitems := sim_substituteItems ih #[]
    rw [rename_empty] at hitems
    rw [rename_seq]
    unfold substitute
    rw [lift_bind, lift_bind]
    refine hitems.bind fun vs => ?_
    rw [lift_bind, lift_bind, length_rename]
    exact (sim_copyGaps node items.length).bind fun _ => .pure (rename_seq ..).symm
  | map node entries ih =>
    have hentries := sim_substituteEntries ih #[]
    rw [rename_empty] at hentries
    rw [rename_map]
    unfold substitute
    rw [lift_bind, lift_bind]
    refine hentries.bind fun es => ?_
    rw [lift_bind, lift_bind, length_rename]
    exact (sim_copyGaps node _).bind fun _ => .pure (rename_map ..).symm
  | _ => exact .pure rfl

end templates

theorem sim_instantiate (template : Value) (env : Env) :
    Sim m (liftM (instantiate template env)) (liftM (instantiate (rename m.ρ template) env)) := by
  have hgrows := (quiet_instantiate template env).grows
  unfold instantiate at hgrows ⊢
  rw [lift_bind] at hgrows ⊢
  rw [lift_bind]
  refine .lift_get hgrows fun w w' hw => ?_
  rw [hw.frame]
  exact sim_substitute _ template

/-! ## Kept expansions -/

theorem Mirrors.stillHolds (hw : Mirrors m w w') (l : Lookup) : (rename m.ρ l).stillHolds w' = l.stillHolds w := by
  unfold Lookup.stillHolds
  have henv : (rename m.ρ l).env = l.env := rfl
  have hname : (rename m.ρ l).name = l.name := rfl
  have hvalue : (rename m.ρ l).value = rename m.ρ l.value := rfl
  rw [henv, hname, hvalue, hw.lookup?]
  cases w.lookup? l.env l.name with
  | none => rfl
  | some v =>
    show ((rename m.ρ v).identical _ || (rename m.ρ v).equal _) = (v.identical _ || v.equal _)
    rw [Value.identical_rename, Value.equal_rename]

theorem Mirrors.servesFor (hw : Mirrors m w w') (e : Expansion) (f : Value) :
    (rename m.ρ e).servesFor w' (rename m.ρ f) = e.servesFor w f := by
  have hcurrent : (rename m.ρ e).isCurrent w' = e.isCurrent w := by
    cases e with
    | constant maker form reads =>
      show (rename m.ρ reads).all (Lookup.stillHolds w') = reads.all (Lookup.stillHolds w)
      rw [rename_list, List.all_map]
      exact congrArg reads.all (funext hw.stillHolds)
    | _ => rfl
  have hmaker : (rename m.ρ e).maker?.any (Value.identical (rename m.ρ f)) = e.maker?.any (Value.identical f) := by
    cases e with
    | unchanged => rfl
    | _ => exact Value.identical_rename m.ρ f _
  unfold Expansion.servesFor
  rw [hcurrent, hmaker]

namespace Machine

theorem grows_servedForm? (call : Call) (f : Value) : Grows (liftM (servedForm? call f)) := by
  unfold servedForm?
  rw [lift_bind]
  refine Quiet.lift_get.grows.bind fun w => ?_
  split
  · split
    · split
      · rw [lift_bind]
        exact (grows_recordAll _).bind fun _ => (Quiet.pure _).grows
      · rw [lift_bind]
        exact (quiet_instantiate _ _).grows.bind fun _ => (Quiet.pure _).grows
      · exact (Quiet.pure _).grows
    · exact (Quiet.pure _).grows
  · exact (Quiet.pure _).grows

theorem sim_servedForm? (call : Call) (f : Value) :
    Sim m (liftM (servedForm? call f)) (liftM (servedForm? (rename m.ρ call) (rename m.ρ f))) := by
  have hgrows := grows_servedForm? call f
  unfold servedForm? at hgrows ⊢
  rw [lift_bind] at hgrows ⊢
  rw [lift_bind]
  refine .lift_get hgrows fun w w' hw => ?_
  have hkept : w'.expansions.get? (rename m.ρ call).node.id = rename m.ρ (w.expansions.get? call.node.id) :=
    hw.expansions call.node.id
  rw [hkept]
  cases w.expansions.get? call.node.id with
  | none => exact .pure rfl
  | some e =>
    have hserves := hw.servesFor e f
    dsimp only [rename_option, Option.map_some]
    rw [hserves]
    cases e.servesFor w f with
    | false => exact .pure rfl
    | true =>
      cases e with
      | constant maker form reads =>
        show Sim m (liftM (recordAll reads >>= fun _ => Pure.pure (some form)))
          (liftM (recordAll (rename m.ρ reads) >>= fun _ => Pure.pure (some (rename m.ρ form))))
        rw [lift_bind, lift_bind]
        exact (sim_recordAll reads).bind fun _ => .pure rfl
      | bound maker template env =>
        show Sim m (liftM (instantiate template env >>= fun form => Pure.pure (some form)))
          (liftM (instantiate (rename m.ρ template) env >>= fun form => Pure.pure (some form)))
        rw [lift_bind, lift_bind]
        exact (sim_instantiate template env).bind fun _ => .pure rfl
      | unchanged => exact .pure rfl

theorem grows_markOrdinary (call : Call) : Grows (liftM (markOrdinary call)) := by
  unfold markOrdinary
  rw [lift_bind]
  refine Quiet.lift_get.grows.bind fun w => ?_
  split
  · exact (Quiet.pure _).grows
  · exact fun _ => List.prefix_rfl

theorem sim_markOrdinary (call : Call) :
    Sim m (liftM (markOrdinary call)) (liftM (markOrdinary (rename m.ρ call))) := by
  have hgrows := grows_markOrdinary call
  unfold markOrdinary at hgrows ⊢
  rw [lift_bind] at hgrows ⊢
  rw [lift_bind]
  refine .lift_get hgrows fun w w' hw => ?_
  have hkept : w'.expansions.get? (rename m.ρ call).node.id = rename m.ρ (w.expansions.get? call.node.id) :=
    hw.expansions call.node.id
  rw [hkept]
  have hmark : Sim m (liftM (setExpansion call.node.id .unchanged))
    (liftM (setExpansion (rename m.ρ call).node.id .unchanged)) := sim_setExpansion call.node.id .unchanged
  cases w.expansions.get? call.node.id with
  | none => exact hmark
  | some e =>
    cases e with
    | unchanged => exact .pure rfl
    | _ => exact hmark

end Machine

/-! ## Patterns and closures -/

namespace Pattern

theorem isRest_rename (ρ : Renaming) (v : Value) : isRest (rename ρ v) = isRest v := by
  cases v <;> rfl

mutual

theorem sim_validate (pattern : Value) : Sim m (validate pattern) (validate (rename m.ρ pattern)) := by
  match pattern with
  | .symbol _ name => exact .ite (.fail _) (.pure rfl)
  | .seq .vector node items =>
    have h := sim_validateItems (.seq .vector node items) items
    rw [rename_seq] at h ⊢
    exact h
  | .seq .list _ _ | .nil | .bool _ | .num _ | .text _ | .keyword _ | .map _ _ | .builtin _ _ _
  | .closure _ _ _ _ _ _ | .atom _ => exact sim_failShowing .badPattern _

theorem sim_validateItems (whole : Value) (items : List Value) :
    Sim m (validateItems whole items) (validateItems (rename m.ρ whole) (rename m.ρ items)) := by
  match items with
  | [] =>
    unfold validateItems
    exact .pure rfl
  | item :: rest =>
    rw [rename_cons]
    unfold validateItems
    rw [isRest_rename]
    refine .ite ?_ ((sim_validate item).bind fun _ => sim_validateItems whole rest)
    match rest with
    | [last] => exact sim_validate last
    | [] | _ :: _ :: _ => exact sim_failShowing .restPlacement whole

end

mutual

theorem sim_destructure (env : Env) (pattern value : Value) :
    Sim m (destructure env pattern value) (destructure env (rename m.ρ pattern) (rename m.ρ value)) := by
  match pattern with
  | .symbol _ name => exact sim_define env name value
  | .seq .vector node items =>
    have hitems := fun parts : List Value =>
      sim_destructureItems env (.seq .vector node items) items.length parts.length parts items
    rw [rename_seq] at hitems ⊢
    have hmismatch : Sim m
        (do let shown ← print value
            fail (.indestructible shown (← print (.seq .vector node items))) : Act Unit)
        (do let shown ← print (rename m.ρ value)
            fail (.indestructible shown (← print (.seq .vector (rename m.ρ node) (rename m.ρ items))))) := by
      rw [← rename_seq]
      exact Numeric.sim_failShowingTwo .indestructible value _
    cases value with
    | nil =>
      have h := hitems []
      unfold destructure
      rw [length_rename]
      exact h
    | seq shape node' parts =>
      have h := hitems parts
      rw [rename_seq]
      unfold destructure
      dsimp only [parts?]
      rw [length_rename, length_rename]
      exact h
    | _ => exact hmismatch
  | .seq .list _ _ | .nil | .bool _ | .num _ | .text _ | .keyword _ | .map _ _ | .builtin _ _ _
  | .closure _ _ _ _ _ _ | .atom _ => exact sim_failShowing .badPattern _

theorem sim_destructureItems (env : Env) (whole : Value) (wanted got : Nat) (values items : List Value) :
    Sim m (destructureItems env whole wanted got values items)
      (destructureItems env (rename m.ρ whole) wanted got (rename m.ρ values) (rename m.ρ items)) := by
  match items with
  | [] =>
    unfold destructureItems
    rw [isEmpty_rename]
    exact .ite (.pure rfl) (.fail _)
  | item :: rest =>
    rw [rename_cons]
    unfold destructureItems
    rw [isRest_rename]
    refine .ite ?_ ?_
    · match rest with
      | last :: _ => exact (sim_newVector values).bind fun v => sim_destructure env last v
      | [] => exact sim_failShowing .restAlone whole
    · cases values with
      | nil => exact .fail _
      | cons v vs =>
        exact (sim_destructure env item v).bind fun _ => sim_destructureItems env whole wanted got vs rest

end

end Pattern

namespace Machine

theorem sim_enter (env : Env) (params : Value) (args : List Value) :
    Sim m (enter env params args) (enter env (rename m.ρ params) (rename m.ρ args)) := by
  refine (sim_newChild env).bind fun frame => (sim_newVector args).bind fun v => ?_
  exact (Pattern.sim_destructure frame params v).bind fun _ => .pure rfl

theorem sim_joinBody (forms : List Value) :
    Sim m (liftM (joinBody forms)) (liftM (joinBody (rename m.ρ forms))) := by
  match forms with
  | [] | [_] => exact .pure rfl
  | form :: next :: rest =>
    rw [rename_cons, rename_cons]
    unfold joinBody
    rw [lift_bind, lift_bind]
    exact (sim_newSymbol "do").bind fun head => sim_newList (head :: form :: next :: rest)

theorem sim_makeClosure (params : Value) (body : List Value) (env : Env) (kind : ClosureKind) :
    Sim m (makeClosure params body env kind) (makeClosure (rename m.ρ params) (rename m.ρ body) env kind) := by
  have hmake : Sim m
      (do Pattern.validate params
          let form ← joinBody body
          return Value.closure (← freshId) kind params form env .nil)
      (do Pattern.validate (rename m.ρ params)
          let form ← joinBody (rename m.ρ body)
          return Value.closure (← freshId) kind (rename m.ρ params) form env .nil) :=
    (Pattern.sim_validate params).bind fun _ => (sim_joinBody body).bind fun form => by
      exact Sim.fresh fun id => .pure rfl
  cases params with
  | seq shape node items =>
    rw [rename_seq] at hmake ⊢
    cases shape with
    | vector => exact hmake
    | list =>
      have h := sim_failShowing (m := m) (α := Value) .paramsNotVector (.seq .list node items)
      rw [rename_seq] at h
      exact h
  | _ => exact sim_failShowing .paramsNotVector _

theorem sim_onlyArgument (name : String) (call : Call) :
    Sim m (onlyArgument name call) (onlyArgument name (rename m.ρ call)) := by
  obtain ⟨node, items⟩ := call
  have hfail : Sim m (fail (.oneArgument name (items.length - 1)) : Act Value)
      (fail (.oneArgument name ((rename m.ρ items).length - 1))) := by
    rw [length_rename]
    exact .fail _
  match items with
  | [_, form] => exact .pure rfl
  | [] | [_] | _ :: _ :: _ :: _ => exact hfail

theorem sim_spliced? (item : Value) : Sim m (spliced? item) (spliced? (rename m.ρ item)) := by
  cases item with
  | seq shape node items =>
    rw [rename_seq]
    cases shape with
    | vector => exact .pure rfl
    | list =>
      unfold spliced?
      dsimp only
      rw [Value.headName?_rename]
      refine .ite ?_ (.pure rfl)
      match items with
      | [_, form] => exact .pure rfl
      | [] | [_] | _ :: _ :: _ :: _ => exact .fail _
  | _ => exact .pure rfl

end Machine

end EditableLisp
