import EditableLisp.Files
import EditableLisp.Proofs.Lookups
import EditableLisp.Proofs.Registry

/-!
# Acts that keep the world ok

`Keeps R act Q` and `Steady R act Q`, and their rules for every operation on the world: what may be written
where, and what is known of what is read.
-/

namespace EditableLisp

open Registry

variable {α β : Type} {R R' : Registry}

/-- The act keeps the world ok for a larger registry, and its result is as `Q` says. -/
def Keeps (R : Registry) (act : Act α) (Q : Registry → α → Prop) : Prop :=
  ∀ w, R.Ok w → ∃ R', R ≤ R' ∧
    match act w with
    | .ok a w' => R'.Ok w' ∧ Q R' a
    | .error _ w' => R'.Ok w'

/-- The act keeps the world ok and registers nothing, and its result is as `Q` says. -/
def Steady (R : Registry) (act : Act α) (Q : α → Prop) : Prop :=
  ∀ w, R.Ok w →
    match act w with
    | .ok a w' => R.Ok w' ∧ Q a
    | .error _ w' => R.Ok w'

/-! ## Sequences -/

theorem Steady.pure {Q : α → Prop} {a : α} (h : Q a) : Steady R (Pure.pure a) Q := fun _ hw => ⟨hw, h⟩

theorem Steady.fail {Q : α → Prop} (f : Fault) : Steady R (EditableLisp.fail f : Act α) Q := fun _ hw => hw

theorem Steady.throw {Q : α → Prop} (h : Halt) : Steady R (throw h : Act α) Q := fun _ hw => hw

theorem Steady.mono {act : Act α} {P Q : α → Prop} (h : Steady R act P) (hq : ∀ a, P a → Q a) :
    Steady R act Q := by
  intro w hw
  have := h w hw
  split at this
  · exact ⟨this.1, hq _ this.2⟩
  · exact this

theorem Steady.bind {act : Act α} {f : α → Act β} {P : α → Prop} {Q : β → Prop} (h : Steady R act P)
    (hf : ∀ a, P a → Steady R (f a) Q) : Steady R (act >>= f) Q := by
  intro w hw
  have ha := h w hw
  cases e : act w with
  | ok a w₁ =>
    rw [e] at ha
    rw [bind_of_eq_ok e]
    exact hf a ha.2 w₁ ha.1
  | error b w₁ =>
    rw [e] at ha
    rw [bind_of_eq_error e]
    exact ha

theorem Steady.keeps {act : Act α} {P : α → Prop} {Q : Registry → α → Prop} (h : Steady R act P)
    (hq : ∀ a, P a → Q R a) : Keeps R act Q := by
  intro w hw
  refine ⟨R, le_refl R, ?_⟩
  have := h w hw
  split at this
  · exact ⟨this.1, hq _ this.2⟩
  · exact this

theorem Keeps.pure {Q : Registry → α → Prop} {a : α} (h : Q R a) : Keeps R (Pure.pure a) Q :=
  fun _ hw => ⟨R, le_refl R, hw, h⟩

theorem Keeps.fail {Q : Registry → α → Prop} (f : Fault) : Keeps R (EditableLisp.fail f : Act α) Q :=
  fun _ hw => ⟨R, le_refl R, hw⟩

theorem Keeps.throw {Q : Registry → α → Prop} (h : Halt) : Keeps R (throw h : Act α) Q :=
  fun _ hw => ⟨R, le_refl R, hw⟩

theorem Keeps.mono {act : Act α} {P Q : Registry → α → Prop} (h : Keeps R act P)
    (hq : ∀ R' a, R ≤ R' → P R' a → Q R' a) : Keeps R act Q := by
  intro w hw
  obtain ⟨R', hle, ha⟩ := h w hw
  refine ⟨R', hle, ?_⟩
  split at ha
  · exact ⟨ha.1, hq _ _ hle ha.2⟩
  · exact ha

/-- What follows an act may use all that was registered by it. -/
theorem Keeps.bind {act : Act α} {f : α → Act β} {P : Registry → α → Prop} {Q : Registry → β → Prop}
    (h : Keeps R act P) (hf : ∀ R' a, R ≤ R' → P R' a → Keeps R' (f a) Q) : Keeps R (act >>= f) Q := by
  intro w hw
  obtain ⟨R₁, hle, ha⟩ := h w hw
  cases e : act w with
  | ok a w₁ =>
    rw [e] at ha
    rw [bind_of_eq_ok e]
    obtain ⟨R₂, hle', hb⟩ := hf R₁ a hle ha.2 w₁ ha.1
    exact ⟨R₂, le_trans hle hle', hb⟩
  | error b w₁ =>
    rw [e] at ha
    rw [bind_of_eq_error e]
    exact ⟨R₁, hle, ha⟩

theorem Steady.bind_keeps {act : Act α} {f : α → Act β} {P : α → Prop} {Q : Registry → β → Prop}
    (h : Steady R act P) (hf : ∀ a, P a → Keeps R (f a) Q) : Keeps R (act >>= f) Q := by
  intro w hw
  have ha := h w hw
  cases e : act w with
  | ok a w₁ =>
    rw [e] at ha
    rw [bind_of_eq_ok e]
    exact hf a ha.2 w₁ ha.1
  | error b w₁ =>
    rw [e] at ha
    rw [bind_of_eq_error e]
    exact ⟨R, le_refl R, ha⟩

/-- One value that an act comes to, as a list. -/
theorem Keeps.single {act : Act Value} (h : Keeps R act Known) :
    Keeps R (act >>= fun v => Pure.pure [v]) AllKnown :=
  Keeps.bind h fun _ _ _ hv => Keeps.pure (List.forall_mem_singleton.mpr hv)

/-- The world after a change that keeps the world ok. -/
theorem Keeps.exists_ok {change : Change α} {Q : Registry → α → Prop} (h : Keeps R (liftM change) Q)
    {w : World} (hw : R.Ok w) : ∃ R', R ≤ R' ∧ R'.Ok (change w).2 := by
  obtain ⟨R', hle, hok, -⟩ := h w hw
  exact ⟨R', hle, hok⟩

/-- What is added to nothing is all that there is. -/
theorem of_added_to_nothing {P : List α → Prop} {all : List α}
    (h : ∃ added, all = (#[] : Array α).toList ++ added ∧ P added) : P all := by
  obtain ⟨added, rfl, hadded⟩ := h
  exact hadded

/-- A change that keeps every world ok. -/
theorem steady_lift {change : Change α} {Q : α → Prop}
    (h : ∀ w, R.Ok w → R.Ok (change w).2 ∧ Q (change w).1) : Steady R (liftM change) Q := h

/-! ## Reading -/

theorem steady_get : Steady R get fun w => R.Ok w := fun _ hw => ⟨hw, hw⟩

theorem Registry.Holds.known_get? {w : World} (h : R.Holds w) {id : FrameId} {name : String} {b : Binding}
    (hb : (w.frame id).get? name = some b) :
    R.Known b.value ∧ ∀ site, b.site = some site → R.Known site := by
  have mem : ∀ frame : Frame, frame.get? name = some b → ∃ n, (n, b) ∈ frame := by
    intro frame
    induction frame with
    | nil => nofun
    | cons e rest ih =>
      intro he
      unfold Frame.get? at he
      split at he
      · cases he
        exact ⟨e.1, List.mem_cons_self⟩
      · obtain ⟨n, hn⟩ := ih he
        exact ⟨n, List.mem_cons_of_mem _ hn⟩
  obtain ⟨n, hn⟩ := mem _ hb
  exact h.bindings id _ hn

theorem Registry.Holds.known_bindingIn? {w : World} (h : R.Holds w) {ids : List FrameId} {name : String}
    {b : Binding} (hb : w.bindingIn? name ids = some b) :
    R.Known b.value ∧ ∀ site, b.site = some site → R.Known site := by
  induction ids with
  | nil => cases hb
  | cons id rest ih =>
    unfold World.bindingIn? at hb
    split at hb
    · rename_i b' hg
      cases hb
      exact h.known_get? hg
    · exact ih hb

theorem Registry.Holds.known_lookup? {w : World} (h : R.Holds w) {env : Env} {name : String} {v : Value}
    (hv : w.lookup? env name = some v) : R.Known v := by
  rw [World.lookup?_eq] at hv
  obtain ⟨b, hb, rfl⟩ := Option.map_eq_some_iff.mp hv
  exact (h.known_bindingIn? hb).1

theorem Registry.Holds.known_site? {w : World} (h : R.Holds w) {env : Env} {name : String} {v : Value}
    (hv : w.site? env name = some v) : R.Known v := by
  rw [World.site?_eq] at hv
  obtain ⟨b, hb, hs⟩ := Option.bind_eq_some_iff.mp hv
  exact (h.known_bindingIn? hb).2 v hs

theorem Registry.Holds.known_content {w : World} (h : R.Holds w) (id : AtomId) :
    R.Known (w.content id) := by
  unfold World.content
  rw [Array.getD_eq_getD_getElem?]
  cases e : w.atoms[id]? with
  | none => trivial
  | some v => exact h.atoms v (Array.mem_of_getElem? e)

theorem Registry.Holds.known_evaluated {w : World} (h : R.Holds w) {v : Value} (hv : R.Known v) :
    R.Known (w.evaluated v) := by
  unfold World.evaluated
  split
  · exact h.known_content _
  · split
    · rename_i id _
      cases e : w.results.get? id with
      | none => exact hv
      | some r => exact h.results id r e
    · exact hv

theorem steady_lookup (env : Env) (name : String) : Steady R (lookup env name) R.Known := by
  refine Steady.bind steady_get fun w hw => ?_
  split
  · rename_i v hv
    exact Steady.pure (hw.known_lookup? hv)
  · exact Steady.fail _

theorem steady_readContent (id : AtomId) : Steady R (liftM (readContent id)) R.Known :=
  steady_lift fun _ hw => ⟨hw, hw.known_content id⟩

/-! ## Writing -/

theorem steady_setText {id : NodeId} {v : Value} {text : String} (hv : R.node id = some v)
    (hs : v.isStable) (ht : v.isFrozen → ∀ texts, text = v.draw texts true none) :
    Steady R (liftM (setText id text)) fun _ => True := by
  refine steady_lift fun w hw => ⟨{ hw with texts := ?_ }, trivial⟩
  intro other t ho
  have ho' : (w.texts.set id text).get? other = some t := ho
  rw [Table.get?_set] at ho'
  split at ho'
  · rename_i he
    cases ho'
    rw [he]
    exact ⟨v, hv, hs, ht⟩
  · exact hw.texts other t ho'

theorem steady_setSpaced {id : NodeId} {v : Value} (hv : R.node id = some v) (hn : ¬ v.Fits) :
    Steady R (liftM (setSpaced id)) fun _ => True := by
  refine steady_lift fun w hw => ⟨{ hw with spaced := ?_ }, trivial⟩
  intro other ho
  have ho' : ((w.spaced.set id ()).get? other).isSome := ho
  rw [Table.get?_set] at ho'
  split at ho'
  · rename_i he
    rw [he]
    exact ⟨v, hv, hn⟩
  · exact hw.spaced other ho'

theorem steady_setExpansion {id : NodeId} {e : Expansion} (hid : (R.node id).isSome) (h : R.Serves id e) :
    Steady R (liftM (setExpansion id e)) fun _ => True := by
  refine steady_lift fun w hw => ⟨{ hw with expansions := ?_, derived := ?_ }, trivial⟩
  · intro other e' ho
    have ho' : (w.expansions.set id e).get? other = some e' := ho
    rw [Table.get?_set] at ho'
    split at ho'
    · rename_i he
      cases ho'
      rw [he]
      exact h
    · exact hw.expansions other e' ho'
  · intro other ho
    rcases ho with hr | hs | he
    · exact hw.derived other (Or.inl hr)
    · exact hw.derived other (Or.inr (Or.inl hs))
    · exact (Table.has_set he).elim (fun e => e ▸ hid) fun he => hw.derived other (Or.inr (Or.inr he))

theorem steady_setResult {node result : Value} (hn : R.Known node) (h : R.Known result) :
    Steady R (liftM (setResult node result)) fun _ => True := by
  unfold setResult
  split
  · rename_i id hid
    refine steady_lift fun w hw => ⟨{ hw with results := ?_, derived := ?_ }, trivial⟩
    · intro other v ho
      have ho' : (w.results.set id result).get? other = some v := ho
      rw [Table.get?_set] at ho'
      split at ho'
      · cases ho'
        exact h
      · exact hw.results other v ho'
    · intro other ho
      rcases ho with hr | ho
      · exact (Table.has_set hr).elim (fun e => e ▸ hn.isSome_node hid) fun hr => hw.derived other (Or.inl hr)
      · exact hw.derived other (Or.inr ho)
  · exact Steady.pure trivial

theorem steady_setSite {id : NodeId} {name : String} {site : Value} (hid : R.Known (.symbol id name))
    (h : R.Known site) : Steady R (liftM (setSite id site)) fun _ => True := by
  refine steady_lift fun w hw => ⟨{ hw with sites := ?_, derived := ?_ }, trivial⟩
  · intro other v ho
    have ho' : (w.sites.set id site).get? other = some v := ho
    rw [Table.get?_set] at ho'
    split at ho'
    · cases ho'
      exact h
    · exact hw.sites other v ho'
  · intro other ho
    rcases ho with hr | hs | he
    · exact hw.derived other (Or.inl hr)
    · exact (Table.has_set hs).elim (fun e => e ▸ hid.isSome_node rfl)
        fun hs => hw.derived other (Or.inr (Or.inl hs))
    · exact hw.derived other (Or.inr (Or.inr he))

theorem steady_setContent {id : AtomId} {content : Value} (h : R.Known content) :
    Steady R (liftM (setContent id content)) fun _ => True := by
  refine steady_lift fun w hw => ⟨{ hw with atoms := ?_ }, trivial⟩
  intro v hv
  have hv' : v ∈ w.atoms.setIfInBounds id content := hv
  rcases Array.mem_or_eq_of_mem_setIfInBounds hv' with hm | rfl
  · exact hw.atoms v hm
  · exact h

theorem steady_newAtom {content : Value} (h : R.Known content) :
    Steady R (liftM (newAtom content)) R.Known := by
  refine steady_lift fun w hw => ⟨{ hw with atoms := ?_ }, trivial⟩
  intro v hv
  rcases Array.mem_push.mp hv with hm | rfl
  · exact hw.atoms v hm
  · exact h

theorem steady_printLine (line : String) : Steady R (liftM (printLine line)) fun _ => True :=
  steady_lift fun _ hw => ⟨{ hw with }, trivial⟩

/-- Recordings may be replaced by others of known values. -/
theorem Registry.Ok.with_recordings {w : World} (h : R.Ok w) {recordings : List (List Lookup)}
    (hr : ∀ reads ∈ recordings, R.LookupsKnown reads) : R.Ok { w with recordings := recordings } :=
  { h with recordings := hr }

/-- Known lookups may be added to the innermost recording. -/
theorem forall_mem_modifyHead {reads : List Lookup} {recordings : List (List Lookup)}
    (hreads : R.LookupsKnown reads) (h : ∀ recording ∈ recordings, R.LookupsKnown recording) :
    ∀ recording ∈ recordings.modifyHead (reads.reverse ++ ·), R.LookupsKnown recording := by
  cases recordings with
  | nil => exact nofun
  | cons top rest =>
    obtain ⟨htop, hrest⟩ := List.forall_mem_cons.mp h
    refine List.forall_mem_cons.mpr ⟨List.forall_mem_append.mpr ⟨?_, htop⟩, hrest⟩
    exact fun l hl => hreads l (List.mem_reverse.mp hl)

theorem steady_recordAll {reads : List Lookup} (h : R.LookupsKnown reads) :
    Steady R (liftM (recordAll reads)) fun _ => True := by
  refine steady_lift fun w hw => ⟨?_, trivial⟩
  rw [recordAll_snd]
  exact hw.with_recordings (forall_mem_modifyHead h hw.recordings)

theorem steady_record {v : Value} (h : R.Known v) (env : Env) (name : String) :
    Steady R (liftM (record env name v)) fun _ => True := by
  rw [record_eq_recordAll]
  exact steady_recordAll (List.forall_mem_singleton.mpr h)

theorem steady_startRecording : Steady R (liftM startRecording) fun _ => True :=
  steady_lift fun _ hw => ⟨hw.with_recordings (List.forall_mem_cons.mpr ⟨nofun, hw.recordings⟩), trivial⟩

theorem Registry.Ok.abandon {w : World} (h : R.Ok w) (depth : Nat) : R.Ok (w.abandon depth) :=
  h.with_recordings fun reads hr => h.recordings reads (List.mem_of_mem_drop hr)

theorem steady_finishRecording (depth : Nat) :
    Steady R (liftM (finishRecording depth)) R.LookupsKnown := by
  refine steady_lift fun w hw => ?_
  rcases finishRecording_cases depth w with hnone | ⟨top, rest, he, hdepth⟩
  · rw [hnone]
    exact ⟨hw, nofun⟩
  · have hold := (hw.abandon (depth + 1)).recordings
    rw [he] at hold
    obtain ⟨htop, hrest⟩ := List.forall_mem_cons.mp hold
    have hreads : R.LookupsKnown (firstLookups top.reverse) :=
      fun l hl => htop l (List.mem_reverse.mp (mem_of_mem_firstLookups hl))
    rw [finishRecording_of_abandon he hdepth]
    exact ⟨hw.with_recordings (forall_mem_modifyHead hreads hrest), hreads⟩

theorem Keeps.attempt {act : Act α} {Q : Registry → α → Prop} (h : Keeps R act Q) :
    Keeps R (liftM (attempt act)) fun R' r => ∀ a, r = .ok a → Q R' a := by
  intro w hw
  obtain ⟨R', hle, hend⟩ := h w hw
  refine ⟨R', hle, ?_⟩
  show R'.Ok (EditableLisp.attempt act w).2 ∧ ∀ a, (EditableLisp.attempt act w).1 = .ok a → Q R' a
  unfold EditableLisp.attempt
  cases e : act w with
  | ok a w' =>
    rw [e] at hend
    refine ⟨hend.1, ?_⟩
    rintro _ ⟨⟩
    exact hend.2
  | error halt w' =>
    rw [e] at hend
    exact ⟨hend, nofun⟩

/-- An act with a recording of its own keeps what the act keeps, and what it looked up is known. -/
theorem Keeps.recorded {act : Act α} {Q : Registry → α → Prop} (h : Keeps R act Q) :
    Keeps R (recorded act) fun R' p => Q R' p.1 ∧ R'.LookupsKnown p.2 := by
  refine steady_startRecording.bind_keeps fun depth _ => Keeps.bind h.attempt fun R' r _ hr => ?_
  refine (steady_finishRecording depth).bind_keeps fun reads hreads => ?_
  cases r with
  | ok a => exact Keeps.pure ⟨hr a rfl, hreads⟩
  | error halt => exact Keeps.throw halt

theorem steady_readFile (path : String) : Steady R (readFile path) fun _ => True := by
  refine Steady.bind steady_get fun w _ => ?_
  split
  · exact Steady.pure trivial
  · exact Steady.fail _

/-- The files have no part in what is known. -/
theorem Registry.Ok.writeFile {w w' : World} {path text : String} (h : R.Ok w)
    (e : w.writeFile path text = .ok w') : R.Ok w' := by
  unfold World.writeFile at e
  split at e
  · cases e
  · cases e
  · cases e
  · cases e
  · split at e
    · cases e
    · cases e
      exact { h with }

theorem steady_set {w : World} (h : R.Ok w) : Steady R (set w : Act PUnit) fun _ => True :=
  fun _ _ => ⟨h, trivial⟩

theorem steady_writeFile (path text : String) : Steady R (writeFile path text) fun _ => True := by
  refine Steady.bind steady_get fun w hw => ?_
  split
  · rename_i w' e
    exact steady_set (hw.writeFile e)
  · exact Steady.fail _

/-- A frame may be written: it is a scope, or the template's parameters are not bound yet. -/
def Registry.Writable (R : Registry) (id : FrameId) : Prop :=
  R.frame id = some .scope ∨ R.frame id = some (.template none)

theorem Registry.Writable.mono {id : FrameId} (h : R.Writable id) (hle : R ≤ R') : R'.Writable id :=
  h.imp (hle.2.1 _ _) (hle.2.1 _ _)

theorem Registry.InScope.writable {env : Env} (h : R.InScope env) : R.Writable env.frame :=
  Or.inl (h.1 _ List.mem_cons_self)

theorem Registry.Ok.bind {w : World} (h : R.Ok w) {id : FrameId} (hw : R.Writable id) (name : String)
    {b : Binding} (hb : R.Known b.value ∧ ∀ site, b.site = some site → R.Known site) :
    R.Ok (w.bind id name b) where
  toHolds :=
    { h with
      tables := by
        intro other
        rw [World.tables_bind]
        split
        · refine ⟨fun e he => ?_, fun e he => ?_⟩
          · rcases Tables.mem_values_put he with rfl | he
            · exact hb.1
            · exact (h.tables id).1 e he
          · rcases Tables.mem_defs_put he with hsite | he
            · exact hb.2 _ hsite
            · exact (h.tables id).2 e he
        · exact h.tables other }
  nodes := h.nodes
  parts := h.parts
  layouts := h.layouts
  frames other := by
    rw [← h.frames other]
    show other < (w.frames.modify id _).size ↔ _
    rw [Array.size_modify]
  settled other content hc := by
    rw [World.frame_bind]
    split
    · rename_i he
      rw [he.1] at hc
      rcases hw with hw | hw
      · rw [hw] at hc
        cases hc
      · rw [hw] at hc
        cases hc
    · exact h.settled other content hc
  keywords := h.keywords
  names := h.names

theorem steady_define {env : Env} {v : Value} (he : R.Writable env.frame) (hv : R.Known v)
    (name : String) : Steady R (liftM (define env name v)) fun _ => True :=
  steady_lift fun _ hw => ⟨hw.bind (b := ⟨v, none⟩) he name ⟨hv, nofun⟩, trivial⟩

theorem steady_defineAt {env : Env} {v site : Value} (he : R.Writable env.frame) (hv : R.Known v)
    (hs : R.Known site) (name : String) : Steady R (liftM (defineAt env name v site)) fun _ => True := by
  refine steady_lift fun _ hw => ⟨hw.bind (b := ⟨v, some site⟩) he name ⟨hv, ?_⟩, trivial⟩
  intro s e
  cases e
  exact hs

theorem steady_invalidate (v : Value) : Steady R (liftM (invalidate v)) fun _ => True := by
  have erased : ∀ {γ : Type} {t : Table γ} {id other : NodeId} {a : γ},
      (t.erase id).get? other = some a → t.get? other = some a := by
    intro γ t id other a h
    rw [Table.get?_erase] at h
    split at h
    · cases h
    · exact h
  unfold invalidate
  split
  · refine steady_lift fun w hw => ⟨{ hw with results := ?_, sites := ?_, derived := ?_ }, trivial⟩
    · exact fun id v h => hw.results id v (erased h)
    · exact fun id v h => hw.sites id v (erased h)
    · exact fun id h => hw.derived id (h.imp Table.has_of_erase (Or.imp_left Table.has_of_erase))
  · refine steady_lift fun w hw =>
      ⟨{ hw with results := ?_, expansions := ?_, derived := ?_, texts := ?_ }, trivial⟩
    · exact fun id v h => hw.results id v (erased h)
    · exact fun id e h => hw.expansions id e (erased h)
    · exact fun id h => hw.derived id (h.imp Table.has_of_erase (Or.imp_right Table.has_of_erase))
    · exact fun id t h => hw.texts id t (erased h)
  · refine steady_lift fun w hw => ⟨{ hw with results := ?_, derived := ?_, texts := ?_ }, trivial⟩
    · exact fun id v h => hw.results id v (erased h)
    · exact fun id h => hw.derived id (h.imp_left Table.has_of_erase)
    · exact fun id t h => hw.texts id t (erased h)
  · exact Steady.pure trivial

/-! ## Giving out -/

namespace Registry

/-- A registry with a value under an identity. -/
def withNode (R : Registry) (id : NodeId) (v : Value) : Registry :=
  { R with node := fun other => if other = id then some v else R.node other }

/-- A registry with a use of a frame. -/
def withFrame (R : Registry) (id : FrameId) (use : FrameUse) : Registry :=
  { R with frame := fun other => if other = id then some use else R.frame other }

/-- A registry with the name of a keyword. -/
def withKeyword (R : Registry) (i : Nat) (name : String) : Registry :=
  { R with keyword := fun other => if other = i then some name else R.keyword other }

theorem le_withNode {id : NodeId} (h : R.node id = none) (v : Value) : R ≤ R.withNode id v := by
  refine ⟨fun other u hu => ?_, fun _ _ h => h, fun _ _ h => h, rfl⟩
  show (if other = id then some v else R.node other) = some u
  rw [if_neg (fun e => by rw [e, h] at hu; cases hu)]
  exact hu

theorem le_withFrame {id : FrameId} (h : R.frame id = none) (use : FrameUse) :
    R ≤ R.withFrame id use := by
  refine ⟨fun _ _ h => h, fun other u hu => ?_, fun _ _ h => h, rfl⟩
  show (if other = id then some use else R.frame other) = some u
  rw [if_neg (fun e => by rw [e, h] at hu; cases hu)]
  exact hu

theorem le_withKeyword {i : Nat} (h : R.keyword i = none) (name : String) :
    R ≤ R.withKeyword i name := by
  refine ⟨fun _ _ h => h, fun _ _ h => h, fun other u hu => ?_, rfl⟩
  show (if other = i then some name else R.keyword other) = some u
  rw [if_neg (fun e => by rw [e, h] at hu; cases hu)]
  exact hu

theorem Ok.node_nextId {w : World} (h : R.Ok w) : R.node w.nextId = none := by
  have := (not_congr (h.nodes w.nextId)).mp (Nat.lt_irrefl _)
  exact Option.not_isSome_iff_eq_none.mp this

theorem Ok.frame_size {w : World} (h : R.Ok w) : R.frame w.frames.size = none := by
  have := (not_congr (h.frames w.frames.size)).mp (Nat.lt_irrefl _)
  exact Option.not_isSome_iff_eq_none.mp this

end Registry

/-- An identity may be given to any value of known parts that is laid out. -/
theorem keeps_freshId {k : NodeId → Value} (hk : ∀ id, R.PartsKnown (k id)) (hl : ∀ id, (k id).IsLaidOut) :
    Keeps R (liftM freshId) fun R' id => R'.node id = some (k id) := by
  intro w hw
  have hle := le_withNode hw.node_nextId (k w.nextId)
  refine ⟨R.withNode w.nextId (k w.nextId), hle, ?_, if_pos rfl⟩
  refine { hw.toHolds.mono hle with
    nodes := ?_, parts := ?_, layouts := ?_, frames := hw.frames, settled := hw.settled,
    keywords := hw.keywords, names := hw.names }
  · intro id
    show id < w.nextId + 1 ↔ (if id = w.nextId then some (k w.nextId) else R.node id).isSome
    split
    · rename_i he
      simp [he]
    · rename_i he
      rw [← hw.nodes]
      exact ⟨fun h => (Nat.lt_succ_iff_lt_or_eq.mp h).resolve_right he, Nat.lt_succ_of_lt⟩
  · intro id v hv
    have hv' : (if id = w.nextId then some (k w.nextId) else R.node id) = some v := hv
    split at hv'
    · cases hv'
      exact (hk _).mono hle
    · exact (hw.parts id v hv').mono hle
  · intro id v hv
    have hv' : (if id = w.nextId then some (k w.nextId) else R.node id) = some v := hv
    split at hv'
    · cases hv'
      exact hl _
    · exact hw.layouts id v hv'

/-- A new symbol is known and has its name. -/
theorem keeps_namedSymbol (name : String) : Keeps R (liftM (newSymbol name)) fun R' v =>
    R'.Known v ∧ ∃ id, v = .symbol id name := by
  unfold newSymbol
  rw [lift_bind]
  refine Keeps.bind (keeps_freshId (k := fun id => .symbol id name) (fun _ => trivial)
    fun _ => Value.isLaidOut_of_node?_eq_none rfl) fun R' id _ h => ?_
  exact Keeps.pure ⟨h, id, rfl⟩

theorem keeps_newSymbol (name : String) : Keeps R (liftM (newSymbol name)) Known :=
  (keeps_namedSymbol name).mono fun _ _ _ h => h.1

theorem keeps_newSeq {items : List Value} (h : R.AllKnown items) (shape : Shape) :
    Keeps R (liftM (newSeq shape items)) Known := by
  unfold newSeq
  rw [lift_bind]
  refine Keeps.bind (keeps_freshId (k := fun id => .seq shape (.bare id) items) (fun _ => h)
    fun _ => Value.isLaidOut_of_bare rfl) fun R' id _ h => ?_
  exact Keeps.pure h

theorem keeps_newList {items : List Value} (h : R.AllKnown items) :
    Keeps R (liftM (newList items)) Known := keeps_newSeq h .list

theorem keeps_newVector {items : List Value} (h : R.AllKnown items) :
    Keeps R (liftM (newVector items)) Known := keeps_newSeq h .vector

theorem keeps_newMap {entries : Entries} (hn : (Entries.names entries).Nodup)
    (h : R.EntriesKnown entries) : Keeps R (liftM (newMap entries)) Known := by
  unfold newMap
  rw [lift_bind]
  refine Keeps.bind (keeps_freshId (k := fun id => .map (.bare id) entries) (fun _ => ⟨hn, h⟩)
    fun _ => Value.isLaidOut_of_bare rfl) fun R' id _ h => ?_
  exact Keeps.pure h

/-- A new frame is whatever it is made for. -/
theorem keeps_newChild {env : Env} (use : FrameUse) (h : ∀ content, use = .template (some content) →
    content = []) : Keeps R (liftM (newChild env)) fun R' child =>
      child = env.child child.frame ∧ R'.frame child.frame = some use := by
  intro w hw
  have hle := le_withFrame hw.frame_size use
  refine ⟨R.withFrame w.frames.size use, hle, ?_, rfl, if_pos rfl⟩
  have hframe : ∀ id, (newChild env w).2.frame id = w.frame id := frame_newChild w env
  refine { hw.toHolds.mono hle with
    tables := ?_, nodes := hw.nodes, parts := ?_, layouts := hw.layouts, frames := ?_, settled := ?_,
    keywords := hw.keywords, names := hw.names }
  · intro id
    have htables : (newChild env w).2.tables id = w.tables id := tables_newChild w env id
    have hknown := (hw.toHolds.mono hle).tables id
    rw [← htables] at hknown
    exact hknown
  · exact fun id v hv => (hw.parts id v hv).mono hle
  · intro id
    show id < (w.frames.push .empty).size ↔
      (if id = w.frames.size then some use else R.frame id).isSome
    rw [Array.size_push]
    split
    · rename_i he
      simp [he]
    · rw [← hw.frames]
      omega
  · intro id content hc
    have hc' : (if id = w.frames.size then some use else R.frame id) = some (.template (some content)) := hc
    show (newChild env w).2.frame id = content
    rw [hframe]
    split at hc'
    · rename_i he
      cases hc'
      rw [h content rfl, he]
      exact World.frame_of_size_le (Nat.le_refl _)
    · exact hw.settled id content hc'

theorem keeps_newScope {env : Env} (h : R.InScope env) : Keeps R (liftM (newChild env)) InScope := by
  intro w hw
  obtain ⟨R', hle, hok, -, hscope⟩ := @keeps_newChild R env .scope nofun w hw
  refine ⟨R', hle, hok, (h.mono hle).child hscope fun he => ?_⟩
  have hnew : R.frame Env.global.frame = none := he ▸ hw.frame_size
  rw [h.global] at hnew
  cases hnew

/-- The position of a name among the keywords is that of the name. -/
theorem getElem?_of_idxOf? {names : Array String} {name : String} {i : Nat}
    (h : names.idxOf? name = some i) : names[i]? = some name := by
  obtain ⟨names⟩ := names
  rw [List.idxOf?_toArray, List.idxOf?_eq_some_iff] at h
  obtain ⟨hi, he, -⟩ := h
  rw [List.getElem?_toArray, List.getElem?_eq_getElem hi, he]

theorem keeps_intern (name : String) :
    Keeps R (liftM (intern name)) fun R' k => R'.Known (.keyword k) ∧ k.name = name := by
  intro w hw
  show ∃ R', R ≤ R' ∧ R'.Ok (intern name w).2 ∧
    R'.Known (.keyword (intern name w).1) ∧ (intern name w).1.name = name
  cases e : w.keywords.idxOf? name with
  | some i =>
    have hi : intern name w = (⟨i, name⟩, w) := by
      unfold intern
      rw [Change.modifyGet_apply, e]
    rw [hi]
    refine ⟨R, le_refl R, hw, ?_, rfl⟩
    show R.keyword i = some name
    rw [← hw.keywords]
    exact getElem?_of_idxOf? e
  | none =>
    have hi : intern name w =
        (⟨w.keywords.size, name⟩, { w with keywords := w.keywords.push name }) := by
      unfold intern
      rw [Change.modifyGet_apply, e]
    rw [hi]
    have hnone : R.keyword w.keywords.size = none := by
      rw [← hw.keywords, Array.getElem?_eq_none (Nat.le_refl _)]
    have hle := le_withKeyword hnone name
    refine ⟨R.withKeyword w.keywords.size name, hle, ?_, if_pos rfl, rfl⟩
    refine { hw.toHolds.mono hle with
      nodes := hw.nodes, parts := ?_, layouts := hw.layouts, frames := hw.frames, settled := hw.settled,
      keywords := ?_, names := ?_ }
    · exact fun id v hv => (hw.parts id v hv).mono hle
    · intro i
      show (w.keywords.push name)[i]? = if i = w.keywords.size then some name else R.keyword i
      rw [Array.getElem?_push, hw.keywords]
    · show (w.keywords.push name).toList.Nodup
      rw [Array.toList_push, List.nodup_append]
      refine ⟨hw.names, by simp, fun a ha b hb he => ?_⟩
      rw [List.mem_singleton] at hb
      rw [Array.idxOf?_eq_none_iff] at e
      exact e (Array.mem_toList_iff.mp (hb ▸ he ▸ ha))

theorem keeps_internAll (names : List String) : Keeps R (liftM (internAll names)) fun _ _ => True := by
  induction names generalizing R with
  | nil => exact Keeps.pure trivial
  | cons name rest ih =>
    unfold internAll
    rw [lift_bind]
    exact Keeps.bind (keeps_intern name) fun R' _ _ _ => ih

end EditableLisp
