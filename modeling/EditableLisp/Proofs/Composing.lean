import EditableLisp.Proofs.Expanding
import EditableLisp.Proofs.Recordings
import EditableLisp.Proofs.Reordering

/-!
# Texts that are evaluated one after the other

To evaluate two texts with a line break between them is to evaluate the first and then, if it has a value, the
second (**`Session.readEval_join`**). The value or the failure is the same, and so are the bindings, the contents
of atoms, the output and the files; only the identities that were given out on the way differ
(`World.Corresponds`). The keywords of the second text are interned in the one way even if the first text fails.

Both ways are compared with a third one, which evaluates the forms of the first text and then those of the second
in the world of `World.readSpare`. Each of the three runs mirrors it for one choice of identities
(`Direct.sim_evalProgram`), so that the argument is about the bodies of programs alone (`Direct.evalBody_append`).
-/

namespace EditableLisp

open Registry

variable {R : Registry} {w w₁ w₂ c : World} {p q : Program}

/-! ## Worlds that correspond -/

/-- From `w`, one way came to `w₁` and another one to `w₂`, where the same was done. The renamings leave alone what
`w` has given out, and the first way interned the keywords `names`. -/
structure World.Corresponds (w : World) (names : List String) (ρ ρ' : Renaming) (w₁ w₂ : World) : Prop where
  old : ρ.Agree .id w
  old' : ρ'.Agree .id w
  frames : rename ρ w₁.frames = rename ρ' w₂.frames
  atoms : rename ρ w₁.atoms = rename ρ' w₂.atoms
  keywords : ∀ name, name ∈ w₁.keywords ↔ name ∈ w₂.keywords ∨ name ∈ names
  output : w₁.output = w₂.output
  files : w₁.files = w₂.files

/-- Two ways from a world end with the same value, but for identities, or with the same failure. -/
inductive World.SameOutcome (w : World) (names : List String) :
    Except Failure Value × World → Except Failure Value × World → Prop where
  | value {ρ ρ' : Renaming} {v v' : Value} {w₁ w₂ : World} : w.Corresponds names ρ ρ' w₁ w₂ →
      rename ρ v = rename ρ' v' → SameOutcome w names (.ok v, w₁) (.ok v', w₂)
  | failure {ρ ρ' : Renaming} {e : Failure} {w₁ w₂ : World} : w.Corresponds names ρ ρ' w₁ w₂ →
      SameOutcome w names (.error e, w₁) (.error e, w₂)

/-- The end of a run, as what a text comes to. -/
def outcome : EStateM.Result Halt World Value → Except Failure Value × World
  | .ok v w => (.ok v, w)
  | .error h w => (.error (.halt h), w)

/-- Two mirror images in one world correspond. -/
theorem Mirrors.corresponds {names : List String} {m m' : Mirror} (h : Mirrors m w₁ c) (h' : Mirrors m' w₂ c)
    (hold : m.ρ.Agree .id w) (hold' : m'.ρ.Agree .id w)
    (hkeywords : ∀ name, name ∈ w₁.keywords ↔ name ∈ w₂.keywords ∨ name ∈ names) :
    w.Corresponds names m.ρ m'.ρ w₁ w₂ where
  old := hold
  old' := hold'
  frames := h.frames.symm.trans h'.frames
  atoms := h.atoms.symm.trans h'.atoms
  keywords := hkeywords
  output := h.output.symm.trans h'.output
  files := h.files.symm.trans h'.files

/-! ## Bodies of programs -/

namespace Direct

variable {m : Mirror}

/-- The forms of two bodies are evaluated one after the other. -/
theorem evalBody_append (p : Parts) (env : Env) (forms : List Value) {more : List Value} (h : more ≠ []) :
    evalBody p env (forms ++ more) = evalBody p env forms >>= fun _ => evalBody p env more := by
  obtain ⟨next, rest, rfl⟩ := List.exists_cons_of_ne_nil h
  induction forms with
  | nil => rfl
  | cons form forms ih =>
    cases forms with
    | nil => rfl
    | cons form' forms =>
      show (p.eval form env >>= fun _ => evalBody p env (form' :: forms ++ next :: rest)) =
        (p.eval form env >>= fun _ => evalBody p env (form' :: forms)) >>= fun _ => _
      rw [ih, bind_assoc]

/-- What a node keeps does not show. -/
theorem sim_remember_left (node : Value) {act act' : Act Value} (h : Sim m act act') :
    Sim m (remember node act) act' := by
  have hnothing : remember .nil act' = act' := by
    show (act' >>= fun v => pure v) = act'
    exact bind_pure act'
  rw [← hnothing]
  exact sim_remember h

/-- A program comes to what its forms come to in a world where they have other identities. -/
theorem sim_evalProgram {r : Program} {table table' : Array String} {first first' : NodeId} (depth : Nat)
    (hnode : m.ρ.Carries first first' (Form.madeEach r.forms)) (hword : m.ρ.Rewords table table' r.keywords) :
    Sim m (eval (depth + 1) (r.placed table first) .global)
      (evalBody (parts depth) .global (Form.placedEach table' first' r.forms)) := by
  have hbody := sim_evalBody (mirrored_parts m depth) .global (Form.placedEach table first r.forms)
  rw [Form.rename_placedEach r.forms hnode hword] at hbody
  exact sim_remember_left _ hbody

end Direct

/-! ## The two ways -/

/-- The identity of the last node of the second text, where it is read with the first. -/
def World.lastId (w : World) (p q : Program) : Nat := w.firstId p + Form.madeEach q.forms

theorem agree_spare (w : World) (p q : Program) (base : Nat) :
    (Mirror.moving (spare (w.lastId p q)) (spare_injective _) base).ρ.Agree .id w where
  node _ hid := spare_of_le (Nat.le_of_lt hid |>.trans ((Nat.le_add_right _ _).trans (Nat.le_add_right _ _)))
  word _ _ := rfl

/-- The joined text. -/
theorem sim_joined (w : World) (p : Program) {q : Program} (hq : q.forms ≠ []) (base depth : Nat) :
    Sim (.moving (spare (w.lastId p q)) (spare_injective _) base)
      (Direct.eval (depth + 1) ((p.join q).placed (w.read (p.join q)).keywords w.nextId) .global)
      (Direct.evalBody (Direct.parts depth) .global
          (Form.placedEach (w.read (p.join q)).keywords w.nextId p.forms) >>= fun _ =>
        Direct.evalBody (Direct.parts depth) .global
          (Form.placedEach (w.read (p.join q)).keywords (w.firstId p) q.forms)) := by
  have hmore : Form.placedEach (w.read (p.join q)).keywords (w.firstId p) q.forms ≠ [] := by
    obtain ⟨form, rest, hforms⟩ := List.exists_cons_of_ne_nil hq
    rw [hforms]
    exact List.cons_ne_nil _ _
  have hmade : Form.madeEach (p.join q).forms = Form.madeEach p.forms + Form.madeEach q.forms :=
    Form.madeEach_append p.forms q.forms
  have hcarries : (Mirror.moving (spare (w.lastId p q)) (spare_injective _) base).ρ.Carries w.nextId w.nextId
      (Form.madeEach (p.join q).forms) :=
    fun k hk => spare_of_le (by unfold World.lastId World.firstId; omega)
  have hwords : (Mirror.moving (spare (w.lastId p q)) (spare_injective _) base).ρ.Rewords
      (w.read (p.join q)).keywords (w.read (p.join q)).keywords (p.join q).keywords := fun _ _ => rfl
  have h := Direct.sim_evalProgram depth hcarries hwords
  rw [← Direct.evalBody_append _ _ _ hmore]
  unfold World.firstId
  rwa [← Form.placedEach_append]

/-- What the renaming of a merging mirror does with old identities and keywords is nothing. -/
theorem agree_merging (hw : R.Ok w) {node : NodeId → NodeId} {h : Function.Injective node} {base : Nat}
    {final table : Array String} (hnode : ∀ id < w.nextId, node id = id)
    (hfinal : w.keywords.toList <+: final.toList) (htable : w.keywords.toList <+: table.toList) :
    (Mirror.merging node h base final table).ρ.Agree .id w where
  node := hnode
  word _ hi := reword_of_grown hw.names hfinal htable hi

/-- The first text alone. -/
theorem sim_first (w : World) (p q : Program) {final : Array String} (base depth : Nat)
    (hfinal : (w.read p).keywords.toList <+: final.toList) :
    Sim (.merging (ahead (w.firstId p) (Form.madeEach q.forms)) (ahead_injective _ _) base final
        (w.read (p.join q)).keywords)
      (Direct.eval (depth + 1) (p.placed (w.read p).keywords w.nextId) .global)
      (Direct.evalBody (Direct.parts depth) .global
        (Form.placedEach (w.read (p.join q)).keywords w.nextId p.forms)) := by
  refine Direct.sim_evalProgram depth (fun k hk => ahead_of_lt ?_) (rewords_of_grown hfinal ?_ ?_)
  · exact Nat.add_lt_add_left hk _
  · exact fun name hname => mem_internedAll_iff.mpr (.inr hname)
  · exact fun name hname => mem_read_join.mpr (.inl (mem_internedAll_iff.mpr (.inr hname)))

/-- The second text, read in a world that the first one came to. -/
theorem sim_second (w : World) (p q : Program) {final : Array String} (base depth : Nat)
    (hfirst : w.firstId p < w₁.nextId) (hfinal : (w₁.read q).keywords.toList <+: final.toList) :
    Sim (.merging (behind (w.firstId p) (Form.madeEach q.forms) w₁.nextId) (behind_injective hfirst _) base final
        (w.read (p.join q)).keywords)
      (Direct.eval (depth + 1) (q.placed (w₁.read q).keywords w₁.nextId) .global)
      (Direct.evalBody (Direct.parts depth) .global
        (Form.placedEach (w.read (p.join q)).keywords (w.firstId p) q.forms)) := by
  refine Direct.sim_evalProgram depth (fun k hk => behind_middle hk) (rewords_of_grown hfinal ?_ ?_)
  · exact fun name hname => mem_internedAll_iff.mpr (.inr hname)
  · exact fun name hname => mem_read_join.mpr (.inr hname)

/-- The keywords of the joined text are those of the second way and those of the second text. -/
theorem mem_merged_join {keywords : Array String} (h : (w.read p).keywords.toList <+: keywords.toList) (name : String) :
    name ∈ merged (w.read (p.join q)).keywords keywords ↔ name ∈ keywords ∨ name ∈ q.keywords := by
  rw [mem_merged_iff, mem_read_join]
  constructor
  · rintro ((hp | hq) | hk)
    · exact .inl (Array.mem_toList_iff.mp (h.subset (Array.mem_toList_iff.mpr hp)))
    · exact .inr hq
    · exact .inl hk
  · rintro (hk | hq)
    · exact .inr hk
    · exact .inl (.inr hq)

/-- **Two runs that match one run have the same outcome.** The second one merges its keywords into those of the
joined text. -/
theorem sameOutcome_of_matched (hw : R.Ok w) {node : NodeId → NodeId} {hnode : Function.Injective node} {base : Nat}
    {joined act run : Act Value} {w₀ w₁ c : World}
    (hjoined : Matched (.moving (spare (w.lastId p q)) (spare_injective _) base) (joined w₀) (run c))
    (hact : Matched (.merging node hnode base (worldAfter act w₁).keywords (w.read (p.join q)).keywords) (act w₁)
      (run c)) (hold : ∀ id < w.nextId, node id = id)
    (hgrows : (w.read p).keywords.toList <+: (worldAfter act w₁).keywords.toList) :
    w.SameOutcome q.keywords (outcome (joined w₀)) (outcome (act w₁)) := by
  have hagree : (Mirror.merging node hnode base (worldAfter act w₁).keywords (w.read (p.join q)).keywords).ρ.Agree
      .id w := agree_merging hw hold ((prefix_internedAll _ _).trans hgrows) (prefix_internedAll _ _)
  have hkeywords : ∀ {w' w₂ c : World}, w₂ = worldAfter act w₁ →
      Mirrors (.moving (spare (w.lastId p q)) (spare_injective _) base) w' c →
      Mirrors (.merging node hnode base (worldAfter act w₁).keywords (w.read (p.join q)).keywords) w₂ c →
      ∀ name, name ∈ w'.keywords ↔ name ∈ w₂.keywords ∨ name ∈ q.keywords := by
    rintro w' w₂ c rfl hleft hright name
    have hsame : c.keywords = w'.keywords := hleft.keywords
    rw [← hsame, hright.keywords]
    exact mem_merged_join hgrows name
  cases hresult : act w₁ with
  | ok v w₂ =>
    rw [hresult] at hact
    obtain ⟨c', hrun, hright⟩ := hact.of_ok
    rw [hrun] at hjoined
    cases hleft : joined w₀ with
    | ok u w' =>
      rw [hleft] at hjoined
      exact .value (hjoined.2.corresponds hright (agree_spare w p q base) hagree
        (hkeywords (worldAfter_of_ok hresult).symm hjoined.2 hright)) hjoined.1.symm
    | error e w' =>
      rw [hleft] at hjoined
      exact hjoined.elim
  | error e w₂ =>
    rw [hresult] at hact
    obtain ⟨c', hrun, hright⟩ := hact.of_error
    rw [hrun] at hjoined
    cases hleft : joined w₀ with
    | ok u w' =>
      rw [hleft] at hjoined
      exact hjoined.elim
    | error e' w' =>
      rw [hleft] at hjoined
      obtain ⟨rfl, hjoined⟩ := hjoined
      exact .failure (hjoined.corresponds hright (agree_spare w p q base) hagree
        (hkeywords (worldAfter_of_error hresult).symm hjoined hright))

/-- What a program comes to where it is read, by a recursion of at most so many levels. -/
def Program.evalAt (p : Program) (w : World) (depth : Nat) : EStateM.Result Halt World Value :=
  Direct.eval depth (p.placed (w.read p).keywords w.nextId) .global (w.read p)

section ways

variable {depth : Nat} {v : Value} {e : Halt} (hw : R.Ok w) (hq : q.forms ≠ [])

include hw hq

/-- **Where the first text fails, so does the joined text.** -/
theorem joined_of_error (h : p.evalAt w (depth + 1) = .error e w₁) :
    w.SameOutcome q.keywords (outcome ((p.join q).evalAt w (depth + 1))) (outcome (.error e w₁)) := by
  unfold Program.evalAt at h ⊢
  have hgrows := (sim_first w p q w.recordings.length depth List.prefix_rfl).grows (w.read p)
  have hfirst := (sim_first w p q w.recordings.length depth hgrows).matched _ _ (mirrors_ahead hw q hgrows)
    List.prefix_rfl
  have hjoined := (sim_joined w p hq w.recordings.length depth).matched _ _ (mirrors_spare hw p q) trivial
  have hfailed := hfirst
  rw [h] at hfailed
  obtain ⟨c, hc, -⟩ := hfailed.of_error
  -- what fails in the forms of the first text fails in all forms
  rw [bind_of_eq_error hc, ← hc] at hjoined
  rw [← h]
  exact sameOutcome_of_matched hw hjoined hfirst
    (fun id hid => ahead_of_lt (Nat.lt_of_lt_of_le hid (Nat.le_add_right _ _))) hgrows

/-- **Where the first text has a value, the joined text goes on as the second text does.** -/
theorem joined_of_ok {R₁ : Registry} (hw₁ : R₁.Ok w₁) (hfirst : w.firstId p < w₁.nextId)
    (h : p.evalAt w (depth + 1) = .ok v w₁) : w.SameOutcome q.keywords
      (outcome ((p.join q).evalAt w (depth + 1))) (outcome (q.evalAt w₁ (depth + 1))) := by
  unfold Program.evalAt at h ⊢
  have hgrows := (sim_first w p q w.recordings.length depth List.prefix_rfl).grows (w.read p)
  have hread := (sim_second w p q w.recordings.length depth hfirst List.prefix_rfl).grows (w₁.read q)
  rw [worldAfter_of_ok h] at hgrows
  -- the table of keywords at the end is known before the ways are compared
  have hfinal := (prefix_internedAll q.keywords w₁.keywords).trans hread
  have hmatched := (sim_first w p q w.recordings.length depth (hgrows.trans hfinal)).matched _ _
    (mirrors_ahead hw q (hgrows.trans hfinal)) (by
      rw [worldAfter_of_ok h]
      exact hfinal)
  rw [h] at hmatched
  obtain ⟨c, hc, hmirrors⟩ := hmatched.of_ok
  have hsecond := (sim_second w p q w.recordings.length depth hfirst hread).matched _ _
    (mirrors_behind hw₁ hmirrors hfirst) List.prefix_rfl
  have hjoined := (sim_joined w p hq w.recordings.length depth).matched _ _ (mirrors_spare hw p q) trivial
  rw [bind_of_eq_ok hc] at hjoined
  refine sameOutcome_of_matched hw hjoined hsecond (fun id hid => ?_) (hgrows.trans hfinal)
  have hlt : id < w.firstId p := Nat.lt_of_lt_of_le hid (Nat.le_add_right _ _)
  rw [behind_of_lt (hlt.trans hfirst), ahead_of_lt hlt]

end ways

/-! ## Reading both texts -/

/-- Identities from `first` on are moved up. -/
def lifted (first count : Nat) (id : Nat) : Nat := if id < first then id else id + count

theorem lifted_injective (first count : Nat) : Function.Injective (lifted first count) := by
  intro i j h
  unfold lifted at h
  split_ifs at h <;> omega

/-- **The joined text has the forms of the first text and then those of the second.** -/
theorem forms_join (hw : R.Ok w) (p q : Program) : ∃ ρ : Renaming, ρ.Agree .id w ∧
    Form.placedEach (w.read (p.join q)).keywords w.nextId (p.join q).forms =
      Form.placedEach (w.read p).keywords w.nextId p.forms ++
        rename ρ (Form.placedEach (w.read q).keywords w.nextId q.forms) := by
  let m : Mirror := .merging (lifted w.nextId (Form.madeEach p.forms)) (lifted_injective _ _) 0
    (w.read q).keywords (w.read (p.join q)).keywords
  have hprefix : (w.read p).keywords.toList <+: (w.read (p.join q)).keywords.toList := by
    show _ <+: (internedAll (p.join q).keywords w.keywords).toList
    rw [join_keywords, internedAll_append]
    exact prefix_internedAll _ _
  have hfirst : Form.placedEach (w.read (p.join q)).keywords w.nextId p.forms =
      Form.placedEach (w.read p).keywords w.nextId p.forms := by
    have hcarries : Renaming.id.Carries w.nextId w.nextId (Form.madeEach p.forms) := fun _ _ => rfl
    have h := Form.rename_placedEach p.forms hcarries fun name hname =>
      (position_of_grown hprefix (mem_internedAll_iff.mpr (.inr hname))).symm
    rwa [rename_id, eq_comm] at h
  have hsecond : Form.placedEach (w.read (p.join q)).keywords (w.nextId + Form.madeEach p.forms) q.forms =
      rename m.ρ (Form.placedEach (w.read q).keywords w.nextId q.forms) := by
    refine (Form.rename_placedEach q.forms (fun k _ => ?_) (rewords_of_grown List.prefix_rfl ?_ ?_)).symm
    · show lifted _ _ _ = _
      unfold lifted
      rw [if_neg (by omega)]
      omega
    · exact fun name hname => mem_internedAll_iff.mpr (.inr hname)
    · exact fun name hname => mem_read_join.mpr (.inr hname)
  refine ⟨m.ρ, agree_merging hw (fun id hid => if_pos hid) (prefix_internedAll _ _) (prefix_internedAll _ _), ?_⟩
  rw [← hfirst, ← hsecond]
  exact Form.placedEach_append _ _ p.forms q.forms

/-! ## Runs of a host -/

/-- With enough steps, what a host runs comes to this. -/
def Comes (run : Nat → Change (Except Failure Value)) (w : World) (out : Except Failure Value × World) : Prop :=
  out.1 ≠ .error (.halt .exhausted) ∧ ∃ least, ∀ fuel, least ≤ fuel → run fuel w = out

/-- Reads and evaluates a text and, if it has a value, another one. -/
def readEvalBoth (fuel : Nat) (a b : String) : Change (Except Failure Value) := do
  match ← readEval fuel a with
  | .ok _ => readEval fuel b
  | .error e => return .error e

section runs

variable {a b : String} {out : Except Failure Value × World} {r : EStateM.Result Halt World Value}

/-- A text that is read is a program. -/
theorem exists_program {v : Value} {w' : World} (h : readProgram a w = (.ok v, w')) :
    ∃ p, Program.ofSource a = .ok p ∧ v = p.placed (w.read p).keywords w.nextId := by
  cases hp : Program.ofSource a with
  | ok p =>
    rw [readProgram_eq hp] at h
    cases h
    exact ⟨p, rfl, rfl⟩
  | error e =>
    have hread : (Reading.ofSource a).program = .error e := hp
    unfold readProgram at h
    rw [Change.bind_of_eq (internAll_eq _ w), hread] at h
    cases h

theorem outcome_ne_exhausted : (outcome r).1 ≠ .error (.halt .exhausted) ↔ Halted r := by
  cases r with
  | ok v w => exact ⟨fun _ => nofun, fun _ => nofun⟩
  | error h w =>
    refine ⟨fun hne w' he => ?_, fun hr he => ?_⟩
    · cases he
      exact hne rfl
    · cases he
      exact hr w rfl

theorem readEval_eq (h : Program.ofSource a = .ok p) (fuel : Nat) (w : World) : readEval fuel a w =
    outcome (evalForm fuel (p.placed (w.read p).keywords w.nextId) (w.read p)) := by
  rw [readEval_of_ok (readProgram_eq h w)]
  unfold outcome
  rfl

/-- A text comes to what its program comes to, the recordings of a failure apart. -/
theorem comes_of_evalAt (h : Program.ofSource a = .ok p) {depth : Nat} (he : p.evalAt w depth = r) (hr : Halted r) :
    Comes (fun fuel => readEval fuel a) w (outcome (abandoned w.recordings.length r)) := by
  obtain ⟨hends, least, hrun⟩ := ends_evalForm_iff.mpr ⟨r, Direct.persists_eval _ _ he hr, rfl⟩
  refine ⟨outcome_ne_exhausted.mpr hends, least, fun fuel hle => ?_⟩
  show readEval fuel a w = _
  rw [readEval_eq h]
  exact congrArg outcome (hrun fuel hle)

theorem exists_evalAt (h : Program.ofSource a = .ok p) (hc : Comes (fun fuel => readEval fuel a) w out) :
    ∃ r, Halted r ∧ (∃ least, ∀ depth, least ≤ depth → p.evalAt w depth = r) ∧
      out = outcome (abandoned w.recordings.length r) := by
  obtain ⟨hout, fuel, hrun⟩ := hc
  have hfuel : readEval fuel a w = out := hrun fuel (Nat.le_refl _)
  rw [readEval_eq h] at hfuel
  rw [← hfuel, outcome_ne_exhausted] at hout
  obtain ⟨r, hends, habandoned⟩ := ends_evalForm_iff.mp (persists_evalForm _ rfl hout)
  exact ⟨r, hends.1, hends.2, hfuel.symm.trans (congrArg outcome habandoned)⟩

/-- One run that comes to an end is enough. -/
theorem comes_of_readEval (h : Program.ofSource a = .ok p) {fuel : Nat} (he : readEval fuel a w = out)
    (hout : out.1 ≠ .error (.halt .exhausted)) : Comes (fun fuel => readEval fuel a) w out := by
  rw [readEval_eq h] at he
  rw [← he, outcome_ne_exhausted] at hout
  obtain ⟨hr, least, hends⟩ := persists_evalForm _ rfl hout
  refine ⟨he ▸ outcome_ne_exhausted.mpr hr, least, fun fuel hle => ?_⟩
  show readEval fuel a w = out
  rw [readEval_eq h, ← he]
  exact congrArg outcome (hends fuel hle)

theorem readEvalBoth_of_ok {fuel : Nat} {v : Value} (h : readEval fuel a w = (.ok v, w₁)) :
    readEvalBoth fuel a b w = readEval fuel b w₁ := Change.bind_of_eq h

theorem readEvalBoth_of_error {fuel : Nat} {e : Failure} (h : readEval fuel a w = (.error e, w₁)) :
    readEvalBoth fuel a b w = (.error e, w₁) := Change.bind_of_eq h

/-- Two texts come to what the second comes to where the first has a value, or to the failure of the first. -/
theorem comes_readEvalBoth_iff (h : Program.ofSource a = .ok p) :
    Comes (fun fuel => readEvalBoth fuel a b) w out ↔
      (∃ v w₁, Comes (fun fuel => readEval fuel a) w (.ok v, w₁) ∧ Comes (fun fuel => readEval fuel b) w₁ out) ∨
      ∃ e w₁, Comes (fun fuel => readEval fuel a) w (.error e, w₁) ∧ out = (.error e, w₁) := by
  constructor
  · rintro ⟨hout, least, hrun⟩
    have hleast : readEvalBoth least a b w = out := hrun least (Nat.le_refl _)
    cases hfirst : readEval least a w with
    | mk result w₁ =>
      cases result with
      | ok v =>
        have hcomes := comes_of_readEval h hfirst nofun
        obtain ⟨most, hends⟩ := hcomes.2
        refine .inl ⟨v, w₁, hcomes, hout, max least most, fun fuel hle => ?_⟩
        have hboth : readEvalBoth fuel a b w = out := hrun fuel (by omega)
        rwa [readEvalBoth_of_ok (hends fuel (by omega))] at hboth
      | error e =>
        rw [readEvalBoth_of_error hfirst] at hleast
        exact .inr ⟨e, w₁, comes_of_readEval h hfirst (hleast ▸ hout), hleast.symm⟩
  · rintro (⟨v, w₁, ⟨-, least, hfirst⟩, hout, most, hsecond⟩ | ⟨e, w₁, ⟨hout, least, hfirst⟩, rfl⟩)
    · refine ⟨hout, max least most, fun fuel hle => ?_⟩
      exact (readEvalBoth_of_ok (hfirst fuel (by omega))).trans (hsecond fuel (by omega))
    · exact ⟨hout, least, fun fuel hle => readEvalBoth_of_error (hfirst fuel hle)⟩

end runs

/-- If one of two ways comes to an end, so does the other. -/
theorem World.SameOutcome.halted_iff {names : List String} {r r' : EStateM.Result Halt World Value}
    (h : w.SameOutcome names (outcome r) (outcome r')) : Halted r ↔ Halted r' := by
  rw [← outcome_ne_exhausted, ← outcome_ne_exhausted]
  cases r <;> cases r' <;> cases h
  · exact ⟨fun _ => nofun, fun _ => nofun⟩
  · exact Iff.rfl

/-- Recordings do not count. -/
theorem World.SameOutcome.abandoned {names : List String} {r r' : EStateM.Result Halt World Value}
    (h : w.SameOutcome names (outcome r) (outcome r')) (depth depth' : Nat) : w.SameOutcome names
      (outcome (EditableLisp.abandoned depth r)) (outcome (EditableLisp.abandoned depth' r')) := by
  have hkept : ∀ {ρ ρ' : Renaming} {w₁ w₂ : World}, w.Corresponds names ρ ρ' w₁ w₂ → ∀ e : Halt,
      w.Corresponds names ρ ρ' (w₁.afterFailure depth e) (w₂.afterFailure depth' e) := by
    intro ρ ρ' w₁ w₂ h e
    cases e <;> exact { h with }
  cases r with
  | ok v w₁ =>
    cases r' with
    | ok v' w₂ => exact h
    | error e w₂ => cases h
  | error e w₁ =>
    cases r' with
    | ok v' w₂ => cases h
    | error e' w₂ =>
      cases h with
      | failure h =>
        rw [abandoned_error, abandoned_error]
        exact .failure (hkept h e)

namespace Session

variable {s : Session} {a b : String}

/-- What a text in a session comes to is ok, and the identity of the program has been given out. -/
theorem Reachable.exists_ok_of_comes (hs : s.Reachable) (ha : Program.ofSource a = .ok p) {v : Value}
    (h : Comes (fun fuel => readEval fuel a) s.world (.ok v, w₁)) :
    ∃ R₁ : Registry, R₁.Ok w₁ ∧ s.world.firstId p < w₁.nextId := by
  obtain ⟨-, fuel, hrun⟩ := h
  have heval : readEval fuel a s.world = (.ok v, w₁) := hrun fuel (Nat.le_refl _)
  rw [readEval_eq ha] at heval
  have hread := Step.read (readProgram_eq ha s.world)
  obtain ⟨R, hsound⟩ := (hs.step hread).exists_sound
  have hprogram : R.Known (p.placed (s.world.read p).keywords s.world.nextId) := hsound.held _ List.mem_cons_self
  cases e : evalForm fuel (p.placed (s.world.read p).keywords s.world.nextId) (s.world.read p) with
  | ok u w' =>
    rw [e] at heval
    cases heval
    let read : Session :=
      { s with world := s.world.read p, held := p.placed (s.world.read p).keywords s.world.nextId :: s.held }
    have hstep := @Step.evaluate read fuel _ v .global w₁ (.held List.mem_cons_self) .global e
    obtain ⟨R₁, hle, hsound₁⟩ := hstep.exists_sound hsound
    exact ⟨R₁, hsound₁.world, hsound₁.world.lt_nextId (hprogram.mono hle)⟩
  | error e' w' =>
    rw [e] at heval
    cases heval

section both

variable (hs : s.Reachable) (hp : Program.ofSource a = .ok p) (hq : Program.ofSource b = .ok q)
  (hforms : q.forms ≠ []) {out : Except Failure Value × World}

include hs hp hq hforms

/-- Where the joined text comes to an end, so do the two texts. -/
theorem exists_comes_both (hout : Comes (fun fuel => readEval fuel (a ++ "\n" ++ b)) s.world out) :
    ∃ out', Comes (fun fuel => readEvalBoth fuel a b) s.world out' ∧ s.world.SameOutcome q.keywords out out' := by
  obtain ⟨R, hsound⟩ := hs.exists_sound
  obtain ⟨r, hr, ⟨depth, hends⟩, rfl⟩ := exists_evalAt (Program.ofSource_join hp hq) hout
  have hjoined := hends (depth + 1) (Nat.le_succ depth)
  cases hfirst : p.evalAt s.world (depth + 1) with
  | error e w₁ =>
    have hsame := joined_of_error hsound.world hforms hfirst
    rw [hjoined] at hsame
    have hfails := comes_of_evalAt hp hfirst (hsame.halted_iff.mp hr)
    have hkept := hsame.abandoned s.world.recordings.length s.world.recordings.length
    rw [abandoned_error] at hfails hkept
    exact ⟨_, (comes_readEvalBoth_iff hp).mpr (.inr ⟨_, _, hfails, rfl⟩), hkept⟩
  | ok v w₁ =>
    have hvalue := comes_of_evalAt hp hfirst (halted_ok v w₁)
    obtain ⟨R₁, hw₁, hid⟩ := hs.exists_ok_of_comes hp hvalue
    have hsame := joined_of_ok hsound.world hforms hw₁ hid hfirst
    rw [hjoined] at hsame
    have hsecond := comes_of_evalAt hq rfl (hsame.halted_iff.mp hr)
    exact ⟨_, (comes_readEvalBoth_iff hp).mpr (.inl ⟨v, w₁, hvalue, hsecond⟩), hsame.abandoned _ _⟩

/-- Where the two texts come to an end, so does the joined text. -/
theorem exists_comes_joined {out' : Except Failure Value × World}
    (hout : Comes (fun fuel => readEvalBoth fuel a b) s.world out') :
    ∃ out, Comes (fun fuel => readEval fuel (a ++ "\n" ++ b)) s.world out ∧
      s.world.SameOutcome q.keywords out out' := by
  obtain ⟨R, hsound⟩ := hs.exists_sound
  have hjoin := Program.ofSource_join hp hq
  rcases (comes_readEvalBoth_iff hp).mp hout with ⟨v, w₁, hvalue, hsecond⟩ | ⟨e, w₁, hfails, rfl⟩
  · obtain ⟨R₁, hw₁, hid⟩ := hs.exists_ok_of_comes hp hvalue
    obtain ⟨r₁, -, ⟨least, hends₁⟩, hr₁⟩ := exists_evalAt hp hvalue
    obtain ⟨r₂, hr₂, ⟨most, hends₂⟩, rfl⟩ := exists_evalAt hq hsecond
    cases r₁ with
    | ok v' w' =>
      cases hr₁
      have hsame := joined_of_ok hsound.world hforms hw₁ hid (hends₁ (max least most + 1) (by omega))
      rw [hends₂ _ (by omega)] at hsame
      exact ⟨_, comes_of_evalAt hjoin rfl (hsame.halted_iff.mpr hr₂), hsame.abandoned _ _⟩
    | error e w' =>
      rw [abandoned_error] at hr₁
      cases hr₁
  · obtain ⟨r₁, hr₁, ⟨least, hends₁⟩, heq⟩ := exists_evalAt hp hfails
    cases r₁ with
    | ok v' w' => cases heq
    | error e w' =>
      have hsame := joined_of_error hsound.world hforms (hends₁ (least + 1) (Nat.le_succ least))
      rw [heq]
      exact ⟨_, comes_of_evalAt hjoin rfl (hsame.halted_iff.mpr hr₁), hsame.abandoned _ _⟩

end both

/-- **Two texts are evaluated as one text**, one after the other: the joined text is read with the forms of both,
and it comes to what the second text comes to after the first, or to the failure of the first. -/
theorem readEval_join (hs : s.Reachable) {node node' : Node} {xs ys : List Value} {wa wb : World}
    (ha : EditableLisp.readProgram a s.world = (.ok (.seq .list node xs), wa))
    (hb : EditableLisp.readProgram b s.world = (.ok (.seq .list node' ys), wb)) (hys : ys ≠ []) :
    (∃ (ρ : Renaming) (whole : Node) (w : World), ρ.Agree .id s.world ∧ EditableLisp.readProgram (a ++ "\n" ++ b)
      s.world = (.ok (.seq .list whole (xs ++ rename ρ ys)), w)) ∧
    (∀ out, Comes (fun fuel => readEval fuel (a ++ "\n" ++ b)) s.world out →
      ∃ out', Comes (fun fuel => readEvalBoth fuel a b) s.world out' ∧
        s.world.SameOutcome (Reading.ofSource b).keywords out out') ∧
    (∀ out', Comes (fun fuel => readEvalBoth fuel a b) s.world out' →
      ∃ out, Comes (fun fuel => readEval fuel (a ++ "\n" ++ b)) s.world out ∧
        s.world.SameOutcome (Reading.ofSource b).keywords out out') := by
  obtain ⟨p, hp, hxs⟩ := exists_program ha
  obtain ⟨q, hq, hys'⟩ := exists_program hb
  obtain ⟨-, -, rfl⟩ := Value.seq.inj hxs
  obtain ⟨-, -, rfl⟩ := Value.seq.inj hys'
  have hforms : q.forms ≠ [] := by
    intro hnil
    rw [hnil] at hys
    exact hys rfl
  obtain ⟨R, hsound⟩ := hs.exists_sound
  obtain ⟨ρ, hρ, hitems⟩ := forms_join hsound.world p q
  have hread := readProgram_eq (Program.ofSource_join hp hq) s.world
  unfold Program.placed at hread
  rw [hitems] at hread
  rw [keywords_ofSource hq]
  exact ⟨⟨ρ, _, _, hρ, hread⟩, fun out => exists_comes_both hs hp hq hforms,
    fun out' => exists_comes_joined hs hp hq hforms⟩

/-- A definition with a comment after it, and a vector with the defined name and a keyword that is new. -/
theorem readEval_join_comment : ∃ node node' xs ys wa wb v v' w₁ w₂ ρ ρ',
    EditableLisp.readProgram "(def x :k) ; first" World.initial = (.ok (.seq .list node xs), wa) ∧
    EditableLisp.readProgram "[x :l]" World.initial = (.ok (.seq .list node' ys), wb) ∧ ys ≠ [] ∧
    Comes (fun fuel => readEval fuel ("(def x :k) ; first" ++ "\n" ++ "[x :l]")) World.initial (.ok v, w₁) ∧
    Comes (fun fuel => readEvalBoth fuel "(def x :k) ; first" "[x :l]") World.initial (.ok v', w₂) ∧
    World.initial.Corresponds (Reading.ofSource "[x :l]").keywords ρ ρ' w₁ w₂ ∧ rename ρ v = rename ρ' v' := by
  have first : (readForms? "(def x :k) ; first" World.initial).isSome = true := by decide +kernel
  have second : ((readForms? "[x :l]" World.initial).any fun r => !r.2.1.isEmpty) = true := by decide +kernel
  have both : (readEval 30 ("(def x :k) ; first" ++ "\n" ++ "[x :l]") World.initial).1.isOk = true := by
    decide +kernel
  obtain ⟨⟨node, xs, wa⟩, hfirst⟩ := Option.isSome_iff_exists.mp first
  obtain ⟨⟨node', ys, wb⟩, hsecond, hys⟩ := (Option.any_eq_true _ _).mp second
  have ha := readForms?_eq_some hfirst
  have hb := readForms?_eq_some hsecond
  have hys : ys ≠ [] := by
    rintro rfl
    cases hys
  obtain ⟨⟨_, _, _, _, hread⟩, hjoined, -⟩ := readEval_join .bare ha hb hys
  obtain ⟨r, hr, -⟩ := exists_program hread
  generalize hrun : readEval 30 ("(def x :k) ; first" ++ "\n" ++ "[x :l]") World.initial = run at both
  obtain ⟨result, w₁⟩ := run
  cases result with
  | error e => cases both
  | ok v =>
    have hout := comes_of_readEval hr hrun (by rintro ⟨⟩)
    obtain ⟨⟨_, w₂⟩, hboth, hsame⟩ := hjoined _ hout
    cases hsame with
    | value hcorresponds hv =>
      exact ⟨_, _, _, _, _, _, _, _, _, _, _, _, ha, hb, hys, hout, hboth, hcorresponds, hv⟩

end Session

end EditableLisp
