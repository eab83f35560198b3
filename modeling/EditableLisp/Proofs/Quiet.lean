import EditableLisp.Machine.Special
import EditableLisp.Proofs.Act
import EditableLisp.Proofs.Interning

/-!
# Acts that leave evaluations alone

Printing, reading and the built-in functions may take identities, keep texts, intern keywords and write
atoms and files. What belongs to evaluations is none of their business: the frames, what was found for
nodes, and the recordings of expansions. Keywords keep their identities. `Builtin.quiet_run` says this of all
functions, for calls that fail as well.
-/

namespace EditableLisp

variable {α β : Type}

/-- The part of a world that only evaluations change. -/
structure Evaluation where
  frames : Array Tables
  results : Table Value
  sites : Table Value
  expansions : Table Expansion
  recordings : List (List Lookup)

/-- What belongs to evaluations in a world. -/
def World.evaluation (w : World) : Evaluation :=
  ⟨w.frames, w.results, w.sites, w.expansions, w.recordings⟩

/-- The world that an act leaves, whether it succeeds or fails. -/
def worldAfter (act : Act α) (w : World) : World :=
  match act w with
  | .ok _ w' => w'
  | .error _ w' => w'

theorem worldAfter_of_ok {act : Act α} {w w' : World} {a : α} (h : act w = .ok a w') :
    worldAfter act w = w' := by
  rw [worldAfter, h]

theorem worldAfter_of_error {act : Act α} {w w' : World} {e : Halt} (h : act w = .error e w') :
    worldAfter act w = w' := by
  rw [worldAfter, h]

/-- From one world to the next nothing changes that belongs to evaluations, and keywords keep their identities. -/
structure Calm (w w' : World) : Prop where
  evaluation : w'.evaluation = w.evaluation
  keywords : w.keywords.toList <+: w'.keywords.toList

theorem Calm.refl (w : World) : Calm w w := ⟨rfl, List.prefix_rfl⟩

theorem Calm.trans {w w' w'' : World} (h : Calm w w') (h' : Calm w' w'') : Calm w w'' :=
  ⟨h'.evaluation.trans h.evaluation, h.keywords.trans h'.keywords⟩

/-- The act changes nothing that belongs to evaluations. -/
def Quiet (act : Act α) : Prop := ∀ w, Calm w (worldAfter act w)

/-! ## Rules -/

namespace Quiet

@[simp] theorem pure (a : α) : Quiet (Pure.pure a) := fun _ => ⟨rfl, List.prefix_rfl⟩

@[simp] theorem fail (f : Fault) : Quiet (EditableLisp.fail f : Act α) := fun _ => ⟨rfl, List.prefix_rfl⟩

@[simp] theorem throw (h : Halt) : Quiet (MonadExcept.throw h : Act α) := fun _ => ⟨rfl, List.prefix_rfl⟩

@[simp] theorem get : Quiet get := fun _ => ⟨rfl, List.prefix_rfl⟩

@[simp] theorem lift_get : Quiet (liftM (MonadState.get : Change World)) := fun _ => ⟨rfl, List.prefix_rfl⟩

@[simp] theorem bind {act : Act α} {f : α → Act β} (h : Quiet act) (hf : ∀ a, Quiet (f a)) :
    Quiet (act >>= f) := by
  intro w
  have ha := h w
  cases e : act w with
  | ok a w₁ =>
    rw [worldAfter_of_ok e] at ha
    rw [worldAfter, bind_of_eq_ok e]
    exact ha.trans (hf a w₁)
  | error b w₁ =>
    rw [worldAfter_of_error e] at ha
    rw [worldAfter_of_error (bind_of_eq_error e)]
    exact ha

@[simp] theorem map {act : Act α} (f : α → β) (h : Quiet act) : Quiet (f <$> act) :=
  h.bind fun _ => Quiet.pure _

end Quiet

/-! ## The world -/

@[simp] theorem quiet_freshId : Quiet (liftM freshId) := fun _ => ⟨rfl, List.prefix_rfl⟩

@[simp] theorem quiet_newSymbol (name : String) : Quiet (liftM (newSymbol name)) := fun _ => ⟨rfl, List.prefix_rfl⟩

@[simp] theorem quiet_newSeq (shape : Shape) (items : List Value) : Quiet (liftM (newSeq shape items)) :=
  fun _ => ⟨rfl, List.prefix_rfl⟩

@[simp] theorem quiet_newList (items : List Value) : Quiet (liftM (newList items)) := fun _ => ⟨rfl, List.prefix_rfl⟩

@[simp] theorem quiet_newVector (items : List Value) : Quiet (liftM (newVector items)) := fun _ => ⟨rfl, List.prefix_rfl⟩

@[simp] theorem quiet_newMap (entries : Entries) : Quiet (liftM (newMap entries)) := fun _ => ⟨rfl, List.prefix_rfl⟩

@[simp] theorem quiet_newAtom (content : Value) : Quiet (liftM (newAtom content)) := fun _ => ⟨rfl, List.prefix_rfl⟩

@[simp] theorem quiet_readContent (id : AtomId) : Quiet (liftM (readContent id)) := fun _ => ⟨rfl, List.prefix_rfl⟩

@[simp] theorem quiet_setContent (id : AtomId) (content : Value) : Quiet (liftM (setContent id content)) :=
  fun _ => ⟨rfl, List.prefix_rfl⟩

@[simp] theorem quiet_printLine (line : String) : Quiet (liftM (printLine line)) := fun _ => ⟨rfl, List.prefix_rfl⟩

@[simp] theorem quiet_intern (name : String) : Quiet (liftM (intern name)) := by
  intro w
  show Calm w (intern name w).2
  rw [intern_eq]
  exact ⟨rfl, prefix_interned name w.keywords⟩

@[simp] theorem quiet_setText (id : NodeId) (text : String) : Quiet (liftM (setText id text)) :=
  fun _ => ⟨rfl, List.prefix_rfl⟩

@[simp] theorem quiet_setSpaced (id : NodeId) : Quiet (liftM (setSpaced id)) := fun _ => ⟨rfl, List.prefix_rfl⟩

/-! ## Printing -/

@[simp] theorem quiet_keptText (readably : Bool) (id : NodeId) : Quiet (liftM (keptText readably id)) := by
  unfold keptText
  split <;> exact fun _ => ⟨rfl, List.prefix_rfl⟩

@[simp] theorem quiet_keepText (readably : Bool) (id : NodeId) (r : Rendered) :
    Quiet (liftM (keepText readably id r)) := by
  unfold keepText
  split <;> exact fun _ => ⟨rfl, List.prefix_rfl⟩

@[simp] theorem quiet_layout (node : Node) (count : Nat) : Quiet (liftM (layout node count)) := by
  unfold layout
  rw [lift_bind]
  refine Quiet.lift_get.bind fun w => ?_
  split
  · split <;> exact fun _ => ⟨rfl, List.prefix_rfl⟩
  · exact fun _ => ⟨rfl, List.prefix_rfl⟩

variable {atomText : Bool → AtomId → Change String}

theorem quiet_renderItems {items : List Value}
    (h : ∀ v ∈ items, ∀ readably spelling, Quiet (liftM (render atomText readably spelling v)))
    (readably : Bool) (gaps : List String) (spellings : List (Option String)) (done : Rendered) :
    Quiet (liftM (renderItems atomText readably gaps spellings done items)) := by
  induction items generalizing gaps spellings done with
  | nil => exact Quiet.pure _
  | cons v rest ih =>
    unfold renderItems
    rw [lift_bind]
    refine (h v List.mem_cons_self _ _).bind fun _ => ?_
    exact ih (fun u hu => h u (List.mem_cons_of_mem _ hu)) _ _ _

theorem quiet_renderEntries {entries : List (Key × Value)}
    (h : ∀ e ∈ entries, ∀ readably spelling, Quiet (liftM (render atomText readably spelling e.2)))
    (readably : Bool) (gaps : List String) (spellings : List (Option String)) (done : Rendered) :
    Quiet (liftM (renderEntries atomText readably gaps spellings done entries)) := by
  induction entries generalizing gaps spellings done with
  | nil => exact Quiet.pure _
  | cons e rest ih =>
    unfold renderEntries
    rw [lift_bind]
    refine (h e List.mem_cons_self _ _).bind fun _ => ?_
    exact ih (fun u hu => h u (List.mem_cons_of_mem _ hu)) _ _ _

theorem quiet_render (ha : ∀ readably id, Quiet (liftM (atomText readably id))) (v : Value)
    (readably : Bool) (spelling : Option String) :
    Quiet (liftM (render atomText readably spelling v)) := by
  induction v using Value.ofParts generalizing readably spelling with
  | seq shape node items ih =>
    unfold render
    rw [lift_bind]
    refine (quiet_keptText _ _).bind fun kept => ?_
    split
    · exact Quiet.pure _
    · rw [lift_bind]
      refine (quiet_layout _ _).bind fun gaps => ?_
      dsimp only
      split
      · rw [lift_bind]
        have hform := ih _ (List.mem_cons_of_mem _ List.mem_cons_self)
        exact (hform readably _).bind fun _ => quiet_keepText _ _ _
      · rw [lift_bind]
        exact (quiet_renderItems ih readably _ _ _).bind fun _ => quiet_keepText _ _ _
  | map node entries ih =>
    unfold render
    rw [lift_bind]
    refine (quiet_keptText _ _).bind fun kept => ?_
    split
    · exact Quiet.pure _
    · rw [lift_bind]
      refine (quiet_layout _ _).bind fun gaps => ?_
      rw [lift_bind]
      exact (quiet_renderEntries ih readably _ _ _).bind fun _ => quiet_keepText _ _ _
  | closure id kind params body env data hparams hbody _ =>
    unfold render
    rw [lift_bind]
    refine (hparams true none).bind fun _ => ?_
    rw [lift_bind]
    exact (hbody true none).bind fun _ => Quiet.pure _
  | atom id =>
    unfold render
    rw [lift_bind]
    exact (ha readably id).bind fun _ => Quiet.pure _
  | _ => exact Quiet.pure _

theorem quiet_renderContent (depth : Nat) (readably : Bool) (id : AtomId) :
    Quiet (liftM (renderContent depth readably id)) := by
  induction depth generalizing readably id with
  | zero => exact Quiet.pure _
  | succ depth ih =>
    unfold renderContent
    rw [lift_bind]
    refine Quiet.lift_get.bind fun w => ?_
    rw [lift_bind]
    exact (quiet_render ih _ readably none).bind fun _ => Quiet.pure _

theorem quiet_printWith (readably : Bool) (v : Value) : Quiet (liftM (printWith readably v)) := by
  unfold printWith
  rw [lift_bind]
  refine Quiet.lift_get.bind fun w => ?_
  rw [lift_bind]
  exact (quiet_render (quiet_renderContent _) v readably none).bind fun _ => Quiet.pure _

@[simp] theorem quiet_print (v : Value) : Quiet (liftM (print v)) := quiet_printWith true v

@[simp] theorem quiet_printPlain (v : Value) : Quiet (liftM (printPlain v)) := quiet_printWith false v

theorem quiet_mapM {act : α → Change β} (h : ∀ a, Quiet (liftM (act a))) (as : List α) :
    Quiet (liftM (as.mapM act)) := by
  induction as with
  | nil => exact Quiet.pure _
  | cons a rest ih =>
    rw [List.mapM_cons, lift_bind]
    refine (h a).bind fun _ => ?_
    rw [lift_bind]
    exact ih.bind fun _ => Quiet.pure _

@[simp] theorem quiet_printEach (vs : List Value) : Quiet (liftM (printEach vs)) :=
  quiet_mapM quiet_print vs

@[simp] theorem quiet_printEachPlain (vs : List Value) : Quiet (liftM (printEachPlain vs)) :=
  quiet_mapM quiet_printPlain vs

/-! ## Reading -/

@[simp] theorem quiet_internAll (names : List String) : Quiet (liftM (internAll names)) := by
  induction names with
  | nil => exact Quiet.pure _
  | cons name rest ih =>
    unfold internAll
    rw [lift_bind]
    exact (quiet_intern name).bind fun _ => ih

namespace Form

@[simp] theorem quiet_toKey (key : FormKey) : Quiet (liftM key.toKey) := by
  cases key with
  | keyword name => exact (quiet_intern name).bind fun _ => Quiet.pure _
  | text content spelling => exact Quiet.pure _

mutual

theorem quiet_toValue (form : Form) : Quiet (liftM form.toValue) := by
  match form with
  | nil | bool _ | num _ _ | text _ _ | symbol _ =>
    unfold toValue
    exact fun _ => ⟨rfl, List.prefix_rfl⟩
  | keyword name =>
    unfold toValue
    exact (quiet_intern name).bind fun _ => Quiet.pure _
  | marked style gap form =>
    unfold toValue
    rw [lift_bind]
    refine (quiet_newSymbol _).bind fun _ => ?_
    rw [lift_bind]
    exact (quiet_toValue form).bind fun _ _ => ⟨rfl, List.prefix_rfl⟩
  | seq shape gaps items =>
    unfold toValue
    rw [lift_bind]
    exact (quiet_toValues #[] items).bind fun _ _ => ⟨rfl, List.prefix_rfl⟩
  | map gaps entries =>
    unfold toValue
    rw [lift_bind]
    exact (quiet_toEntries #[] entries).bind fun _ _ => ⟨rfl, List.prefix_rfl⟩

theorem quiet_toValues (done : Array Value) (forms : List Form) :
    Quiet (liftM (toValues done forms)) := by
  match forms with
  | [] =>
    unfold toValues
    exact Quiet.pure _
  | form :: rest =>
    unfold toValues
    rw [lift_bind]
    exact (quiet_toValue form).bind fun _ => quiet_toValues _ rest

theorem quiet_toEntries (done : Array (Key × Value)) (entries : List (FormKey × Form)) :
    Quiet (liftM (toEntries done entries)) := by
  match entries with
  | [] =>
    unfold toEntries
    exact Quiet.pure _
  | (key, form) :: rest =>
    unfold toEntries
    rw [lift_bind]
    refine (quiet_toKey key).bind fun _ => ?_
    rw [lift_bind]
    exact (quiet_toValue form).bind fun _ => quiet_toEntries _ rest

end

end Form

@[simp] theorem quiet_readProgram (src : String) : Quiet (liftM (readProgram src)) := by
  unfold readProgram
  dsimp only
  rw [lift_bind]
  refine (quiet_internAll _).bind fun _ => ?_
  split
  · unfold Program.toValue
    rw [lift_bind, lift_bind]
    exact ((Form.quiet_toValues _ _).bind fun _ _ => ⟨rfl, List.prefix_rfl⟩).bind fun _ => Quiet.pure _
  · exact Quiet.pure _

@[simp] theorem quiet_readForm (src : String) : Quiet (liftM (readForm src)) := by
  unfold readForm
  dsimp only
  rw [lift_bind]
  refine (quiet_internAll _).bind fun _ => ?_
  split
  · exact Quiet.pure _
  · split
    · rw [lift_bind]
      exact (Form.quiet_toValue _).bind fun _ => Quiet.pure _
    · exact Quiet.pure _
    · exact Quiet.pure _

/-! ## Copies and JSON -/

@[simp] theorem quiet_copyNode (node : Node) (count : Nat) : Quiet (liftM (copyNode node count)) := by
  intro w
  show Calm w (copyNode node count w).2
  unfold copyNode
  rw [Change.modifyGet_apply]
  dsimp only
  split <;> exact ⟨rfl, List.prefix_rfl⟩

section copies

variable {copyAtom : AtomId → Change Value}

theorem quiet_copyItems {items : List Value} (h : ∀ v ∈ items, Quiet (liftM (copyWith copyAtom v)))
    (done : Array Value) : Quiet (liftM (copyItems copyAtom done items)) := by
  induction items generalizing done with
  | nil => exact Quiet.pure _
  | cons v rest ih =>
    unfold copyItems
    rw [lift_bind]
    refine (h v List.mem_cons_self).bind fun _ => ?_
    exact ih (fun u hu => h u (List.mem_cons_of_mem _ hu)) _

theorem quiet_copyEntries {entries : List (Key × Value)}
    (h : ∀ e ∈ entries, Quiet (liftM (copyWith copyAtom e.2))) (done : Array (Key × Value)) :
    Quiet (liftM (copyEntries copyAtom done entries)) := by
  induction entries generalizing done with
  | nil => exact Quiet.pure _
  | cons e rest ih =>
    unfold copyEntries
    rw [lift_bind]
    refine (h e List.mem_cons_self).bind fun _ => ?_
    exact ih (fun u hu => h u (List.mem_cons_of_mem _ hu)) _

theorem quiet_copyWith (ha : ∀ id, Quiet (liftM (copyAtom id))) (v : Value) :
    Quiet (liftM (copyWith copyAtom v)) := by
  induction v using Value.ofParts with
  | symbol id name => exact quiet_newSymbol name
  | seq shape node items ih =>
    unfold copyWith
    rw [lift_bind]
    refine (quiet_copyItems ih _).bind fun _ => ?_
    rw [lift_bind]
    exact (quiet_copyNode _ _).bind fun _ => Quiet.pure _
  | map node entries ih =>
    unfold copyWith
    rw [lift_bind]
    refine (quiet_copyEntries ih _).bind fun _ => ?_
    rw [lift_bind]
    exact (quiet_copyNode _ _).bind fun _ => Quiet.pure _
  | atom id => exact ha id
  | _ => exact Quiet.pure _

end copies

theorem quiet_copyAtom (depth : Nat) (id : AtomId) : Quiet (liftM (copyAtom depth id)) := by
  induction depth generalizing id with
  | zero => exact Quiet.pure _
  | succ depth ih =>
    unfold copyAtom
    rw [lift_bind]
    refine Quiet.lift_get.bind fun w => ?_
    rw [lift_bind]
    exact (quiet_copyWith ih _).bind fun _ => quiet_newAtom _

theorem quiet_deepCopy (v : Value) : Quiet (liftM (deepCopy v)) := by
  unfold deepCopy
  rw [lift_bind]
  refine Quiet.lift_get.bind fun w => ?_
  exact quiet_copyWith (quiet_copyAtom _) v

@[simp] theorem quiet_deepCopies (v : Value) (done : Array Value) (n : Nat) :
    Quiet (liftM (deepCopies v done n)) := by
  induction n generalizing done with
  | zero => exact Quiet.pure _
  | succ n ih =>
    unfold deepCopies
    rw [lift_bind]
    exact (quiet_deepCopy v).bind fun _ => ih _

namespace Json

theorem quiet_toKey (s : String) : Quiet (liftM (toKey s)) := by
  unfold toKey
  split
  · exact (quiet_intern _).bind fun _ => Quiet.pure _
  · exact Quiet.pure _

mutual

theorem quiet_toValue (t : Tree) : Quiet (liftM t.toValue) := by
  match t with
  | .null | .bool _ | .int _ | .num _ =>
    unfold Tree.toValue
    exact Quiet.pure _
  | .str s =>
    unfold Tree.toValue
    exact (quiet_toKey s).bind fun _ => Quiet.pure _
  | .arr items =>
    unfold Tree.toValue
    rw [lift_bind]
    exact (quiet_toValues #[] items).bind fun _ => quiet_newVector _
  | .obj members =>
    unfold Tree.toValue
    rw [lift_bind]
    exact (quiet_toPairs #[] members).bind fun _ => quiet_newMap _

theorem quiet_toValues (done : Array Value) (trees : List Tree) :
    Quiet (liftM (Tree.toValues done trees)) := by
  match trees with
  | [] =>
    unfold Tree.toValues
    exact Quiet.pure _
  | t :: rest =>
    unfold Tree.toValues
    rw [lift_bind]
    exact (quiet_toValue t).bind fun _ => quiet_toValues _ rest

theorem quiet_toPairs (done : Array (Key × Value)) (members : List (String × Tree)) :
    Quiet (liftM (Tree.toPairs done members)) := by
  match members with
  | [] =>
    unfold Tree.toPairs
    exact Quiet.pure _
  | (name, t) :: rest =>
    unfold Tree.toPairs
    rw [lift_bind]
    refine (quiet_toValue t).bind fun _ => ?_
    rw [lift_bind]
    exact (quiet_toKey name).bind fun _ => quiet_toPairs _ rest

end

end Json

@[simp] theorem quiet_decodeJson [Json.Library] (text : String) : Quiet (decodeJson text) := by
  refine (quiet_internAll _).bind fun _ => ?_
  split
  · exact Json.quiet_toValue _
  · exact Quiet.fail _

@[simp] theorem quiet_encodeJson [Json.Library] (v : Value) : Quiet (encodeJson v) := by
  refine Quiet.get.bind fun w => ?_
  split
  · exact Quiet.pure _
  · exact Quiet.fail _

/-! ## Arguments -/

namespace Argument

@[simp] theorem quiet_wrongArity (name : String) (args : List Value) :
    Quiet (wrongArity name args : Act α) := Quiet.fail _

@[simp] theorem quiet_one {f : Value → Act α} (name : String) (args : List Value)
    (h : ∀ v, Quiet (f v)) : Quiet (one name f args) := by
  unfold one
  split <;> simp [h]

@[simp] theorem quiet_two {f : Value → Value → Act α} (name : String) (args : List Value)
    (h : ∀ v w, Quiet (f v w)) : Quiet (two name f args) := by
  unfold two
  split <;> simp [h]

@[simp] theorem quiet_twoOrThree {f : Value → Value → Option Value → Act α} (name : String)
    (args : List Value) (h : ∀ v w x, Quiet (f v w x)) : Quiet (twoOrThree name f args) := by
  unfold twoOrThree
  split <;> simp [h]

@[simp] theorem quiet_oneOrMore {f : Value → List Value → Act α} (name : String) (args : List Value)
    (h : ∀ v rest, Quiet (f v rest)) : Quiet (oneOrMore name f args) := by
  unfold oneOrMore
  split <;> simp [h]

@[simp] theorem quiet_unmet (demand : Demand) (v : Value) : Quiet (unmet demand v : Act α) := by
  simp [unmet]

@[simp] theorem quiet_number (v : Value) : Quiet (number v) := by
  cases v <;> simp [number]

@[simp] theorem quiet_number? (v : Option Value) : Quiet (number? v) := by
  cases v <;> simp [number?]

@[simp] theorem quiet_string (v : Value) : Quiet (string v) := by
  cases v <;> simp [string]

@[simp] theorem quiet_sequence (v : Value) : Quiet (sequence v) := by
  cases v <;> simp [sequence]

@[simp] theorem quiet_mapping (v : Value) : Quiet (mapping v) := by
  cases v <;> simp [mapping]

@[simp] theorem quiet_cell (v : Value) : Quiet (cell v) := by
  cases v <;> simp [cell]

@[simp] theorem quiet_items (v : Value) : Quiet (items v) := by
  cases v <;> simp [items]

@[simp] theorem quiet_nameFor (function : String) (v : Value) : Quiet (nameFor function v) := by
  unfold nameFor
  split <;> simp

@[simp] theorem quiet_key (v : Value) : Quiet (key v) := by
  unfold key
  split <;> simp

@[simp] theorem quiet_pairs (done : Array (Key × Value)) (vs : List Value) : Quiet (pairs done vs) := by
  match vs with
  | [] | [_] => exact Quiet.pure _
  | k :: v :: rest => exact (quiet_key k).bind fun _ => quiet_pairs _ rest

end Argument

/-! ## Sequences -/

namespace Sequence

@[simp] theorem quiet_newVectors (done : Array Value) (lists : List (List Value)) :
    Quiet (liftM (newVectors done lists)) := by
  induction lists generalizing done with
  | nil => exact Quiet.pure _
  | cons items rest ih => exact (quiet_newVector items).bind fun _ => ih _

@[simp] theorem quiet_entryVectors (entries : Entries) : Quiet (liftM (entryVectors entries)) :=
  quiet_newVectors _ _

@[simp] theorem quiet_ofAny (v : Value) : Quiet (liftM (ofAny v)) := by
  cases v with
  | seq shape node items => exact quiet_newVector _
  | text s => exact quiet_newVector _
  | map node entries =>
    unfold ofAny
    rw [lift_bind]
    exact (quiet_entryVectors entries).bind fun _ => quiet_newVector _
  | _ => exact Quiet.pure _

@[simp] theorem quiet_size (name : String) (v : Value) : Quiet (size name v) := by
  unfold size
  split <;> simp

@[simp] theorem quiet_sliceOf (collection start : Value) (stop : Option Value) :
    Quiet (sliceOf collection start stop) := by
  refine (Argument.quiet_items _).bind fun items => (Argument.quiet_number _).bind fun start => ?_
  simp

@[simp] theorem quiet_nth (collection index : Value) : Quiet (nth collection index) := by
  refine (Argument.quiet_sequence _).bind fun items => (Argument.quiet_number _).bind fun i => ?_
  extract_lets index position
  split
  · exact Quiet.fail _
  · split <;> simp

@[simp] theorem quiet_grow (collection : Value) (vs : List Value) : Quiet (grow collection vs) := by
  unfold grow
  split <;> simp

@[simp] theorem quiet_flatten (done : Array Value) (vs : List Value) : Quiet (flatten done vs) := by
  induction vs generalizing done with
  | nil => exact Quiet.pure _
  | cons v rest ih => exact (Argument.quiet_items v).bind fun _ => ih _

@[simp] theorem quiet_sort (collection : Value) : Quiet (sort collection) := by
  refine (Argument.quiet_items _).bind fun items => ?_
  split <;> simp

@[simp] theorem quiet_partition (size collection : Value) : Quiet (partition size collection) := by
  refine (Argument.quiet_number _).bind fun n => (Argument.quiet_items _).bind fun items => ?_
  split
  · exact Quiet.fail _
  · split
    · exact Quiet.throw _
    · simp

@[simp] theorem quiet_rangeOf (start stop step : Number) : Quiet (rangeOf start stop step) := by
  unfold rangeOf
  split
  · simp
  · exact Quiet.throw _

@[simp] theorem quiet_range (args : List Value) : Quiet (range args) := by
  unfold range
  split
  · simp
  · simp
  · exact (Argument.quiet_number _).bind fun start => by simp
  · simp

@[simp] theorem quiet_replicate (v n : Value) : Quiet (replicate v n) := by
  simp [replicate]

end Sequence

/-! ## Maps, metadata and numbers -/

namespace Mapping

@[simp] theorem quiet_ofArguments (args : List Value) : Quiet (ofArguments args) := by
  unfold ofArguments
  split <;> simp

@[simp] theorem quiet_assoc (args : List Value) : Quiet (assoc args) := by
  unfold assoc
  split
  · split
    · exact Quiet.fail _
    · split <;> simp
  · exact Quiet.fail _

@[simp] theorem quiet_dissoc (m : Value) (ks : List Value) : Quiet (dissoc m ks) := by
  simp [dissoc]

@[simp] theorem quiet_gather (done : Array (Key × Value)) (ms : List Value) :
    Quiet (gather done ms) := by
  induction ms generalizing done with
  | nil => exact Quiet.pure _
  | cons m rest ih =>
    cases m with
    | nil => exact ih _
    | _ => exact (Argument.quiet_mapping _).bind fun _ => ih _

@[simp] theorem quiet_merge (ms : List Value) : Quiet (merge ms) := by
  simp [merge]

end Mapping

@[simp] theorem quiet_withMetadata (f data : Value) : Quiet (f.withMetadata data) := by
  unfold Value.withMetadata
  split <;> simp

namespace Numeric

@[simp] theorem quiet_operate (op : Arithmetic) (a b : Value) : Quiet (operate op a b) := by
  unfold operate
  split <;> simp

@[simp] theorem quiet_fold (op : Arithmetic) (acc : Value) (vs : List Value) :
    Quiet (fold op acc vs) := by
  induction vs generalizing acc with
  | nil => exact Quiet.pure _
  | cons v rest ih => exact (quiet_operate op acc v).bind fun _ => ih _

@[simp] theorem quiet_negate (v : Value) : Quiet (negate v) := by
  cases v <;> simp [negate]

@[simp] theorem quiet_difference (vs : List Value) : Quiet (difference vs) := by
  unfold difference
  split <;> simp

@[simp] theorem quiet_quotient (vs : List Value) : Quiet (quotient vs) := by
  unfold quotient
  split <;> simp

@[simp] theorem quiet_compare (c : Comparison) (a b : Value) : Quiet (compare c a b) := by
  unfold compare
  split <;> simp

@[simp] theorem quiet_ofTwo (f : Number → Number → Number) (a b : Value) : Quiet (ofTwo f a b) := by
  simp [ofTwo]

@[simp] theorem quiet_extreme (pick : Number → Number → Number) (acc : Number) (vs : List Value) :
    Quiet (extreme pick acc vs) := by
  induction vs generalizing acc with
  | nil => exact Quiet.pure _
  | cons v rest ih => exact (Argument.quiet_number v).bind fun _ => ih _

@[simp] theorem quiet_extremeOf (name : String) (pick : Number → Number → Number) (vs : List Value) :
    Quiet (extremeOf name pick vs) := by
  cases vs <;> simp [extremeOf]

@[simp] theorem quiet_seed (v : Value) : Quiet (liftM (seed v)) := by
  unfold seed
  split
  · exact Quiet.pure _
  · exact (quiet_print _).bind fun _ => Quiet.pure _

@[simp] theorem quiet_random [Number.Generator] (v : Value) : Quiet (random v) :=
  (quiet_seed v).bind fun _ => Quiet.pure _

end Numeric

/-! ## Texts and files -/

@[simp] theorem quiet_within {act : Act α} (name : String) (h : Quiet act) : Quiet (within name act) := by
  intro w
  have ha := h w
  unfold worldAfter within at *
  cases e : act w <;> simp_all

namespace Textual

@[simp] theorem quiet_keyword (v : Value) : Quiet (keyword v) := by
  unfold keyword
  split <;> simp

@[simp] theorem quiet_substring (s start : Value) (stop : Option Value) :
    Quiet (substring s start stop) := by
  refine (Argument.quiet_string s).bind fun cs => ?_
  simp

@[simp] theorem quiet_join (args : List Value) : Quiet (join args) := by
  unfold join
  split
  · simp
  · exact (quiet_printPlain _).bind fun separator => by simp
  · simp

@[simp] theorem quiet_read (s : Value) : Quiet (read s) := by
  refine (Argument.quiet_string s).bind fun src => (quiet_readForm src).bind fun r => ?_
  split <;> simp

end Textual

@[simp] theorem quiet_readFile (path : String) : Quiet (readFile path) := by
  refine Quiet.get.bind fun w => ?_
  split <;> simp

/-- Writing a file changes the files alone. -/
theorem World.calm_writeFile {w w' : World} {path text : String}
    (h : w.writeFile path text = .ok w') : Calm w w' := by
  unfold World.writeFile at h
  split at h
  all_goals try cases h
  split at h
  · cases h
  · cases h
    exact ⟨rfl, List.prefix_rfl⟩

@[simp] theorem quiet_writeFile (path text : String) : Quiet (writeFile path text) := by
  intro w
  unfold writeFile
  rw [worldAfter, Act.get_bind]
  cases h : w.writeFile path text with
  | ok w' => exact World.calm_writeFile h
  | error p => exact Calm.refl w

/-! ## Expanders -/

namespace Expander

@[simp] theorem quiet_when (args : List Value) : Quiet (when args) := by
  unfold when
  split
  · refine (quiet_newSymbol _).bind fun head => (quiet_newList _).bind fun block => ?_
    simp
  · simp

theorem quiet_conditional (test form otherwise : Value) :
    Quiet (liftM (conditional test form otherwise)) := fun _ => ⟨rfl, List.prefix_rfl⟩

theorem quiet_conditionals (otherwise : Value) (args : List Value) :
    Quiet (liftM (conditionals otherwise args)) := by
  match args with
  | [] | [_] => exact Quiet.pure _
  | form :: test :: rest =>
    unfold conditionals
    rw [lift_bind]
    exact (quiet_conditional test form otherwise).bind fun _ => quiet_conditionals _ rest

@[simp] theorem quiet_cond (args : List Value) : Quiet (cond args) := by
  unfold cond
  split
  · exact Quiet.fail _
  · exact quiet_conditionals _ _

theorem quiet_thread (acc form : Value) : Quiet (liftM (thread acc form)) := by
  unfold thread
  split <;> exact quiet_newList _

theorem quiet_threadAll (acc : Value) (forms : List Value) : Quiet (liftM (threadAll acc forms)) := by
  induction forms generalizing acc with
  | nil => exact Quiet.pure _
  | cons form rest ih =>
    unfold threadAll
    rw [lift_bind]
    exact (quiet_thread acc form).bind fun _ => ih _

@[simp] theorem quiet_threadFirst (args : List Value) : Quiet (threadFirst args) := by
  cases args with
  | nil => exact Argument.quiet_wrongArity _ _
  | cons x forms => exact quiet_threadAll x forms

end Expander

/-! ## All functions -/

/-- A function that calls no other leaves evaluations alone. -/
@[simp] theorem Builtin.quiet_evaluate (b : Builtin) (args : List Value) : Quiet (b.evaluate args) := by
  cases b with
  | entries => exact Argument.quiet_one _ _ fun m => (Argument.quiet_mapping m).bind fun es => by simp
  | reset => exact Argument.quiet_two _ _ fun a v => (Argument.quiet_cell a).bind fun id => by simp
  | slurp => exact Argument.quiet_one _ _ fun path => (Argument.quiet_string path).bind fun p => by simp
  | spit =>
    refine Argument.quiet_two _ _ fun path content => (Argument.quiet_string path).bind fun p => ?_
    exact (quiet_printPlain content).bind fun text => by simp
  | rnd => exact Argument.quiet_one _ _ fun v => Numeric.quiet_random v
  | jsonStringify => exact Argument.quiet_one _ _ fun v => (quiet_within _ (quiet_encodeJson v)).map _
  | jsonParse => exact Argument.quiet_one _ _ fun s => (Argument.quiet_string s).bind fun t => by simp
  | _ => simp [Builtin.evaluate]

namespace Job

@[simp] theorem quiet_collectNext (f : Value) (index : Option Nat) (done : Array Value)
    (vs : List Value) : Quiet (liftM (collectNext f index done vs)) := by
  cases vs with
  | nil => exact (quiet_newVector _).bind fun _ => Quiet.pure _
  | cons v rest => exact Quiet.pure _

@[simp] theorem quiet_keepNext (f : Value) (wanted : Bool) (done : Array Value) (vs : List Value) :
    Quiet (liftM (keepNext f wanted done vs)) := by
  cases vs with
  | nil => exact (quiet_newVector _).bind fun _ => Quiet.pure _
  | cons v rest => exact Quiet.pure _

@[simp] theorem quiet_resume (job : Job) (result : Value) : Quiet (liftM (job.resume result)) := by
  cases job with
  | collect f index rest done => exact quiet_collectNext _ _ _ _
  | keep f wanted current rest done => exact quiet_keepNext _ _ _ _
  | pass => exact Quiet.pure _
  | store id => exact (quiet_setContent _ _).bind fun _ => Quiet.pure _

theorem quiet_spread (name : String) (args : List Value) : Quiet (spread name args) := by
  unfold spread
  split <;> simp

theorem quiet_swap (name : String) (args : List Value) : Quiet (swap name args) := by
  unfold swap
  split <;> simp

end Job

/-- **A built-in function leaves evaluations alone**, up to the calls that it asks for. -/
@[simp] theorem Builtin.quiet_run (b : Builtin) (args : List Value) : Quiet (b.run args) := by
  unfold Builtin.run
  split
  · simp
  · simp
  · simp
  · simp
  · exact Job.quiet_spread _ _
  · exact Job.quiet_swap _ _
  · simp

/-! ## Acts with a recording of their own -/

/-- A quiet act looks nothing up: its recording is empty, and those around it stay. -/
theorem recorded_of_quiet {act : Act α} (h : Quiet act) (w : World) : recorded act w =
    match act { w with recordings := [] :: w.recordings } with
    | .ok a w' => .ok (a, []) { w' with recordings := w.recordings }
    | .error e w' => .error e { w' with recordings := w.recordings } := by
  let started : World := { w with recordings := [] :: w.recordings }
  have finish : ∀ w' : World, w'.recordings = [] :: w.recordings →
      finishRecording w.recordings.length w' = ([], { w' with recordings := w.recordings }) := by
    intro w' hr
    rw [finishRecording_of_abandon (World.recordings_abandon hr) (Nat.le_refl _)]
    show _ = (([], _) : List Lookup × World)
    cases w.recordings <;> rfl
  have hstart : startRecording w = (w.recordings.length, started) := rfl
  have hquiet := (h started).evaluation
  unfold recorded
  rw [bind_of_eq_ok (lift_of_eq hstart)]
  cases hact : act started with
  | ok a w' =>
    rw [worldAfter_of_ok hact] at hquiet
    have hattempt : attempt act started = (.ok a, w') := by rw [attempt, hact]
    have hfinish := finish w' (congrArg Evaluation.recordings hquiet)
    rw [bind_of_eq_ok (lift_of_eq hattempt), bind_of_eq_ok (lift_of_eq hfinish)]
    rfl
  | error e w' =>
    rw [worldAfter_of_error hact] at hquiet
    have hattempt : attempt act started = (.error e, w') := by rw [attempt, hact]
    have hfinish := finish w' (congrArg Evaluation.recordings hquiet)
    rw [bind_of_eq_ok (lift_of_eq hattempt), bind_of_eq_ok (lift_of_eq hfinish)]
    rfl

/-- What comes out of a quiet act with a recording of its own comes out of the act, without lookups. -/
theorem recorded_eq_ok {act : Act α} (h : Quiet act) {w w' : World} {p : α × List Lookup}
    (hp : recorded act w = .ok p w') : p.2 = [] ∧ ∃ w₁, w₁.recordings = [] :: w.recordings ∧
      act { w with recordings := [] :: w.recordings } = .ok p.1 w₁ ∧ w' = { w₁ with recordings := w.recordings } := by
  have hquiet := (h { w with recordings := [] :: w.recordings }).evaluation
  rw [recorded_of_quiet h] at hp
  split at hp
  · rename_i hact
    rw [worldAfter_of_ok hact] at hquiet
    cases hp
    exact ⟨rfl, _, congrArg Evaluation.recordings hquiet, hact, rfl⟩
  · cases hp

theorem Quiet.recorded {act : Act α} (h : Quiet act) : Quiet (recorded act) := by
  intro w
  have hquiet := h { w with recordings := [] :: w.recordings }
  unfold worldAfter at hquiet ⊢
  rw [recorded_of_quiet h]
  cases hact : act { w with recordings := [] :: w.recordings } with
  | ok a w' =>
    rw [hact] at hquiet
    exact ⟨congrArg (fun e : Evaluation => { e with recordings := w.recordings }) hquiet.evaluation, hquiet.keywords⟩
  | error e w' =>
    rw [hact] at hquiet
    exact ⟨congrArg (fun e : Evaluation => { e with recordings := w.recordings }) hquiet.evaluation, hquiet.keywords⟩

/-! ## Templates and closures -/

theorem quiet_copyGaps (node : Node) (count : Nat) : Quiet (liftM (copyGaps node count)) := fun _ => ⟨rfl, List.prefix_rfl⟩

theorem quiet_substituteItems {frame : Frame} {items : List Value}
    (h : ∀ v ∈ items, Quiet (liftM (substitute frame v))) (done : Array Value) :
    Quiet (liftM (substituteItems frame done items)) := by
  induction items generalizing done with
  | nil => exact Quiet.pure _
  | cons v rest ih =>
    unfold substituteItems
    rw [lift_bind]
    refine (h v List.mem_cons_self).bind fun _ => ?_
    exact ih (fun u hu => h u (List.mem_cons_of_mem _ hu)) _

theorem quiet_substituteEntries {frame : Frame} {entries : List (Key × Value)}
    (h : ∀ e ∈ entries, Quiet (liftM (substitute frame e.2))) (done : Array (Key × Value)) :
    Quiet (liftM (substituteEntries frame done entries)) := by
  induction entries generalizing done with
  | nil => exact Quiet.pure _
  | cons e rest ih =>
    unfold substituteEntries
    rw [lift_bind]
    refine (h e List.mem_cons_self).bind fun _ => ?_
    exact ih (fun u hu => h u (List.mem_cons_of_mem _ hu)) _

theorem quiet_substitute (frame : Frame) (v : Value) : Quiet (liftM (substitute frame v)) := by
  induction v using Value.ofParts with
  | seq shape node items ih =>
    unfold substitute
    rw [lift_bind]
    refine (quiet_substituteItems ih _).bind fun _ => ?_
    rw [lift_bind]
    exact (quiet_copyGaps _ _).bind fun _ => Quiet.pure _
  | map node entries ih =>
    unfold substitute
    rw [lift_bind]
    refine (quiet_substituteEntries ih _).bind fun _ => ?_
    rw [lift_bind]
    exact (quiet_copyGaps _ _).bind fun _ => Quiet.pure _
  | _ => exact Quiet.pure _

theorem quiet_instantiate (template : Value) (env : Env) : Quiet (liftM (instantiate template env)) := by
  unfold instantiate
  rw [lift_bind]
  exact Quiet.lift_get.bind fun w => quiet_substitute _ _

namespace Pattern

mutual

theorem quiet_validate (pattern : Value) : Quiet (validate pattern) := by
  match pattern with
  | .symbol _ name =>
    unfold validate
    split
    · exact Quiet.fail _
    · exact Quiet.pure _
  | .seq .vector node items =>
    unfold validate
    exact quiet_validateItems _ items
  | .nil | .bool _ | .num _ | .text _ | .keyword _ | .seq .list _ _ | .map _ _ | .builtin _ _ _
  | .closure _ _ _ _ _ _ | .atom _ =>
    unfold validate
    exact (quiet_print _).bind fun _ => Quiet.fail _

theorem quiet_validateItems (whole : Value) (items : List Value) : Quiet (validateItems whole items) := by
  match items with
  | [] =>
    unfold validateItems
    exact Quiet.pure _
  | item :: rest =>
    unfold validateItems
    split
    · split
      · exact quiet_validate _
      · exact (quiet_print _).bind fun _ => Quiet.fail _
    · exact (quiet_validate item).bind fun _ => quiet_validateItems whole rest

end

end Pattern

namespace Machine

theorem quiet_joinBody (forms : List Value) : Quiet (liftM (joinBody forms)) := by
  unfold joinBody
  split
  · exact Quiet.pure _
  · exact Quiet.pure _
  · exact fun _ => ⟨rfl, List.prefix_rfl⟩

theorem quiet_makeClosure (params : Value) (body : List Value) (env : Env) (kind : ClosureKind) :
    Quiet (makeClosure params body env kind) := by
  have make : Quiet (Pattern.validate params >>= fun _ => joinBody body >>= fun form =>
      freshId >>= fun id => Pure.pure (Value.closure id kind params form env .nil)) :=
    (Pattern.quiet_validate _).bind fun _ => (quiet_joinBody _).bind fun form => by simp
  unfold makeClosure
  split
  · exact make
  · exact (quiet_print _).bind fun _ => Quiet.fail _

theorem quiet_onlyArgument (name : String) (call : Call) : Quiet (onlyArgument name call) := by
  unfold onlyArgument
  split <;> simp

theorem quiet_spliced? (item : Value) : Quiet (spliced? item) := by
  unfold spliced?
  split
  · split
    · split <;> simp
    · simp
  · simp

theorem quiet_addQuasi (splice : Bool) (done : Array Value) (v : Value) :
    Quiet (addQuasi splice done v) := by
  unfold addQuasi
  split
  · split <;> simp
  · simp

end Machine

end EditableLisp
