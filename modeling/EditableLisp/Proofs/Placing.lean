import EditableLisp.Proofs.Act
import EditableLisp.Proofs.Grammar
import EditableLisp.Proofs.Interning
import EditableLisp.Proofs.Renaming
import EditableLisp.Source.Reader

/-!
# Where a program is placed

Reading a program interns its keywords and makes nodes, one after the other. `Form.placed table first form` is the
value of a form whose first node gets the identity `first`, where the keywords are those of `table`; a read is
one equation (`readProgram_eq`). So a form that is read in two worlds has the same value but for identities
(`Form.rename_placed`). The keywords that are interned before are those of the forms (`keywords_ofSource`).
-/

namespace EditableLisp

/-! ## Values in place -/

/-- The key that a form of a key stands for. -/
def FormKey.placed (table : Array String) : FormKey → Key
  | .keyword name => .keyword ⟨position name table, name⟩
  | .text content _ => .text content

namespace Form

mutual

/-- How many nodes are made for a form. -/
def made : Form → Nat
  | symbol _ => 1
  | marked _ _ form => 1 + made form + 1
  | seq _ _ items => madeEach items + 1
  | map _ entries => madeEntries entries + 1
  | _ => 0

/-- `made` for forms. -/
def madeEach : List Form → Nat
  | [] => 0
  | form :: rest => made form + madeEach rest

/-- `made` for entries. -/
def madeEntries : List (FormKey × Form) → Nat
  | [] => 0
  | (_, form) :: rest => made form + madeEntries rest

end

mutual

/-- The value of a form whose nodes get identities from `first` on. -/
def placed (table : Array String) (first : NodeId) : Form → Value
  | nil => .nil
  | bool b => .bool b
  | num x _ => .num x
  | text content _ => .text content
  | keyword name => .keyword ⟨position name table, name⟩
  | symbol name => .symbol first name
  | marked style gap form =>
    .seq .list ⟨first + 1 + made form, style, some ["", gap, ""], keptSpellings [none, form.oddSpelling?]⟩
      [.symbol first style.name, placed table (first + 1) form]
  | seq shape gaps items =>
    .seq shape ⟨first + madeEach items, .plain, some gaps, keptSpellings (items.map oddSpelling?)⟩
      (placedEach table first items)
  | map gaps entries =>
    .map ⟨first + madeEntries entries, .plain, some gaps, keptSpellings (entrySpellings entries)⟩
      (placedEntries table first entries)

/-- `placed` for forms. -/
def placedEach (table : Array String) (first : NodeId) : List Form → List Value
  | [] => []
  | form :: rest => placed table first form :: placedEach table (first + made form) rest

/-- `placed` for entries. -/
def placedEntries (table : Array String) (first : NodeId) : List (FormKey × Form) → List (Key × Value)
  | [] => []
  | (key, form) :: rest =>
    (key.placed table, placed table first form) :: placedEntries table (first + made form) rest

end

theorem madeEach_append (forms more : List Form) : madeEach (forms ++ more) = madeEach forms + madeEach more := by
  induction forms with
  | nil => simp [madeEach]
  | cons form rest ih => simp [madeEach, ih, Nat.add_assoc]

theorem placedEach_append (table : Array String) (first : NodeId) (forms more : List Form) :
    placedEach table first (forms ++ more) =
      placedEach table first forms ++ placedEach table (first + madeEach forms) more := by
  induction forms generalizing first with
  | nil => rfl
  | cons form rest ih => simp [placedEach, madeEach, ih, Nat.add_assoc]

end Form

/-! ## Reading -/

section reading

variable {w : World}

theorem intern_of_mem {name : String} (h : name ∈ w.keywords) :
    intern name w = (⟨position name w.keywords, name⟩, w) := by
  rw [intern_eq, interned_of_mem h]
  rfl

theorem FormKey.toKey_eq (key : FormKey) (h : ∀ name ∈ key.keywords, name ∈ w.keywords) :
    key.toKey w = (key.placed w.keywords, w) := by
  cases key with
  | keyword name =>
    show (Key.keyword (intern name w).1, (intern name w).2) = _
    rw [intern_of_mem (h name List.mem_cons_self)]
    rfl
  | text => rfl

namespace Form

mutual

/-- **The value of a form is made in place**, if its keywords are interned. -/
theorem toValue_eq (form : Form) {w : World} (h : ∀ name ∈ form.keywords, name ∈ w.keywords) :
    form.toValue w = (form.placed w.keywords w.nextId, w.withNextId (w.nextId + form.made)) := by
  match form with
  | .nil | .bool _ | .num .. | .text .. | .symbol _ =>
    rfl
  | .keyword name =>
    show (Value.keyword (intern name w).1, (intern name w).2) = _
    rw [intern_of_mem (h name List.mem_cons_self)]
    rfl
  | .marked style gap form =>
    have hsymbol : newSymbol style.name w = (.symbol w.nextId style.name, w.withNextId (w.nextId + 1)) := rfl
    have hform := @toValue_eq form (w.withNextId (w.nextId + 1)) h
    have hnext : w.nextId + made (.marked style gap form) = w.nextId + 1 + form.made + 1 := by
      simp only [made, Nat.add_assoc]
    unfold toValue
    rw [Change.bind_of_eq hsymbol, Change.bind_of_eq hform, hnext]
    rfl
  | .seq shape gaps items =>
    unfold toValue
    rw [Change.bind_of_eq (toValues_eq items #[] h)]
    rfl
  | .map gaps entries =>
    unfold toValue
    rw [Change.bind_of_eq (toEntries_eq entries #[] h)]
    rfl

theorem toValues_eq (forms : List Form) (done : Array Value) {w : World}
    (h : ∀ name ∈ keywordsEach forms, name ∈ w.keywords) : toValues done forms w =
      (done.toList ++ placedEach w.keywords w.nextId forms, w.withNextId (w.nextId + madeEach forms)) := by
  match forms with
  | [] =>
    show (done.toList, w) = (done.toList ++ [], w)
    rw [List.append_nil]
  | form :: rest =>
    obtain ⟨hform, hrest⟩ := List.forall_mem_append.mp h
    have hvalues := @toValues_eq rest (done.push (form.placed w.keywords w.nextId))
      (w.withNextId (w.nextId + form.made)) hrest
    unfold toValues
    rw [Change.bind_of_eq (toValue_eq form hform), hvalues]
    simp [placedEach, madeEach, World.withNextId, Nat.add_assoc]

theorem toEntries_eq (entries : List (FormKey × Form)) (done : Array (Key × Value)) {w : World}
    (h : ∀ name ∈ keywordsEntries entries, name ∈ w.keywords) : toEntries done entries w =
      (done.toList ++ placedEntries w.keywords w.nextId entries,
        w.withNextId (w.nextId + madeEntries entries)) := by
  match entries with
  | [] =>
    show (done.toList, w) = (done.toList ++ [], w)
    rw [List.append_nil]
  | (key, form) :: rest =>
    obtain ⟨hentry, hrest⟩ := List.forall_mem_append.mp h
    obtain ⟨hkey, hform⟩ := List.forall_mem_append.mp hentry
    have hvalues := @toEntries_eq rest (done.push (key.placed w.keywords, form.placed w.keywords w.nextId))
      (w.withNextId (w.nextId + form.made)) hrest
    unfold toEntries
    rw [Change.bind_of_eq (key.toKey_eq hkey), Change.bind_of_eq (toValue_eq form hform), hvalues]
    simp [placedEntries, madeEntries, World.withNextId, Nat.add_assoc]

end

end Form

/-- The names of the keywords in a program, in order. -/
def Program.keywords (p : Program) : List String := Form.keywordsEach p.forms

/-- How many nodes are made for a program. -/
def Program.made (p : Program) : Nat := Form.madeEach p.forms + 1

/-- The value of a program whose nodes get identities from `first` on. -/
def Program.placed (table : Array String) (first : NodeId) (p : Program) : Value :=
  .seq .list
    ⟨first + Form.madeEach p.forms, .program, some p.gaps, keptSpellings (p.forms.map Form.oddSpelling?)⟩
    (Form.placedEach table first p.forms)

/-- The world after a program was read. -/
def World.read (w : World) (p : Program) : World :=
  (w.withKeywords (internedAll p.keywords w.keywords)).withNextId (w.nextId + p.made)

/-- **What a read does, as one equation.** -/
theorem readProgram_eq {src : String} {p : Program} (h : Program.ofSource src = .ok p) (w : World) :
    readProgram src w = (.ok (p.placed (w.read p).keywords w.nextId), w.read p) := by
  have hread : (Reading.ofSource src).program = .ok p := h
  have hkeywords : ∀ name ∈ Form.keywordsEach p.forms, name ∈ internedAll p.keywords w.keywords :=
    fun name hname => mem_internedAll_iff.mpr (.inr hname)
  have hvalues := @Form.toValues_eq p.forms #[] (w.withKeywords (internedAll p.keywords w.keywords)) hkeywords
  have hvalue : p.toValue (w.withKeywords (internedAll p.keywords w.keywords)) =
      (p.placed (w.read p).keywords w.nextId, w.read p) := by
    unfold Program.toValue
    rw [Change.bind_of_eq hvalues]
    rfl
  unfold readProgram
  rw [keywords_ofSource h, Change.bind_of_eq (internAll_eq _ w), hread]
  exact Change.bind_of_eq hvalue

end reading

/-! ## Two places -/

namespace Renaming

variable {ρ : Renaming} {first first' : NodeId} {count : Nat}

/-- A renaming moves some identities in a row to another place. -/
def Carries (ρ : Renaming) (first first' : NodeId) (count : Nat) : Prop :=
  ∀ k < count, ρ.node (first + k) = first' + k

/-- A renaming takes the positions of names in a table to those in another one. -/
def Rewords (ρ : Renaming) (table table' : Array String) (names : List String) : Prop :=
  ∀ name ∈ names, ρ.word (position name table) = position name table'

theorem Carries.head (h : ρ.Carries first first' count) (hpos : 0 < count) : ρ.node first = first' := h 0 hpos

theorem Carries.part (h : ρ.Carries first first' count) (before : Nat) {part : Nat}
    (hle : before + part ≤ count) : ρ.Carries (first + before) (first' + before) part := by
  intro k hk
  rw [Nat.add_assoc, Nat.add_assoc]
  exact h _ (by omega)

/-- A node after its parts is carried with them. -/
theorem Carries.last (h : ρ.Carries first first' (count + 1)) : ρ.node (first + count) = first' + count :=
  h count (Nat.lt_succ_self count)

end Renaming

section places

variable {ρ : Renaming} {table table' : Array String}

theorem FormKey.rename_placed {key : FormKey} (h : ρ.Rewords table table' key.keywords) :
    rename ρ (key.placed table) = key.placed table' := by
  cases key with
  | keyword name =>
    show Key.keyword ⟨ρ.word (position name table), name⟩ = _
    rw [h name List.mem_cons_self]
    rfl
  | text => rfl

theorem rename_node (id : NodeId) (style : Style) (gaps : Option (List String))
    (spellings : Option (List (Option String))) :
    rename ρ (⟨id, style, gaps, spellings⟩ : Node) = ⟨ρ.node id, style, gaps, spellings⟩ := rfl

namespace Form

mutual

/-- **A form that is read at two places has the same value, but for identities.** -/
theorem rename_placed (form : Form) {first first' : NodeId} (hnode : ρ.Carries first first' form.made)
    (hword : ρ.Rewords table table' form.keywords) :
    rename ρ (form.placed table first) = form.placed table' first' := by
  match form with
  | .nil | .bool _ | .num .. | .text .. => rfl
  | .keyword name =>
    show Value.keyword ⟨ρ.word (position name table), name⟩ = _
    rw [hword name List.mem_cons_self]
    rfl
  | .symbol name =>
    show Value.symbol (ρ.node first) name = _
    rw [hnode.head Nat.one_pos]
    rfl
  | .marked style gap form =>
    have hform := rename_placed form (hnode.part 1 (Nat.le_succ _)) hword
    have hlast : ρ.node (first + 1 + form.made) = first' + 1 + form.made := by
      simpa only [Nat.add_assoc] using hnode.last
    simp only [placed, rename_seq, rename_cons, rename_nil, rename_symbol, rename_node, hform, hlast,
      hnode.head (Nat.succ_pos _)]
  | .seq shape gaps items =>
    have hitems := rename_placedEach items (hnode.part 0 (by simp [made])) hword
    simp only [placed, rename_seq, rename_node, hnode.last]
    exact congrArg _ hitems
  | .map gaps entries =>
    have hentries := rename_placedEntries entries (hnode.part 0 (by simp [made])) hword
    simp only [placed, rename_map, rename_node, hnode.last]
    exact congrArg _ hentries

theorem rename_placedEach (forms : List Form) {first first' : NodeId}
    (hnode : ρ.Carries first first' (madeEach forms)) (hword : ρ.Rewords table table' (keywordsEach forms)) :
    rename ρ (placedEach table first forms) = placedEach table' first' forms := by
  match forms with
  | [] => rfl
  | form :: rest =>
    obtain ⟨hform, hrest⟩ := List.forall_mem_append.mp hword
    have hvalue := rename_placed form (hnode.part 0 (by simp [madeEach])) hform
    have hvalues := rename_placedEach rest (hnode.part form.made (Nat.le_refl _)) hrest
    exact congrArg₂ List.cons hvalue hvalues

theorem rename_placedEntries (entries : List (FormKey × Form)) {first first' : NodeId}
    (hnode : ρ.Carries first first' (madeEntries entries))
    (hword : ρ.Rewords table table' (keywordsEntries entries)) :
    rename ρ (placedEntries table first entries) = placedEntries table' first' entries := by
  match entries with
  | [] => rfl
  | (key, form) :: rest =>
    obtain ⟨hentry, hrest⟩ := List.forall_mem_append.mp hword
    obtain ⟨hkey, hform⟩ := List.forall_mem_append.mp hentry
    have hvalue := rename_placed form (hnode.part 0 (by simp [madeEntries])) hform
    have hvalues := rename_placedEntries rest (hnode.part form.made (Nat.le_refl _)) hrest
    exact congrArg₂ List.cons (congrArg₂ Prod.mk (FormKey.rename_placed hkey) hvalue) hvalues

end

end Form

end places

end EditableLisp
