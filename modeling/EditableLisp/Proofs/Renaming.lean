import Mathlib.Logic.Function.Basic
import EditableLisp.Expansion
import EditableLisp.Builtin.Mapping
import EditableLisp.Builtin.Question

/-!
# Renaming identities

A `Renaming` gives nodes, functions and keywords other identities, different ones for different ones. Frames,
atoms and names stay. `rename ρ a` is `a` with the new identities; what programs can see of a value is the same
before and after: its kind, its names, and to what it is equal or identical.
-/

namespace EditableLisp

/-- Other identities for nodes and functions, and for keywords. -/
structure Renaming where
  node : NodeId → NodeId
  word : Nat → Nat
  node_injective : Function.Injective node
  word_injective : Function.Injective word

/-- Things that hold identities. -/
class Renamed (α : Type) where
  rename : Renaming → α → α

export Renamed (rename)

namespace Renaming

variable (ρ : Renaming)

/-- Every identity stays what it is. -/
protected def id : Renaming := ⟨fun i => i, fun i => i, fun _ _ h => h, fun _ _ h => h⟩

@[simp] theorem node_inj {i j : NodeId} : ρ.node i = ρ.node j ↔ i = j := ρ.node_injective.eq_iff

@[simp] theorem node_beq (i j : NodeId) : (ρ.node i == ρ.node j) = (i == j) := by
  rw [Bool.eq_iff_iff, beq_iff_eq, beq_iff_eq, node_inj]

@[simp] theorem word_beq (i j : Nat) : (ρ.word i == ρ.word j) = (i == j) := by
  rw [Bool.eq_iff_iff, beq_iff_eq, beq_iff_eq, ρ.word_injective.eq_iff]

end Renaming

/-! ## Instances -/

section instances

variable {α β : Type} [Renamed α] [Renamed β]

instance : Renamed Unit := ⟨fun _ a => a⟩

instance : Renamed Bool := ⟨fun _ a => a⟩

instance : Renamed Nat := ⟨fun _ a => a⟩

instance : Renamed String := ⟨fun _ a => a⟩

instance : Renamed Number := ⟨fun _ a => a⟩

instance : Renamed UInt64 := ⟨fun _ a => a⟩

instance : Renamed Env := ⟨fun _ a => a⟩

instance : Renamed Rendered := ⟨fun _ a => a⟩

instance : Renamed (List α) := ⟨fun ρ as => as.map (rename ρ)⟩

instance : Renamed (Array α) := ⟨fun ρ as => as.map (rename ρ)⟩

instance : Renamed (Option α) := ⟨fun ρ a => a.map (rename ρ)⟩

instance : Renamed (α × β) := ⟨fun ρ p => (rename ρ p.1, rename ρ p.2)⟩

instance {ε : Type} : Renamed (Except ε α) := ⟨fun ρ a => a.map (rename ρ)⟩

instance : Renamed Keyword := ⟨fun ρ k => ⟨ρ.word k.id, k.name⟩⟩

instance : Renamed Node := ⟨fun ρ node => { node with id := ρ.node node.id }⟩

instance : Renamed Key where
  rename ρ
    | .keyword k => .keyword (rename ρ k)
    | .text s => .text s

end instances

mutual

/-- A value with other identities. -/
def Value.renamed (ρ : Renaming) : Value → Value
  | .nil => .nil
  | .bool b => .bool b
  | .num x => .num x
  | .text s => .text s
  | .keyword k => .keyword (rename ρ k)
  | .symbol id name => .symbol (ρ.node id) name
  | .seq shape node items => .seq shape (rename ρ node) (Value.renamedEach ρ items)
  | .map node entries => .map (rename ρ node) (Value.renamedEntries ρ entries)
  | .builtin id code data => .builtin (ρ.node id) code (data.renamed ρ)
  | .closure id kind params body env data =>
    .closure (ρ.node id) kind (params.renamed ρ) (body.renamed ρ) env (data.renamed ρ)
  | .atom id => .atom id

/-- Values with other identities. -/
def Value.renamedEach (ρ : Renaming) : List Value → List Value
  | [] => []
  | v :: rest => v.renamed ρ :: renamedEach ρ rest

/-- Entries with other identities. -/
def Value.renamedEntries (ρ : Renaming) : List (Key × Value) → List (Key × Value)
  | [] => []
  | (k, v) :: rest => (rename ρ k, v.renamed ρ) :: renamedEntries ρ rest

end

instance : Renamed Value := ⟨Value.renamed⟩

instance : Renamed Binding := ⟨fun ρ b => ⟨rename ρ b.value, rename ρ b.site⟩⟩

instance : Renamed Tables := ⟨fun ρ t => ⟨rename ρ t.values, rename ρ t.defs⟩⟩

instance : Renamed Lookup := ⟨fun ρ l => ⟨l.env, l.name, rename ρ l.value⟩⟩

instance : Renamed Expansion where
  rename ρ
    | .constant maker form reads => .constant (rename ρ maker) (rename ρ form) (rename ρ reads)
    | .bound maker template env => .bound (rename ρ maker) (rename ρ template) env
    | .unchanged => .unchanged

variable (ρ : Renaming)

section shapes

variable {α β : Type} [Renamed α] [Renamed β]

theorem rename_list (as : List α) : rename ρ as = as.map (rename ρ) := rfl

theorem rename_option (a : Option α) : rename ρ a = a.map (rename ρ) := rfl

@[simp] theorem rename_nil : rename ρ ([] : List α) = [] := rfl

theorem rename_cons (a : α) (as : List α) : rename ρ (a :: as) = rename ρ a :: rename ρ as := rfl

theorem rename_pair (a : α) (b : β) : rename ρ (a, b) = (rename ρ a, rename ρ b) := rfl

theorem rename_append (as bs : List α) : rename ρ (as ++ bs) = rename ρ as ++ rename ρ bs := List.map_append

theorem rename_reverse (as : List α) : rename ρ as.reverse = (rename ρ as).reverse := List.map_reverse

@[simp] theorem length_rename (as : List α) : (rename ρ as).length = as.length := List.length_map _

@[simp] theorem isEmpty_rename (as : List α) : (rename ρ as).isEmpty = as.isEmpty := List.isEmpty_map

theorem toList_rename (as : Array α) : (rename ρ as).toList = rename ρ as.toList := Array.toList_map

@[simp] theorem rename_empty : rename ρ (#[] : Array α) = #[] := Array.map_empty

theorem rename_push (as : Array α) (a : α) : rename ρ (as.push a) = (rename ρ as).push (rename ρ a) :=
  Array.map_push

theorem rename_array_append (as : Array α) (bs : List α) : rename ρ (as ++ bs) = rename ρ as ++ rename ρ bs := by
  show Array.map _ _ = Array.map _ _ ++ List.map _ _
  rw [← Array.toList_inj]
  simp

theorem rename_seq (shape : Shape) (node : Node) (items : List Value) :
    rename ρ (.seq shape node items : Value) = .seq shape (rename ρ node) (rename ρ items) := by
  have hitems : Value.renamedEach ρ items = rename ρ items := by
    induction items with
    | nil => rfl
    | cons v rest ih =>
      unfold Value.renamedEach
      rw [ih]
      rfl
  show Value.renamed ρ _ = _
  unfold Value.renamed
  rw [hitems]

theorem rename_map (node : Node) (entries : Entries) :
    rename ρ (.map node entries : Value) = .map (rename ρ node) (rename ρ entries) := by
  have hentries : Value.renamedEntries ρ entries = rename ρ entries := by
    induction entries with
    | nil => rfl
    | cons e rest ih =>
      unfold Value.renamedEntries
      rw [ih]
      rfl
  show Value.renamed ρ _ = _
  unfold Value.renamed
  rw [hentries]

@[simp] theorem rename_nil_value : rename ρ Value.nil = .nil := rfl

@[simp] theorem rename_bool (b : Bool) : rename ρ (.bool b : Value) = .bool b := rfl

@[simp] theorem rename_num (x : Number) : rename ρ (.num x : Value) = .num x := rfl

@[simp] theorem rename_text (s : String) : rename ρ (.text s : Value) = .text s := rfl

@[simp] theorem rename_atom (id : AtomId) : rename ρ (.atom id : Value) = .atom id := rfl

theorem rename_keyword (k : Keyword) : rename ρ (.keyword k : Value) = .keyword (rename ρ k) := rfl

theorem rename_symbol (id : NodeId) (name : String) :
    rename ρ (.symbol id name : Value) = .symbol (ρ.node id) name := rfl

theorem rename_builtin (id : NodeId) (code : Builtin) (data : Value) :
    rename ρ (.builtin id code data : Value) = .builtin (ρ.node id) code (rename ρ data) := rfl

theorem rename_closure (id : NodeId) (kind : ClosureKind) (params body : Value) (env : Env) (data : Value) :
    rename ρ (.closure id kind params body env data : Value) =
      .closure (ρ.node id) kind (rename ρ params) (rename ρ body) env (rename ρ data) := rfl

theorem rename_bare (id : NodeId) : rename ρ (Node.bare id) = .bare (ρ.node id) := rfl

end shapes

/-- Things that hold no identities. -/
class Plain (α : Type) [Renamed α] : Prop where
  rename_eq : ∀ (ρ : Renaming) (a : α), rename ρ a = a

@[simp] theorem rename_plain {α : Type} [Renamed α] [Plain α] (a : α) : rename ρ a = a := Plain.rename_eq ρ a

instance : Plain Unit := ⟨fun _ _ => rfl⟩

instance : Plain Bool := ⟨fun _ _ => rfl⟩

instance : Plain Nat := ⟨fun _ _ => rfl⟩

instance : Plain String := ⟨fun _ _ => rfl⟩

instance : Plain Number := ⟨fun _ _ => rfl⟩

instance : Plain UInt64 := ⟨fun _ _ => rfl⟩

instance : Plain Env := ⟨fun _ _ => rfl⟩

instance : Plain Rendered := ⟨fun _ _ => rfl⟩

instance {α : Type} [Renamed α] [Plain α] : Plain (List α) :=
  ⟨fun ρ as => (List.map_congr_left fun a _ => rename_plain ρ a).trans (List.map_id' as)⟩

instance {α : Type} [Renamed α] [Plain α] : Plain (Option α) :=
  ⟨fun ρ a => by cases a with
    | none => rfl
    | some a => exact congrArg some (rename_plain ρ a)⟩

/-! ## The identity -/

/-- Things that stay as they are if every identity does. -/
class Kept (α : Type) [Renamed α] : Prop where
  rename_id : ∀ a : α, rename Renaming.id a = a

/-- Renaming by the identity changes nothing. -/
@[simp] theorem rename_id {α : Type} [Renamed α] [Kept α] (a : α) : rename Renaming.id a = a := Kept.rename_id a

section kept

variable {α β : Type} [Renamed α] [Renamed β] [Kept α] [Kept β]

instance (priority := low) {α : Type} [Renamed α] [Plain α] : Kept α := ⟨rename_plain _⟩

instance : Kept (List α) := ⟨fun as => (List.map_congr_left fun a _ => rename_id a).trans (List.map_id' as)⟩

instance : Kept (Array α) := ⟨fun as => by
  have hid : rename Renaming.id = fun a : α => a := funext rename_id
  show as.map (rename Renaming.id) = as
  rw [hid, Array.map_id']⟩

instance : Kept (Option α) := ⟨fun a => by
  cases a with
  | none => rfl
  | some a => exact congrArg some (rename_id a)⟩

instance : Kept (α × β) := ⟨fun p => by
  show (rename Renaming.id p.1, rename Renaming.id p.2) = p
  rw [rename_id, rename_id]⟩

instance : Kept Key := ⟨fun k => by cases k <;> rfl⟩

end kept

instance : Kept Value where
  rename_id v := by
    induction v using Value.ofParts with
    | seq shape node items ih =>
      have hitems : rename Renaming.id items = items := (List.map_congr_left ih).trans (List.map_id' items)
      rw [rename_seq, hitems]
      rfl
    | map node entries ih =>
      have hentries : rename Renaming.id entries = entries := by
        refine (List.map_congr_left fun e he => ?_).trans (List.map_id' entries)
        obtain ⟨k, v⟩ := e
        have hv : rename Renaming.id v = v := ih _ he
        show (rename Renaming.id k, rename Renaming.id v) = (k, v)
        rw [hv, rename_id]
      rw [rename_map, hentries]
      rfl
    | builtin id code data ih =>
      rw [rename_builtin, ih]
      rfl
    | closure id kind params body env data hp hb hd =>
      rw [rename_closure, hp, hb, hd]
      rfl
    | _ => rfl

instance : Kept Binding := ⟨fun b => by
  show (⟨rename Renaming.id b.value, rename Renaming.id b.site⟩ : Binding) = b
  rw [rename_id, rename_id]⟩

instance : Kept Tables := ⟨fun t => by
  show (⟨rename Renaming.id t.values, rename Renaming.id t.defs⟩ : Tables) = t
  rw [rename_id, rename_id]⟩

instance : Kept Lookup := ⟨fun l => by
  show (⟨l.env, l.name, rename Renaming.id l.value⟩ : Lookup) = l
  rw [rename_id]⟩

instance : Kept Expansion := ⟨fun e => by
  cases e with
  | constant maker form reads =>
    show Expansion.constant (rename _ maker) (rename _ form) (rename _ reads) = _
    rw [rename_id, rename_id, rename_id]
  | bound maker template env =>
    show Expansion.bound (rename _ maker) (rename _ template) env = _
    rw [rename_id, rename_id]
  | unchanged => rfl⟩

/-! ## What programs see -/

namespace Value

@[simp] theorem kind_rename (v : Value) : (rename ρ v).kind = v.kind := by
  cases v with
  | seq shape node items => rw [rename_seq]; cases shape <;> rfl
  | map node entries => rw [rename_map]; rfl
  | _ => rfl

@[simp] theorem isTruthy_rename (v : Value) : (rename ρ v).isTruthy = v.isTruthy := by
  cases v <;> rfl

@[simp] theorem name?_rename (v : Value) : (rename ρ v).name? = v.name? := by
  cases v <;> rfl

@[simp] theorem key?_rename (v : Value) : (rename ρ v).key? = rename ρ v.key? := by
  cases v <;> rfl

@[simp] theorem headName?_rename (items : List Value) : headName? (rename ρ items) = headName? items := by
  cases items with
  | nil => rfl
  | cons v rest => cases v <;> rfl

@[simp] theorem functionId?_rename (v : Value) : (rename ρ v).functionId?.isNone = v.functionId?.isNone := by
  cases v <;> rfl

@[simp] theorem isExpander_rename (v : Value) : (rename ρ v).isExpander = v.isExpander := by
  cases v <;> rfl

@[simp] theorem metadata_rename (v : Value) : (rename ρ v).metadata = rename ρ v.metadata := by
  cases v <;> rfl

@[simp] theorem identical_rename (u v : Value) : (rename ρ u).identical (rename ρ v) = u.identical v := by
  cases u <;> cases v <;> first | rfl | skip
  case keyword.keyword a b => exact ρ.word_beq a.id b.id
  case symbol.symbol a _ b _ => exact ρ.node_beq a b
  case seq.seq s a _ t b _ =>
    rw [rename_seq, rename_seq]
    show (s == t && ρ.node a.id == ρ.node b.id) = (s == t && a.id == b.id)
    rw [ρ.node_beq]
  case map.map a _ b _ => exact ρ.node_beq a.id b.id
  case builtin.builtin a _ _ b _ _ => exact ρ.node_beq a b
  case closure.closure a _ _ _ _ _ b _ _ _ _ _ => exact ρ.node_beq a b

end Value

namespace Key

@[simp] theorem name_rename (k : Key) : (rename ρ k).name = k.name := by
  cases k <;> rfl

@[simp] theorem toValue_rename (k : Key) : (rename ρ k).toValue = rename ρ k.toValue := by
  cases k <;> rfl

end Key

/-! ## Entries -/

namespace Entries

theorem rename_put (k : Key) (v : Value) (entries : Entries) :
    rename ρ (put k v entries) = put (rename ρ k) (rename ρ v) (rename ρ entries) := by
  induction entries with
  | nil => rfl
  | cons e rest ih =>
    rw [rename_cons]
    unfold put
    show _ = if (rename ρ e.1).name == (rename ρ k).name then _ else _
    rw [Key.name_rename, Key.name_rename]
    split
    · rfl
    · rw [rename_cons, ih]

theorem rename_putAll (entries pairs : Entries) :
    rename ρ (putAll entries pairs) = putAll (rename ρ entries) (rename ρ pairs) := by
  induction pairs generalizing entries with
  | nil => rfl
  | cons e rest ih =>
    show rename ρ (putAll (put e.1 e.2 entries) rest) =
      putAll (put (rename ρ e.1) (rename ρ e.2) (rename ρ entries)) (rename ρ rest)
    rw [ih, rename_put]

theorem rename_ofPairs (pairs : Entries) : rename ρ (ofPairs pairs) = ofPairs (rename ρ pairs) :=
  rename_putAll ρ [] pairs

theorem find?_rename {p q : Key × Value → Bool} (h : ∀ e, q (rename ρ e) = p e) (entries : Entries) :
    (rename ρ entries).find? q = rename ρ (entries.find? p) := by
  rw [rename_list, List.find?_map]
  have hpq : q ∘ rename ρ = p := funext h
  rw [hpq]
  rfl

theorem rename_without (entries : Entries) (names : List String) :
    rename ρ (without entries names) = without (rename ρ entries) names := by
  unfold without
  rw [rename_list, rename_list, List.filter_map]
  congr 1
  refine List.filter_congr fun e _ => ?_
  show _ = !names.contains (rename ρ e.1).name
  rw [Key.name_rename]

theorem byName?_rename (entries : Entries) (name : String) :
    (rename ρ entries).byName? name = rename ρ (entries.byName? name) := by
  have hname : ∀ e : Key × Value, ((rename ρ e).1.name == name) = (e.1.name == name) := fun e => by
    show ((rename ρ e.1).name == name) = _
    rw [Key.name_rename]
  unfold byName?
  rw [find?_rename ρ hname]
  cases entries.find? fun e => e.1.name == name <;> rfl

theorem get?_rename (entries : Entries) (key : Value) :
    (rename ρ entries).get? (rename ρ key) = rename ρ (entries.get? key) := by
  cases key with
  | keyword k =>
    have hkeyword : ∀ e : Key × Value, hasKeyword (rename ρ k) (rename ρ e) = hasKeyword k e := by
      intro e
      obtain ⟨key, v⟩ := e
      cases key with
      | keyword k' => exact ρ.word_beq k'.id k.id
      | text s => rfl
    rw [rename_keyword]
    unfold get?
    dsimp only
    rw [find?_rename ρ hkeyword]
    cases entries.find? (hasKeyword k) with
    | none => exact byName?_rename ρ entries k.name
    | some e => rfl
  | text s => exact byName?_rename ρ entries s
  | _ => rfl

end Entries

/-! ## Equality -/

namespace Value

mutual

@[simp] theorem equal_rename (u v : Value) : (rename ρ u).equal (rename ρ v) = u.equal v := by
  match u with
  | .nil | .bool _ | .num _ | .text _ | .atom _ =>
    cases v <;> rfl
  | .keyword a =>
    cases v <;> first | rfl | skip
    case keyword b => exact ρ.word_beq a.id b.id
  | .symbol _ _ =>
    cases v <;> rfl
  | .builtin a _ _ =>
    cases v <;> first | rfl | skip
    case builtin b _ _ => exact ρ.node_beq a b
  | .closure a _ _ _ _ _ =>
    cases v <;> first | rfl | skip
    case closure b _ _ _ _ _ => exact ρ.node_beq a b
  | .seq _ _ as =>
    cases v <;> first | rfl | skip
    case seq t node bs =>
      rw [rename_seq, rename_seq]
      show equalItems (rename ρ as) (rename ρ bs) = equalItems as bs
      exact equalItems_rename as bs
  | .map _ as =>
    cases v <;> first | rfl | skip
    case map node bs =>
      rw [rename_map, rename_map]
      show ((rename ρ as).length == (rename ρ bs).length && equalEntries (rename ρ as) (rename ρ bs)) =
        (as.length == bs.length && equalEntries as bs)
      rw [length_rename, length_rename, equalEntries_rename as bs]

theorem equalItems_rename (as bs : List Value) : equalItems (rename ρ as) (rename ρ bs) = equalItems as bs := by
  match as, bs with
  | [], [] | [], _ :: _ | _ :: _, [] => rfl
  | a :: as, b :: bs =>
    show (equal (rename ρ a) (rename ρ b) && equalItems (rename ρ as) (rename ρ bs)) =
      (equal a b && equalItems as bs)
    rw [equal_rename a b, equalItems_rename as bs]

theorem equalEntries_rename (as : List (Key × Value)) (bs : Entries) :
    equalEntries (rename ρ as) (rename ρ bs) = equalEntries as bs := by
  match as with
  | [] => rfl
  | (k, v) :: rest =>
    have hname : ∀ e : Key × Value, ((rename ρ e).1.name == (rename ρ k).name) = (e.1.name == k.name) := by
      intro e
      show ((rename ρ e.1).name == _) = _
      rw [Key.name_rename, Key.name_rename]
    rw [rename_cons]
    show ((match (rename ρ bs).find? (fun e => e.1.name == (rename ρ k).name) with
        | some e => equal (rename ρ v) e.2
        | none => false) && equalEntries (rename ρ rest) (rename ρ bs)) = _
    rw [Entries.find?_rename ρ hname, equalEntries_rename rest bs]
    show _ = ((match bs.find? (fun e => e.1.name == k.name) with
        | some e => equal v e.2
        | none => false) && equalEntries rest bs)
    cases bs.find? fun e => e.1.name == k.name with
    | none => rfl
    | some e =>
      show (equal (rename ρ v) (rename ρ e.2) && _) = _
      rw [equal_rename v e.2]

end

end Value

/-! ## Frames -/

namespace Frame

theorem get?_rename (name : String) (frame : Frame) :
    get? name (rename ρ frame) = rename ρ (get? name frame) := by
  induction frame with
  | nil => rfl
  | cons e rest ih =>
    rw [rename_cons]
    unfold get?
    show (if e.1 == name then some (rename ρ e.2) else get? name (rename ρ rest)) = _
    rw [ih]
    split <;> rfl

end Frame

/-- A table with other identities has the same names. -/
theorem lookup_rename (name : String) (table : List (String × Value)) :
    (rename ρ table).lookup name = rename ρ (table.lookup name) := by
  induction table with
  | nil => rfl
  | cons e rest ih =>
    rw [rename_cons, rename_pair, List.lookup_cons, List.lookup_cons, ih]
    show (match name == e.1 with | true => some (rename ρ e.2) | false => _) = _
    cases name == e.1 <;> rfl

theorem rename_without (name : String) (table : List (String × Value)) :
    rename ρ (without name table) = without name (rename ρ table) := by
  unfold without
  rw [rename_list, rename_list, List.filter_map]
  rfl

namespace Tables

theorem bindings_rename (t : Tables) : (rename ρ t).bindings = rename ρ t.bindings := by
  unfold bindings
  show ((rename ρ t.values).map _ : Frame) = (t.values.map _).map (rename ρ)
  rw [rename_list, List.map_map, List.map_map]
  refine List.map_congr_left fun e _ => ?_
  show (e.1, Binding.mk (rename ρ e.2) ((rename ρ t.defs).lookup e.1)) = _
  rw [lookup_rename]
  rfl

theorem rename_put (name : String) (b : Binding) (t : Tables) :
    rename ρ (t.put name b) = (rename ρ t).put name (rename ρ b) := by
  obtain ⟨v, _ | site⟩ := b
  · show Tables.mk (rename ρ (_ :: without name t.values)) (rename ρ (without name t.defs)) = _
    rw [rename_cons, rename_without, rename_without]
    rfl
  · show Tables.mk (rename ρ (_ :: without name t.values)) (rename ρ (_ :: without name t.defs)) = _
    rw [rename_cons, rename_cons, rename_without, rename_without]
    rfl

end Tables

end EditableLisp
