import EditableLisp.Proofs.Encoding
import EditableLisp.Proofs.Interning
import EditableLisp.Proofs.Templates

/-!
# Values from JSON texts

`Tree.value? keywords` is the value of a tree where the keywords have these names; there is none if a
keyword is missing. Decoding first interns the keywords that are missing, and then makes the value out of
new nodes (`alike_toValue`). So what a lawful library writes of a tree is decoded to its value
(`Lawful.decodeJson_write`).
-/

namespace EditableLisp

namespace Json

/-! ## Values of trees -/

/-- The key that a string stands for, where the keywords have these names. -/
def key? (keywords : Array String) (s : String) : Option Key :=
  match keywordName? s with
  | some name => (keywords.idxOf? name).map fun id => .keyword ⟨id, name⟩
  | none => some (.text s)

namespace Tree

mutual

/-- The value of a tree. -/
def value? (keywords : Array String) : Tree → Option Value
  | .null => some .nil
  | .bool b => some (.bool b)
  | .int n => some (.num (.ofInt n))
  | .num x => some (.num x)
  | .str s => (key? keywords s).map Key.toValue
  | .arr items => (values? keywords items).map (.seq .vector (.bare 0))
  | .obj members => (pairs? keywords members).map fun es => .map (.bare 0) (Entries.ofPairs es)

/-- The values of trees. -/
def values? (keywords : Array String) : List Tree → Option (List Value)
  | [] => some []
  | t :: rest => do
    let v ← t.value? keywords
    let vs ← values? keywords rest
    return v :: vs

/-- The pairs of members. -/
def pairs? (keywords : Array String) : List (String × Tree) → Option Entries
  | [] => some []
  | (name, t) :: rest => do
    let v ← t.value? keywords
    let k ← key? keywords name
    let es ← pairs? keywords rest
    return (k, v) :: es

end

end Tree

/-! ## Keywords -/

variable {keywords : Array String} {s : String} {k : Key} {w : World}

theorem key?_of_name {name : String} (hs : keywordName? s = some name) :
    key? keywords s = (keywords.idxOf? name).map fun id => .keyword ⟨id, name⟩ := by
  unfold key?
  rw [hs]

theorem key?_of_none (hs : keywordName? s = none) : key? keywords s = some (.text s) := by
  unfold key?
  rw [hs]

/-- A string stands for a key if its name is interned. -/
theorem exists_key? (h : ∀ name, keywordName? s = some name → name ∈ keywords) :
    ∃ k, key? keywords s = some k := by
  cases hs : keywordName? s with
  | none => exact ⟨_, key?_of_none hs⟩
  | some name =>
    obtain ⟨i, hi⟩ : ∃ i, keywords.idxOf? name = some i := by
      rw [← Option.isSome_iff_exists, Option.isSome_iff_ne_none, ne_eq, Array.idxOf?_eq_none_iff]
      exact not_not_intro (h name hs)
    exact ⟨_, by rw [key?_of_name hs, hi]; rfl⟩

theorem mem_of_key? (h : key? keywords s = some k) {name : String} (hs : keywordName? s = some name) :
    name ∈ keywords := by
  by_contra hmem
  rw [key?_of_name hs, Array.idxOf?_eq_none_iff.mpr hmem] at h
  cases h

/-- A key whose name is interned is made without a change. -/
theorem toKey_of_key? (h : key? w.keywords s = some k) : toKey s w = (k, w) := by
  unfold toKey
  cases hs : keywordName? s with
  | none =>
    rw [key?_of_none hs] at h
    cases h
    rfl
  | some name =>
    rw [key?_of_name hs] at h
    obtain ⟨i, hi, rfl⟩ := Option.map_eq_some_iff.mp h
    have hintern : intern name w = (⟨i, name⟩, w) := by
      unfold intern
      rw [Change.modifyGet_apply, hi]
    show (Key.keyword (intern name w).1, (intern name w).2) = _
    rw [hintern]

end Json

namespace Json

/-! ## Trees to values -/

namespace Tree

variable {keywords : Array String}

mutual

/-- A tree has a value if its strings stand for keys, and only then. -/
theorem isSome_value? (t : Tree) :
    (t.value? keywords).isSome ↔ ∀ s ∈ t.strings, (key? keywords s).isSome := by
  match t with
  | .null | .bool _ | .int _ | .num _ =>
    unfold value? strings
    exact iff_of_true rfl (List.forall_mem_nil _)
  | .str s =>
    unfold value? strings
    rw [Option.isSome_map, List.forall_mem_singleton]
  | .arr items =>
    unfold value? strings
    rw [Option.isSome_map, isSome_values? items]
  | .obj members =>
    unfold value? strings
    rw [Option.isSome_map, isSome_pairs? members]

theorem isSome_values? (items : List Tree) :
    (values? keywords items).isSome ↔ ∀ s ∈ stringsEach items, (key? keywords s).isSome := by
  match items with
  | [] =>
    unfold values? stringsEach
    exact iff_of_true rfl (List.forall_mem_nil _)
  | t :: rest =>
    have ht := isSome_value? t
    have hrest := isSome_values? rest
    unfold values? stringsEach
    rw [List.forall_mem_append, ← ht, ← hrest]
    cases t.value? keywords <;> cases values? keywords rest <;> simp

theorem isSome_pairs? (members : List (String × Tree)) :
    (pairs? keywords members).isSome ↔ ∀ s ∈ memberStrings members, (key? keywords s).isSome := by
  match members with
  | [] =>
    unfold pairs? memberStrings
    exact iff_of_true rfl (List.forall_mem_nil _)
  | (name, t) :: rest =>
    have ht := isSome_value? t
    have hrest := isSome_pairs? rest
    unfold pairs? memberStrings
    rw [List.forall_mem_append, List.forall_mem_cons, ← ht, ← hrest]
    cases t.value? keywords <;> cases key? keywords name <;> cases pairs? keywords rest <;> simp

end

end Tree

end Json

/-! ## Entries of alike values -/

namespace Entries

open Value

theorem alikeEntries_put (k : Key) {u v : Value} (h : u.Alike v) {es fs : Entries}
    (hes : AlikeEntries es fs) : AlikeEntries (put k u es) (put k v fs) := by
  induction es generalizing fs with
  | nil =>
    unfold AlikeEntries at hes
    rw [hes]
    exact alikeEntries_cons_iff.mpr ⟨h, AlikeEntries.refl []⟩
  | cons e rest ih =>
    obtain ⟨key, x⟩ := e
    have hes' := hes
    unfold AlikeEntries at hes
    obtain ⟨y, ys, hy, hys, rfl⟩ := hes
    unfold put
    split
    · exact alikeEntries_cons_iff.mpr ⟨h, hys⟩
    · exact alikeEntries_cons_iff.mpr ⟨hy, ih hys⟩

/-- Maps of alike entries are alike. -/
theorem alikeEntries_ofPairs {es fs : Entries} (h : AlikeEntries es fs) :
    AlikeEntries (ofPairs es) (ofPairs fs) := by
  have hall : ∀ {es fs done done' : Entries}, AlikeEntries done done' → AlikeEntries es fs →
      AlikeEntries (putAll done es) (putAll done' fs) := by
    intro es
    induction es with
    | nil =>
      intro fs done done' hdone h
      unfold AlikeEntries at h
      rw [h]
      exact hdone
    | cons e rest ih =>
      intro fs done done' hdone h
      obtain ⟨key, x⟩ := e
      unfold AlikeEntries at h
      obtain ⟨y, ys, hy, hys, rfl⟩ := h
      show AlikeEntries (putAll (put key x done) rest) (putAll (put key y done') ys)
      exact ih (alikeEntries_put key hy hdone) hys
  exact hall (AlikeEntries.refl []) h

end Entries

/-! ## Decoding -/

namespace Json.Tree

open Value

mutual

/-- **Where its names are interned, a tree becomes its value, in new nodes.** -/
theorem alike_toValue (t : Tree) {w : World} {v : Value} (h : t.value? w.keywords = some v) :
    ∃ u id, t.toValue w = (u, w.withNextId id) ∧ v.Alike u := by
  match t with
  | .null | .bool _ | .int _ | .num _ =>
    unfold value? at h
    cases h
    exact ⟨_, w.nextId, rfl, Alike.refl _⟩
  | .str s =>
    unfold value? at h
    obtain ⟨k, hk, rfl⟩ := Option.map_eq_some_iff.mp h
    refine ⟨k.toValue, w.nextId, ?_, Alike.refl _⟩
    show ((toKey s w).1.toValue, (toKey s w).2) = _
    rw [toKey_of_key? hk]
    rfl
  | .arr items =>
    unfold value? at h
    obtain ⟨vs, hvs, rfl⟩ := Option.map_eq_some_iff.mp h
    obtain ⟨us, id, hus, halike⟩ := alike_toValues items #[] hvs
    refine ⟨.seq .vector (.bare id) us, id + 1, ?_, alike_vector_iff.mpr halike⟩
    show newVector (toValues #[] items w).1 (toValues #[] items w).2 = _
    rw [hus]
    rfl
  | .obj members =>
    unfold value? at h
    obtain ⟨es, hes, rfl⟩ := Option.map_eq_some_iff.mp h
    obtain ⟨fs, id, hfs, halike⟩ := alike_toPairs members #[] hes
    refine ⟨.map (.bare id) (Entries.ofPairs fs), id + 1, ?_,
      alike_map_iff.mpr (Entries.alikeEntries_ofPairs halike)⟩
    show newMap (Entries.ofPairs (toPairs #[] members w).1) (toPairs #[] members w).2 = _
    rw [hfs]
    rfl

theorem alike_toValues (items : List Tree) (done : Array Value) {w : World} {vs : List Value}
    (h : values? w.keywords items = some vs) :
    ∃ us id, toValues done items w = (done.toList ++ us, w.withNextId id) ∧ AlikeEach vs us := by
  match items with
  | [] =>
    unfold values? at h
    cases h
    exact ⟨[], w.nextId, by rw [List.append_nil]; rfl, AlikeEach.refl []⟩
  | t :: rest =>
    unfold values? at h
    obtain ⟨v, hv, h⟩ := Option.bind_eq_some_iff.mp h
    obtain ⟨vs, hvs, h⟩ := Option.bind_eq_some_iff.mp h
    cases h
    obtain ⟨u, id, hu, halike⟩ := alike_toValue t hv
    obtain ⟨us, id', hus, hrest⟩ := @alike_toValues rest (done.push u) (w.withNextId id) vs hvs
    refine ⟨u :: us, id', ?_, alikeEach_cons_iff.mpr ⟨halike, hrest⟩⟩
    show toValues (done.push (t.toValue w).1) rest (t.toValue w).2 = _
    rw [hu, hus, Array.toList_push, List.append_assoc, List.singleton_append]
    rfl

theorem alike_toPairs (members : List (String × Tree)) (done : Array (Key × Value)) {w : World}
    {es : Entries} (h : pairs? w.keywords members = some es) :
    ∃ fs id, toPairs done members w = (done.toList ++ fs, w.withNextId id) ∧ AlikeEntries es fs := by
  match members with
  | [] =>
    unfold pairs? at h
    cases h
    exact ⟨[], w.nextId, by rw [List.append_nil]; rfl, AlikeEntries.refl []⟩
  | (name, t) :: rest =>
    unfold pairs? at h
    obtain ⟨v, hv, h⟩ := Option.bind_eq_some_iff.mp h
    obtain ⟨k, hk, h⟩ := Option.bind_eq_some_iff.mp h
    obtain ⟨es, hes, h⟩ := Option.bind_eq_some_iff.mp h
    cases h
    obtain ⟨u, id, hu, halike⟩ := alike_toValue t hv
    obtain ⟨fs, id', hfs, hrest⟩ := @alike_toPairs rest (done.push (k, u)) (w.withNextId id) es hes
    have hkey : toKey name (w.withNextId id) = (k, w.withNextId id) := toKey_of_key? hk
    refine ⟨(k, u) :: fs, id', ?_, alikeEntries_cons_iff.mpr ⟨halike, hrest⟩⟩
    show toPairs (done.push ((toKey name (t.toValue w).2).1, (t.toValue w).1)) rest
      (toKey name (t.toValue w).2).2 = _
    rw [hu, hkey, hfs, Array.toList_push, List.append_assoc, List.singleton_append]
    rfl

end

end Json.Tree

namespace Json

variable [Library] {t : Tree} {w : World} {v : Value}

/-- What a value with a tree is written as. -/
theorem encodeJson_of_tree? (ht : w.tree? v = some t) : encodeJson v w = .ok (Library.write t) w := by
  have hjson : w.json? v = some (Library.write t) := by
    unfold World.json?
    rw [ht, Option.map_some]
  unfold encodeJson
  rw [Act.get_bind, hjson]
  rfl

/-- **What was written of a tree is decoded to its value.** The keywords that are missing are interned. -/
theorem Lawful.decodeJson_write (hlawful : Lawful) (h : t.settled.Plain depthMax) (w : World) :
    ∃ u v keywords id, decodeJson (Library.write t) w = .ok u ((w.withKeywords keywords).withNextId id) ∧
      t.settled.value? keywords = some v ∧ v.Alike u ∧ w.keywords.toList <+: keywords.toList ∧
      ((t.settled.value? w.keywords).isSome → keywords = w.keywords) := by
  let names := t.settled.strings.filterMap keywordName?
  let keywords := internedAll names w.keywords
  have hread : Library.read (Library.write t) = ⟨t.settled.strings, some t.settled⟩ := by
    rw [← hlawful.write_settled]
    exact hlawful.read_write _ h
  have hsome : (t.settled.value? keywords).isSome := by
    refine (Tree.isSome_value? _).mpr fun s hs =>
      Option.isSome_iff_exists.mpr (exists_key? fun name hname => ?_)
    exact mem_internedAll_iff.mpr (.inr (List.mem_filterMap.mpr ⟨s, hs, hname⟩))
  obtain ⟨v, hv⟩ := Option.isSome_iff_exists.mp hsome
  obtain ⟨u, id, hu, halike⟩ := @Tree.alike_toValue t.settled (w.withKeywords keywords) v hv
  refine ⟨u, v, keywords, id, ?_, hv, halike, prefix_internedAll names w.keywords,
    fun hw => internedAll_of_mem fun name hname => ?_⟩
  · unfold decodeJson
    rw [hread]
    show (liftM t.settled.toValue : Act Value) (internAll names w).2 = _
    rw [internAll_eq]
    exact lift_of_eq hu
  · obtain ⟨s, hs, hname⟩ := List.mem_filterMap.mp hname
    obtain ⟨k, hk⟩ := Option.isSome_iff_exists.mp ((Tree.isSome_value? _).mp hw s hs)
    exact mem_of_key? hk hname

end Json

end EditableLisp
