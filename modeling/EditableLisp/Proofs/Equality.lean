import Mathlib.Data.List.Forall2
import EditableLisp.Proofs.Counting
import EditableLisp.Proofs.FiniteMaps
import EditableLisp.Proofs.Numerals

/-!
# Equality is a partial equivalence

Values are equal if they have the same structure, lists and vectors alike. `Value.equal_isPartialEquivalence` says
that equality is symmetric and transitive, and that a value is equal to itself unless NaN is somewhere in it.

* Numbers are equal if they are the same double other than NaN, or both zero (`Number.equal_iff`).
* The equality of maps asks one side only: each entry of the one has an equal one of its name in the other, and
  there are as many. As the names of a map differ, no entry of the other is left over (`equalEntries_symm`), so maps
  are equal exactly if they have equal values under each name (`equal_map_iff`).
* Nothing is asked of the names for transitivity; for symmetry they have to differ on one side. Where they differ on
  both, the values of two entries may be compared in either order (`equal_comm`).
-/

namespace EditableLisp

/-! ## Numbers -/

namespace Number

open Float.Model

/-- Doubles compare as equal if they are one that is not NaN, or zeros of any sign. -/
theorem compare_eq_iff {u v : UnpackedFloat} : u.compare v = some .eq ↔
    u.isNaN = false ∧ u = v ∨ ∃ s t, u = .zero s ∧ v = .zero t := by
  constructor
  · intro h
    have hfinite : ∀ {e d : Int} {m n : Nat}, (compare e d).then (compare m n) = .eq → e = d ∧ m = n := by
      intro e d m n h
      obtain ⟨he, hm⟩ := Ordering.then_eq_eq.mp h
      exact ⟨Std.compare_eq_iff_eq.mp he, Std.compare_eq_iff_eq.mp hm⟩
    cases u with
    | notANumber => cases h
    | infinity s =>
      cases v with
      | infinity t => cases s <;> cases t <;> first | exact .inl ⟨rfl, rfl⟩ | cases h
      | _ => cases s <;> cases h
    | zero s =>
      cases v with
      | zero t => exact .inr ⟨s, t, rfl, rfl⟩
      | infinity t | finite t => cases t <;> cases h
      | notANumber => cases h
    | finite s m e =>
      cases v with
      | notANumber => cases s <;> cases h
      | infinity t => cases s <;> cases t <;> cases h
      | zero => cases s <;> cases h
      | finite t n d =>
        cases s <;> cases t
        · obtain ⟨rfl, rfl⟩ := hfinite (Ordering.swap_eq_eq.mp (Option.some.inj h))
          exact .inl ⟨rfl, rfl⟩
        · cases h
        · cases h
        · obtain ⟨rfl, rfl⟩ := hfinite (Option.some.inj h)
          exact .inl ⟨rfl, rfl⟩
  · rintro (⟨hnan, rfl⟩ | ⟨s, t, rfl, rfl⟩)
    · exact compare_self hnan
    · rfl

/-- NaN is what has the largest exponent and a mantissa, whatever its sign. -/
theorem isNaN_iff (x : Number) :
    x.isNaN = true ↔ (UnpackedFloat.unpack Format.binary64 x.bits.toBitVec).isNaN = true := by
  have habs : x.abs.bits.toNat = x.bits.toNat % 2 ^ 63 := by
    have hmask : (~~~signBit).toNat = 2 ^ 63 - 1 := rfl
    rw [abs, UInt64.toNat_and, hmask, Nat.and_two_pow_sub_one_eq_mod]
  have hexponent : @UnpackedFloat.unpackExponent Format.binary64 x.bits.toBitVec = -1#_ ↔
      x.bits.toNat / 2 ^ 52 % 2 ^ 11 = 2 ^ 11 - 1 := by
    rw [← BitVec.toNat_inj]
    unfold UnpackedFloat.unpackExponent
    rw [BitVec.toNat_cast, BitVec.extractLsb_toNat, Nat.shiftRight_eq_div_pow, BitVec.neg_one_eq_allOnes,
      BitVec.toNat_allOnes]
    exact Iff.rfl
  have hmantissa : @UnpackedFloat.unpackMantissa Format.binary64 x.bits.toBitVec = 0#_ ↔
      x.bits.toNat % 2 ^ 52 = 0 := by
    rw [← BitVec.toNat_inj]
    unfold UnpackedFloat.unpackMantissa
    rw [BitVec.toNat_cast, BitVec.extractLsb_toNat, Nat.shiftRight_zero]
    exact Iff.rfl
  have hinfinity : infinityBits.toNat = (2 ^ 11 - 1) * 2 ^ 52 := rfl
  have hbound := x.bits.toNat_lt
  rw [isNaN_unpack, hexponent, ne_eq, hmantissa, isNaN, decide_eq_true_iff, UInt64.lt_iff_toNat_lt, habs, hinfinity]
  omega

/-- The double that a number is computed with. -/
def unpacked (x : Number) : UnpackedFloat := x.toFloat.toModel.unpack

theorem isNaN_unpacked (x : Number) : x.unpacked.isNaN = x.isNaN := by
  have hpacked : x.unpacked = UnpackedFloat.unpack Format.binary64
      ((UnpackedFloat.unpack Format.binary64 x.bits.toBitVec).pack Format.binary64) := rfl
  rw [hpacked]
  cases h : x.isNaN with
  | false =>
    refine isNaN_unpack_pack ?_
    rw [Bool.eq_false_iff, ne_eq, ← isNaN_iff, h]
    exact Bool.false_ne_true
  | true =>
    have hnan := x.isNaN_iff.mp h
    generalize UnpackedFloat.unpack Format.binary64 x.bits.toBitVec = u at hnan
    cases u with
    | notANumber => decide
    | _ => cases hnan

/-- Numbers are equal if they are the same double other than NaN, or both zero. -/
theorem equal_iff {x y : Number} : x.equal y ↔
    x.isNaN = false ∧ x.unpacked = y.unpacked ∨ ∃ s t, x.unpacked = .zero s ∧ y.unpacked = .zero t := by
  have hcompare : x.equal y = (x.unpacked.compare y.unpacked == some .eq) := rfl
  rw [hcompare, beq_iff_eq, compare_eq_iff, isNaN_unpacked]

/-- **Equality of numbers is symmetric.** -/
theorem equal_symm {x y : Number} (h : x.equal y) : y.equal x := by
  rw [equal_iff] at h ⊢
  rcases h with ⟨hnan, hsame⟩ | ⟨s, t, hx, hy⟩
  · refine .inl ⟨?_, hsame.symm⟩
    rw [← isNaN_unpacked, ← hsame, isNaN_unpacked, hnan]
  · exact .inr ⟨t, s, hy, hx⟩

theorem equal_trans {x y z : Number} (h : x.equal y) (h' : y.equal z) : x.equal z := by
  rw [equal_iff] at h h' ⊢
  rcases h with ⟨hnan, hsame⟩ | ⟨s, t, hx, hy⟩
  · rcases h' with ⟨-, hsame'⟩ | ⟨s, t, hy, hz⟩
    · exact .inl ⟨hnan, hsame.trans hsame'⟩
    · exact .inr ⟨s, t, hsame.trans hy, hz⟩
  · rcases h' with ⟨-, hsame'⟩ | ⟨s', t', hy', hz⟩
    · exact .inr ⟨s, t, hx, hsame'.symm.trans hy⟩
    · exact .inr ⟨s, t', hx, hz⟩

/-- A number is equal to itself unless it is NaN. -/
theorem equal_self_iff (x : Number) : x.equal x ↔ x.isNaN = false := by
  rw [equal_iff]
  constructor
  · rintro (⟨hnan, -⟩ | ⟨s, t, hx, -⟩)
    · exact hnan
    · rw [← isNaN_unpacked, hx]
      rfl
  · exact fun hnan => .inl ⟨hnan, rfl⟩
end Number

namespace Value

/-! ## Parts -/

/-- NaN is the value or stands somewhere in it. What functions and atoms hold does not stand in them. -/
def HasNaN (v : Value) : Prop := ∃ path x, v.at? path = some (.num x) ∧ x.isNaN

/-- The keys of every map in a value have different names. -/
def HasNames (v : Value) : Prop :=
  ∀ path node entries, v.at? path = some (.map node entries) → (Entries.names entries).Nodup

theorem HasNames.child {u v : Value} (h : v.HasNames) (hu : u ∈ v.children) : u.HasNames := by
  obtain ⟨i, hi⟩ := List.mem_iff_getElem?.mp hu
  exact fun path node entries hpart => h (i :: path) node entries (at?_cons hi hpart)

theorem hasNaN_num_iff {x : Number} : (num x).HasNaN ↔ x.isNaN := by
  constructor
  · rintro ⟨path, y, hat, hnan⟩
    cases path with
    | nil =>
      cases hat
      exact hnan
    | cons i path =>
      obtain ⟨u, hu, -⟩ := exists_child hat
      cases hu
  · exact fun hnan => ⟨[], x, rfl, hnan⟩

/-- NaN in a value that is no number stands in one of its children. -/
theorem HasNaN.exists_child {v : Value} (h : v.HasNaN) (hv : ∀ x, v ≠ num x) : ∃ u ∈ v.children, u.HasNaN := by
  obtain ⟨path, x, hat, hnan⟩ := h
  cases path with
  | nil =>
    cases hat
    exact absurd rfl (hv x)
  | cons i path =>
    obtain ⟨u, hu, hrest⟩ := Value.exists_child hat
    exact ⟨u, List.mem_of_getElem? hu, path, x, hrest, hnan⟩

theorem HasNaN.of_child {u v : Value} (h : u.HasNaN) (hu : u ∈ v.children) : v.HasNaN := by
  obtain ⟨path, x, hat, hnan⟩ := h
  obtain ⟨i, hi⟩ := List.mem_iff_getElem?.mp hu
  exact ⟨i :: path, x, at?_cons hi hat, hnan⟩

theorem hasNaN_seq_iff {shape : Shape} {node : Node} {items : List Value} :
    (seq shape node items).HasNaN ↔ ∃ u ∈ items, u.HasNaN :=
  ⟨fun h => h.exists_child fun _ => nofun, fun ⟨_, hu, h⟩ => h.of_child hu⟩

/-- Keys are never NaN. -/
theorem hasNaN_map_iff {node : Node} {es : Entries} : (map node es).HasNaN ↔ ∃ e ∈ es, e.2.HasNaN := by
  have hkey : ∀ k : Key, ¬ k.toValue.HasNaN := by
    intro k hnan
    obtain ⟨u, hu, -⟩ := hnan.exists_child (by cases k <;> exact fun _ => nofun)
    cases k <;> cases hu
  refine ⟨fun h => ?_, fun ⟨e, he, h⟩ => h.of_child (mem_children_map he)⟩
  obtain ⟨u, hu, hnan⟩ := h.exists_child fun _ => nofun
  obtain ⟨e, he, hmem⟩ := List.mem_flatMap.mp hu
  rcases List.mem_cons.mp hmem with rfl | hmem
  · exact absurd hnan (hkey e.1)
  · rw [List.mem_singleton.mp hmem] at hnan
    exact ⟨e, he, hnan⟩

/-! ## Elements in a row -/

/-- Values in a row are equal if they are equal one by one. -/
theorem equalItems_iff_forall₂ {us vs : List Value} :
    equalItems us vs ↔ List.Forall₂ (fun u v => u.equal v) us vs := by
  induction us generalizing vs with
  | nil => cases vs <;> simp [equalItems]
  | cons u us ih => cases vs <;> simp [equalItems, ih]

theorem equalItems_symm {us vs : List Value} (h : ∀ u ∈ us, ∀ v, u.equal v → v.equal u) (he : equalItems us vs) :
    equalItems vs us := by
  rw [equalItems_iff_forall₂] at he ⊢
  induction he with
  | nil => exact .nil
  | cons hu _ ih =>
    obtain ⟨hfirst, hrest⟩ := List.forall_mem_cons.mp h
    exact .cons (hfirst _ hu) (ih hrest)

theorem equalItems_trans {us vs ws : List Value} (h : ∀ u ∈ us, ∀ v w, u.equal v → v.equal w → u.equal w)
    (he : equalItems us vs) (he' : equalItems vs ws) : equalItems us ws := by
  rw [equalItems_iff_forall₂] at he he' ⊢
  induction he generalizing ws with
  | nil => exact he'
  | cons hu _ ih =>
    obtain ⟨hfirst, hrest⟩ := List.forall_mem_cons.mp h
    cases he' with
    | cons hv hvs => exact .cons (hfirst _ _ hu hv) (ih hrest hvs)

theorem equalItems_self_iff {us : List Value} : equalItems us us ↔ ∀ u ∈ us, u.equal u := by
  rw [equalItems_iff_forall₂, List.forall₂_same]

/-! ## Entries under their names -/

/-- **Equality of entries goes both ways.** Each entry of the one is found among the others, and as there are no
more of them and the names differ, each of the others is found as well. -/
theorem equalEntries_symm {us vs : Entries} (hnames : (Entries.names us).Nodup) (hlen : us.length = vs.length)
    (h : ∀ d ∈ us, ∀ v, d.2.equal v → v.equal d.2) (he : equalEntries us vs) : equalEntries vs us := by
  have hperm := names_perm hnames hlen he
  have hnames' : (Entries.names vs).Nodup := hperm.nodup_iff.mp hnames
  rw [equalEntries_iff] at he ⊢
  intro e hmem
  obtain ⟨d, hd, hname⟩ := List.mem_map.mp (hperm.mem_iff.mpr (List.mem_map_of_mem hmem))
  obtain ⟨e', hfind, hequal⟩ := he d hd
  have hsame : vs.find? (fun e => e.1.name == d.1.name) = some e := by
    rw [hname]
    exact Entries.find?_name hnames' hmem
  rw [hsame] at hfind
  cases hfind
  refine ⟨d, ?_, h d hd _ hequal⟩
  rw [← hname]
  exact Entries.find?_name hnames hd

theorem equalEntries_trans {us vs ws : Entries} (h : ∀ d ∈ us, ∀ v w, d.2.equal v → v.equal w → d.2.equal w)
    (he : equalEntries us vs) (he' : equalEntries vs ws) : equalEntries us ws := by
  rw [equalEntries_iff] at he he' ⊢
  intro d hd
  obtain ⟨e, hfind, hequal⟩ := he d hd
  obtain ⟨f, hfind', hequal'⟩ := he' e (List.mem_of_find?_eq_some hfind)
  have hname : e.1.name = d.1.name := eq_of_beq (List.find?_some hfind :)
  rw [hname] at hfind'
  exact ⟨f, hfind', h d hd _ _ hequal hequal'⟩

theorem equalEntries_self_iff {us : Entries} (hnames : (Entries.names us).Nodup) :
    equalEntries us us ↔ ∀ d ∈ us, d.2.equal d.2 := by
  rw [equalEntries_iff]
  refine forall₂_congr fun d hd => ?_
  rw [Entries.find?_name hnames hd]
  exact ⟨fun ⟨e, he, hequal⟩ => by cases he; exact hequal, fun hequal => ⟨d, rfl, hequal⟩⟩

theorem byName?_eq_none_iff {es : Entries} {name : String} : es.byName? name = none ↔ name ∉ Entries.names es := by
  simp [Entries.byName?, Entries.names]

/-- **Maps are equal exactly if they have equal values under each name**, whatever the order of their entries and
whether a key is a keyword or a string. -/
theorem equal_map_iff {node node' : Node} {us vs : Entries} (hu : (Entries.names us).Nodup)
    (hv : (Entries.names vs).Nodup) : (map node us).equal (map node' vs) ↔
      ∀ name, Option.Rel (fun u v => u.equal v) (us.byName? name) (vs.byName? name) := by
  have hequal : (map node us).equal (map node' vs) ↔ us.length = vs.length ∧ equalEntries us vs := by
    rw [equal, Bool.and_eq_true, beq_iff_eq]
  rw [hequal]
  constructor
  · rintro ⟨hlen, he⟩ name
    cases hfind : us.byName? name with
    | none =>
      have habsent : name ∉ Entries.names vs := by
        rw [← (names_perm hu hlen he).mem_iff]
        exact byName?_eq_none_iff.mp hfind
      rw [byName?_eq_none_iff.mpr habsent]
      exact .none
    | some u =>
      obtain ⟨d, hd, rfl⟩ := Option.map_eq_some_iff.mp hfind
      have hname : d.1.name = name := eq_of_beq (List.find?_some hd :)
      obtain ⟨e, he, hequal⟩ := equalEntries_iff.mp he d (List.mem_of_find?_eq_some hd)
      rw [hname] at he
      rw [Entries.byName?, he]
      exact .some hequal
  · intro h
    have hmem : ∀ name, name ∈ Entries.names us ↔ name ∈ Entries.names vs := by
      intro name
      rw [← not_iff_not, ← byName?_eq_none_iff, ← byName?_eq_none_iff]
      have hrel := h name
      generalize us.byName? name = u at hrel
      generalize vs.byName? name = v at hrel
      cases hrel with
      | none => exact Iff.rfl
      | some => exact ⟨nofun, nofun⟩
    have hlen := ((List.perm_ext_iff_of_nodup hu hv).mpr hmem).length_eq
    rw [Entries.names, Entries.names, List.length_map, List.length_map] at hlen
    refine ⟨hlen, equalEntries_iff.mpr fun d hd => ?_⟩
    have hrel := h d.1.name
    rw [Entries.byName?, Entries.find?_name hu hd, Option.map_some] at hrel
    cases hfind : vs.find? (fun e => e.1.name == d.1.name) with
    | none =>
      rw [Entries.byName?, hfind] at hrel
      cases hrel
    | some e =>
      rw [Entries.byName?, hfind] at hrel
      cases hrel with
      | some hequal => exact ⟨e, rfl, hequal⟩

/-! ## Laws of equality -/

/-- **Equality is symmetric** on values whose maps have keys of different names. -/
theorem equal_symm {u v : Value} (hu : u.HasNames) (h : u.equal v) : v.equal u := by
  induction u using ofChildren generalizing v with
  | h u ih =>
    have hparts : ∀ x ∈ u.children, ∀ y, x.equal y → y.equal x := fun x hx y => ih x hx (hu.child hx)
    cases u with
    | seq =>
      cases v with
      | seq => exact equalItems_symm hparts h
      | _ => cases h
    | map node us =>
      cases v with
      | map node' vs =>
        rw [equal, Bool.and_eq_true, beq_iff_eq] at h ⊢
        exact ⟨h.1.symm, equalEntries_symm (hu [] _ _ rfl) h.1 (fun d hd => hparts _ (mem_children_map hd)) h.2⟩
      | _ => cases h
    | num x =>
      cases v with
      | num y => exact Number.equal_symm h
      | _ => cases h
    | _ => cases v <;> first | exact h | exact BEq.symm h

/-- **Equality is transitive.** -/
theorem equal_trans {u v w : Value} (h : u.equal v) (h' : v.equal w) : u.equal w := by
  induction u using ofChildren generalizing v w with
  | h u ih =>
    cases u with
    | seq =>
      cases v with
      | seq =>
        cases w with
        | seq => exact equalItems_trans (fun x hx _ _ => ih x hx) h h'
        | _ => cases h'
      | _ => cases h
    | map node us =>
      cases v with
      | map node' vs =>
        cases w with
        | map node'' ws =>
          rw [equal, Bool.and_eq_true, beq_iff_eq] at h h' ⊢
          exact ⟨h.1.trans h'.1, equalEntries_trans (fun d hd _ _ => ih _ (mem_children_map hd)) h.2 h'.2⟩
        | _ => cases h'
      | _ => cases h
    | num x =>
      cases v with
      | num y =>
        cases w with
        | num z => exact Number.equal_trans h h'
        | _ => cases h'
      | _ => cases h
    | _ => cases v <;> first | exact h' | cases h | (cases w <;> first | cases h' | exact BEq.trans h h')

/-- **A value is equal to itself exactly if no part of it is NaN.** -/
theorem equal_self_iff {v : Value} (hv : v.HasNames) : v.equal v ↔ ¬ v.HasNaN := by
  induction v using ofChildren with
  | h v ih =>
    have hparts : ∀ u ∈ v.children, (u.equal u ↔ ¬ u.HasNaN) := fun u hu => ih u hu (hv.child hu)
    cases v with
    | seq shape node items =>
      have hitems : (∀ u ∈ items, u.equal u) ↔ ∀ u ∈ items, ¬ u.HasNaN := forall₂_congr hparts
      rw [equal, equalItems_self_iff, hitems, hasNaN_seq_iff]
      simp only [not_exists, not_and]
    | map node entries =>
      have hentries : (∀ e ∈ entries, e.2.equal e.2) ↔ ∀ e ∈ entries, ¬ e.2.HasNaN :=
        forall₂_congr fun e he => hparts e.2 (mem_children_map he)
      rw [equal, Bool.and_eq_true, beq_self_eq_true, equalEntries_self_iff (hv [] _ _ rfl), hentries, hasNaN_map_iff]
      simp only [true_and, not_exists, not_and]
    | num x => rw [equal, Number.equal_self_iff, hasNaN_num_iff, Bool.not_eq_true]
    | _ =>
      refine iff_of_true (by simp [equal]) fun hnan => ?_
      obtain ⟨u, hu, -⟩ := hnan.exists_child fun _ => nofun
      cases hu

/-- It does not matter which of two values is compared with the other. -/
theorem equal_comm {u v : Value} (hu : u.HasNames) (hv : v.HasNames) : u.equal v = v.equal u :=
  Bool.eq_iff_iff.mpr ⟨equal_symm hu, equal_symm hv⟩

/-- Functions and atoms are equal to what they are identical to. -/
theorem equal_eq_identical {u v : Value} (hu : u.functionId?.isSome ∨ u.kind = .atom) : u.equal v = u.identical v := by
  cases u with
  | builtin | closure | atom => cases v <;> rfl
  | seq shape => cases shape <;> rcases hu with hu | hu <;> cases hu
  | _ => rcases hu with hu | hu <;> cases hu

end Value

/-! ## Values within reach -/

/-- Known values with one identity are one value. -/
theorem Registry.Known.unique {R : Registry} {u v : Value} (hu : R.Known u) (hv : R.Known v) (h : u.identical v) :
    u = v := by
  have found : ∀ {i j : NodeId}, (i == j) = true → R.node i = some u → R.node j = some v → u = v := by
    intro i j hid hi hj
    rw [eq_of_beq hid, hj] at hi
    exact (Option.some.inj hi).symm
  cases u with
  | nil =>
    cases v with
    | nil => rfl
    | _ => cases h
  | keyword a =>
    cases v with
    | keyword b =>
      have hid : a.id = b.id := eq_of_beq h
      have hname : R.keyword a.id = some a.name := hu
      rw [hid, show R.keyword b.id = some b.name from hv] at hname
      obtain ⟨i, name⟩ := a
      cases hid
      cases hname
      rfl
    | _ => cases h
  | seq =>
    cases v with
    | seq => exact found (Bool.and_eq_true_iff.mp h).2 hu hv
    | _ => cases h
  | atom =>
    cases v with
    | atom => rw [eq_of_beq h]
    | _ => cases h
  | symbol | map | builtin | closure => cases v <;> first | cases h | exact found h hu hv
  | _ => cases v <;> cases h

theorem Registry.Ok.hasNames {R : Registry} {w : World} (hw : R.Ok w) {v : Value} (hv : R.Known v) : v.HasNames :=
  fun _ _ _ hat => (hw.partsKnown (hw.known_at hv hat)).1

/-- The keys of the maps in a session that can be reached have different names. -/
theorem Session.Reachable.hasNames {s : Session} (hs : s.Reachable) {v : Value} (hv : s.Has v) : v.HasNames := by
  obtain ⟨R, hsound⟩ := hs.exists_sound
  exact hsound.world.hasNames (hsound.known hv)

/-- **Equality is a partial equivalence.** It is symmetric where the keys of maps have different names, it is
transitive, and a value is equal to itself exactly if NaN is nowhere in it. Lists and vectors are equal if their
elements are, one by one; maps, if they have equal values under each name; functions and atoms, if they are
identical. In every session that can be reached the keys of all maps have different names, and values that are
identical are equal unless NaN is in them. -/
theorem Value.equal_isPartialEquivalence :
    (∀ u v : Value, u.HasNames → u.equal v → v.equal u) ∧
    (∀ u v w : Value, u.equal v → v.equal w → u.equal w) ∧
    (∀ v : Value, v.HasNames → (v.equal v ↔ ¬ v.HasNaN)) ∧
    (∀ shape shape' node node' us vs, (seq shape node us).equal (seq shape' node' vs) ↔
      List.Forall₂ (fun u v => u.equal v) us vs) ∧
    (∀ node node' us vs, (Entries.names us).Nodup → (Entries.names vs).Nodup →
      ((map node us).equal (map node' vs) ↔
        ∀ name, Option.Rel (fun u v => u.equal v) (Entries.byName? us name) (Entries.byName? vs name))) ∧
    (∀ u v : Value, u.functionId?.isSome ∨ u.kind = .atom → u.equal v = u.identical v) ∧
    ∀ s : Session, s.Reachable → (∀ v, s.Has v → v.HasNames) ∧
      ∀ u v, s.Has u → s.Has v → u.identical v → ¬ u.HasNaN → u.equal v := by
  refine ⟨fun _ _ => equal_symm, fun _ _ _ => equal_trans, fun _ => equal_self_iff,
    fun _ _ _ _ _ _ => equalItems_iff_forall₂, fun _ _ _ _ => equal_map_iff, fun _ _ => equal_eq_identical,
    fun s hs => ⟨fun v hv => hs.hasNames hv, fun u v hu hv hid hnan => ?_⟩⟩
  obtain ⟨R, hsound⟩ := hs.exists_sound
  obtain rfl := (hsound.known hu).unique (hsound.known hv) hid
  exact (equal_self_iff (hs.hasNames hu)).mpr hnan

/-- Two maps are read, with their entries in another order, a keyword and a string for one key, and a list and a
vector for one value. -/
theorem Value.equal_isPartialEquivalence_maps : ∃ (s : Session) (node node' : Node) (us vs : Entries),
    s.Reachable ∧ s.Has (map node us) ∧ s.Has (map node' vs) ∧ Entries.names us = ["a", "b"] ∧
    Entries.names vs = ["b", "a"] ∧ (map node us).equal (map node' vs) ∧ (map node' vs).equal (map node us) ∧
    (map node us).equal (map node us) ∧ ¬ (map node us).HasNaN ∧ (map node us).identical (map node us) ∧
    (∀ name, Option.Rel (fun u v => u.equal v) (Entries.byName? us name) (Entries.byName? vs name)) ∧
    (atom 0).equal (map node us) = (atom 0).identical (map node us) := by
  have test : ((Session.readMap? "\x7b:a [1] \"b\" nil\x7d" World.initial).any fun r =>
      (Session.readMap? "\x7b\"b\" nil \"a\" (1)\x7d" r.2.2).any fun r' =>
        Entries.names r.2.1 == ["a", "b"] && Entries.names r'.2.1 == ["b", "a"] &&
          (map r.1 r.2.1).equal (map r'.1 r'.2.1)) = true := by
    decide +kernel
  obtain ⟨⟨node, us, w⟩, hread, test⟩ := (Option.any_eq_true _ _).mp test
  obtain ⟨⟨node', vs, w'⟩, hread', test⟩ := (Option.any_eq_true _ _).mp test
  simp only [Bool.and_eq_true, beq_iff_eq] at test
  obtain ⟨⟨hus, hvs⟩, hequal⟩ := test
  let session : Session := ⟨w', [map node' vs, map node us], [], []⟩
  have hreach : session.Reachable :=
    (Session.Reachable.bare.step (Session.Step.readForm (Session.readMap?_eq_some hread))).step
      (Session.Step.readForm (Session.readMap?_eq_some hread'))
  have hu : session.Has (map node us) := .held (List.mem_of_getElem? (i := 1) rfl)
  have hv : session.Has (map node' vs) := .held List.mem_cons_self
  obtain ⟨symm, trans, self, -, maps, cells, reached⟩ := equal_isPartialEquivalence
  obtain ⟨hnames, hidentical⟩ := reached session hreach
  have hback : (map node' vs).equal (map node us) := symm _ _ (hnames _ hu) hequal
  have hnan : ¬ (map node us).HasNaN := (self _ (hnames _ hu)).mp (trans _ _ _ hequal hback)
  have hid : (map node us).identical (map node us) := beq_self_eq_true node.id
  exact ⟨session, node, node', us, vs, hreach, hu, hv, hus, hvs, hequal, hback, hidentical _ _ hu hu hid hnan, hnan, hid,
    (maps _ _ _ _ (hnames _ hu [] _ _ rfl) (hnames _ hv [] _ _ rfl)).mp hequal, cells _ _ (.inr rfl)⟩

end EditableLisp
