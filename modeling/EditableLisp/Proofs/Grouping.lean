import Mathlib.Data.ENat.Basic
import EditableLisp.Proofs.Comparing
import EditableLisp.Proofs.Slicing

/-!
# Groups

`partition` cuts a list or vector into groups of the size that a number asks for: its whole part
(`Number.groupSize`), and infinity asks for one group of everything. A number below one is refused and nothing else is
done. Any other one gives groups that are the elements in a row, all of the full size but the last, which is shorter at
most (`AreGroups`).

The guard is a comparison of doubles and the size is a number cut to a count. They fit together for every number but
NaN (`Number.lt_one_iff`, `Number.toCount_pos`): NaN is not below one, and counts as zero. So the function has one of
these two outcomes exactly if its number is not NaN (**`partition_iff`**). Groups of no size end the whole evaluation
(`partition_nan`).
-/

namespace EditableLisp

/-! ## Sizes -/

namespace Number

/-- A number is below one: its value is, or it is minus infinity. -/
def IsBelowOne (n : Number) : Prop := n.exact = .infinite true ∨ ∃ q, n.value? = some q ∧ q < 1

/-- The size of groups that a number from one on asks for. -/
def groupSize (n : Number) : ℕ∞ :=
  match n.value? with
  | some q => ⌊q⌋₊
  | none => ⊤

theorem exact_one : (1 : Number).exact = .finite false quantaPerUnit := by decide +kernel

theorem value?_one : (1 : Number).value? = some 1 := by
  rw [value?_of_finite exact_one, signed_false, Int.cast_natCast,
    div_self (Nat.cast_ne_zero.mpr Json.quantaPerUnit_pos.ne')]

/-- **The comparison finds the numbers below one**, and takes NaN for none of them. -/
theorem lt_one_iff (n : Number) : n.lt 1 = true ↔ n.IsBelowOne := by
  unfold IsBelowOne
  cases h : n.exact with
  | nan =>
    have hvalue : n.value? = none := by rw [value?, h]
    rw [lt_of_isNaN (n.isNaN_iff_exact.mpr h), hvalue]
    exact ⟨nofun, nofun⟩
  | infinite negative =>
    have hvalue : n.value? = none := by rw [value?, h]
    rw [lt_of_infinite h exact_one, hvalue]
    cases negative with
    | false => exact ⟨nofun, nofun⟩
    | true => exact ⟨fun _ => .inl rfl, fun _ => rfl⟩
  | finite negative quanta =>
    have hvalue := value?_of_finite h
    rw [lt_iff_value hvalue value?_one, hvalue]
    constructor
    · exact fun hlt => .inr ⟨_, rfl, hlt⟩
    · rintro (hinfinite | ⟨q, hq, hlt⟩)
      · cases hinfinite
      · exact Option.some.inj hq ▸ hlt

/-- What a number that is neither NaN nor below one is: infinite, or of a value from one on. -/
theorem cases_of_not_below {n : Number} (hnan : n.isNaN = false) (hbelow : ¬ n.IsBelowOne) :
    n.exact = .infinite false ∨ ∃ quanta, n.exact = .finite false quanta ∧ 0 < quanta / quantaPerUnit := by
  cases h : n.exact with
  | nan => exact absurd (n.isNaN_iff_exact.mpr h) (Bool.eq_false_iff.mp hnan)
  | infinite negative =>
    cases negative with
    | false => exact .inl rfl
    | true => exact absurd (.inl h) hbelow
  | finite negative quanta =>
    have hunit : (0 : ℚ) < quantaPerUnit := Nat.cast_pos.mpr Json.quantaPerUnit_pos
    have hone : 1 ≤ (signed negative quanta : ℚ) / quantaPerUnit :=
      not_lt.mp fun hlt => hbelow (.inr ⟨_, value?_of_finite h, hlt⟩)
    rw [le_div_iff₀ hunit, one_mul, ← Int.cast_natCast, Int.cast_le] at hone
    cases negative with
    | false => exact .inr ⟨quanta, rfl, Nat.div_pos (Int.ofNat_le.mp hone) Json.quantaPerUnit_pos⟩
    | true =>
      have hpos := Json.quantaPerUnit_pos
      rw [signed_true] at hone
      omega

/-- A number from one on counts for its whole part, up to the largest count. -/
theorem toCount_eq {n : Number} (hnan : n.isNaN = false) (hbelow : ¬ n.IsBelowOne) :
    0 < n.toCount ∧ (n.toCount : ℕ∞) ≤ n.groupSize ∧ (n.toCount < countMax → (n.toCount : ℕ∞) = n.groupSize) := by
  have hmax : 0 < countMax := by decide +kernel
  unfold toCount groupSize
  rcases cases_of_not_below hnan hbelow with h | ⟨quanta, h, hone⟩
  · have hvalue : n.value? = none := by rw [value?, h]
    rw [h, hvalue]
    exact ⟨hmax, le_top, fun hlt => absurd hlt (Nat.lt_irrefl _)⟩
  · have hvalue : n.value? = some ((quanta : ℚ) / quantaPerUnit) := by
      rw [value?_of_finite h, signed_false, Int.cast_natCast]
    rw [h, hvalue]
    dsimp only
    rw [Sequence.floor_quanta, if_neg Bool.false_ne_true]
    refine ⟨Nat.lt_min.mpr ⟨hmax, hone⟩, Nat.cast_le.mpr (Nat.min_le_right _ _), fun hlt => ?_⟩
    rw [Nat.min_eq_right (by omega)]

end Number

/-! ## Groups -/

namespace Sequence

section groups

variable {α : Type}

/-- Groups have a size: all but the last have it, and the last is not empty and not longer. -/
def HaveSize (size : ℕ∞) (groups : List (List α)) : Prop :=
  ∀ front last, groups = front ++ [last] →
    (∀ group ∈ front, (group.length : ℕ∞) = size) ∧ 0 < last.length ∧ (last.length : ℕ∞) ≤ size

/-- What is done has the full size, and the group in progress is not longer. -/
theorem haveSize_groupsFrom (size : Nat) (items : List α) (done : Array (List α)) (group : List α) (lack : Nat)
    (hdone : ∀ g ∈ done.toList, g.length = size + 1) (hlack : group.length + lack = size) :
    HaveSize ((size + 1 : Nat) : ℕ∞) (groupsFrom size done group lack items) := by
  induction items generalizing done group lack with
  | nil =>
    intro front last h
    rw [groupsFrom] at h
    split at h
    · have hlast := hdone last (h ▸ List.mem_append_right _ List.mem_cons_self)
      refine ⟨fun g hg => congrArg _ (hdone g (h ▸ List.mem_append_left _ hg)), by omega, le_of_eq (congrArg _ hlast)⟩
    · rename_i hsome
      rw [Array.toList_push] at h
      obtain ⟨rfl, hlast⟩ := List.append_inj' h rfl
      obtain rfl : group.reverse = last := by simpa using hlast
      refine ⟨fun g hg => congrArg _ (hdone g hg), ?_, Nat.cast_le.mpr ?_⟩ <;> rw [List.length_reverse]
      · exact List.length_pos_iff.mpr (mt List.isEmpty_iff.mpr hsome)
      · omega
  | cons a rest ih =>
    cases lack with
    | zero =>
      rw [groupsFrom]
      refine ih _ _ _ (fun g hg => ?_) (Nat.zero_add size)
      rw [Array.toList_push, List.mem_append, List.mem_singleton] at hg
      rcases hg with hg | rfl
      · exact hdone g hg
      · rw [List.length_reverse, List.length_cons]
        omega
    | succ lack =>
      rw [groupsFrom]
      refine ih _ _ _ hdone ?_
      rw [List.length_cons]
      omega

/-- **A list is cut into groups of the size.** -/
theorem haveSize_groups {size : Nat} (hsize : 0 < size) (items : List α) :
    HaveSize (size : ℕ∞) (groups size items) := by
  have h := haveSize_groupsFrom (size - 1) items #[] [] (size - 1) nofun (Nat.zero_add _)
  rwa [Nat.sub_add_cancel hsize] at h

/-- Where one group holds everything it does so for any greater size. -/
theorem HaveSize.mono {size : Nat} {greater : ℕ∞} {groups : List (List α)} (h : HaveSize (size : ℕ∞) groups)
    (hall : groups.flatten.length ≤ size) (hle : (size : ℕ∞) ≤ greater) : HaveSize greater groups := by
  rintro front last rfl
  obtain ⟨hfront, hpos, hlast⟩ := h front last rfl
  have hnone : front = [] := List.eq_nil_iff_forall_not_mem.mpr fun g hg => by
    have hg' : g.length = size := Nat.cast_inj.mp (hfront g hg)
    have hpart := (List.sublist_flatten_of_mem hg).length_le
    rw [List.flatten_append, List.length_append, List.flatten_singleton] at hall
    omega
  subst hnone
  exact ⟨nofun, hpos, hlast.trans hle⟩

/-- Groups that a number asks for: they are the elements in a row, and have the size. There are no more elements than a
count can say, or the size is that of the largest count. -/
structure AreGroups (n : Number) (items : List α) (groups : List (List α)) : Prop where
  lossless : groups.flatten = items
  counted : HaveSize (n.toCount : ℕ∞) groups
  sized : items.length ≤ Number.countMax → HaveSize n.groupSize groups

theorem areGroups_groups {n : Number} (hnan : n.isNaN = false) (hbelow : ¬ n.IsBelowOne) (items : List α) :
    AreGroups n items (groups n.toCount items) := by
  obtain ⟨hpos, hle, heq⟩ := Number.toCount_eq hnan hbelow
  have hcounted := haveSize_groups hpos items
  refine ⟨flatten_groups _ items, hcounted, fun hlength => ?_⟩
  by_cases hlt : n.toCount < Number.countMax
  · exact heq hlt ▸ hcounted
  · refine hcounted.mono ?_ hle
    rw [flatten_groups]
    omega

end groups

/-- The vectors of groups, with identities in a row. -/
def vectorsFrom (id : NodeId) : List (List Value) → List Value
  | [] => []
  | items :: rest => .seq .vector (.bare id) items :: vectorsFrom (id + 1) rest

theorem newVectors_eq (groups : List (List Value)) (done : Array Value) (w : World) :
    newVectors done groups w =
      (done.toList ++ vectorsFrom w.nextId groups, { w with nextId := w.nextId + groups.length }) := by
  induction groups generalizing done w with
  | nil => exact congrArg (·, w) (List.append_nil _).symm
  | cons items rest ih =>
    refine (ih _ _).trans (congrArg₂ Prod.mk ?_ ?_)
    · rw [Array.toList_push, List.append_assoc]
      rfl
    · rw [List.length_cons]
      congr 1
      exact Nat.add_right_comm _ _ _

/-! ## The built-in function -/

variable {c : Value} {items : List Value}

/-- What `partition` does with the elements of a collection. -/
theorem partition_eq (hc : Pattern.parts? c = some items) (n : Number) (w : World) :
    Builtin.partition.evaluate [.num n, c] w =
      if n.lt 1 then .error (.fault (.groupSize n.inFull)) w
      else if n.toCount = 0 then .error .crash w
      else .ok (.seq .vector (.bare (w.nextId + (groups n.toCount items).length))
          (vectorsFrom w.nextId (groups n.toCount items)))
        { w with nextId := w.nextId + (groups n.toCount items).length + 1 } := by
  have hitems : Builtin.partition.evaluate [.num n, c] w = (if n.lt 1 then fail (.groupSize n.inFull)
      else if n.toCount = 0 then throw .crash
      else do newVector (← newVectors #[] (groups n.toCount items)) : Act Value) w :=
    bind_of_eq_ok (Argument.items_of_parts hc w)
  rw [hitems]
  split
  · rfl
  · split
    · rfl
    · exact bind_of_eq_ok (lift_of_eq (newVectors_eq (groups n.toCount items) #[] w))

end Sequence

/-- **Cutting into groups is total and loses nothing exactly for the numbers other than NaN**: a number below one is
refused with a type mismatch and nothing is changed, and any other one gives new vectors of groups of its size that are
the elements in a row. -/
theorem partition_iff {c : Value} {items : List Value} (hc : Pattern.parts? c = some items) (n : Number) (w : World) :
    n.isNaN = false ↔
      (n.IsBelowOne ∧ (Fault.groupSize n.inFull).kind = .type ∧
        Builtin.partition.evaluate [.num n, c] w = .error (.fault (.groupSize n.inFull)) w) ∨
      ¬ n.IsBelowOne ∧ ∃ groups, Sequence.AreGroups n items groups ∧ Builtin.partition.evaluate [.num n, c] w =
        .ok (.seq .vector (.bare (w.nextId + groups.length)) (Sequence.vectorsFrom w.nextId groups))
          { w with nextId := w.nextId + groups.length + 1 } := by
  rw [Sequence.partition_eq hc]
  constructor
  · intro hnan
    by_cases hbelow : n.IsBelowOne
    · rw [if_pos (n.lt_one_iff.mpr hbelow)]
      exact .inl ⟨hbelow, rfl, rfl⟩
    · have hpos := (Number.toCount_eq hnan hbelow).1
      rw [if_neg (mt n.lt_one_iff.mp hbelow), if_neg hpos.ne']
      exact .inr ⟨hbelow, _, Sequence.areGroups_groups hnan hbelow items, rfl⟩
  · intro h
    rw [Bool.eq_false_iff]
    intro hnan
    have hcount : n.toCount = 0 := by rw [Number.toCount, n.isNaN_iff_exact.mp hnan]
    rw [Number.lt_of_isNaN hnan, if_neg Bool.false_ne_true, if_pos hcount] at h
    obtain ⟨-, -, h⟩ | ⟨-, _, -, h⟩ := h <;> cases h

/-- Three elements in groups of two and a half. -/
theorem partition_three : Pattern.parts? (.seq .vector (.bare 0) [.num 1, .num 2, .num 3]) =
      some [.num 1, .num 2, .num 3] ∧ ∃ groups, Sequence.AreGroups 2.5 [.num 1, .num 2, .num 3] groups ∧
      Builtin.partition.evaluate [.num 2.5, .seq .vector (.bare 0) [.num 1, .num 2, .num 3]] World.initial =
        .ok (.seq .vector (.bare groups.length) (Sequence.vectorsFrom 0 groups))
          { World.initial with nextId := groups.length + 1 } := by
  have hnan : (2.5 : Number).isNaN = false := by decide +kernel
  have hlt : (2.5 : Number).lt 1 = false := by decide +kernel
  obtain ⟨hbelow, -⟩ | ⟨-, groups, hgroups, h⟩ := (partition_iff
    (c := .seq .vector (.bare 0) [.num 1, .num 2, .num 3]) rfl 2.5 World.initial).mp hnan
  · rw [← Number.lt_one_iff, hlt] at hbelow
    cases hbelow
  · refine ⟨rfl, groups, hgroups, h.trans ?_⟩
    have hzero : World.initial.nextId = 0 := rfl
    rw [hzero, Nat.zero_add]

/-- A text is read, and its evaluation ends without a value and without a failure. -/
def crashes (fuel : Nat) (src : String) (w : World) : Bool :=
  match (readEval fuel src w).1 with
  | .error (.halt .crash) => true
  | _ => false

theorem readEval_of_crashes {fuel : Nat} {src : String} {w : World} (h : crashes fuel src w = true) :
    (readEval fuel src w).1 = .error (.halt .crash) := by
  unfold crashes at h
  split at h
  · assumption
  · cases h

/-- **NaN is neither refused nor a size.** The evaluation of a call with it just ends. -/
theorem partition_nan :
    Builtin.partition.evaluate [.num .nan, .seq .vector (.bare 0) [.num 1]] World.initial =
      .error .crash World.initial ∧
    (readEval 60 "(partition (/ 0 0) [1])" World.full).1 = .error (.halt .crash) := by
  have test : crashes 60 "(partition (/ 0 0) [1])" World.full = true := by decide +kernel
  have hlt : Number.nan.lt 1 = false := Number.lt_of_isNaN (by decide +kernel) 1
  have hcount : Number.nan.toCount = 0 := by decide +kernel
  constructor
  · rw [Sequence.partition_eq rfl, hlt, hcount]
    rfl
  · exact readEval_of_crashes test

end EditableLisp
