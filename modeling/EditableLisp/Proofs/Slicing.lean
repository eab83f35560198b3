import Mathlib.Algebra.Order.Floor.Semifield
import Mathlib.Data.Rat.Floor
import EditableLisp.Builtin.Run
import EditableLisp.Proofs.Binding
import EditableLisp.Proofs.FourPlaces

/-!
# Slices

A slice is a run of elements (`IsRun`), whatever the numbers are that it is taken with: they may be negative, have a
fraction, be larger than any position, infinite, or NaN. `position` says by the value of a number which position it
stands for, and this is what clamping comes to (`clamp_eq_position`) unless a sequence has more elements than an
index can count. The slice up to a number and the slice from it on make up the whole, of lists and vectors and, by
characters, of strings (**`slice_total`**).
-/

namespace EditableLisp

namespace Sequence

/-! ## Positions by the value of a number -/

/-- The position that a number stands for: the whole part of its value, counted from the end if it is below zero,
and the nearest end if the sequence has no such position. Beyond all values is infinity; NaN stands for the start. -/
def position (length : Nat) (x : Number) : Nat :=
  match x.value? with
  | some q => if -1 < q then min ⌊q⌋₊ length else length - ⌊-q⌋₊
  | none => if x.exact = .infinite false then length else 0

section clamping

variable {length : Nat} {x : Number}

/-- A position by the index that a number is cut to. -/
theorem clamp_of_toIndex {i : ℤ} (h : x.toIndex = i) :
    clamp length x = if i < 0 then length - i.natAbs else min i.toNat length := by
  subst h
  unfold clamp
  dsimp only
  split <;> omega

theorem floor_quanta (quanta : Nat) :
    ⌊(quanta : ℚ) / Number.quantaPerUnit⌋₊ = quanta / Number.quantaPerUnit := Nat.floor_div_eq_div _ _

theorem quanta_nonneg (quanta : Nat) : (0 : ℚ) ≤ quanta / Number.quantaPerUnit :=
  div_nonneg (Nat.cast_nonneg _) (Nat.cast_nonneg _)

/-- **Clamping gives the position that a number stands for.** -/
theorem clamp_eq_position (hlength : (length : ℤ) ≤ Number.indexMax) (x : Number) :
    clamp length x = position length x := by
  have hends : Number.indexMin = -(Number.indexMax + 1) := rfl
  unfold position Number.value?
  cases h : x.exact with
  | nan =>
    have hindex : x.toIndex = 0 := by rw [Number.toIndex, h]
    rw [clamp_of_toIndex hindex, if_neg (Int.lt_irrefl 0)]
    exact Nat.zero_min _
  | infinite negative =>
    cases negative with
    | true =>
      have hindex : x.toIndex = Number.indexMin := by rw [Number.toIndex, h]; rfl
      rw [clamp_of_toIndex hindex, if_pos (by omega)]
      show length - Number.indexMin.natAbs = 0
      omega
    | false =>
      have hindex : x.toIndex = Number.indexMax := by rw [Number.toIndex, h]; rfl
      rw [clamp_of_toIndex hindex, if_neg (by omega)]
      show min Number.indexMax.toNat length = length
      omega
  | finite negative quanta =>
    have hfloor := floor_quanta quanta
    have hnonneg := quanta_nonneg quanta
    cases negative with
    | false =>
      have hindex : x.toIndex = min Number.indexMax (quanta / Number.quantaPerUnit : Nat) := by
        rw [Number.toIndex, h]
        rfl
      have hvalue : (-1 : ℚ) < quanta / Number.quantaPerUnit := lt_of_lt_of_le (by norm_num) hnonneg
      rw [clamp_of_toIndex hindex, if_neg (by omega)]
      dsimp only
      rw [if_neg Bool.false_ne_true, if_pos hvalue, hfloor]
      omega
    | true =>
      have hindex : x.toIndex = max Number.indexMin (-(quanta / Number.quantaPerUnit : Nat)) := by
        rw [Number.toIndex, h]
        rfl
      -- above `-1` the whole part is zero
      have habove : (-1 : ℚ) < -(quanta / Number.quantaPerUnit) ↔ quanta / Number.quantaPerUnit = 0 := by
        rw [neg_lt_neg_iff, ← hfloor, Nat.floor_eq_zero]
      have hzero : ⌊-((quanta : ℚ) / Number.quantaPerUnit)⌋₊ = 0 := Nat.floor_of_nonpos (neg_nonpos.mpr hnonneg)
      rw [clamp_of_toIndex hindex]
      dsimp only
      rw [if_pos rfl, hzero, neg_neg, hfloor, Nat.zero_min]
      by_cases hwhole : quanta / Number.quantaPerUnit = 0
      · rw [if_pos (habove.mpr hwhole), hwhole, if_neg (by omega)]
        omega
      · rw [if_neg (mt habove.mp hwhole), if_pos (by omega)]
        omega

end clamping

/-! ## Runs -/

/-- The elements from one position to another, with what stands before and after them. -/
def IsRun {α : Type} (items : List α) (start stop : Nat) (run : List α) : Prop :=
  ∃ before after, items = before ++ (run ++ after) ∧ before.length = start ∧ start + run.length = stop

/-- The elements between two positions that are in order and within a sequence are a run. -/
theorem isRun_slice {α : Type} (items : List α) {start stop : Nat} (horder : start ≤ stop)
    (hrange : stop ≤ items.length) : IsRun items start stop (slice (start, stop) items) := by
  refine ⟨items.take start, (items.drop start).drop (stop - start), ?_, ?_, ?_⟩
  · rw [slice, List.take_append_drop, List.take_append_drop]
  · rw [List.length_take, Nat.min_eq_left (horder.trans hrange)]
  · rw [slice, List.length_take, List.length_drop, Nat.min_eq_left (by omega)]
    omega

/-- The bounds of a slice are in order and within the sequence. -/
theorem sliceBounds_le (length : Nat) (start : Number) (stop : Option Number) :
    (sliceBounds length start stop).1 ≤ (sliceBounds length start stop).2 ∧
      (sliceBounds length start stop).2 ≤ length := by
  have hstart := clamp_le length start
  cases stop with
  | none => exact ⟨Nat.le_max_right _ _, Nat.max_le.mpr ⟨Nat.le_refl _, hstart⟩⟩
  | some stop => exact ⟨Nat.le_max_right _ _, Nat.max_le.mpr ⟨clamp_le length stop, hstart⟩⟩

/-- A run is the slice between two numbers: it goes from the position of the first to that of the second, or to the
end without a second one, and is empty if these are not in order. The bounds that it is cut out with are in range. -/
structure IsBetween {α : Type} (items : List α) (start : Number) (stop : Option Number) (run : List α) : Prop where
  inOrder : (sliceBounds items.length start stop).1 ≤ (sliceBounds items.length start stop).2
  inRange : (sliceBounds items.length start stop).2 ≤ items.length
  isRun : IsRun items (sliceBounds items.length start stop).1 (sliceBounds items.length start stop).2 run
  positions : (items.length : ℤ) ≤ Number.indexMax →
    IsRun items (position items.length start)
      (max ((stop.map (position items.length)).getD items.length) (position items.length start)) run

/-- **What is sliced is a run**, and it is the one between the two numbers. -/
theorem isBetween_slice {α : Type} (items : List α) (start : Number) (stop : Option Number) :
    IsBetween items start stop (slice (sliceBounds items.length start stop) items) := by
  obtain ⟨horder, hrange⟩ := sliceBounds_le items.length start stop
  have hrun := isRun_slice items horder hrange
  refine ⟨horder, hrange, hrun, fun hlength => ?_⟩
  have hbounds : sliceBounds items.length start stop = (position items.length start,
      max ((stop.map (position items.length)).getD items.length) (position items.length start)) := by
    unfold sliceBounds
    rw [clamp_eq_position hlength]
    cases stop with
    | none => rfl
    | some stop =>
      dsimp only [Option.map_some, Option.getD_some]
      rw [clamp_eq_position hlength]
  rwa [hbounds] at hrun ⊢

/-- **The slice up to a number and the slice from it on are the whole.** -/
theorem slice_zero_append_slice {α : Type} (items : List α) (k : Number) :
    slice (sliceBounds items.length 0 (some k)) items ++ slice (sliceBounds items.length k none) items = items := by
  have hindex : Number.toIndex 0 = 0 := by decide +kernel
  have hzero : clamp items.length 0 = 0 := by
    rw [clamp_of_toIndex hindex, if_neg (Int.lt_irrefl 0)]
    exact Nat.zero_min _
  have hfront : sliceBounds items.length 0 (some k) = (0, clamp items.length k) := by
    unfold sliceBounds
    dsimp only
    rw [hzero, Nat.max_zero]
  have hback : sliceBounds items.length k none = (clamp items.length k, items.length) := by
    unfold sliceBounds
    dsimp only
    rw [Nat.max_eq_left (clamp_le items.length k)]
  rw [hfront, hback]
  exact slice_append_slice items (clamp items.length k)

end Sequence

/-! ## The built-in functions -/

section functions

variable {c : Value} {items : List Value}

theorem Argument.items_of_parts (hc : Pattern.parts? c = some items) (w : World) :
    Argument.items c w = .ok items w := by
  unfold Pattern.parts? at hc
  split at hc <;> cases hc <;> rfl

/-- A slice is a new vector, and nothing else is done. -/
theorem Sequence.sliceOf_eq (hc : Pattern.parts? c = some items) (start : Number) (stop : Option Number) (w : World) :
    Sequence.sliceOf c (.num start) (stop.map .num) w =
      .ok (.seq .vector (.bare w.nextId) (Sequence.slice (Sequence.sliceBounds items.length start stop) items))
        { w with nextId := w.nextId + 1 } := by
  unfold Sequence.sliceOf
  rw [bind_of_eq_ok (Argument.items_of_parts hc w)]
  cases stop <;> rfl

/-- Collections in a row, of two of which the elements are known. -/
theorem Sequence.concat_eq {d : Value} {more : List Value} (hc : Pattern.parts? c = some items)
    (hd : Pattern.parts? d = some more) (w : World) :
    Builtin.concat.evaluate [c, d] w =
      .ok (.seq .vector (.bare w.nextId) (items ++ more)) { w with nextId := w.nextId + 1 } := by
  have hflat : Sequence.flatten #[] [c, d] w = .ok (items ++ more) w := by
    unfold Sequence.flatten
    rw [bind_of_eq_ok (Argument.items_of_parts hc w)]
    unfold Sequence.flatten
    rw [bind_of_eq_ok (Argument.items_of_parts hd w)]
    have hrow : ((#[] : Array Value) ++ items ++ more).toList = items ++ more := by
      rw [Array.toList_appendList, Array.toList_appendList, List.nil_append]
    exact congrArg (EStateM.Result.ok · w) hrow
  exact bind_of_eq_ok hflat

theorem Textual.substring_eq (s : String) (start : Number) (stop : Option Number) (w : World) :
    Textual.substring (.text s) (.num start) (stop.map .num) w =
      .ok (.text (String.ofList
        (Sequence.slice (Sequence.sliceBounds s.toList.length start stop) s.toList))) w := by
  cases stop <;> rfl

/-- Two strings in a row. -/
theorem Textual.str_ofList (front back : List Char) (w : World) :
    Builtin.str.evaluate [.text (String.ofList front), .text (String.ofList back)] w =
      .ok (.text (String.ofList (front ++ back))) w := by
  have hjoin : String.join [String.ofList front, String.ofList back] = String.ofList (front ++ back) := by
    rw [String.ofList_append]
    exact congrArg (· ++ String.ofList back) String.empty_append
  exact congrArg (fun s => EStateM.Result.ok (Value.text s) w) hjoin

end functions

/-- **Slicing never goes out of range, and loses and doubles nothing**: between any two numbers, or from a number to
the end, it gives the run of elements between them; and up to a number and from it on it gives two vectors that are
the whole in a row. The same holds of the characters of a string. -/
theorem slice_total :
    (∀ (c : Value) (items : List Value), Pattern.parts? c = some items → ∀ (a b k : Number) (w : World),
      (∃ run, Sequence.IsBetween items a (some b) run ∧ Builtin.slice.evaluate [c, .num a, .num b] w =
        .ok (.seq .vector (.bare w.nextId) run) { w with nextId := w.nextId + 1 }) ∧
      (∃ run, Sequence.IsBetween items a none run ∧ Builtin.slice.evaluate [c, .num a] w =
        .ok (.seq .vector (.bare w.nextId) run) { w with nextId := w.nextId + 1 }) ∧
      (do
        let front ← Builtin.slice.evaluate [c, .num 0, .num k]
        let back ← Builtin.slice.evaluate [c, .num k]
        Builtin.concat.evaluate [front, back]) w =
          .ok (.seq .vector (.bare (w.nextId + 2)) items) { w with nextId := w.nextId + 3 }) ∧
    ∀ (s : String) (a b k : Number) (w : World),
      (∃ run, Sequence.IsBetween s.toList a (some b) run ∧ Builtin.subs.evaluate [.text s, .num a, .num b] w =
        .ok (.text (String.ofList run)) w) ∧
      (∃ run, Sequence.IsBetween s.toList a none run ∧ Builtin.subs.evaluate [.text s, .num a] w =
        .ok (.text (String.ofList run)) w) ∧
      (do
        let front ← Builtin.subs.evaluate [.text s, .num 0, .num k]
        let back ← Builtin.subs.evaluate [.text s, .num k]
        Builtin.str.evaluate [front, back]) w = .ok (.text s) w := by
  constructor
  · intro c items hc a b k w
    have hslice (start : Number) (stop : Option Number) (w : World) := Sequence.sliceOf_eq hc start stop w
    refine ⟨⟨_, Sequence.isBetween_slice items a (some b), hslice a (some b) w⟩,
      ⟨_, Sequence.isBetween_slice items a none, hslice a none w⟩, ?_⟩
    have hfront : Builtin.slice.evaluate [c, .num 0, .num k] w = _ := hslice 0 (some k) w
    rw [bind_of_eq_ok hfront]
    have hback : Builtin.slice.evaluate [c, .num k] { w with nextId := w.nextId + 1 } = _ := hslice k none _
    rw [bind_of_eq_ok hback, Sequence.concat_eq rfl rfl, Sequence.slice_zero_append_slice]
  · intro s a b k w
    have hsub (start : Number) (stop : Option Number) := Textual.substring_eq s start stop w
    refine ⟨⟨_, Sequence.isBetween_slice s.toList a (some b), hsub a (some b)⟩,
      ⟨_, Sequence.isBetween_slice s.toList a none, hsub a none⟩, ?_⟩
    have hfront : Builtin.subs.evaluate [.text s, .num 0, .num k] w = _ := hsub 0 (some k)
    rw [bind_of_eq_ok hfront]
    have hback : Builtin.subs.evaluate [.text s, .num k] w = _ := hsub k none
    rw [bind_of_eq_ok hback]
    rw [Textual.str_ofList, Sequence.slice_zero_append_slice, String.ofList_toList]

/-- NaN stands for the start: nothing is before it, and everything from it on. -/
theorem slice_of_three_at_nan :
    Pattern.parts? (.seq .list (.bare 0) [.num 1, .num 2, .num 3]) = some [.num 1, .num 2, .num 3] ∧
      (do
        let front ← Builtin.slice.evaluate [.seq .list (.bare 0) [.num 1, .num 2, .num 3], .num 0, .num .nan]
        let back ← Builtin.slice.evaluate [.seq .list (.bare 0) [.num 1, .num 2, .num 3], .num .nan]
        Builtin.concat.evaluate [front, back]) World.initial =
          .ok (.seq .vector (.bare 2) [.num 1, .num 2, .num 3]) { World.initial with nextId := 3 } :=
  ⟨rfl, (slice_total.1 (.seq .list (.bare 0) [.num 1, .num 2, .num 3]) _ rfl 0 0 .nan World.initial).2.2⟩

end EditableLisp
