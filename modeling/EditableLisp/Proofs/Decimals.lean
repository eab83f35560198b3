import Mathlib.Algebra.Order.Field.Basic
import Mathlib.Algebra.Order.Field.Rat
import Mathlib.Data.List.Induction
import Mathlib.Tactic.FieldSimp
import Mathlib.Tactic.Linarith
import Mathlib.Tactic.NormNum
import Mathlib.Tactic.Ring
import EditableLisp.Proofs.Numerals
import EditableLisp.Proofs.Wholes

/-!
# Plain decimal numerals

A `Plain` numeral has a sign or none, digits, and perhaps a point with digits after it. It writes a rational
number (`Plain.value`). Many numerals write the same number, since zeros may stand before and after the
digits that count.

`Plain.ofTenThousandths` is the numeral without superfluous zeros of a number that four decimals are enough for.
Every other numeral of the number is longer (**`Plain.eq_or_length_lt`**): its digits before the point stand for
the same number, and those after it are the same after trimming.
-/

namespace EditableLisp.Number

/-! ## Digits -/

section digits

variable {ds es : List Char} {n width : Nat}

theorem natOfDigits_append (ds es : List Char) :
    natOfDigits (ds ++ es) = natOfDigits ds * 10 ^ es.length + natOfDigits es := by
  induction es using List.reverseRecOn with
  | nil => simp [natOfDigits]
  | append_singleton es e ih =>
    have hlast : ∀ cs : List Char, natOfDigits (cs ++ [e]) = natOfDigits cs * 10 + (e.toNat - 48) := by
      intro cs
      unfold natOfDigits
      rw [List.foldl_append]
      rfl
    rw [← List.append_assoc, hlast, ih, hlast, List.length_append, List.length_singleton, pow_succ]
    ring

theorem natOfDigits_replicate (k : Nat) : natOfDigits (List.replicate k '0') = 0 := by
  induction k with
  | zero => rfl
  | succ k ih =>
    rw [List.replicate_succ', natOfDigits_append, ih, Nat.zero_mul, Nat.zero_add]
    rfl

theorem areDigits_append : AreDigits (ds ++ es) ↔ AreDigits ds ∧ AreDigits es := List.forall_mem_append

theorem areDigits_toDigits (n : Nat) : AreDigits (Nat.toDigits 10 n) :=
  fun _ hc => Nat.isDigit_of_mem_toDigits (by decide) (by decide) hc

theorem areDigits_replicate (k : Nat) : AreDigits (List.replicate k '0') := by
  intro c hc
  rw [List.eq_of_mem_replicate hc]
  rfl

/-- A digit is what it stands for. -/
theorem digit_lt {c : Char} (h : c.isDigit = true) : c.toNat - 48 < 10 := by
  have hle : c.toNat ≤ 57 := (Char.isDigit_iff_toNat.mp h).2
  omega

theorem digit_inj {c d : Char} (hc : c.isDigit = true) (hd : d.isDigit = true)
    (h : c.toNat - 48 = d.toNat - 48) : c = d := by
  have hc : 48 ≤ c.toNat := (Char.isDigit_iff_toNat.mp hc).1
  have hd : 48 ≤ d.toNat := (Char.isDigit_iff_toNat.mp hd).1
  exact Char.toNat_inj.mp (by omega)

theorem natOfDigits_lt (h : AreDigits ds) : natOfDigits ds < 10 ^ ds.length := by
  induction ds with
  | nil => decide
  | cons d ds ih =>
    obtain ⟨hd, hds⟩ := List.forall_mem_cons.mp h
    have hfirst := digit_lt hd
    have hrest := ih hds
    have hone : natOfDigits [d] = d.toNat - 48 := Nat.zero_add _
    have hsplit : natOfDigits (d :: ds) = (d.toNat - 48) * 10 ^ ds.length + natOfDigits ds := by
      rw [← hone]
      exact natOfDigits_append [d] ds
    rw [hsplit, List.length_cons, pow_succ]
    nlinarith

/-- **As many digits for the same number are the same digits.** -/
theorem eq_of_natOfDigits (hds : AreDigits ds) (hes : AreDigits es) (hlength : ds.length = es.length)
    (h : natOfDigits ds = natOfDigits es) : ds = es := by
  induction ds using List.reverseRecOn generalizing es with
  | nil => exact (List.length_eq_zero_iff.mp hlength.symm).symm
  | append_singleton ds d ih =>
    cases es using List.reverseRecOn with
    | nil => simp at hlength
    | append_singleton es e =>
      rw [List.length_append, List.length_append] at hlength
      obtain ⟨hds, hd⟩ := areDigits_append.mp hds
      obtain ⟨hes, he⟩ := areDigits_append.mp hes
      have hd := hd d List.mem_cons_self
      have he := he e List.mem_cons_self
      have hone : ∀ c : Char, natOfDigits [c] = c.toNat - 48 := fun c => Nat.zero_add _
      rw [natOfDigits_append, natOfDigits_append, hone, hone, List.length_singleton, List.length_singleton,
        pow_one] at h
      have hdlt := digit_lt hd
      have helt := digit_lt he
      have hfront : natOfDigits ds = natOfDigits es := by omega
      rw [ih hds hes (Nat.add_right_cancel hlength) hfront, digit_inj hd he (by omega)]

/-- Digits have no superfluous zero in front, or are more than it takes. -/
theorem toDigits_natOfDigits (hds : AreDigits ds) (hne : ds ≠ []) :
    ds = Nat.toDigits 10 (natOfDigits ds) ∨ (Nat.toDigits 10 (natOfDigits ds)).length < ds.length := by
  have hle := (Nat.length_toDigits_le_iff (by decide) (List.length_pos_iff.mpr hne)).mpr (natOfDigits_lt hds)
  rcases Nat.lt_or_eq_of_le hle with hlt | heq
  · exact .inr hlt
  · exact .inl (eq_of_natOfDigits hds (areDigits_toDigits _) heq.symm (natOfDigits_toDigits _).symm)

/-! ## Padding and trimming -/

theorem padded_eq (width n : Nat) :
    padded width n = List.replicate (width - (Nat.toDigits 10 n).length) '0' ++ Nat.toDigits 10 n := by
  unfold padded
  rw [Nat.toString_eq_repr, Nat.toList_repr]

theorem areDigits_padded (width n : Nat) : AreDigits (padded width n) := by
  rw [padded_eq]
  exact areDigits_append.mpr ⟨areDigits_replicate _, areDigits_toDigits n⟩

theorem natOfDigits_padded (width n : Nat) : natOfDigits (padded width n) = n := by
  rw [padded_eq, natOfDigits_append, natOfDigits_replicate, Nat.zero_mul, Nat.zero_add, natOfDigits_toDigits]

theorem length_padded (hwidth : 0 < width) (hn : n < 10 ^ width) : (padded width n).length = width := by
  have := (Nat.length_toDigits_le_iff (by decide) hwidth).mpr hn
  rw [padded_eq, List.length_append, List.length_replicate]
  omega

theorem length_padded_mod (n : Nat) : (padded 4 (n % tenTo 4)).length = 4 :=
  length_padded (by decide) (Nat.mod_lt _ (by decide))

/-- A list of characters without those at its end that are the same one. -/
def trimEnd (c : Char) (cs : List Char) : List Char := (cs.reverse.dropWhile (· == c)).reverse

theorem trimZeros_eq (cs : List Char) : trimZeros cs = trimEnd '0' cs := rfl

theorem areDigits_trimZeros (h : AreDigits ds) : AreDigits (trimZeros ds) :=
  fun c hc => h c (mem_of_mem_trimZeros hc)

/-- Trimming stops at another character. -/
theorem trimEnd_append_cons {c d : Char} (h : d ≠ c) (cs rest : List Char) :
    trimEnd c (cs ++ d :: rest) = cs ++ d :: trimEnd c rest := by
  have hd : (d == c) = false := beq_eq_false_iff_ne.mpr h
  unfold trimEnd
  rw [List.reverse_append, List.reverse_cons, List.append_assoc, List.dropWhile_append]
  split
  · rename_i hnil
    rw [List.isEmpty_iff.mp hnil, List.singleton_append, List.dropWhile_cons_of_neg (by rw [hd]; decide),
      List.reverse_cons, List.reverse_reverse, List.reverse_nil]
  · rw [List.reverse_append, List.reverse_append, List.reverse_reverse]
    simp

/-- What is trimmed off is one character over and over. -/
theorem exists_trimEnd (c : Char) (cs : List Char) : ∃ k, cs = trimEnd c cs ++ List.replicate k c := by
  refine ⟨(cs.reverse.takeWhile (· == c)).length, List.reverse_injective ?_⟩
  have hall : ∀ d ∈ cs.reverse.takeWhile (· == c), d = c :=
    fun d hd => beq_iff_eq.mp (List.all_eq_true.mp List.all_takeWhile d hd)
  unfold trimEnd
  rw [List.reverse_append, List.reverse_reverse, List.reverse_replicate, ← List.eq_replicate_of_mem hall,
    List.takeWhile_append_dropWhile]

theorem trimEnd_append_replicate (c : Char) (cs : List Char) (k : Nat) :
    trimEnd c (cs ++ List.replicate k c) = trimEnd c cs := by
  unfold trimEnd
  rw [List.reverse_append, List.reverse_replicate, List.dropWhile_append_of_pos]
  intro d hd
  rw [List.eq_of_mem_replicate hd]
  exact beq_self_eq_true c

/-- What is trimmed does not end in what is trimmed off. -/
theorem getLast?_trimEnd (c : Char) (cs : List Char) : (trimEnd c cs).getLast? ≠ some c := by
  unfold trimEnd
  rw [List.getLast?_reverse]
  intro h
  have := List.head?_dropWhile_not (· == c) cs.reverse
  rw [h] at this
  simp at this

/-- Trimming changes nothing or makes shorter. -/
theorem trimEnd_eq_or_length_lt (c : Char) (cs : List Char) :
    cs = trimEnd c cs ∨ (trimEnd c cs).length < cs.length := by
  have hsub := List.dropWhile_sublist (l := cs.reverse) (· == c)
  rcases Nat.lt_or_eq_of_le hsub.length_le with hlt | heq
  · rw [List.length_reverse] at hlt
    exact .inr (by rwa [trimEnd, List.length_reverse])
  · have := hsub.eq_of_length heq
    exact .inl (by rw [trimEnd, this, List.reverse_reverse])

/-- **Digits after a point stand for the same fraction only if they are the same after trimming.** -/
theorem trimZeros_eq_of_value (hds : AreDigits ds) (hes : AreDigits es)
    (h : natOfDigits ds * 10 ^ es.length = natOfDigits es * 10 ^ ds.length) : trimZeros ds = trimZeros es := by
  wlog hle : ds.length ≤ es.length generalizing ds es with symm
  · exact (symm hes hds h.symm (Nat.le_of_not_le hle)).symm
  obtain ⟨k, hk⟩ := Nat.exists_eq_add_of_le hle
  -- as many digits as in the longer one
  have hpad : ds ++ List.replicate k '0' = es := by
    refine eq_of_natOfDigits (areDigits_append.mpr ⟨hds, areDigits_replicate k⟩) hes ?_ ?_
    · rw [List.length_append, List.length_replicate, hk]
    · rw [natOfDigits_append, natOfDigits_replicate, List.length_replicate, Nat.add_zero]
      rw [hk, Nat.pow_add, ← Nat.mul_assoc, Nat.mul_right_comm] at h
      exact Nat.eq_of_mul_eq_mul_right (Nat.pow_pos (by decide)) h
  rw [← hpad, trimZeros_eq, trimZeros_eq, trimEnd_append_replicate]

/-- Trimmed digits stand for the same fraction. -/
theorem natOfDigits_trimZeros (ds : List Char) :
    natOfDigits (trimZeros ds) * 10 ^ ds.length = natOfDigits ds * 10 ^ (trimZeros ds).length := by
  obtain ⟨k, hk⟩ := exists_trimEnd '0' ds
  rw [← trimZeros_eq] at hk
  have hvalue : natOfDigits ds = natOfDigits (trimZeros ds) * 10 ^ k := by
    rw [congrArg natOfDigits hk, natOfDigits_append, natOfDigits_replicate, List.length_replicate, Nat.add_zero]
  have hlength : ds.length = (trimZeros ds).length + k := by
    rw [congrArg List.length hk, List.length_append, List.length_replicate]
  rw [hvalue, hlength, Nat.pow_add]
  ring

end digits

/-! ## Numerals -/

/-- A plain decimal numeral: a minus sign or none, digits, and digits after a point. -/
@[ext]
structure Plain where
  negative : Bool
  whole : List Char
  fraction : List Char
  whole_ne : whole ≠ []
  areDigits_whole : AreDigits whole
  areDigits_fraction : AreDigits fraction

namespace Plain

/-- The text of a numeral. There is no point without digits after it. -/
def chars (p : Plain) : List Char :=
  (if p.negative then ['-'] else []) ++ (p.whole ++ if p.fraction.isEmpty then [] else '.' :: p.fraction)

/-- The number without its sign. -/
def magnitude (p : Plain) : ℚ := natOfDigits (p.whole ++ p.fraction) / 10 ^ p.fraction.length

/-- The number that a numeral writes. -/
def value (p : Plain) : ℚ := if p.negative then -p.magnitude else p.magnitude

/-- The numeral of so many ten-thousandths, without superfluous zeros. -/
def ofTenThousandths (m : ℤ) : Plain where
  negative := m < 0
  whole := Nat.toDigits 10 (m.natAbs / tenTo 4)
  fraction := trimZeros (padded 4 (m.natAbs % tenTo 4))
  whole_ne := Nat.toDigits_ne_nil
  areDigits_whole := areDigits_toDigits _
  areDigits_fraction := areDigits_trimZeros (areDigits_padded _ _)

example : (ofTenThousandths 1050000).chars = "105".toList ∧ (ofTenThousandths (-3120)).chars = "-0.312".toList := by
  decide

theorem ofTenThousandths_negative (m : ℤ) : (ofTenThousandths m).negative = decide (m < 0) := rfl

theorem ofTenThousandths_whole (m : ℤ) : (ofTenThousandths m).whole = Nat.toDigits 10 (m.natAbs / tenTo 4) := rfl

theorem ofTenThousandths_fraction (m : ℤ) :
    (ofTenThousandths m).fraction = trimZeros (padded 4 (m.natAbs % tenTo 4)) := by
  simp only [ofTenThousandths]

theorem chars_ofTenThousandths (m : ℤ) : (ofTenThousandths m).chars =
    (if m < 0 then ['-'] else []) ++ (Nat.toDigits 10 (m.natAbs / tenTo 4) ++
      if (trimZeros (padded 4 (m.natAbs % tenTo 4))).isEmpty then []
      else '.' :: trimZeros (padded 4 (m.natAbs % tenTo 4))) := by
  rw [chars, ofTenThousandths_negative, ofTenThousandths_whole, ofTenThousandths_fraction]
  by_cases hm : m < 0
  · rw [if_pos hm, if_pos (decide_eq_true hm)]
  · rw [if_neg hm, decide_eq_false hm, if_neg Bool.false_ne_true]

theorem magnitude_nonneg (p : Plain) : 0 ≤ p.magnitude := by
  unfold magnitude
  positivity

/-- A minus sign stands before numbers below zero, and perhaps before zero. -/
theorem value_neg {p : Plain} (h : p.value < 0) : p.negative = true := by
  have := p.magnitude_nonneg
  unfold value at h
  by_contra hpos
  rw [if_neg hpos] at h
  linarith

theorem abs_value (p : Plain) : |p.value| = p.magnitude := by
  unfold value
  split
  · rw [abs_neg, abs_of_nonneg p.magnitude_nonneg]
  · exact abs_of_nonneg p.magnitude_nonneg

theorem magnitude_eq (p : Plain) : p.magnitude =
    ((natOfDigits p.whole * 10 ^ p.fraction.length + natOfDigits p.fraction : Nat) : ℚ) /
      ((10 ^ p.fraction.length : Nat) : ℚ) := by
  rw [magnitude, natOfDigits_append, Nat.cast_pow, Nat.cast_ofNat]

/-- A numeral writes ten-thousandths if they are as many in its digits. -/
theorem magnitude_eq_iff {p : Plain} {n : Nat} : p.magnitude = n / 10 ^ 4 ↔
    (natOfDigits p.whole * 10 ^ p.fraction.length + natOfDigits p.fraction) * tenTo 4 =
      n * 10 ^ p.fraction.length := by
  have hten : (10 : ℚ) ^ 4 = ((tenTo 4 : Nat) : ℚ) := by
    rw [show tenTo 4 = 10 ^ 4 from rfl]
    norm_num
  have hone : ((10 ^ p.fraction.length : Nat) : ℚ) ≠ 0 := Nat.cast_ne_zero.mpr (Nat.pow_pos (by decide)).ne'
  have hfour : ((tenTo 4 : Nat) : ℚ) ≠ 0 := Nat.cast_ne_zero.mpr (by decide)
  rw [magnitude_eq, hten, div_eq_div_iff hone hfour, ← Nat.cast_mul, ← Nat.cast_mul, Nat.cast_inj]

/-- The digits before the point are the whole part of what a numeral writes, and those after it the rest. -/
theorem parts_of_magnitude {p : Plain} {n : Nat} (h : p.magnitude = n / 10 ^ 4) :
    natOfDigits p.whole = n / tenTo 4 ∧
      natOfDigits p.fraction * tenTo 4 = n % tenTo 4 * 10 ^ p.fraction.length := by
  have hlt := natOfDigits_lt p.areDigits_fraction
  have h := magnitude_eq_iff.mp h
  generalize natOfDigits p.whole = whole at h ⊢
  generalize natOfDigits p.fraction = fraction at h hlt ⊢
  generalize 10 ^ p.fraction.length = unit at h hlt ⊢
  have hunit : 0 < unit := by omega
  have hwhole : whole = n / tenTo 4 := by
    calc whole = (whole * unit + fraction) / unit := by
          rw [Nat.mul_comm, Nat.mul_add_div hunit, Nat.div_eq_of_lt hlt, Nat.add_zero]
      _ = (whole * unit + fraction) * tenTo 4 / (unit * tenTo 4) := by
          rw [Nat.mul_div_mul_right _ _ (by decide)]
      _ = n / tenTo 4 := by rw [h, Nat.mul_comm unit, Nat.mul_div_mul_right _ _ hunit]
  refine ⟨hwhole, ?_⟩
  have hsplit : n * unit = (tenTo 4 * whole + n % tenTo 4) * unit := by rw [hwhole, Nat.div_add_mod]
  rw [hsplit] at h
  linarith

theorem length_chars (p : Plain) : p.chars.length = (if p.negative then 1 else 0) + p.whole.length +
    if p.fraction.length = 0 then 0 else p.fraction.length + 1 := by
  unfold chars
  cases p.negative <;> cases p.fraction <;> simp <;> omega

/-- A numeral of which no part is longer is not longer, and shorter if a part is. -/
theorem length_chars_le {p q : Plain} (hsign : q.negative = true → p.negative = true)
    (hwhole : q.whole.length ≤ p.whole.length) (hfraction : q.fraction.length ≤ p.fraction.length) :
    q.chars.length < p.chars.length ∨ q.negative = p.negative ∧ q.whole.length = p.whole.length ∧
      q.fraction.length = p.fraction.length := by
  have htail : (if q.fraction.length = 0 then 0 else q.fraction.length + 1) ≤
      if p.fraction.length = 0 then 0 else p.fraction.length + 1 := by
    split_ifs <;> omega
  rw [length_chars, length_chars]
  by_cases hsame : q.negative = p.negative
  · rw [hsame]
    by_cases heq : q.whole.length = p.whole.length ∧ q.fraction.length = p.fraction.length
    · exact .inr ⟨rfl, heq⟩
    · refine .inl ?_
      split_ifs at htail ⊢ <;> omega
  · -- a minus sign is one character more
    obtain ⟨hq, hp⟩ : q.negative = false ∧ p.negative = true := by
      cases hq : q.negative <;> cases hp : p.negative <;> simp_all
    rw [hq, hp, if_neg Bool.false_ne_true, if_pos rfl]
    omega

/-- The numeral of ten-thousandths writes them. -/
theorem value_ofTenThousandths (m : ℤ) : (ofTenThousandths m).value = m / 10 ^ 4 := by
  have hmagnitude : (ofTenThousandths m).magnitude = m.natAbs / 10 ^ 4 := by
    have htrim := natOfDigits_trimZeros (padded 4 (m.natAbs % tenTo 4))
    rw [length_padded_mod, natOfDigits_padded] at htrim
    rw [magnitude_eq_iff, ofTenThousandths_whole, ofTenThousandths_fraction, natOfDigits_toDigits]
    generalize trimZeros (padded 4 (m.natAbs % tenTo 4)) = fraction at htrim ⊢
    calc (m.natAbs / tenTo 4 * 10 ^ fraction.length + natOfDigits fraction) * tenTo 4
        = m.natAbs / tenTo 4 * 10 ^ fraction.length * tenTo 4 + natOfDigits fraction * tenTo 4 := Nat.add_mul ..
      _ = m.natAbs / tenTo 4 * 10 ^ fraction.length * tenTo 4 + m.natAbs % tenTo 4 * 10 ^ fraction.length := by
          rw [← htrim]
          rfl
      _ = (tenTo 4 * (m.natAbs / tenTo 4) + m.natAbs % tenTo 4) * 10 ^ fraction.length := by ring
      _ = m.natAbs * 10 ^ fraction.length := by rw [Nat.div_add_mod]
  unfold value
  rw [hmagnitude, ofTenThousandths_negative, Nat.cast_natAbs]
  by_cases hm : m < 0
  · rw [if_pos (decide_eq_true hm), abs_of_neg hm, Int.cast_neg, neg_div, neg_neg]
  · rw [if_neg (by simpa using hm), abs_of_nonneg (not_lt.mp hm)]

/-- **Every other numeral of the same number is longer.** -/
theorem eq_or_length_lt (m : ℤ) {p : Plain} (h : p.value = m / 10 ^ 4) :
    p = ofTenThousandths m ∨ (ofTenThousandths m).chars.length < p.chars.length := by
  have hmagnitude : p.magnitude = m.natAbs / 10 ^ 4 := by
    rw [← p.abs_value, h, abs_div, Nat.cast_natAbs, Int.cast_abs, abs_of_pos (by positivity : (0 : ℚ) < 10 ^ 4)]
  obtain ⟨hwhole, hfraction⟩ := parts_of_magnitude hmagnitude
  -- no part is shorter
  have hsign : (ofTenThousandths m).negative = true → p.negative = true := by
    intro hm
    refine value_neg ?_
    rw [h]
    exact div_neg_of_neg_of_pos (Int.cast_lt_zero.mpr (of_decide_eq_true hm)) (by positivity)
  have hbefore : p.whole = (ofTenThousandths m).whole ∨
      (ofTenThousandths m).whole.length < p.whole.length := by
    have := toDigits_natOfDigits p.areDigits_whole p.whole_ne
    rwa [hwhole] at this
  have hafter : p.fraction = (ofTenThousandths m).fraction ∨
      (ofTenThousandths m).fraction.length < p.fraction.length := by
    have htrim : trimZeros p.fraction = (ofTenThousandths m).fraction := by
      rw [ofTenThousandths_fraction]
      refine trimZeros_eq_of_value p.areDigits_fraction (areDigits_padded _ _) ?_
      rw [length_padded_mod, natOfDigits_padded]
      exact hfraction
    have := trimEnd_eq_or_length_lt '0' p.fraction
    rwa [← trimZeros_eq, htrim] at this
  have hle : (ofTenThousandths m).whole.length ≤ p.whole.length :=
    hbefore.elim (fun h => (congrArg List.length h).ge) Nat.le_of_lt
  have hle' : (ofTenThousandths m).fraction.length ≤ p.fraction.length :=
    hafter.elim (fun h => (congrArg List.length h).ge) Nat.le_of_lt
  rcases length_chars_le hsign hle hle' with hlt | ⟨hneg, hsame, hsame'⟩
  · exact .inr hlt
  · exact .inl (Plain.ext hneg.symm (hbefore.resolve_right hsame.not_lt) (hafter.resolve_right hsame'.not_lt))

/-- A point, or nothing, stops the digits before it. -/
theorem startsNoDigit_point (fraction : List Char) :
    StartsNoDigit (if fraction.isEmpty then [] else '.' :: fraction) := by
  split
  · nofun
  · rintro _ ⟨⟩
    rfl

/-- **The text of a numeral tells its parts.** -/
theorem chars_injective {p q : Plain} (h : p.chars = q.chars) : p = q := by
  have hfirst : ∀ (p : Plain) (rest : List Char), (p.whole ++ rest).head? ≠ some '-' := by
    intro p rest hhead
    obtain ⟨c, cs, hc⟩ := List.exists_cons_of_ne_nil p.whole_ne
    have hdigit := p.areDigits_whole c (hc ▸ List.mem_cons_self)
    rw [hc] at hhead
    cases hhead
    cases hdigit
  have hsign : p.negative = q.negative := by
    unfold chars at h
    cases hp : p.negative <;> cases hq : q.negative <;> rw [hp, hq] at h
    case false.true => exact absurd (congrArg List.head? h) (hfirst p _)
    case true.false => exact absurd (congrArg List.head? h).symm (hfirst q _)
  have hrest : p.whole ++ (if p.fraction.isEmpty then [] else '.' :: p.fraction) =
      q.whole ++ (if q.fraction.isEmpty then [] else '.' :: q.fraction) := by
    unfold chars at h
    rw [hsign] at h
    exact List.append_cancel_left h
  have hwhole := congrArg (List.takeWhile Char.isDigit) hrest
  rw [takeWhile_digits p.areDigits_whole (startsNoDigit_point _),
    takeWhile_digits q.areDigits_whole (startsNoDigit_point _)] at hwhole
  rw [hwhole] at hrest
  have htail := List.append_cancel_left hrest
  refine Plain.ext hsign hwhole ?_
  cases hp : p.fraction <;> cases hq : q.fraction <;> rw [hp, hq] at htail <;> cases htail
  rfl

/-- Zero is written without a sign. -/
theorem chars_ofTenThousandths_ne (m : ℤ) : (ofTenThousandths m).chars ≠ ['-', '0'] := by
  intro h
  let minusZero : Plain := ⟨true, ['0'], [], List.cons_ne_nil _ _, areDigits_replicate 1, nofun⟩
  have heq : ofTenThousandths m = minusZero := chars_injective h
  have hneg : m < 0 := of_decide_eq_true (congrArg negative heq)
  have hzero : (m : ℚ) / 10 ^ 4 = 0 := by
    rw [← value_ofTenThousandths, heq]
    norm_num [value, magnitude, minusZero, show natOfDigits ['0'] = 0 from rfl]
  rw [div_eq_zero_iff] at hzero
  norm_num at hzero
  omega

/-- A whole number is written with all its digits. -/
theorem chars_whole (n : ℤ) : (ofTenThousandths (n * 10 ^ 4)).chars = (toString n).toList := by
  have habs : (n * 10 ^ 4).natAbs = n.natAbs * tenTo 4 := Int.natAbs_mul ..
  have hsign : n * 10 ^ 4 < 0 ↔ n < 0 := by omega
  rw [chars_ofTenThousandths, habs, Nat.mul_div_cancel _ (by decide), Nat.mul_mod_left]
  simp only [hsign]
  rw [show trimZeros (padded 4 0) = [] by decide, List.isEmpty_nil, if_pos rfl, List.append_nil]
  cases n with
  | ofNat n => exact (Nat.toList_repr).symm
  | negSucc n =>
    rw [if_pos (Int.negSucc_lt_zero n)]
    show _ = ("-" ++ Nat.repr (n + 1)).toList
    rw [String.toList_append, Nat.toList_repr]
    rfl

end Plain

end EditableLisp.Number
