import EditableLisp.Proofs.Equality
import EditableLisp.Proofs.FourPlaces

/-!
# Comparisons by value

A number is compared as a double in parts: a sign, a mantissa and an exponent. Unless it is NaN, packing these parts
gives its bits again (`pack_unpack`), so a number is computed with as it is (`unpacked_eq`). The parts of a finite
number are canonical (`Canonical`), which makes the comparison of exponents and then mantissas one of quanta
(`compare_canonical`). So a finite number is below another one if its value is (**`lt_iff_value`**); infinity is
beyond all of them, and nothing is below or above NaN.
-/

namespace EditableLisp.Number

open Float.Model Float.Model.UnpackedFloat

/-! ## The fields of the bits -/

section fields

variable (b : BitVec 64)

theorem toNat_unpackExponent : (@unpackExponent Format.binary64 b).toNat = b.toNat / 2 ^ 52 % 2 ^ 11 := by
  unfold unpackExponent
  rw [BitVec.toNat_cast, BitVec.extractLsb_toNat, Nat.shiftRight_eq_div_pow]
  rfl

theorem toNat_unpackMantissa : (@unpackMantissa Format.binary64 b).toNat = b.toNat % 2 ^ 52 := by
  unfold unpackMantissa
  rw [BitVec.toNat_cast, BitVec.extractLsb_toNat, Nat.shiftRight_zero]
  rfl

theorem toNat_unpackSign : (@unpackSign Format.binary64 b).toNat = b.toNat / 2 ^ 63 % 2 := by
  unfold unpackSign
  rw [BitVec.toNat_cast, BitVec.extractLsb_toNat, Nat.shiftRight_eq_div_pow]
  rfl

theorem toBitVec_ofBitVec (s : BitVec 1) : (Sign.ofBitVec s).toBitVec = s := by
  revert s
  decide

end fields

/-! ## The parts of a double -/

/-- The sign of a double. -/
def signOf (negative : Bool) : Sign := if negative then .negative else .positive

section parts

variable {b : BitVec 64}

theorem ofBitVec_unpackSign (b : BitVec 64) :
    Sign.ofBitVec (@unpackSign Format.binary64 b) = signOf (b.toNat / 2 ^ 63 % 2 == 1) := by
  have hsign : @unpackSign Format.binary64 b = 0#1 ↔ ¬ b.toNat / 2 ^ 63 % 2 = 1 := by
    rw [← BitVec.toNat_inj, toNat_unpackSign]
    show b.toNat / 2 ^ 63 % 2 = 0 ↔ _
    omega
  unfold Sign.ofBitVec signOf
  by_cases h : b.toNat / 2 ^ 63 % 2 = 1
  · rw [if_neg (mt hsign.mp (not_not.mpr h)), if_pos (beq_iff_eq.mpr h)]
  · rw [if_pos (hsign.mpr h), if_neg (mt beq_iff_eq.mp h)]

theorem unpackExponent_eq_neg_one_iff :
    @unpackExponent Format.binary64 b = -1#_ ↔ b.toNat / 2 ^ 52 % 2 ^ 11 = 2047 := by
  rw [← BitVec.toNat_inj, toNat_unpackExponent, BitVec.neg_one_eq_allOnes, BitVec.toNat_allOnes]
  exact Iff.rfl

theorem unpackExponent_eq_zero_iff : @unpackExponent Format.binary64 b = 0#_ ↔ b.toNat / 2 ^ 52 % 2 ^ 11 = 0 := by
  rw [← BitVec.toNat_inj, toNat_unpackExponent]
  exact Iff.rfl

theorem unpackMantissa_eq_zero_iff : @unpackMantissa Format.binary64 b = 0#_ ↔ b.toNat % 2 ^ 52 = 0 := by
  rw [← BitVec.toNat_inj, toNat_unpackMantissa]
  exact Iff.rfl

theorem unpack_nan (hones : b.toNat / 2 ^ 52 % 2 ^ 11 = 2047) (hsome : b.toNat % 2 ^ 52 ≠ 0) :
    UnpackedFloat.unpack Format.binary64 b = .notANumber := by
  unfold UnpackedFloat.unpack
  dsimp only
  rw [if_pos (unpackExponent_eq_neg_one_iff.mpr hones), if_neg (mt unpackMantissa_eq_zero_iff.mp hsome)]

theorem unpack_infinite (hones : b.toNat / 2 ^ 52 % 2 ^ 11 = 2047) (hnone : b.toNat % 2 ^ 52 = 0) :
    UnpackedFloat.unpack Format.binary64 b = .infinity (signOf (b.toNat / 2 ^ 63 % 2 == 1)) := by
  rw [← ofBitVec_unpackSign]
  unfold UnpackedFloat.unpack
  dsimp only
  rw [if_pos (unpackExponent_eq_neg_one_iff.mpr hones), if_pos (unpackMantissa_eq_zero_iff.mpr hnone)]

theorem unpack_zero (hzero : b.toNat / 2 ^ 52 % 2 ^ 11 = 0) (hnone : b.toNat % 2 ^ 52 = 0) :
    UnpackedFloat.unpack Format.binary64 b = .zero (signOf (b.toNat / 2 ^ 63 % 2 == 1)) := by
  rw [← ofBitVec_unpackSign]
  unfold UnpackedFloat.unpack
  dsimp only
  rw [if_neg (mt unpackExponent_eq_neg_one_iff.mp (by omega)), if_pos (unpackExponent_eq_zero_iff.mpr hzero),
    dif_pos (unpackMantissa_eq_zero_iff.mpr hnone)]

/-- Doubles of the same parts are the same. -/
theorem finite_congr {s t : Sign} {m n : Nat} {e d : ℤ} {hm : 0 < m} {hn : 0 < n} (hs : s = t) (h : m = n)
    (he : e = d) : UnpackedFloat.finite s m e hm = .finite t n d hn := by
  subst hs h he
  rfl

theorem unpack_subnormal (hzero : b.toNat / 2 ^ 52 % 2 ^ 11 = 0) (hsome : 0 < b.toNat % 2 ^ 52) :
    UnpackedFloat.unpack Format.binary64 b =
      .finite (signOf (b.toNat / 2 ^ 63 % 2 == 1)) (b.toNat % 2 ^ 52) (-1074) hsome := by
  unfold UnpackedFloat.unpack
  dsimp only
  rw [if_neg (mt unpackExponent_eq_neg_one_iff.mp (by omega)), if_pos (unpackExponent_eq_zero_iff.mpr hzero),
    dif_neg (mt unpackMantissa_eq_zero_iff.mp hsome.ne')]
  refine finite_congr (ofBitVec_unpackSign b) (toNat_unpackMantissa b) ?_
  rw [toNat_unpackExponent, hzero]
  rfl

theorem full_leading (b : BitVec 64) : Full (2 ^ 52 + b.toNat % 2 ^ 52) := ⟨Nat.le_add_right _ _, by omega⟩

theorem unpack_normal (hzero : b.toNat / 2 ^ 52 % 2 ^ 11 ≠ 0) (hones : b.toNat / 2 ^ 52 % 2 ^ 11 ≠ 2047) :
    UnpackedFloat.unpack Format.binary64 b =
      .finite (signOf (b.toNat / 2 ^ 63 % 2 == 1)) (2 ^ 52 + b.toNat % 2 ^ 52)
        ((b.toNat / 2 ^ 52 % 2 ^ 11 : Nat) - 1075) (full_leading b).pos := by
  unfold UnpackedFloat.unpack
  dsimp only
  rw [if_neg (mt unpackExponent_eq_neg_one_iff.mp hones), if_neg (mt unpackExponent_eq_zero_iff.mp hzero)]
  refine finite_congr (ofBitVec_unpackSign b) ?_ ?_
  · rw [toNat_append, toNat_unpackMantissa]
    rfl
  · rw [toNat_unpackExponent]
    rfl

/-! ## Packing what was unpacked -/

/-- The fields make up the bits. -/
theorem packComponents_fields {exponent : BitVec 11} {mantissa : BitVec 52}
    (he : exponent.toNat = b.toNat / 2 ^ 52 % 2 ^ 11) (hm : mantissa.toNat = b.toNat % 2 ^ 52) :
    packComponents Format.binary64 (signOf (b.toNat / 2 ^ 63 % 2 == 1)) exponent mantissa = b := by
  have hlt := b.isLt
  refine BitVec.eq_of_toNat_eq ?_
  unfold packComponents
  rw [← ofBitVec_unpackSign, toNat_append, toNat_append, toBitVec_ofBitVec, toNat_unpackSign, he, hm]
  show (b.toNat / 2 ^ 63 % 2 * 2 ^ 11 + b.toNat / 2 ^ 52 % 2 ^ 11) * 2 ^ 52 + b.toNat % 2 ^ 52 = b.toNat
  omega

/-- The bits of a double of the smallest exponent. -/
theorem pack_subnormal (sign : Sign) {m : Nat} (hm : 0 < m) (hlt : m < 2 ^ 52) :
    UnpackedFloat.pack Format.binary64 (.finite sign m (-1074) hm) =
      packComponents Format.binary64 sign 0#_ (BitVec.ofNat _ m) := by
  have hlog : m.log2 < 52 := (Nat.log2_lt hm.ne').mpr hlt
  have hbits : ¬ m.log2 + 1 = Format.binary64.mantissaBits := by
    show ¬ m.log2 + 1 = 53
    omega
  have hfits : ¬ 2 ^ Format.binary64.exponentBits ≤
      ((-1074 : ℤ) + Format.binary64.exponentBias + Format.binary64.mantissaBitsWithoutImplicit).toNat + 1 := by decide
  unfold UnpackedFloat.pack
  dsimp only
  rw [if_neg hfits, if_neg hbits]

/-- **Packing gives the bits again that were unpacked**, unless these are of NaN. -/
theorem pack_unpack (h : (UnpackedFloat.unpack Format.binary64 b).isNaN = false) :
    UnpackedFloat.pack Format.binary64 (UnpackedFloat.unpack Format.binary64 b) = b := by
  by_cases hones : b.toNat / 2 ^ 52 % 2 ^ 11 = 2047
  · by_cases hnone : b.toNat % 2 ^ 52 = 0
    · rw [unpack_infinite hones hnone]
      exact packComponents_fields hones.symm hnone.symm
    · rw [unpack_nan hones hnone] at h
      cases h
  · by_cases hzero : b.toNat / 2 ^ 52 % 2 ^ 11 = 0
    · by_cases hnone : b.toNat % 2 ^ 52 = 0
      · rw [unpack_zero hzero hnone]
        exact packComponents_fields hzero.symm hnone.symm
      · have hmantissa : (BitVec.ofNat 52 (b.toNat % 2 ^ 52)).toNat = b.toNat % 2 ^ 52 := by
          rw [BitVec.toNat_ofNat, Nat.mod_mod]
        rw [unpack_subnormal hzero (Nat.pos_of_ne_zero hnone), pack_subnormal _ _ (Nat.mod_lt _ (by decide))]
        exact packComponents_fields hzero.symm hmantissa
    · have hexponent : (BitVec.ofNat 11 (b.toNat / 2 ^ 52 % 2 ^ 11)).toNat = b.toNat / 2 ^ 52 % 2 ^ 11 := by
        rw [BitVec.toNat_ofNat, Nat.mod_mod]
      have hmantissa : (BitVec.ofNat 52 (2 ^ 52 + b.toNat % 2 ^ 52)).toNat = b.toNat % 2 ^ 52 := by
        rw [BitVec.toNat_ofNat]
        omega
      rw [unpack_normal hzero hones, pack_full (full_leading b) (Int.sub_add_cancel _ _) (by omega)]
      exact packComponents_fields hexponent hmantissa

end parts

/-! ## Numbers by their parts -/

/-- A mantissa of at most 53 bits, and of fewer only with the least exponent. -/
structure Canonical (mantissa : Nat) (exponent : ℤ) : Prop where
  low : -1074 ≤ exponent
  high : mantissa < 2 ^ 53
  full : 2 ^ 52 ≤ mantissa ∨ exponent = -1074

/-- The quanta of a mantissa and an exponent. -/
def quantaOf (mantissa : Nat) (exponent : ℤ) : Nat := mantissa * 2 ^ (exponent + 1074).toNat

/-- What the parts of a double say about the exact value. -/
inductive Unpacks (x : Number) : UnpackedFloat → Prop where
  | nan : x.exact = .nan → Unpacks x .notANumber
  | infinite (negative : Bool) : x.exact = .infinite negative → Unpacks x (.infinity (signOf negative))
  | zero (negative : Bool) : x.exact = .finite negative 0 → Unpacks x (.zero (signOf negative))
  | finite (negative : Bool) (m : Nat) (e : ℤ) (hm : 0 < m) : Canonical m e →
      x.exact = .finite negative (quantaOf m e) → Unpacks x (.finite (signOf negative) m e hm)

theorem unpacks_unpack (x : Number) : Unpacks x (UnpackedFloat.unpack Format.binary64 x.bits.toBitVec) := by
  have hexact := exact_eq x
  have hbits : x.bits.toNat = x.bits.toBitVec.toNat := rfl
  rw [hbits] at hexact
  by_cases hones : x.bits.toBitVec.toNat / 2 ^ 52 % 2 ^ 11 = 2047
  · rw [if_pos hones] at hexact
    by_cases hnone : x.bits.toBitVec.toNat % 2 ^ 52 = 0
    · rw [if_pos hnone] at hexact
      rw [unpack_infinite hones hnone]
      exact .infinite _ hexact
    · rw [if_neg hnone] at hexact
      rw [unpack_nan hones hnone]
      exact .nan hexact
  · rw [if_neg hones] at hexact
    unfold Exact.quantaOfFields at hexact
    by_cases hzero : x.bits.toBitVec.toNat / 2 ^ 52 % 2 ^ 11 = 0
    · rw [if_pos hzero] at hexact
      by_cases hnone : x.bits.toBitVec.toNat % 2 ^ 52 = 0
      · rw [hnone] at hexact
        rw [unpack_zero hzero hnone]
        exact .zero _ hexact
      · rw [unpack_subnormal hzero (Nat.pos_of_ne_zero hnone)]
        refine .finite _ _ _ _ ⟨Int.le_refl _, by omega, .inr rfl⟩ (hexact.trans ?_)
        rw [quantaOf, Int.add_left_neg, Int.toNat_zero, Nat.pow_zero, Nat.mul_one]
    · rw [if_neg hzero] at hexact
      rw [unpack_normal hzero hones]
      have hfull := full_leading x.bits.toBitVec
      have hshift : ((x.bits.toBitVec.toNat / 2 ^ 52 % 2 ^ 11 : Nat) - 1075 + 1074 : ℤ).toNat =
          x.bits.toBitVec.toNat / 2 ^ 52 % 2 ^ 11 - 1 := by omega
      refine .finite _ _ _ _ ⟨by omega, hfull.high, .inl hfull.low⟩ (hexact.trans ?_)
      rw [quantaOf, hshift, twoTo_eq, twoTo_eq]

/-- **A number is computed with as it is.** -/
theorem unpacked_eq (x : Number) : x.unpacked = UnpackedFloat.unpack Format.binary64 x.bits.toBitVec := by
  have hpacked : x.unpacked = UnpackedFloat.unpack Format.binary64
      ((UnpackedFloat.unpack Format.binary64 x.bits.toBitVec).pack Format.binary64) := rfl
  cases h : (UnpackedFloat.unpack Format.binary64 x.bits.toBitVec).isNaN with
  | false => rw [hpacked, pack_unpack h]
  | true =>
    have hnan : x.unpacked.isNaN = true := by rw [isNaN_unpacked, x.isNaN_iff, h]
    generalize UnpackedFloat.unpack Format.binary64 x.bits.toBitVec = u at h ⊢
    generalize x.unpacked = v at hnan ⊢
    cases u with
    | notANumber =>
      cases v with
      | notANumber => rfl
      | _ => cases hnan
    | _ => cases h

theorem unpacks_unpacked (x : Number) : Unpacks x x.unpacked := by
  rw [unpacked_eq]
  exact unpacks_unpack x

/-! ## Comparisons -/

/-- A smaller exponent makes fewer quanta. -/
theorem quantaOf_lt {m n : Nat} {e d : ℤ} (hm : Canonical m e) (hn : Canonical n d) (h : e < d) :
    quantaOf m e < quantaOf n d := by
  have hlow := hm.low
  have hn52 : 2 ^ 52 ≤ n := hn.full.resolve_right (by omega)
  calc quantaOf m e < 2 ^ 53 * 2 ^ (e + 1074).toNat := Nat.mul_lt_mul_of_pos_right hm.high (Nat.two_pow_pos _)
    _ = 2 ^ 52 * 2 ^ ((e + 1074).toNat + 1) := by
      rw [← Nat.pow_add, ← Nat.pow_add]
      congr 1
      omega
    _ ≤ n * 2 ^ (d + 1074).toNat := Nat.mul_le_mul hn52 (Nat.pow_le_pow_right (by decide) (by omega))

/-- **Canonical parts are compared as their quanta are**, the exponents first. -/
theorem compare_canonical {m n : Nat} {e d : ℤ} (hm : Canonical m e) (hn : Canonical n d) :
    (compare e d).then (compare m n) = compare (quantaOf m e) (quantaOf n d) := by
  rcases lt_trichotomy e d with h | rfl | h
  · rw [Int.compare_eq_lt.mpr h, Nat.compare_eq_lt.mpr (quantaOf_lt hm hn h)]
    rfl
  · have hpos : 0 < 2 ^ (e + 1074).toNat := Nat.two_pow_pos _
    rw [Int.compare_eq_eq.mpr rfl, Ordering.eq_then, quantaOf, quantaOf]
    rcases lt_trichotomy m n with h | rfl | h
    · rw [Nat.compare_eq_lt.mpr h, Nat.compare_eq_lt.mpr (Nat.mul_lt_mul_of_pos_right h hpos)]
    · rw [Nat.compare_eq_eq.mpr rfl, Nat.compare_eq_eq.mpr rfl]
    · rw [Nat.compare_eq_gt.mpr h, Nat.compare_eq_gt.mpr (Nat.mul_lt_mul_of_pos_right h hpos)]
  · rw [Int.compare_eq_gt.mpr h, Nat.compare_eq_gt.mpr (quantaOf_lt hn hm h)]
    rfl

theorem lt_iff_compare (x y : Number) : x.lt y = true ↔ x.unpacked.compare y.unpacked = some .lt := by
  unfold lt
  rw [decide_eq_true_iff]
  show decide (x.toFloat.toModel < y.toFloat.toModel) = true ↔ _
  rw [decide_eq_true_iff]
  show (x.unpacked.compare y.unpacked == some .lt) = true ↔ _
  exact beq_iff_eq

/-- Quanta with a sign. -/
def signed (negative : Bool) (quanta : Nat) : ℤ := if negative then -quanta else quanta

theorem signed_false (quanta : Nat) : signed false quanta = quanta := rfl

theorem signed_true (quanta : Nat) : signed true quanta = -quanta := rfl

theorem quantaOf_pos {m : Nat} (hm : 0 < m) (e : ℤ) : 0 < quantaOf m e := Nat.mul_pos hm (Nat.two_pow_pos _)

/-- Finite doubles are compared as their quanta are. -/
theorem compare_eq_lt_iff {x y : Number} {u v : UnpackedFloat} {s t : Bool} {p q : Nat} (hu : Unpacks x u)
    (hv : Unpacks y v) (hx : x.exact = .finite s p) (hy : y.exact = .finite t q) :
    u.compare v = some .lt ↔ signed s p < signed t q := by
  cases hu with
  | nan h | infinite _ h => cases h.symm.trans hx
  | zero s' h =>
    cases h.symm.trans hx
    cases hv with
    | nan h | infinite _ h => cases h.symm.trans hy
    | zero t' h =>
      cases h.symm.trans hy
      cases s <;> cases t <;> exact ⟨nofun, fun h => absurd h (by decide)⟩
    | finite t' n d hn hcanonical h =>
      cases h.symm.trans hy
      have hpos := quantaOf_pos hn d
      cases t with
      | false => exact ⟨fun _ => by cases s <;> exact Int.natCast_pos.mpr hpos, fun _ => rfl⟩
      | true =>
        refine ⟨nofun, fun h => absurd h ?_⟩
        cases s <;> exact Int.not_lt.mpr (Int.neg_nonpos_of_nonneg (Int.natCast_nonneg _))
  | finite s' m e hm hcanonical h =>
    cases h.symm.trans hx
    have hpos := quantaOf_pos hm e
    cases hv with
    | nan h | infinite _ h => cases h.symm.trans hy
    | zero t' h =>
      cases h.symm.trans hy
      cases s with
      | false =>
        refine ⟨nofun, fun h => absurd h ?_⟩
        cases t <;> exact Int.not_lt.mpr (Int.natCast_nonneg _)
      | true => exact ⟨fun _ => by cases t <;> exact Int.neg_neg_of_pos (Int.natCast_pos.mpr hpos), fun _ => rfl⟩
    | finite t' n d hn hcanonical' h =>
      cases h.symm.trans hy
      have hpos' := quantaOf_pos hn d
      have hcompare := compare_canonical hcanonical hcanonical'
      cases s <;> cases t
      · show some ((compare e d).then (compare m n)) = some .lt ↔ _
        rw [hcompare, Option.some_inj, Nat.compare_eq_lt]
        exact Int.ofNat_lt.symm
      · rw [signed_false, signed_true]
        exact ⟨nofun, fun h => by omega⟩
      · rw [signed_false, signed_true]
        exact ⟨fun _ => by omega, fun _ => rfl⟩
      · show some ((compare e d).then (compare m n)).swap = some .lt ↔ _
        rw [hcompare, Option.some_inj, Ordering.swap_eq_lt, Nat.compare_eq_gt]
        rw [signed_true, signed_true]
        omega

theorem value?_of_finite {x : Number} {negative : Bool} {quanta : Nat} (h : x.exact = .finite negative quanta) :
    x.value? = some ((signed negative quanta : ℚ) / quantaPerUnit) := by
  unfold value?
  rw [h]
  cases negative with
  | false => rfl
  | true =>
    rw [signed_true, Int.cast_neg, neg_div]
    rfl

theorem finite_of_value? {x : Number} {p : ℚ} (h : x.value? = some p) :
    ∃ negative quanta, x.exact = .finite negative quanta ∧ p = (signed negative quanta : ℚ) / quantaPerUnit := by
  cases hx : x.exact with
  | nan | infinite =>
    unfold value? at h
    rw [hx] at h
    cases h
  | finite negative quanta =>
    rw [value?_of_finite hx] at h
    exact ⟨negative, quanta, rfl, (Option.some.inj h).symm⟩

/-- **A finite number is below another one exactly if its value is.** -/
theorem lt_iff_value {x y : Number} {p q : ℚ} (hx : x.value? = some p) (hy : y.value? = some q) :
    x.lt y = true ↔ p < q := by
  obtain ⟨s, m, hxm, rfl⟩ := finite_of_value? hx
  obtain ⟨t, n, hyn, rfl⟩ := finite_of_value? hy
  have hunit : (0 : ℚ) < quantaPerUnit := Nat.cast_pos.mpr Json.quantaPerUnit_pos
  rw [lt_iff_compare, compare_eq_lt_iff (unpacks_unpacked x) (unpacks_unpacked y) hxm hyn,
    div_lt_div_iff_of_pos_right hunit, Int.cast_lt]

/-- Infinity is beyond the finite doubles. -/
theorem compare_infinite {x y : Number} {u v : UnpackedFloat} {negative t : Bool} {n : Nat} (hu : Unpacks x u)
    (hv : Unpacks y v) (hx : x.exact = .infinite negative) (hy : y.exact = .finite t n) :
    u.compare v = some (if negative then .lt else .gt) := by
  cases hu with
  | nan h | zero _ h | finite _ _ _ _ _ h => cases h.symm.trans hx
  | infinite s h =>
    cases h.symm.trans hx
    cases hv with
    | nan h | infinite _ h => cases h.symm.trans hy
    | zero | finite => cases negative <;> rfl

/-- Minus infinity is below every finite number, and infinity is not. -/
theorem lt_of_infinite {x y : Number} {negative t : Bool} {n : Nat} (hx : x.exact = .infinite negative)
    (hy : y.exact = .finite t n) : x.lt y = negative := by
  rw [Bool.eq_iff_iff, lt_iff_compare, compare_infinite (unpacks_unpacked x) (unpacks_unpacked y) hx hy]
  cases negative <;> decide

/-- NaN is what has no exact value. -/
theorem isNaN_iff_exact (x : Number) : x.isNaN = true ↔ x.exact = .nan := by
  rw [← isNaN_unpacked]
  have hparts := unpacks_unpacked x
  generalize x.unpacked = u at hparts
  cases hparts with
  | nan h => exact ⟨fun _ => h, fun _ => rfl⟩
  | infinite _ h | zero _ h | finite _ _ _ _ _ h => exact ⟨nofun, fun h' => nomatch h.symm.trans h'⟩

/-- NaN is not below anything. -/
theorem lt_of_isNaN {x : Number} (h : x.isNaN = true) (y : Number) : x.lt y = false := by
  rw [← isNaN_unpacked] at h
  rw [Bool.eq_false_iff, ne_eq, lt_iff_compare]
  generalize x.unpacked = u at h
  cases u with
  | notANumber => exact nofun
  | _ => cases h

end EditableLisp.Number
