import Mathlib.Algebra.Group.Nat.Defs
import Mathlib.Data.List.TakeWhile
import EditableLisp.Json.Text

/-!
# Whole numbers as doubles

A whole number below `2 ^ 53` is a double. Its significand is the number moved up until it has 53 bits, and
what it is converted to is the number with these quanta, in all its bits (`ofFloat_whole`). So an integer that a
number was written as is converted to the number again (`ofInt_of_exact`), and its digits are read as the integer
(`integer?_int`).
-/

namespace EditableLisp.Number

open Float.Model Float.Model.UnpackedFloat

/-! ## Significands -/

/-- The places that a whole number is moved up to get 53 bits. -/
def places (n : Nat) : Nat := 52 - n.log2

/-- The 53 bits of a whole number. -/
def significand (n : Nat) : Nat := n * 2 ^ places n

variable {n m k : Nat} {e : Int}

theorem twoTo_eq (k : Nat) : twoTo k = 2 ^ k := rfl

/-- A number of 53 bits. -/
structure Full (m : Nat) : Prop where
  low : 2 ^ 52 ≤ m
  high : m < 2 ^ 53

theorem Full.pos (h : Full m) : 0 < m := Nat.lt_of_lt_of_le (by decide) h.low

theorem Full.log2 (h : Full m) : m.log2 = 52 := (Nat.log2_eq_iff h.pos.ne').mpr ⟨h.low, h.high⟩

theorem log2_mul_two_pow (hm : 0 < m) (k : Nat) : (m * 2 ^ k).log2 = m.log2 + k := by
  have hpos : 0 < 2 ^ k := Nat.two_pow_pos k
  refine (Nat.log2_eq_iff (Nat.mul_pos hm hpos).ne').mpr ⟨?_, ?_⟩
  · rw [Nat.pow_add]
    exact Nat.mul_le_mul_right _ (Nat.log2_self_le hm.ne')
  · rw [Nat.add_right_comm, Nat.pow_add]
    exact Nat.mul_lt_mul_of_pos_right Nat.lt_log2_self hpos

theorem log2_le (hn : 0 < n) (h : n < 2 ^ 53) : n.log2 ≤ 52 :=
  Nat.lt_succ_iff.mp ((Nat.log2_lt hn.ne').mpr h)

theorem full_significand (hn : 0 < n) (h : n < 2 ^ 53) : Full (significand n) := by
  have hpos : 0 < significand n := Nat.mul_pos hn (Nat.two_pow_pos _)
  have hlog : (significand n).log2 = 52 := by
    have hle := log2_le hn h
    unfold significand places
    rw [log2_mul_two_pow hn]
    omega
  obtain ⟨low, high⟩ := (Nat.log2_eq_iff hpos.ne').mp hlog
  exact ⟨low, high⟩

/-! ## Rounding what is exact -/

/-- A mantissa of 53 bits is where it has to be. -/
theorem shiftToTargetExponent_full (hm : Full m) (he : -1074 ≤ e) :
    shiftToTargetExponent Format.binary64 m e .exact = (⟨m, false, false⟩, e) := by
  have htarget : Format.binary64.targetExponent (totalExponent m e) = e := by
    unfold Format.targetExponent totalExponent
    rw [hm.log2]
    show max (((52 : Nat) : Int) + 1 + e - (53 : Nat)) (-1074) = e
    omega
  have hshift : (e - e).toNat = 0 := by omega
  unfold shiftToTargetExponent
  rw [htarget]
  unfold shiftToExponent
  dsimp only
  rw [hshift]
  exact Prod.ext rfl (by dsimp only; omega)

theorem roundWithAccuracy_full (hm : Full m) (he : -1074 ≤ e) (sign : Sign) :
    roundWithAccuracy Format.binary64 sign m e .exact = .finite sign m e hm.pos := by
  have hstays := shiftToTargetExponent_full hm he
  unfold roundWithAccuracy
  rw [hstays]
  show (let final := shiftToTargetExponent Format.binary64 m e .exact
    if h : final.1.mantissa = 0 then (.zero sign : UnpackedFloat)
    else .finite sign final.1.mantissa final.2 (Nat.pos_of_ne_zero h)) = _
  rw [hstays]
  exact dif_neg hm.pos.ne'

/-- A whole number is converted to its significand. -/
theorem ofNat_whole (hn : 0 < n) (h : n < 2 ^ 53) :
    UnpackedFloat.ofNat Format.binary64 n =
      .finite .positive (significand n) (-places n) (full_significand hn h).pos := by
  have hle := log2_le hn h
  have htarget : Format.binary64.targetExponent (totalExponent n 0) = -places n := by
    unfold Format.targetExponent totalExponent places
    show max ((n.log2 : Int) + 1 + 0 - (53 : Nat)) (-1074) = _
    omega
  have hround : UnpackedFloat.ofNat Format.binary64 n = UnpackedFloat.round Format.binary64 .positive n 0 := by
    unfold UnpackedFloat.ofNat UnpackedFloat.ofInt UnpackedFloat.normalize
    have hcompare : compare (n : Int) 0 = .gt := Int.compare_eq_gt.mpr (by omega)
    rw [hcompare]
    rfl
  rw [hround]
  unfold UnpackedFloat.round decreaseExponent
  dsimp only
  rw [htarget]
  have hshift : (0 - -(places n : Int)).toNat = places n := by omega
  rw [hshift, Nat.shiftLeft_eq]
  rw [Int.zero_sub]
  exact roundWithAccuracy_full (full_significand hn h) (by unfold places; omega) .positive

/-! ## Packing -/

/-- The bits of a double whose mantissa has 53 bits. -/
theorem pack_full {sign : Sign} (hm : Full m) {biased : Nat} (hb : e + 1075 = biased) (hlt : biased < 2047) :
    UnpackedFloat.pack Format.binary64 (.finite sign m e hm.pos) =
      packComponents Format.binary64 sign (BitVec.ofNat _ biased) (BitVec.ofNat _ m) := by
  have hbiased : (e + Format.binary64.exponentBias + Format.binary64.mantissaBitsWithoutImplicit).toNat = biased := by
    show (e + (1023 : Nat) + (52 : Nat)).toNat = biased
    omega
  have hbits : m.log2 + 1 = Format.binary64.mantissaBits := by rw [hm.log2]; rfl
  have hfits : ¬ 2 ^ Format.binary64.exponentBits ≤ biased + 1 := by
    show ¬ 2 ^ 11 ≤ biased + 1
    omega
  unfold UnpackedFloat.pack
  dsimp only
  rw [hbiased, if_neg hfits, if_pos hbits]

theorem toNat_append {v w : Nat} (a : BitVec v) (b : BitVec w) :
    (a ++ b).toNat = a.toNat * 2 ^ w + b.toNat := by
  rw [BitVec.toNat_append, ← Nat.shiftLeft_add_eq_or_of_lt b.isLt, Nat.shiftLeft_eq]

theorem toNat_packComponents (a : BitVec 11) (b : BitVec 52) :
    (packComponents Format.binary64 .positive a b).toNat = a.toNat * 2 ^ 52 + b.toNat := by
  show (0#1 ++ a ++ b).toNat = _
  rw [toNat_append, toNat_append, BitVec.toNat_ofNat, Nat.zero_mod, Nat.zero_mul, Nat.zero_add]

theorem unpackSign_packComponents (a : BitVec 11) (b : BitVec 52) :
    unpackSign (packComponents Format.binary64 .positive a b) = 0#1 := by
  refine BitVec.eq_of_toNat_eq ?_
  have hlt : a.toNat * 2 ^ 52 + b.toNat < 2 ^ 63 := by
    have ha := a.isLt
    have hb := b.isLt
    omega
  show ((packComponents Format.binary64 .positive a b).extractLsb 63 63).toNat = 0
  rw [BitVec.extractLsb_toNat, toNat_packComponents, Nat.shiftRight_eq_div_pow, Nat.div_eq_of_lt hlt]

/-- What is packed is unpacked again. -/
theorem unpack_pack_full (hm : Full m) {biased : Nat} (hb : e + 1075 = biased) (hpos : 0 < biased)
    (hlt : biased < 2047) :
    UnpackedFloat.unpack Format.binary64 (UnpackedFloat.pack Format.binary64 (.finite .positive m e hm.pos)) =
      .finite .positive m e hm.pos := by
  have hexponent : (BitVec.ofNat 11 biased).toNat = biased := by
    rw [BitVec.toNat_ofNat, Nat.mod_eq_of_lt (by omega)]
  have hones : BitVec.ofNat 11 biased ≠ -1#11 := fun h => by
    have h := congrArg BitVec.toNat h
    rw [hexponent] at h
    have : biased = 2047 := h
    omega
  have hzero : BitVec.ofNat 11 biased ≠ 0#11 := fun h => by
    have h := congrArg BitVec.toNat h
    rw [hexponent] at h
    have : biased = 0 := h
    omega
  have hmantissa : (1#1 ++ unpackMantissa (packComponents Format.binary64 .positive
      (BitVec.ofNat 11 biased) (BitVec.ofNat 52 m))).toNat = m := by
    have hlow := hm.low
    have hhigh := hm.high
    rw [unpackMantissa_packComponents, toNat_append, BitVec.toNat_ofNat, BitVec.toNat_ofNat]
    omega
  rw [pack_full hm hb hlt]
  unfold UnpackedFloat.unpack
  dsimp only
  rw [unpackExponent_packComponents, unpackSign_packComponents, if_neg hones, if_neg hzero]
  have hsame : ((BitVec.ofNat 11 biased).toNat : Int) - ((1023 : Nat) + (52 : Nat)) = e := by omega
  have finite_congr : ∀ {m' : Nat} {e' : Int} (h : 0 < m'), m' = m → e' = e →
      UnpackedFloat.finite .positive m' e' h = .finite .positive m e hm.pos := by
    rintro _ _ h rfl rfl
    rfl
  exact finite_congr _ hmantissa hsame

/-! ## Whole numbers -/

theorem biased_whole (n : Nat) : -(places n : Int) + 1075 = (1075 - places n : Nat) := by
  have hle : places n ≤ 52 := Nat.sub_le _ _
  omega

/-- What a whole number is converted to. -/
theorem toModel_whole (hn : 0 < n) (h : n < 2 ^ 53) : n.toUInt64.toFloat.toModel =
    Float.Model.pack (.finite .positive (significand n) (-places n) (full_significand hn h).pos) := by
  have hn64 : n.toUInt64.toNat = n := Nat.mod_eq_of_lt (by omega)
  show Float.Model.pack (UnpackedFloat.ofNat Format.binary64 n.toUInt64.toNat) = _
  rw [hn64, ofNat_whole hn h]

theorem unpack_whole (hn : 0 < n) (h : n < 2 ^ 53) : n.toUInt64.toFloat.toModel.unpack =
    .finite .positive (significand n) (-places n) (full_significand hn h).pos := by
  have hle : places n ≤ 52 := Nat.sub_le _ _
  rw [toModel_whole hn h]
  exact unpack_pack_full (full_significand hn h) (biased_whole n) (by omega) (by omega)

/-- The bits of a whole number. -/
theorem whole_bits (hn : 0 < n) (h : n < 2 ^ 53) :
    (ofFloat n.toUInt64.toFloat).bits.toNat =
      (1075 - places n) * 2 ^ 52 + (significand n - 2 ^ 52) := by
  have hm := full_significand hn h
  have hnan : n.toUInt64.toFloat.isNaN = false := by
    show n.toUInt64.toFloat.toModel.unpack.isNaN = false
    rw [unpack_whole hn h]
    rfl
  unfold ofFloat
  rw [hnan]
  show n.toUInt64.toFloat.toModel.toBits.toNat = _
  rw [toModel_whole hn h]
  show (UnpackedFloat.pack Format.binary64 _).toNat = _
  rw [pack_full hm (biased_whole n) (by omega), toNat_packComponents, BitVec.toNat_ofNat, BitVec.toNat_ofNat]
  have hlow := hm.low
  have hhigh := hm.high
  omega

/-- Two products of a number of 53 bits and a power of two are equal only if their factors are. -/
theorem eq_of_full_mul_two_pow {m m' k k' : Nat} (hm : Full m) (hm' : Full m')
    (h : m * 2 ^ k = m' * 2 ^ k') : k = k' ∧ m = m' := by
  have hlog := congrArg Nat.log2 h
  rw [log2_mul_two_pow hm.pos, log2_mul_two_pow hm'.pos, hm.log2, hm'.log2] at hlog
  obtain rfl : k = k' := Nat.add_left_cancel hlog
  exact ⟨rfl, Nat.eq_of_mul_eq_mul_right (Nat.two_pow_pos k) h⟩

/-- The exact value by the fields of the bits. -/
theorem exact_eq (x : Number) : x.exact = if x.bits.toNat / 2 ^ 52 % 2 ^ 11 = 2047 then
      if x.bits.toNat % 2 ^ 52 = 0 then Exact.infinite (x.bits.toNat / 2 ^ 63 % 2 == 1) else .nan
    else .finite (x.bits.toNat / 2 ^ 63 % 2 == 1)
      (Exact.quantaOfFields (x.bits.toNat / 2 ^ 52 % 2 ^ 11) (x.bits.toNat % 2 ^ 52)) := rfl

/-- The quanta of a whole number, by its significand. -/
theorem quanta_whole (n : Nat) : n * quantaPerUnit = significand n * 2 ^ (1074 - places n) := by
  have hplaces : places n ≤ 52 := Nat.sub_le _ _
  have hpow : 2 ^ 1074 = 2 ^ places n * 2 ^ (1074 - places n) := by
    rw [← Nat.pow_add]
    congr 1
    omega
  unfold significand quantaPerUnit
  rw [Nat.mul_assoc, ← hpow, twoTo_eq]

/-- What a whole number is converted to is exact. -/
theorem exact_whole (hn : 0 < n) (h : n < 2 ^ 53) :
    (ofFloat n.toUInt64.toFloat).exact = .finite false (n * quantaPerUnit) := by
  have hm := full_significand hn h
  have hplaces : places n ≤ 52 := Nat.sub_le _ _
  have hlow := hm.low
  have hhigh := hm.high
  have hexponent : (ofFloat n.toUInt64.toFloat).bits.toNat / 2 ^ 52 % 2 ^ 11 = 1075 - places n := by
    rw [whole_bits hn h]
    omega
  have hfraction : (ofFloat n.toUInt64.toFloat).bits.toNat % 2 ^ 52 = significand n - 2 ^ 52 := by
    rw [whole_bits hn h]
    omega
  have hsign : (ofFloat n.toUInt64.toFloat).bits.toNat / 2 ^ 63 % 2 = 0 := by
    rw [whole_bits hn h]
    omega
  rw [exact_eq, hexponent, hfraction, hsign, if_neg (by omega), quanta_whole]
  unfold Exact.quantaOfFields
  rw [if_neg (by omega), twoTo_eq, twoTo_eq, Nat.add_sub_cancel' hlow]
  congr 3
  omega

/-- A whole number has these bits and no others. -/
theorem bits_of_exact {x : Number} (hn : 0 < n) (h : n < 2 ^ 53)
    (hx : x.exact = .finite false (n * quantaPerUnit)) :
    x.bits.toNat = (1075 - places n) * 2 ^ 52 + (significand n - 2 ^ 52) := by
  have hm := full_significand hn h
  have hplaces : places n ≤ 52 := Nat.sub_le _ _
  have hlt : x.bits.toNat < 2 ^ 64 := x.bits.toNat_lt
  rw [exact_eq] at hx
  by_cases hexponent : x.bits.toNat / 2 ^ 52 % 2 ^ 11 = 2047
  · rw [if_pos hexponent] at hx
    split at hx <;> cases hx
  · rw [if_neg hexponent] at hx
    obtain ⟨hsign, hquanta⟩ := Exact.finite.inj hx
    have hsign : x.bits.toNat / 2 ^ 63 % 2 ≠ 1 := ne_of_beq_false hsign
    have hfraction : x.bits.toNat % 2 ^ 52 < 2 ^ 52 := Nat.mod_lt _ (by decide)
    unfold Exact.quantaOfFields at hquanta
    by_cases hzero : x.bits.toNat / 2 ^ 52 % 2 ^ 11 = 0
    · -- a fraction alone is less than one
      rw [if_pos hzero] at hquanta
      have hone : 2 ^ 52 ≤ n * quantaPerUnit :=
        Nat.le_trans (by decide +kernel : 2 ^ 52 ≤ quantaPerUnit) (Nat.le_mul_of_pos_left _ hn)
      rw [← hquanta] at hone
      exact absurd hfraction (Nat.not_lt.mpr hone)
    · rw [if_neg hzero, quanta_whole] at hquanta
      have hfull : Full (2 ^ 52 + x.bits.toNat % 2 ^ 52) := ⟨Nat.le_add_right _ _, by omega⟩
      obtain ⟨hk, hm'⟩ := eq_of_full_mul_two_pow hfull hm hquanta
      omega

/-- **A whole number that is converted to a double is the number that it is.** -/
theorem ofFloat_whole {x : Number} (hn : 0 < n) (h : n < 2 ^ 53)
    (hx : x.exact = .finite false (n * quantaPerUnit)) :
    ofFloat n.toUInt64.toFloat = x := by
  have hbits : (ofFloat n.toUInt64.toFloat).bits = x.bits :=
    UInt64.toNat_inj.mp ((whole_bits hn h).trans (bits_of_exact hn h hx).symm)
  exact congrArg Number.mk hbits

/-! ## Decimal digits -/

theorem natOfDigits_toDigits (n : Nat) : natOfDigits (Nat.toDigits 10 n) = n := by
  have digit : ∀ d : Fin 10, (Nat.digitChar d).toNat - 48 = d := by decide
  induction n using Nat.strongRecOn with
  | ind n ih =>
    unfold natOfDigits at ih ⊢
    by_cases hlt : n < 10
    · rw [Nat.toDigits_of_lt_base hlt, List.foldl_cons, List.foldl_nil, digit ⟨n, hlt⟩]
      exact Nat.zero_add n
    · have hd := digit ⟨n % 10, Nat.mod_lt _ (by decide)⟩
      rw [Nat.toDigits_of_base_le (by decide) (Nat.le_of_not_lt hlt), List.foldl_append,
        ih (n / 10) (by omega), List.foldl_cons, List.foldl_nil, hd]
      dsimp only
      omega

/-- Only zero is written with a zero in front. -/
theorem head?_toDigits {n : Nat} (hn : 0 < n) : (Nat.toDigits 10 n).head? ≠ some '0' := by
  have digit : ∀ d : Fin 10, 0 < d.val → Nat.digitChar d ≠ '0' := by decide
  induction n using Nat.strongRecOn with
  | ind n ih =>
    by_cases hlt : n < 10
    · rw [Nat.toDigits_of_lt_base hlt, List.head?_cons]
      exact fun h => digit ⟨n, hlt⟩ hn (Option.some.inj h)
    · rw [Nat.toDigits_of_base_le (by decide) (Nat.le_of_not_lt hlt),
        List.head?_append, Option.or_of_isSome (by simp [Nat.toDigits_ne_nil])]
      exact ih (n / 10) (by omega) (by omega)

theorem all_isDigit_toDigits (n : Nat) : ∀ c ∈ Nat.toDigits 10 n, c.isDigit = true :=
  fun _ h => Nat.isDigit_of_mem_toDigits (by decide) (by decide) h

end EditableLisp.Number

namespace EditableLisp.Json

open Number

/-- The digits of a number are read as the number. -/
theorem natural?_toDigits (n : Nat) : natural? (Nat.toDigits 10 n) = some n := by
  have hall : (Nat.toDigits 10 n).all Char.isDigit = true := List.all_eq_true.mpr (all_isDigit_toDigits n)
  unfold natural?
  rw [natOfDigits_toDigits]
  refine if_neg ?_
  rcases Nat.eq_zero_or_pos n with rfl | hn
  · decide
  · simp [Nat.toDigits_ne_nil, head?_toDigits hn, hall]

/-! ## Numbers in texts -/

/-- A whole number of an absolute value below `9 * 10 ^ 15`. -/
def IsWhole (x : Number) : Prop :=
  ∃ negative n, x.exact = .finite negative (n * quantaPerUnit) ∧ n < integerLimit

/-- A number without the sign of a zero. -/
def plainZero (x : Number) : Number := if x.exact = .finite true 0 then 0 else x

theorem twoTo_pos (k : Nat) : 0 < twoTo k := Nat.two_pow_pos k

theorem quantaPerUnit_pos : 0 < quantaPerUnit := twoTo_pos 1074

theorem lt_of_integerLimit {n : Nat} (h : n < integerLimit) : n < 2 ^ 53 :=
  Nat.lt_trans h (by decide +kernel)

/-- The fields of the bits with the other sign. -/
theorem fields_negate (x : Number) : (-x).bits.toNat / 2 ^ 63 % 2 = 1 - x.bits.toNat / 2 ^ 63 % 2 ∧
    (-x).bits.toNat / 2 ^ 52 % 2 ^ 11 = x.bits.toNat / 2 ^ 52 % 2 ^ 11 ∧
    (-x).bits.toNat % 2 ^ 52 = x.bits.toNat % 2 ^ 52 := by
  have hbits : (-x).bits.toNat = x.bits.toNat ^^^ 2 ^ 63 := UInt64.toNat_xor _ _
  rw [hbits]
  refine ⟨?_, ?_, ?_⟩
  · have hflip : ∀ b : Fin 2, b.val ^^^ 1 = 1 - b.val := by decide
    have hxor : (x.bits.toNat ^^^ 2 ^ 63) / 2 ^ 63 % 2 ^ 1 = (x.bits.toNat / 2 ^ 63 % 2 ^ 1) ^^^ 1 := by
      rw [Nat.xor_div_two_pow, Nat.xor_mod_two_pow, Nat.div_self (by decide)]
    exact hxor.trans (hflip ⟨_, Nat.mod_lt _ (by decide)⟩)
  · rw [Nat.xor_div_two_pow, Nat.xor_mod_two_pow]
    exact Nat.xor_zero _
  · rw [Nat.xor_mod_two_pow]
    exact Nat.xor_zero _

theorem exact_negate {x : Number} {negative : Bool} {quanta : Nat} (h : x.exact = .finite negative quanta) :
    (-x).exact = .finite (!negative) quanta := by
  obtain ⟨hsign, hexponent, hfraction⟩ := fields_negate x
  rw [exact_eq] at h ⊢
  rw [hsign, hexponent, hfraction]
  split at h
  · split at h <;> cases h
  · rename_i hne
    obtain ⟨rfl, rfl⟩ := Exact.finite.inj h
    rw [if_neg hne]
    have hflip : ∀ b : Fin 2, (1 - b.val == 1) = !(b.val == 1) := by decide
    rw [hflip ⟨_, Nat.mod_lt _ (by decide)⟩]

theorem eq_zero_of_exact {x : Number} (h : x.exact = .finite false 0) : x = 0 := by
  rw [exact_eq] at h
  split at h
  · split at h <;> cases h
  · obtain ⟨hsign, hquanta⟩ := Exact.finite.inj h
    have hsign : x.bits.toNat / 2 ^ 63 % 2 ≠ 1 := ne_of_beq_false hsign
    have hlt : x.bits.toNat < 2 ^ 64 := x.bits.toNat_lt
    unfold Exact.quantaOfFields at hquanta
    split at hquanta
    · have hbits : x.bits = 0 := UInt64.toNat_inj.mp (by
        show x.bits.toNat = 0
        omega)
      have hzero : (0 : Number) = ⟨0⟩ := by decide +kernel
      rw [hzero, ← hbits]
    · rcases Nat.mul_eq_zero.mp hquanta with h | h
      · have hpos := twoTo_pos 52
        omega
      · exact absurd h (twoTo_pos _).ne'

/-- Only the negative zero loses its sign, and the zeros are equal. -/
theorem plainZero_eq (x : Number) : plainZero x = x ∨ x = -0 ∧ (plainZero x).equal x = true := by
  unfold plainZero
  split
  · rename_i hx
    have hneg : -x = 0 := eq_zero_of_exact (exact_negate hx)
    have hx : x = -0 := by
      rw [← hneg]
      exact (negate_negate x).symm
    rw [hx]
    exact Or.inr ⟨rfl, by decide +kernel⟩
  · exact Or.inl rfl

/-- **An integer that a whole number is written as is converted to the number again**, but for the sign of a zero. -/
theorem ofInt_of_exact {x : Number} {negative : Bool} {n : Nat} (hx : x.exact = .finite negative (n * quantaPerUnit))
    (hn : n < integerLimit) : ofInt (if negative then -n else n) = plainZero x := by
  have hlt := lt_of_integerLimit hn
  rcases Nat.eq_zero_or_pos n with rfl | hpos
  · have hplain : plainZero x = 0 := by
      unfold plainZero
      rw [Nat.zero_mul] at hx
      cases negative with
      | true => exact if_pos hx
      | false =>
        rw [eq_zero_of_exact hx]
        decide +kernel
    rw [hplain, Int.natCast_zero, Int.neg_zero, ite_self]
    decide +kernel
  · have hplain : plainZero x = x := by
      unfold plainZero
      rw [hx]
      refine if_neg fun h => ?_
      have hq : n * quantaPerUnit = 0 := (Exact.finite.inj h).2
      exact absurd hq (Nat.mul_pos hpos quantaPerUnit_pos).ne'
    rw [hplain]
    cases negative with
    | false => exact ofFloat_whole hpos hlt hx
    | true =>
      obtain ⟨k, rfl⟩ := Nat.exists_eq_succ_of_ne_zero hpos.ne'
      show -ofFloat (k + 1).toUInt64.toFloat = x
      rw [ofFloat_whole hpos hlt (exact_negate hx)]
      exact negate_negate x

/-- What a small integer is converted to is exact, and no zero has a sign. -/
theorem exact_ofInt {i : Int} (h : i.natAbs < integerLimit) :
    ∃ negative, (ofInt i).exact = .finite negative (i.natAbs * quantaPerUnit) ∧ plainZero (ofInt i) = ofInt i := by
  have hlt : i.natAbs < 2 ^ 53 := lt_of_integerLimit h
  have plain : ∀ {x : Number} {negative : Bool}, 0 < i.natAbs →
      x.exact = .finite negative (i.natAbs * quantaPerUnit) → plainZero x = x := by
    intro x negative hpos hx
    unfold plainZero
    rw [hx]
    exact if_neg fun hzero =>
      absurd (Exact.finite.inj hzero).2 (Nat.mul_pos hpos quantaPerUnit_pos).ne'
  rcases Nat.eq_zero_or_pos i.natAbs with hzero | hpos
  · obtain rfl : i = 0 := Int.natAbs_eq_zero.mp hzero
    refine ⟨false, ?_, by decide +kernel⟩
    rw [hzero, Nat.zero_mul]
    decide +kernel
  · obtain ⟨negative, hexact⟩ : ∃ negative, (ofInt i).exact = .finite negative (i.natAbs * quantaPerUnit) := by
      cases i with
      | ofNat n => exact ⟨false, exact_whole hpos hlt⟩
      | negSucc n => exact ⟨true, exact_negate (exact_whole hpos hlt)⟩
    exact ⟨negative, hexact, plain hpos hexact⟩

/-- The characters of an integer. -/
theorem toList_int (i : Int) : (Tree.int i).text.toList =
    if i < 0 then '-' :: Nat.toDigits 10 i.natAbs else Nat.toDigits 10 i.natAbs := by
  unfold Tree.text
  rw [String.toList_append, Nat.toString_eq_repr, Nat.toList_repr]
  split <;> rfl

/-- **An integer is read back from its text.** -/
theorem integer?_int {i : Int} (h : i.natAbs < integerLimit) : integer? (Tree.int i).text.toList = some i := by
  have hlt : i.natAbs < 2 ^ 53 := lt_of_integerLimit h
  have hdigits := natural?_toDigits i.natAbs
  rw [toList_int]
  split
  · rename_i hneg
    have hfits : ¬ (decide (i.natAbs = 0) || decide (Number.twoTo 63 < i.natAbs)) = true := by
      rw [twoTo_eq, Bool.or_eq_true, decide_eq_true_eq, decide_eq_true_eq]
      omega
    show (natural? (Nat.toDigits 10 i.natAbs)).bind _ = _
    rw [hdigits, Option.bind_some, if_neg hfits]
    exact congrArg some (by omega)
  · rename_i hpos
    have hfits : ¬ significandMax < i.natAbs := by
      show ¬ Number.twoTo 64 - 1 < i.natAbs
      rw [twoTo_eq]
      omega
    have hfirst := all_isDigit_toDigits i.natAbs
    generalize Nat.toDigits 10 i.natAbs = cs at hdigits hfirst
    unfold integer?
    split
    · exact absurd (hfirst '-' List.mem_cons_self) (by decide)
    · show (natural? cs).bind _ = _
      rw [hdigits, Option.bind_some, if_neg hfits]
      exact congrArg some (by omega)

end EditableLisp.Json
