import EditableLisp.Number.Fixed
import EditableLisp.Number.Numeral
import EditableLisp.Source.Token

/-!
# Numbers in print and in source text

A printed number is a single word (`endsAtom_of_mem_format`). Numerals are the literals: a sign, digits with a
point, and an exponent, of which only a digit has to be there (`isSome_ofChars?_iff`). A number that was read
is not NaN, so it is equal to itself (`equal_self_of_ofString?`).
-/

namespace EditableLisp.Number

/-! ## Words -/

theorem endsAtom_of_isDigit {c : Char} (h : c.isDigit = true) : Token.endsAtom c = false := by
  have hlow : 48 ≤ c.toNat := (Char.isDigit_iff_toNat.mp h).1
  have hhigh : c.toNat ≤ 57 := (Char.isDigit_iff_toNat.mp h).2
  have hblank : Text.isBlank c = false := by
    unfold Text.isBlank Text.scatteredBlanks
    simp only [List.contains_eq_mem, List.mem_cons, List.not_mem_nil, or_false, Bool.or_eq_false_iff,
      Bool.and_eq_false_iff, decide_eq_false_iff_not]
    omega
  unfold Token.endsAtom
  rw [hblank, Bool.false_or, List.contains_eq_mem, decide_eq_false_iff_not]
  intro hmem
  have hall : (['(', ')', '[', ']', '\x7b', '\x7d', '"', ',', ';'].all fun d =>
      d.toNat < 48 || 57 < d.toNat) = true := by decide
  have hc := List.all_eq_true.mp hall c hmem
  rw [Bool.or_eq_true, decide_eq_true_eq, decide_eq_true_eq] at hc
  omega

theorem endsAtom_of_mem_toString {n : Nat} {c : Char} (h : c ∈ (toString n).toList) :
    Token.endsAtom c = false := by
  rw [Nat.toString_eq_repr, Nat.toList_repr] at h
  exact endsAtom_of_isDigit (Nat.isDigit_of_mem_toDigits (by decide) (by decide) h)

theorem mem_of_mem_trimZeros {cs : List Char} {c : Char} (h : c ∈ trimZeros cs) : c ∈ cs := by
  have h := (List.dropWhile_sublist _).subset (List.mem_reverse.mp h)
  exact List.mem_reverse.mp h

theorem endsAtom_of_mem_padded {width n : Nat} {c : Char} (h : c ∈ padded width n) :
    Token.endsAtom c = false := by
  rcases List.mem_append.mp h with h | h
  · rw [List.eq_of_mem_replicate h]
    decide
  · exact endsAtom_of_mem_toString h

theorem endsAtom_of_mem_fixedText {negative : Bool} {m : Nat} {c : Char}
    (h : c ∈ (fixedText negative m).toList) : Token.endsAtom c = false := by
  unfold fixedText at h
  rw [String.toList_append, String.toList_append, List.mem_append, List.mem_append] at h
  rcases h with (h | h) | h
  · split at h
    · rw [List.mem_singleton.mp h]
      decide
    · cases h
  · exact endsAtom_of_mem_toString h
  · split at h
    · cases h
    · rw [String.toList_ofList] at h
      rcases List.mem_cons.mp h with rfl | h
      · decide
      · exact endsAtom_of_mem_padded (mem_of_mem_trimZeros h)

/-- **No character of a printed number ends a word.** -/
theorem endsAtom_of_mem_format {x : Number} {c : Char} (h : c ∈ (format x).toList) :
    Token.endsAtom c = false := by
  have word : ∀ text : String, (text.toList.all fun c => !Token.endsAtom c) = true → c ∈ text.toList →
      Token.endsAtom c = false := fun text hall hc => by
    simpa using List.all_eq_true.mp hall c hc
  unfold format at h
  split at h
  · exact word "NaN" (by decide) h
  · rename_i negative _
    cases negative with
    | true => exact word "-Infinity" (by decide) h
    | false => exact word "Infinity" (by decide) h
  · exact endsAtom_of_mem_fixedText h

/-! ## Literals -/

/-- A sign, or nothing. -/
def IsSign (cs : List Char) : Prop := cs ∈ [[], ['+'], ['-']]

/-- Decimal digits, or nothing. -/
def AreDigits (cs : List Char) : Prop := ∀ c ∈ cs, c.isDigit = true

/-- Digits that may have a point before, among or after them. -/
inductive IsMantissa : List Char → Prop where
  | whole {ds : List Char} : AreDigits ds → ds ≠ [] → IsMantissa ds
  | point {ds es : List Char} : AreDigits ds → AreDigits es → ds ++ es ≠ [] → IsMantissa (ds ++ '.' :: es)

/-- The letter e with digits and perhaps a sign before them, or nothing. -/
inductive IsExponent : List Char → Prop where
  | nothing : IsExponent []
  | digits {e : Char} {sign ds : List Char} : e = 'e' ∨ e = 'E' → IsSign sign → AreDigits ds → ds ≠ [] →
      IsExponent (e :: (sign ++ ds))

/-- The text of a floating-point number. -/
def IsLiteral (cs : List Char) : Prop :=
  ∃ sign mantissa exponent, cs = sign ++ (mantissa ++ exponent) ∧ IsSign sign ∧ IsMantissa mantissa ∧
    IsExponent exponent

/-- The text starts with a digit or a point. -/
def StartsUnsigned (cs : List Char) : Prop := ∀ c ∈ cs.head?, c.isDigit = true ∨ c = '.'

/-- The text does not start with a digit. -/
def StartsNoDigit (cs : List Char) : Prop := ∀ c ∈ cs.head?, c.isDigit = false

theorem takeSign_append {sign rest : List Char} (hs : IsSign sign) (hr : StartsUnsigned rest) :
    (takeSign (sign ++ rest)).2 = rest := by
  simp only [IsSign, List.mem_cons, List.not_mem_nil, or_false] at hs
  rcases hs with rfl | rfl | rfl
  · cases rest with
    | nil => rfl
    | cons c cs =>
      show (takeSign (c :: cs)).2 = c :: cs
      unfold takeSign
      split
      · rename_i h
        cases h
        exact absurd (hr '-' rfl) (by decide)
      · rename_i h
        cases h
        exact absurd (hr '+' rfl) (by decide)
      · rfl
  · rfl
  · rfl

theorem exists_sign (cs : List Char) : ∃ sign, IsSign sign ∧ cs = sign ++ (takeSign cs).2 := by
  unfold takeSign
  split
  · exact ⟨['-'], by simp [IsSign], rfl⟩
  · exact ⟨['+'], by simp [IsSign], rfl⟩
  · exact ⟨[], by simp [IsSign], rfl⟩

theorem areDigits_takeWhile (cs : List Char) : AreDigits (cs.takeWhile Char.isDigit) :=
  fun c hc => List.all_eq_true.mp List.all_takeWhile c hc

theorem takeWhile_digits {ds rest : List Char} (hd : AreDigits ds) (hr : StartsNoDigit rest) :
    (ds ++ rest).takeWhile Char.isDigit = ds := by
  induction ds with
  | nil =>
    cases rest with
    | nil => rfl
    | cons c cs => exact List.takeWhile_cons_of_neg (by rw [hr c rfl]; exact Bool.false_ne_true)
  | cons d ds ih =>
    obtain ⟨hd, hds⟩ := List.forall_mem_cons.mp hd
    rw [List.cons_append, List.takeWhile_cons_of_pos hd, ih hds]

theorem dropWhile_digits {ds rest : List Char} (hd : AreDigits ds) (hr : StartsNoDigit rest) :
    (ds ++ rest).dropWhile Char.isDigit = rest := by
  have h := List.takeWhile_append_dropWhile (p := Char.isDigit) (l := ds ++ rest)
  rw [takeWhile_digits hd hr] at h
  exact List.append_cancel_left h

theorem isSome_exponentOf?_iff {cs : List Char} : (exponentOf? cs).isSome ↔ IsExponent cs := by
  constructor
  · intro h
    cases cs with
    | nil => exact .nothing
    | cons c cs =>
      unfold exponentOf? at h
      dsimp only at h
      split at h
      · rename_i hc
        obtain ⟨sign, hsign, hcs⟩ := exists_sign cs
        generalize (takeSign cs).2 = rest at h hcs
        split at h
        · cases h
        · rename_i hd
          simp only [Bool.or_eq_true, Bool.not_eq_true', not_or, Bool.not_eq_true, Bool.not_eq_false] at hd
          have hrest : rest.takeWhile Char.isDigit = rest := by
            have hsplit := List.takeWhile_append_dropWhile (p := Char.isDigit) (l := rest)
            rwa [List.isEmpty_iff.mp hd.2, List.append_nil] at hsplit
          rw [hrest] at hd
          subst hcs
          refine .digits (by simpa using hc) hsign (hrest ▸ areDigits_takeWhile rest) ?_
          rintro rfl
          cases hd.1
      · cases h
  · intro h
    cases h with
    | nothing => rfl
    | @digits e sign ds he hs hd hn =>
      have hunsigned : StartsUnsigned ds := fun c hc => .inl (hd c (List.mem_of_mem_head? hc))
      have htake := @takeWhile_digits ds [] hd nofun
      have hdrop := @dropWhile_digits ds [] hd nofun
      rw [List.append_nil] at htake hdrop
      unfold exponentOf?
      dsimp only
      rw [if_pos (by simpa using he), takeSign_append hs hunsigned, htake, hdrop, if_neg (by simpa using hn)]
      rfl

theorem startsNoDigit_exponent {cs : List Char} (h : IsExponent cs) : StartsNoDigit cs := by
  cases h with
  | nothing => nofun
  | digits he =>
    rintro _ ⟨⟩
    rcases he with rfl | rfl <;> decide

theorem takeFraction_cases (cs : List Char) : (∃ tail, cs = '.' :: tail) ∨ takeFraction cs = ([], cs) := by
  unfold takeFraction
  split
  · exact .inl ⟨_, rfl⟩
  · exact .inr rfl

theorem takeFraction_exponent {cs : List Char} (h : IsExponent cs) : takeFraction cs = ([], cs) := by
  cases h with
  | nothing => rfl
  | digits he => rcases he with rfl | rfl <;> rfl

theorem takeFraction_point {es rest : List Char} (he : AreDigits es) (hr : StartsNoDigit rest) :
    takeFraction ('.' :: (es ++ rest)) = (es, rest) := by
  show ((es ++ rest).takeWhile Char.isDigit, (es ++ rest).dropWhile Char.isDigit) = _
  rw [takeWhile_digits he hr, dropWhile_digits he hr]

theorem startsUnsigned_mantissa {mantissa : List Char} (h : IsMantissa mantissa) (rest : List Char) :
    StartsUnsigned (mantissa ++ rest) := by
  cases h with
  | whole hd hn =>
    obtain ⟨d, ds, rfl⟩ := List.exists_cons_of_ne_nil hn
    rintro _ ⟨⟩
    exact .inl (hd d List.mem_cons_self)
  | @point ds es hd _ _ =>
    cases ds with
    | nil =>
      rintro _ ⟨⟩
      exact .inr rfl
    | cons d ds =>
      rintro _ ⟨⟩
      exact .inl (hd d List.mem_cons_self)

/-- **The reader takes exactly the literals as numerals.** -/
theorem isSome_ofChars?_iff {cs : List Char} : (Numeral.ofChars? cs).isSome ↔ IsLiteral cs := by
  constructor
  · intro h
    obtain ⟨sign, hsign, hcs⟩ := exists_sign cs
    unfold Numeral.ofChars? at h
    dsimp only at h
    generalize (takeSign cs).2 = unsigned at h hcs
    have hwhole := List.takeWhile_append_dropWhile (p := Char.isDigit) (l := unsigned)
    have hdigits := areDigits_takeWhile unsigned
    generalize unsigned.takeWhile Char.isDigit = whole at h hwhole hdigits
    generalize unsigned.dropWhile Char.isDigit = after at h hwhole
    subst hwhole
    subst hcs
    split at h
    · cases h
    · rename_i hn
      rw [List.isEmpty_iff] at hn
      cases he : exponentOf? (takeFraction after).2 with
      | none =>
        rw [he] at h
        cases h
      | some e =>
        have hexponent := isSome_exponentOf?_iff.mp (Option.isSome_of_eq_some he)
        rcases takeFraction_cases after with ⟨tail, rfl⟩ | hnone
        · refine ⟨sign, whole ++ '.' :: tail.takeWhile Char.isDigit, tail.dropWhile Char.isDigit, ?_, hsign,
            .point hdigits (areDigits_takeWhile tail) hn, hexponent⟩
          rw [List.append_assoc, List.cons_append, List.takeWhile_append_dropWhile]
        · rw [hnone] at hn hexponent
          rw [List.append_nil] at hn
          exact ⟨sign, whole, after, rfl, hsign, .whole hdigits hn, hexponent⟩
  · rintro ⟨sign, mantissa, exponent, rfl, hsign, hmantissa, hexponent⟩
    have hstart := startsNoDigit_exponent hexponent
    obtain ⟨e, he⟩ := Option.isSome_iff_exists.mp (isSome_exponentOf?_iff.mpr hexponent)
    unfold Numeral.ofChars?
    dsimp only
    rw [takeSign_append hsign (startsUnsigned_mantissa hmantissa exponent)]
    cases hmantissa with
    | whole hd hn =>
      rw [takeWhile_digits hd hstart, dropWhile_digits hd hstart, takeFraction_exponent hexponent]
      dsimp only
      rw [List.append_nil, if_neg (by simpa using hn), he]
      rfl
    | @point ds es hd he' hn =>
      have hpoint : StartsNoDigit ('.' :: (es ++ exponent)) := by
        rintro _ ⟨⟩
        decide
      rw [List.append_assoc, List.cons_append, takeWhile_digits hd hpoint, dropWhile_digits hd hpoint]
      rw [takeFraction_point he' hstart, if_neg (by simpa using hn), he]
      rfl

/-- An unsigned literal starts with a digit, perhaps after a point. -/
theorem startsNumeric_mantissa {mantissa : List Char} (h : IsMantissa mantissa) :
    ∃ c cs, c.isDigit = true ∧ (mantissa = c :: cs ∨ mantissa = '.' :: c :: cs) := by
  cases h with
  | whole hd hn =>
    obtain ⟨d, ds, rfl⟩ := List.exists_cons_of_ne_nil hn
    exact ⟨d, ds, hd d List.mem_cons_self, .inl rfl⟩
  | @point ds es hd he hn =>
    cases ds with
    | nil =>
      obtain ⟨e, es, rfl⟩ := List.exists_cons_of_ne_nil hn
      exact ⟨e, es, he e List.mem_cons_self, .inr rfl⟩
    | cons d ds => exact ⟨d, ds ++ '.' :: es, hd d List.mem_cons_self, .inl rfl⟩

/-- Literals look like numbers. -/
theorem looksNumeric_of_isLiteral {cs : List Char} (h : IsLiteral cs) : looksNumeric cs = true := by
  obtain ⟨sign, mantissa, exponent, rfl, hsign, hmantissa, -⟩ := h
  obtain ⟨c, ds, hc, hstart⟩ := startsNumeric_mantissa hmantissa
  have hne : ∀ d : Char, d.isDigit = false → c ≠ d := by
    rintro d hd rfl
    rw [hc] at hd
    cases hd
  simp only [IsSign, List.mem_cons, List.not_mem_nil, or_false] at hsign
  rcases hsign with rfl | rfl | rfl <;> rcases hstart with rfl | rfl <;>
    simp [looksNumeric, hc, hne '.' rfl, hne '-' rfl, hne '+' rfl]

/-! ## Numbers that were read

Doubles are unpacked for computing and packed for keeping. Packing makes no NaN of what is none, and neither
do rounding, the scaling by a power of ten, or the other sign. -/

open Float.Model

/-- NaN is what has the largest exponent and a mantissa. -/
theorem isNaN_unpack {spec : Format} (b : BitVec spec.numBits) :
    (UnpackedFloat.unpack spec b).isNaN = true ↔
      UnpackedFloat.unpackExponent b = -1#_ ∧ UnpackedFloat.unpackMantissa b ≠ 0#_ := by
  by_cases he : UnpackedFloat.unpackExponent b = -1#_
  · by_cases hm : UnpackedFloat.unpackMantissa b = 0#_
    · rw [show UnpackedFloat.unpack spec b = .infinity _ from (if_pos he).trans (if_pos hm)]
      exact ⟨nofun, fun h => absurd hm h.2⟩
    · rw [show UnpackedFloat.unpack spec b = .notANumber from (if_pos he).trans (if_neg hm)]
      exact ⟨fun _ => ⟨he, hm⟩, fun _ => rfl⟩
  · refine ⟨fun h => ?_, fun h => absurd h.1 he⟩
    rw [show UnpackedFloat.unpack spec b = _ from if_neg he] at h
    by_cases hzero : UnpackedFloat.unpackExponent b = 0#_
    · rw [if_pos hzero] at h
      by_cases hm : UnpackedFloat.unpackMantissa b = 0#_
      · rw [dif_pos hm] at h
        cases h
      · rw [dif_neg hm] at h
        cases h
    · rw [if_neg hzero] at h
      cases h

/-- Packing makes no NaN. -/
theorem isNaN_unpack_pack {u : UnpackedFloat} (h : u.isNaN = false) :
    (UnpackedFloat.unpack Format.binary64 (u.pack Format.binary64)).isNaN = false := by
  rw [Bool.eq_false_iff, ne_eq, isNaN_unpack]
  rintro ⟨he, hm⟩
  revert he hm
  fun_cases UnpackedFloat.pack Format.binary64 u with
  | case1 => cases h
  | case2 s => simp [UnpackedFloat.packedInfinity]
  | case3 s => simp [UnpackedFloat.packedZero]
  | case4 s m e hm biased hb => simp [UnpackedFloat.packedInfinity]
  | case5 s m e hm actual biased h₁ h₂ =>
    intro he
    rw [UnpackedFloat.unpackExponent_packComponents] at he
    have hlt : ¬ 2 ^ 11 ≤ biased + 1 := h₁
    have he := congrArg BitVec.toNat he
    rw [BitVec.toNat_ofNat, BitVec.neg_one_eq_allOnes, BitVec.toNat_allOnes] at he
    have he : biased % 2 ^ 11 = 2 ^ 11 - 1 := he
    rw [Nat.mod_eq_of_lt (by omega)] at he
    omega
  | case6 s m e hm actual biased h₁ h₂ =>
    intro he
    rw [UnpackedFloat.unpackExponent_packComponents] at he
    exact absurd he (by decide)

/-- What is not NaN compares as equal to itself. -/
theorem compare_self {u : UnpackedFloat} (h : u.isNaN = false) : u.compare u = some .eq := by
  cases u with
  | notANumber => cases h
  | infinity s => cases s <;> rfl
  | zero => rfl
  | finite s m e hm =>
    have hsame : (compare e e).then (compare m m) = .eq := by
      rw [Std.compare_self, Std.compare_self]
      rfl
    cases s with
    | negative =>
      show some ((compare e e).then (compare m m)).swap = some .eq
      rw [hsame]
      rfl
    | positive =>
      show some ((compare e e).then (compare m m)) = some .eq
      rw [hsame]

theorem equal_self {x : Number} (h : (UnpackedFloat.unpack Format.binary64 x.bits.toBitVec).isNaN = false) :
    x.equal x = true := by
  have hpack := isNaN_unpack_pack h
  have hself : x.toFloat.toModel.unpack.compare x.toFloat.toModel.unpack = some .eq := compare_self hpack
  show (x.toFloat.toModel.unpack.compare x.toFloat.toModel.unpack == some Ordering.eq) = true
  rw [hself]
  rfl

/-- The sign bit is outside of these bits. -/
theorem extractLsb_negate (x : Number) {hi lo : Nat} (h : signBit.toBitVec.extractLsb hi lo = 0#_) :
    x.negate.bits.toBitVec.extractLsb hi lo = x.bits.toBitVec.extractLsb hi lo := by
  rw [negate, UInt64.toBitVec_xor, BitVec.extractLsb_xor, h, BitVec.xor_zero]

theorem isNaN_negate (x : Number) :
    (UnpackedFloat.unpack Format.binary64 x.negate.bits.toBitVec).isNaN =
      (UnpackedFloat.unpack Format.binary64 x.bits.toBitVec).isNaN := by
  have he : @UnpackedFloat.unpackExponent Format.binary64 x.negate.bits.toBitVec =
      @UnpackedFloat.unpackExponent Format.binary64 x.bits.toBitVec :=
    congrArg (BitVec.cast _) (x.extractLsb_negate (by decide))
  have hm : @UnpackedFloat.unpackMantissa Format.binary64 x.negate.bits.toBitVec =
      @UnpackedFloat.unpackMantissa Format.binary64 x.bits.toBitVec :=
    congrArg (BitVec.cast _) (x.extractLsb_negate (by decide))
  rw [Bool.eq_iff_iff, isNaN_unpack, isNaN_unpack, he, hm]

/-- A choice between what is not NaN is not NaN. -/
theorem isNaN_dite {c : Prop} [Decidable c] {a : c → UnpackedFloat} {b : ¬c → UnpackedFloat}
    (ha : ∀ h, (a h).isNaN = false) (hb : ∀ h, (b h).isNaN = false) : (dite c a b).isNaN = false := by
  by_cases h : c
  · rw [dif_pos h]
    exact ha h
  · rw [dif_neg h]
    exact hb h

theorem isNaN_ite {c : Prop} [Decidable c] {a b : UnpackedFloat} (ha : a.isNaN = false)
    (hb : b.isNaN = false) : (ite c a b).isNaN = false :=
  isNaN_dite (fun _ => ha) fun _ => hb

theorem isNaN_roundWithAccuracy (spec : Format) (sign : UnpackedFloat.Sign) (mantissa : Nat) (exponent : Int)
    (accuracy : UnpackedFloat.Accuracy) :
    (UnpackedFloat.roundWithAccuracy spec sign mantissa exponent accuracy).isNaN = false :=
  isNaN_dite (fun _ => rfl) fun _ => rfl

/-- The quotient of something and a number other than zero is something. -/
theorem isNaN_div {a : UnpackedFloat} (h : a.isNaN = false) (spec : Format) (sign : UnpackedFloat.Sign)
    (mantissa : Nat) (exponent : Int) (hm : 0 < mantissa) :
    (UnpackedFloat.div spec a (.finite sign mantissa exponent hm)).isNaN = false := by
  cases a with
  | notANumber => cases h
  | infinity | zero => rfl
  | finite => exact isNaN_roundWithAccuracy ..

theorem isNaN_mul {a : UnpackedFloat} (h : a.isNaN = false) (spec : Format) (sign : UnpackedFloat.Sign)
    (mantissa : Nat) (exponent : Int) (hm : 0 < mantissa) :
    (UnpackedFloat.mul spec a (.finite sign mantissa exponent hm)).isNaN = false := by
  cases a with
  | notANumber => cases h
  | infinity | zero => rfl
  | finite => exact isNaN_roundWithAccuracy ..

theorem isNaN_toFloat (n : UInt64) : n.toFloat.isNaN = false := by
  refine isNaN_unpack_pack ?_
  show (UnpackedFloat.normalize Format.binary64 (n.toNat : Int) 0 .positive).isNaN = false
  unfold UnpackedFloat.normalize
  split
  · exact isNaN_roundWithAccuracy ..
  · rfl
  · exact isNaN_roundWithAccuracy ..

/-- The powers of ten that doubles hold are numbers other than zero. -/
theorem exists_powerOfTen {e : Nat} (h : e < Float.exactlyRepresentablePowersOfTen.size) :
    ∃ sign mantissa exponent hm, Float.exactlyRepresentablePowersOfTen[e].toModel.unpack =
      .finite sign mantissa exponent hm := by
  have hall : ∀ e : Fin 23, (match Float.exactlyRepresentablePowersOfTen[e].toModel.unpack with
      | .finite .. => true
      | _ => false) = true := by decide +kernel
  have he : (match Float.exactlyRepresentablePowersOfTen[e].toModel.unpack with
      | .finite .. => true
      | _ => false) = true := hall ⟨e, h⟩
  generalize Float.exactlyRepresentablePowersOfTen[e].toModel.unpack = power at he ⊢
  cases power with
  | finite sign mantissa exponent hm => exact ⟨sign, mantissa, exponent, hm, rfl⟩
  | _ => cases he

theorem isNaN_scaled (spec : Format) (m : Nat) (e : Int) :
    (UnpackedFloat.ofScientific spec m e).isNaN = false := by
  unfold UnpackedFloat.ofScientific
  refine isNaN_dite (fun _ => rfl) fun _ => isNaN_ite rfl (isNaN_ite rfl (isNaN_ite ?_ ?_))
  · exact isNaN_roundWithAccuracy ..
  · exact isNaN_roundWithAccuracy ..

theorem isNaN_ofScientific (m : Nat) (s : Bool) (e : Nat) : (Float.ofScientific m s e).isNaN = false := by
  unfold Float.ofScientific
  split
  · rename_i h
    have hsize : e < Float.exactlyRepresentablePowersOfTen.size := Nat.lt_succ_of_le h.2
    obtain ⟨sign, mantissa, exponent, hm, hpower⟩ := exists_powerOfTen hsize
    have hdigits := isNaN_toFloat m.toUInt64
    dsimp only
    split
    · refine isNaN_unpack_pack ?_
      rw [hpower]
      exact isNaN_div hdigits ..
    · refine isNaN_unpack_pack ?_
      rw [hpower]
      exact isNaN_mul hdigits ..
  · exact isNaN_unpack_pack (isNaN_scaled ..)

theorem isNaN_nearest (digits : Nat) (exponent : Int) : (nearest digits exponent).isNaN = false := by
  unfold nearest
  split
  · exact isNaN_ofScientific 0 false 0
  · dsimp only
    split
    · decide +kernel
    · split
      · exact isNaN_ofScientific 0 false 0
      · split
        · exact isNaN_ofScientific ..
        · exact isNaN_ofScientific ..

/-- **A number that was read is equal to itself.** -/
theorem equal_self_of_ofString? {text : String} {x : Number} (h : ofString? text = some x) :
    x.equal x = true := by
  obtain ⟨n, -, rfl⟩ := Option.map_eq_some_iff.mp h
  have hn := isNaN_nearest n.digits n.exponent
  refine equal_self ?_
  unfold Numeral.toNumber ofFloat
  rw [if_neg (Bool.eq_false_iff.mp hn)]
  dsimp only
  split
  · exact (isNaN_negate _).trans hn
  · exact hn

end EditableLisp.Number
