import EditableLisp.Proofs.Decimals

/-!
# Numbers in print, rounded

A printed number is its exact value rounded to four decimals. `IsNearest` is rounding to the nearest whole number,
a half going to the even one, and there is one such number (`isNearest_iff_of_isNearest`). What is printed of a
finite number is the shortest plain numeral of the nearest number of ten-thousandths (**`format_shortest`**): it
ends in no superfluous zero, and zero has no sign. `trimmed` makes it of a text with all four decimals, as zeros
and points are taken off the end of that text.
-/

namespace EditableLisp.Number

/-! ## Rounding -/

/-- A whole number is nearest to a number, and even if another one is as near. -/
structure IsNearest (r : ℚ) (m : ℤ) : Prop where
  close : |r - m| ≤ 1 / 2
  even : |r - m| = 1 / 2 → Even m

section rounding

variable {r : ℚ} {m k : ℤ}

theorem isNearest_neg : IsNearest (-r) (-m) ↔ IsNearest r m := by
  have hdist : |-r - ((-m : ℤ) : ℚ)| = |r - m| := by
    rw [Int.cast_neg, ← abs_neg]
    congr 1
    ring
  constructor
  · rintro ⟨hclose, heven⟩
    rw [hdist] at hclose heven
    exact ⟨hclose, fun h => even_neg.mp (heven h)⟩
  · rintro ⟨hclose, heven⟩
    exact ⟨by rwa [hdist], fun h => even_neg.mpr (heven (hdist ▸ h))⟩

theorem isNearest_intCast (m : ℤ) : IsNearest m m := by
  constructor <;> rw [sub_self, abs_zero]
  · norm_num
  · intro h
    norm_num at h

/-- A number has no two nearest whole numbers, of which one is greater. -/
theorem IsNearest.not_lt (hm : IsNearest r m) (hk : IsNearest r k) : ¬ m < k := by
  intro hlt
  obtain ⟨-, hmr⟩ := abs_le.mp hm.close
  obtain ⟨hkr, -⟩ := abs_le.mp hk.close
  have hle : (k : ℚ) ≤ ((m + 1 : ℤ) : ℚ) := by
    push_cast
    linarith
  obtain rfl : k = m + 1 := le_antisymm (Int.cast_le.mp hle) hlt
  -- both are as near, but they are not both even
  push_cast at hkr
  have hmhalf : r - m = 1 / 2 := by linarith
  have hkhalf : r - ((m + 1 : ℤ) : ℚ) = -(1 / 2) := by
    push_cast
    linarith
  have hmeven := hm.even (by rw [hmhalf]; norm_num)
  have hkeven := hk.even (by rw [hkhalf]; norm_num)
  exact absurd hmeven (Int.even_add_one.mp hkeven)

/-- **There is one nearest whole number.** -/
theorem isNearest_iff_of_isNearest (hm : IsNearest r m) : IsNearest r k ↔ k = m := by
  constructor
  · intro hk
    exact le_antisymm (not_lt.mp (hm.not_lt hk)) (not_lt.mp (hk.not_lt hm))
  · rintro rfl
    exact hm

theorem isNearest_of_lt (h : |r - m| < 1 / 2) : IsNearest r m := ⟨h.le, fun heq => absurd heq h.ne⟩

theorem isNearest_of_even (h : |r - m| = 1 / 2) (heven : Even m) : IsNearest r m := ⟨h.le, fun _ => heven⟩

/-- **A fraction is rounded to the nearest whole number.** -/
theorem isNearest_roundHalfEven (n : Nat) {d : Nat} (hd : 0 < d) : IsNearest (n / d) (roundHalfEven n d : Nat) := by
  have hpos : (0 : ℚ) < d := Nat.cast_pos.mpr hd
  have hsplit : (n : ℚ) / d = (n / d : Nat) + ((n % d : Nat) : ℚ) / d := by
    have hdiv : ((d * (n / d) + n % d : Nat) : ℚ) = n := by rw [Nat.div_add_mod]
    rw [← hdiv, Nat.cast_add, Nat.cast_mul, add_div, mul_div_cancel_left₀ _ hpos.ne']
  have hrest : 0 ≤ ((n % d : Nat) : ℚ) / d := by positivity
  have hone : ((n % d : Nat) : ℚ) / d < 1 := (div_lt_one hpos).mpr (Nat.cast_lt.mpr (Nat.mod_lt n hd))
  unfold roundHalfEven
  dsimp only
  rw [hsplit]
  split
  · -- less than a half is left
    rename_i hless
    have hhalf : ((n % d : Nat) : ℚ) / d < 1 / 2 := by
      rw [div_lt_div_iff₀ hpos two_pos, one_mul, mul_comm]
      exact_mod_cast hless
    refine isNearest_of_lt (abs_lt.mpr ⟨?_, ?_⟩) <;> rw [Int.cast_natCast] <;> linarith
  · split
    · rename_i hmore
      have hhalf : 1 / 2 < ((n % d : Nat) : ℚ) / d := by
        rw [div_lt_div_iff₀ two_pos hpos, one_mul, mul_comm]
        exact_mod_cast hmore
      refine isNearest_of_lt (abs_lt.mpr ⟨?_, ?_⟩) <;> rw [Int.cast_natCast, Nat.cast_succ] <;> linarith
    · rename_i hless hmore
      have hhalf : ((n % d : Nat) : ℚ) / d = 1 / 2 := by
        have heq : 2 * (n % d) = d := by omega
        rw [div_eq_div_iff hpos.ne' two_ne_zero, one_mul, mul_comm]
        exact_mod_cast heq
      rw [hhalf]
      rcases Nat.mod_two_eq_zero_or_one (n / d) with hparity | hparity <;> rw [hparity]
      · refine isNearest_of_even ?_ (by exact_mod_cast Nat.even_iff.mpr hparity)
        rw [Int.cast_natCast, Nat.add_zero, add_sub_cancel_left]
        norm_num
      · refine isNearest_of_even ?_ (by exact_mod_cast (Nat.odd_iff.mpr hparity).add_one)
        rw [Int.cast_natCast, Nat.cast_succ, add_sub_add_left_eq_sub]
        norm_num

end rounding

/-! ## What a number stands for -/

/-- The exact value of a finite number. -/
def value? (x : Number) : Option ℚ :=
  match x.exact with
  | .finite negative quanta => some (if negative then -(quanta / quantaPerUnit) else quanta / quantaPerUnit)
  | _ => none

/-- The nearest number of ten-thousandths. -/
def tenThousandths (negative : Bool) (quanta : Nat) : ℤ :=
  if negative then -(fourPlaces quanta : Nat) else (fourPlaces quanta : Nat)

/-! ## Texts with all four decimals -/

/-- The text of a number with four decimals, and with the sign that the number has. -/
def fourDecimals (negative : Bool) (m : Nat) : String :=
  (if negative then "-" else "") ++ toString (m / tenTo 4) ++ "." ++ String.ofList (padded 4 (m % tenTo 4))

/-- A text without the zeros at its end and then without the points there; minus zero loses its sign. -/
def trimmed (text : String) : String :=
  let cs := trimEnd '.' (trimEnd '0' text.toList)
  if cs = ['-', '0'] then "0" else String.ofList cs

/-- What is printed is a numeral without superfluous zeros. -/
theorem toList_fixedText (negative : Bool) (m : Nat) :
    (fixedText negative m).toList = (Plain.ofTenThousandths (if negative then -m else m)).chars := by
  have habs : (if negative then -(m : ℤ) else m).natAbs = m := by
    split
    · rw [Int.natAbs_neg, Int.natAbs_natCast]
    · rfl
  have hsign : (if (negative && m != 0) = true then "-" else "").toList =
      if (if negative then -(m : ℤ) else m) < 0 then ['-'] else [] := by
    have hzero : (-(m : ℤ) < 0) ↔ m ≠ 0 := by omega
    cases negative with
    | false =>
      rw [Bool.false_and, if_neg Bool.false_ne_true, if_neg (by simp)]
      rfl
    | true =>
      simp only [Bool.true_and, bne_iff_ne, ite_true, hzero]
      split <;> rfl
  have htail : ∀ fraction : List Char,
      (if fraction.isEmpty then "" else String.ofList ('.' :: fraction)).toList =
        if fraction.isEmpty then [] else '.' :: fraction := by
    intro fraction
    split
    · rfl
    · exact String.toList_ofList
  rw [Plain.chars_ofTenThousandths, habs]
  unfold fixedText
  dsimp only
  rw [String.toList_append, String.toList_append, hsign, htail, List.append_assoc, Nat.toString_eq_repr,
    Nat.toList_repr]

/-- **Trimming leaves the digits of the fraction without the zeros at their end**, and no point without digits
after it. -/
theorem trimEnd_point {whole fraction : List Char} (hwhole : AreDigits whole) (hne : whole ≠ [])
    (hfraction : AreDigits fraction) (sign : List Char) :
    trimEnd '.' (trimEnd '0' (sign ++ (whole ++ '.' :: fraction))) =
      sign ++ (whole ++ if (trimZeros fraction).isEmpty then [] else '.' :: trimZeros fraction) := by
  have hpoint : ∀ c : Char, c.isDigit = true → c ≠ '.' := by
    rintro c hc rfl
    cases hc
  -- digits at the end stop the trimming of points
  have hkept : ∀ front digits : List Char, AreDigits digits → digits ≠ [] →
      trimEnd '.' (front ++ digits) = front ++ digits := by
    intro front digits hdigits hne
    obtain ⟨init, last, rfl⟩ := (List.eq_nil_or_concat' digits).resolve_left hne
    have hlast := hpoint last (hdigits last (by simp))
    rw [← List.append_assoc, trimEnd_append_cons hlast]
    rfl
  rw [← List.append_assoc, trimEnd_append_cons (by decide), ← trimZeros_eq]
  cases htrim : trimZeros fraction with
  | nil =>
    have := trimEnd_append_replicate '.' (sign ++ whole) 1
    rw [List.replicate_one] at this
    rw [this, hkept sign whole hwhole hne]
    simp
  | cons d ds =>
    have hdigits : AreDigits (d :: ds) := htrim ▸ areDigits_trimZeros hfraction
    have := hkept (sign ++ whole ++ ['.']) (d :: ds) hdigits (List.cons_ne_nil d ds)
    simpa using this

/-- **Trimming the text with all four decimals leaves the text that is printed.** -/
theorem fixedText_eq_trimmed (negative : Bool) (m : Nat) :
    fixedText negative m = trimmed (fourDecimals negative m) := by
  have htext : (fourDecimals negative m).toList = (if negative then ['-'] else []) ++
      (Nat.toDigits 10 (m / tenTo 4) ++ '.' :: padded 4 (m % tenTo 4)) := by
    have hsign : (if negative then "-" else "").toList = if negative then ['-'] else [] := by
      cases negative <;> rfl
    unfold fourDecimals
    rw [String.toList_append, String.toList_append, String.toList_append, hsign, String.toList_ofList,
      Nat.toString_eq_repr, Nat.toList_repr]
    simp
  by_cases hm : m = 0
  · subst hm
    cases negative <;> rfl
  · -- only zero has a sign that is not printed
    have hneg : (if negative then -(m : ℤ) else m) < 0 ↔ negative = true := by
      cases negative with
      | false => simp
      | true => simpa using Nat.pos_of_ne_zero hm
    have habs : (if negative then -(m : ℤ) else m).natAbs = m := by
      cases negative <;> simp
    have hchars : trimEnd '.' (trimEnd '0' (fourDecimals negative m).toList) =
        (Plain.ofTenThousandths (if negative then -m else m)).chars := by
      rw [htext, trimEnd_point (areDigits_toDigits _) Nat.toDigits_ne_nil (areDigits_padded _ _),
        Plain.chars_ofTenThousandths, habs]
      simp only [hneg]
    unfold trimmed
    dsimp only
    rw [hchars, if_neg (Plain.chars_ofTenThousandths_ne _), ← toList_fixedText, String.ofList_toList]

/-! ## Printing -/

/-- What is printed of a finite number is the rounded number. -/
theorem format_of_value? {x : Number} {q : ℚ} (h : x.value? = some q) : ∃ negative quanta,
    x.exact = .finite negative quanta ∧ format x = fixedText negative (fourPlaces quanta) ∧
      IsNearest (q * 10 ^ 4) (tenThousandths negative quanta) := by
  unfold value? at h
  cases hx : x.exact with
  | nan | infinite =>
    rw [hx] at h
    cases h
  | finite negative quanta =>
    rw [hx] at h
    have hround := isNearest_roundHalfEven (quanta * tenTo 4) Json.quantaPerUnit_pos
    refine ⟨negative, quanta, rfl, by rw [format, hx], ?_⟩
    have hmagnitude : (quanta : ℚ) / quantaPerUnit * 10 ^ 4 = (quanta * tenTo 4 : Nat) / quantaPerUnit := by
      have hten : ((tenTo 4 : Nat) : ℚ) = 10 ^ 4 := by
        rw [show tenTo 4 = 10 ^ 4 from rfl, Nat.cast_pow, Nat.cast_ofNat]
      rw [Nat.cast_mul, hten, div_mul_eq_mul_div]
    obtain rfl := Option.some.inj h
    unfold tenThousandths
    cases negative with
    | false =>
      rw [if_neg Bool.false_ne_true, if_neg Bool.false_ne_true, hmagnitude]
      exact hround
    | true =>
      rw [if_pos rfl, if_pos rfl, neg_mul, hmagnitude]
      exact isNearest_neg.mpr hround

/-- What is printed of a finite number `x`, of which the exact value is `q`. -/
structure Prints (x : Number) (q : ℚ) (m : ℤ) (p : Plain) : Prop where
  /-- The one nearest number of ten-thousandths. -/
  nearest : ∀ k, IsNearest (q * 10 ^ 4) k ↔ k = m
  /-- A numeral of them is printed. -/
  text : (format x).toList = p.chars
  value : p.value = m / 10 ^ 4
  /-- Every other one is longer. -/
  shortest : ∀ p' : Plain, p'.value = p.value → p' = p ∨ p.chars.length < p'.chars.length
  /-- The sign is that of the rounded number. -/
  sign : p.negative = true ↔ m < 0
  /-- No superfluous zero stands in front. -/
  leading : p.whole.head? = some '0' → p.whole = ['0']
  /-- No zero stands at the end of the fraction. -/
  trailing : p.fraction.getLast? ≠ some '0'
  /-- Zero has no sign. -/
  unsigned : format x ≠ "-0"
  /-- The text comes of trimming the one with four decimals and the sign bit. -/
  trimmed : ∀ negative quanta, x.exact = .finite negative quanta →
    format x = trimmed (fourDecimals negative m.natAbs)
  /-- A whole number keeps all its digits. -/
  whole : ∀ n : ℤ, q = n → format x = toString n
  /-- The same is printed of the numbers that are rounded to the same. -/
  same : ∀ y r, y.value? = some r → (format y = format x ↔ IsNearest (r * 10 ^ 4) m)

section

variable {x : Number} {q : ℚ}

/-- What is printed is the numeral of the rounded number. -/
theorem toList_format {negative : Bool} {quanta : Nat} (h : format x = fixedText negative (fourPlaces quanta)) :
    (format x).toList = (Plain.ofTenThousandths (tenThousandths negative quanta)).chars := by
  rw [h, toList_fixedText]
  rfl

/-- A whole number is rounded to itself. -/
theorem format_whole (h : x.value? = some q) {n : ℤ} (hq : q = n) : format x = toString n := by
  obtain ⟨negative, quanta, -, hformat, hnearest⟩ := format_of_value? h
  have hwhole : IsNearest (q * 10 ^ 4) (n * 10 ^ 4 : ℤ) := by
    have := isNearest_intCast (n * 10 ^ 4)
    rwa [Int.cast_mul, ← hq, Int.cast_pow, Int.cast_ofNat] at this
  have heq := (isNearest_iff_of_isNearest hwhole).mp hnearest
  rw [← String.toList_inj, toList_format hformat, heq, Plain.chars_whole]

/-- **A finite number is printed as the shortest numeral of the nearest number of ten-thousandths.** -/
theorem format_shortest (h : x.value? = some q) : ∃ m p, Prints x q m p := by
  obtain ⟨negative, quanta, hx, hformat, hnearest⟩ := format_of_value? h
  have habs : (tenThousandths negative quanta).natAbs = fourPlaces quanta := by
    unfold tenThousandths
    cases negative with
    | false => exact Int.natAbs_natCast _
    | true => exact (Int.natAbs_neg _).trans (Int.natAbs_natCast _)
  generalize hm : tenThousandths negative quanta = m at hnearest habs
  have htext := toList_format hformat
  rw [hm] at htext
  refine ⟨m, .ofTenThousandths m, ?_⟩
  constructor
  case nearest => exact fun k => isNearest_iff_of_isNearest hnearest
  case text => exact htext
  case value => exact Plain.value_ofTenThousandths m
  case shortest =>
    intro p' hp'
    exact Plain.eq_or_length_lt m (hp'.trans (Plain.value_ofTenThousandths m))
  case sign => exact decide_eq_true_iff
  case leading =>
    intro hhead
    rw [Plain.ofTenThousandths_whole] at hhead ⊢
    have hzero : m.natAbs / tenTo 4 = 0 := by
      by_contra hne
      exact head?_toDigits (Nat.pos_of_ne_zero hne) hhead
    rw [hzero]
    rfl
  case trailing =>
    rw [Plain.ofTenThousandths_fraction, trimZeros_eq]
    exact getLast?_trimEnd '0' _
  case unsigned =>
    intro hzero
    exact Plain.chars_ofTenThousandths_ne m (htext.symm.trans (congrArg String.toList hzero))
  case trimmed =>
    intro negative' quanta' hx'
    cases hx.symm.trans hx'
    rw [habs, hformat, fixedText_eq_trimmed]
  case whole => exact fun n hq => format_whole h hq
  case same =>
    intro y r hy
    obtain ⟨negative', quanta', -, hformat', hnearest'⟩ := format_of_value? hy
    rw [isNearest_iff_of_isNearest hnearest', ← String.toList_inj, htext, toList_format hformat']
    constructor
    · intro heq
      have hvalue := congrArg Plain.value (Plain.chars_injective heq)
      rw [Plain.value_ofTenThousandths, Plain.value_ofTenThousandths, div_left_inj' (by norm_num),
        Int.cast_inj] at hvalue
      exact hvalue.symm
    · intro heq
      rw [heq]

/-- A half goes to the even neighbour: of 312.5 ten-thousandths, 312 are printed. -/
theorem format_half : (-0.03125 : Number).value? = some (-(1 / 32)) ∧ format (-0.03125) = "-0.0312" ∧
    ∃ m p, Prints (-0.03125) (-(1 / 32)) m p := by
  have h : (-0.03125 : Number).value? = some (-(1 / 32)) := by decide +kernel
  exact ⟨h, by decide +kernel, format_shortest h⟩

end

end EditableLisp.Number
