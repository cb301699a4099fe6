-- Whole numbers in doubles. Below `2 ^ 53` every count is exact, its multiples
-- and sums are, and its opposite stands where its size puts it.
import SymbolInduction.Proofs.Scalar.Doubles

namespace SymbolInduction.Doubles

open Float.Model Float.Model.UnpackedFloat

/-! ## Rounding what needs no rounding -/

theorem shiftRight_exact (m j : Nat) :
    (⟨m * 2 ^ j, false, false⟩ : ExtendedMantissa) >>> j = ⟨m, false, false⟩ := by
  induction j generalizing m with
  | zero => simp [HShiftRight.hShiftRight, Nat.repeat]
  | succ j ih =>
    have hshift := ih (m * 2)
    rw [Nat.mul_assoc, ← Nat.pow_succ'] at hshift
    change ((⟨m * 2 ^ (j + 1), false, false⟩ : ExtendedMantissa) >>> j).shiftRightOne = _
    rw [hshift]
    simp [ExtendedMantissa.shiftRightOne]

/-- Digits that fit are not changed, however many zeros stand after them. -/
theorem roundWithAccuracy_exact {m : Nat} {e : Int} (s : Sign) (h : 0 < m) (hm : m.log2 = 52)
    (he : 0 ≤ e + 52) (j : Nat) :
    roundWithAccuracy Format.binary64 s (m * 2 ^ j) (e - j) .exact = .finite s m e h := by
  have hlog : (m * 2 ^ j).log2 = 52 + j := by
    rw [← Nat.shiftLeft_eq, log2_shiftLeft h, hm]
  have htarget : Format.binary64.targetExponent (totalExponent (m * 2 ^ j) (e - j)) = e := by
    rw [targetExponent_eq (by omega)]
    omega
  have htarget' : Format.binary64.targetExponent (totalExponent m e) = e := by
    rw [targetExponent_eq (by omega)]
    omega
  have hfirst : shiftToTargetExponent Format.binary64 (m * 2 ^ j) (e - j) .exact =
      (⟨m, false, false⟩, e) := by
    unfold shiftToTargetExponent shiftToExponent
    rw [htarget]
    dsimp only
    rw [show (e - (e - (j : Int))).toNat = j by omega]
    refine Prod.ext (shiftRight_exact m j) ?_
    dsimp only
    omega
  have hlast : shiftToTargetExponent Format.binary64 m e .exact = (⟨m, false, false⟩, e) := by
    unfold shiftToTargetExponent shiftToExponent
    rw [htarget']
    dsimp only
    rw [show (e - e).toNat = 0 by omega]
    refine Prod.ext rfl ?_
    dsimp only
    omega
  have hround : (⟨m, false, false⟩ : ExtendedMantissa).roundedMantissa = m := rfl
  unfold roundWithAccuracy
  rw [hfirst]
  dsimp only
  rw [hround, hlast]
  exact dif_neg (Nat.ne_of_gt h)

/-! ## Whole numbers -/

theorem digits_pos {n : Nat} (h : 0 < n) : 0 < n * 2 ^ (52 - n.log2) :=
  Nat.mul_pos h (Nat.two_pow_pos _)

/-- A whole number with a sign, in the form in which numbers are packed. -/
def whole (s : Sign) (n : Nat) (h : 0 < n) : UnpackedFloat :=
  .finite s (n * 2 ^ (52 - n.log2)) (n.log2 - 52) (digits_pos h)

theorem log2_le {n : Nat} (h : 0 < n) (hn : n < 2 ^ 53) : n.log2 ≤ 52 := by
  have := (Nat.log2_lt (Nat.ne_of_gt h)).2 hn
  omega

theorem log2_digits {n : Nat} (h : 0 < n) (hn : n < 2 ^ 53) :
    (n * 2 ^ (52 - n.log2)).log2 = 52 := by
  have := log2_le h hn
  rw [← Nat.shiftLeft_eq, log2_shiftLeft h]
  omega

/-- A whole number with enough zeros after it is rounded to itself. -/
theorem roundWithAccuracy_whole {n i : Nat} (s : Sign) (h : 0 < n) (hn : n < 2 ^ 53)
    (hi : 52 ≤ n.log2 + i) :
    roundWithAccuracy Format.binary64 s (n * 2 ^ i) (-i) .exact = whole s n h := by
  have hlog := log2_le h hn
  have hdigits : n * 2 ^ i = n * 2 ^ (52 - n.log2) * 2 ^ (i - (52 - n.log2)) := by
    rw [Nat.mul_assoc, ← Nat.pow_add, Nat.add_sub_cancel' (by omega)]
  have hexponent : (-i : Int) = ((n.log2 : Int) - 52) - ((i - (52 - n.log2) : Nat) : Int) := by
    omega
  rw [hdigits, hexponent]
  exact roundWithAccuracy_exact s (digits_pos h) (log2_digits h hn) (by omega) _

theorem round_whole {n : Nat} (s : Sign) (h : 0 < n) (hn : n < 2 ^ 53) (i : Nat) :
    round Format.binary64 s (n * 2 ^ i) (-i) = whole s n h := by
  have hlog : (n * 2 ^ i).log2 = n.log2 + i := by rw [← Nat.shiftLeft_eq, log2_shiftLeft h]
  have htarget : Format.binary64.targetExponent (totalExponent (n * 2 ^ i) (-i)) = n.log2 - 52 := by
    rw [targetExponent_eq (by omega)]
    omega
  unfold UnpackedFloat.round decreaseExponent
  rw [htarget]
  dsimp only
  -- zeros are put after the number until there are enough of them
  generalize hmore : (-(i : Int) - (n.log2 - 52)).toNat = more
  have hzeros : (n * 2 ^ i) <<< more = n * 2 ^ (i + more) := by
    rw [Nat.shiftLeft_eq, Nat.mul_assoc, ← Nat.pow_add]
  have hexponent : (-(i : Int) - more) = -((i + more : Nat) : Int) := by omega
  rw [hzeros, hexponent]
  exact roundWithAccuracy_whole s h hn (by omega)

theorem normalize_whole {n : Nat} (s zero : Sign) (h : 0 < n) (hn : n < 2 ^ 53) (i : Nat) :
    normalize Format.binary64 (s.apply ((n * 2 ^ i : Nat) : Int)) (-i) zero = whole s n h := by
  have hpos : 0 < n * 2 ^ i := Nat.mul_pos h (Nat.two_pow_pos i)
  rw [← round_whole s h hn i]
  generalize n * 2 ^ i = m at *
  unfold UnpackedFloat.normalize
  cases s with
  | negative =>
    rw [show compare (Sign.negative.apply (m : Int)) 0 = .lt from
      Int.compare_eq_lt.2 (by simp [Sign.apply]; omega)]
    simp [Sign.apply]
  | positive =>
    rw [show compare (Sign.positive.apply (m : Int)) 0 = .gt from
      Int.compare_eq_gt.2 (by simp [Sign.apply]; omega)]
    simp [Sign.apply]

theorem mul_whole {a b : Nat} (s t : Sign) (ha : 0 < a) (hb : 0 < b) (hab : a * b < 2 ^ 53) :
    UnpackedFloat.mul Format.binary64 (whole s a ha) (whole t b hb) =
      whole (s * t) (a * b) (Nat.mul_pos ha hb) := by
  have hla := log2_le ha (Nat.lt_of_le_of_lt (Nat.le_mul_of_pos_right a hb) hab)
  have hlb := log2_le hb (Nat.lt_of_le_of_lt (Nat.le_mul_of_pos_left b ha) hab)
  have hlab : a.log2 + b.log2 ≤ (a * b).log2 := by
    rw [Nat.le_log2 (Nat.ne_of_gt (Nat.mul_pos ha hb)), Nat.pow_add]
    exact Nat.mul_le_mul (Nat.log2_self_le (Nat.ne_of_gt ha)) (Nat.log2_self_le (Nat.ne_of_gt hb))
  have hdigits : a * 2 ^ (52 - a.log2) * (b * 2 ^ (52 - b.log2)) =
      a * b * 2 ^ (52 - a.log2 + (52 - b.log2)) := by
    rw [Nat.pow_add]
    ac_rfl
  have hexponent : ((a.log2 : Int) - 52) + (b.log2 - 52) =
      -((52 - a.log2 + (52 - b.log2) : Nat) : Int) := by omega
  simp only [whole, UnpackedFloat.mul]
  rw [hdigits, hexponent]
  exact roundWithAccuracy_whole _ (Nat.mul_pos ha hb) hab (by omega)

theorem add_whole {a b : Nat} (s : Sign) (ha : 0 < a) (hb : 0 < b) (hab : a + b < 2 ^ 53) :
    UnpackedFloat.add Format.binary64 (whole s a ha) (whole s b hb) =
      whole s (a + b) (Nat.add_pos_left ha b) := by
  have hla := log2_le ha (by omega)
  have hlb := log2_le hb (by omega)
  have hsum : ∀ c d : Nat, s.apply c + s.apply d = s.apply ((c + d : Nat) : Int) := by
    intro c d
    cases s <;> simp only [Sign.apply] <;> omega
  -- both are written with the zeros that the smaller one needs
  have hmin : min ((a.log2 : Int) - 52) (b.log2 - 52) = -((52 - min a.log2 b.log2 : Nat) : Int) := by
    omega
  have hzeros : ∀ c : Nat, min a.log2 b.log2 ≤ c.log2 → c.log2 ≤ 52 →
      (c * 2 ^ (52 - c.log2)) <<<
          ((c.log2 : Int) - 52 - -((52 - min a.log2 b.log2 : Nat) : Int)).toNat =
        c * 2 ^ (52 - min a.log2 b.log2) := by
    intro c hc hc'
    rw [Nat.shiftLeft_eq, Nat.mul_assoc, ← Nat.pow_add]
    congr 2
    omega
  simp only [whole, UnpackedFloat.add, decreaseExponent]
  rw [hmin, hzeros a (Nat.min_le_left _ _) hla, hzeros b (Nat.min_le_right _ _) hlb, hsum,
    ← Nat.add_mul]
  exact normalize_whole s .positive (Nat.add_pos_left ha b) hab _

theorem unpack_pack_whole {n : Nat} (s : Sign) (h : 0 < n) (hn : n < 2 ^ 53) :
    unpack Format.binary64 (pack Format.binary64 (whole s n h)) = whole s n h := by
  have := log2_le h hn
  exact unpack_pack_finite (log2_digits h hn) (by omega) (by omega)

/-! ## Doubles -/

/-- The double for a whole number with a sign. -/
def ofWhole (s : Sign) (n : Nat) (h : 0 < n) : Float := .ofModel (.pack (whole s n h))

theorem unpack_ofWhole {n : Nat} (s : Sign) (h : 0 < n) (hn : n < 2 ^ 53) :
    (ofWhole s n h).toModel.unpack = whole s n h := unpack_pack_whole s h hn

theorem ofWhole_mul {a b : Nat} (s t : Sign) (ha : 0 < a) (hb : 0 < b) (hab : a * b < 2 ^ 53) :
    ofWhole s a ha * ofWhole t b hb = ofWhole (s * t) (a * b) (Nat.mul_pos ha hb) := by
  change Float.ofModel (.pack (UnpackedFloat.mul Format.binary64 _ _)) = _
  rw [unpack_ofWhole s ha (Nat.lt_of_le_of_lt (Nat.le_mul_of_pos_right a hb) hab),
    unpack_ofWhole t hb (Nat.lt_of_le_of_lt (Nat.le_mul_of_pos_left b ha) hab),
    mul_whole s t ha hb hab]
  rfl

theorem ofWhole_add {a b : Nat} (s : Sign) (ha : 0 < a) (hb : 0 < b) (hab : a + b < 2 ^ 53) :
    ofWhole s a ha + ofWhole s b hb = ofWhole s (a + b) (Nat.add_pos_left ha b) := by
  change Float.ofModel (.pack (UnpackedFloat.add Format.binary64 _ _)) = _
  rw [unpack_ofWhole s ha (by omega), unpack_ofWhole s hb (by omega), add_whole s ha hb hab]
  rfl

theorem ofWhole_neg {n : Nat} (s : Sign) (h : 0 < n) (hn : n < 2 ^ 53) :
    -ofWhole s n h = ofWhole (-s) n h := by
  change Float.ofModel (.pack (UnpackedFloat.neg _)) = _
  rw [unpack_ofWhole s h hn]
  rfl

/-- A count below `2 ^ 53` is exact. -/
theorem ofNat_eq {n : Nat} (h : 0 < n) (hn : n < 2 ^ 53) :
    Float.ofNat n = ofWhole .positive n h := by
  have hone : Float.exactlyRepresentablePowersOfTen[0] = ofWhole .positive 1 Nat.one_pos := by
    change Float.ofBits 0x3FF0000000000000 = _
    decide
  have hcount : n.toUInt64.toFloat = ofWhole .positive n h := by
    have hword : n.toUInt64.toNat = n := Nat.mod_eq_of_lt (by omega)
    have hwhole := normalize_whole .positive .positive h hn 0
    rw [Nat.pow_zero, Nat.mul_one] at hwhole
    change Float.ofModel (.pack (UnpackedFloat.ofInt Format.binary64 (n.toUInt64.toNat : Int))) = _
    rw [hword]
    exact congrArg (fun u => Float.ofModel (Float.Model.pack u)) hwhole
  change Float.ofScientific n false 0 = _
  unfold Float.ofScientific
  rw [dif_pos ⟨hn, by omega⟩]
  dsimp only [Bool.false_eq_true, if_false]
  rw [hcount, hone, ofWhole_mul _ _ h Nat.one_pos (by omega)]
  simp only [Nat.mul_one]
  rfl

/-- A zero changes no sum. -/
theorem ofWhole_add_zero {n : Nat} (s t : Sign) (h : 0 < n) (hn : n < 2 ^ 53) {x : Float}
    (hx : x.toModel.unpack = .zero t) : ofWhole s n h + x = ofWhole s n h := by
  change Float.ofModel (.pack (UnpackedFloat.add Format.binary64 _ _)) = _
  rw [unpack_ofWhole s h hn, hx]
  rfl

/-! ## Comparing -/

theorem digits_bounds {n : Nat} (h : 0 < n) (hn : n < 2 ^ 53) :
    2 ^ 52 ≤ n * 2 ^ (52 - n.log2) ∧ n * 2 ^ (52 - n.log2) < 2 ^ 53 := by
  obtain ⟨-, hlow, hhigh⟩ := toNat_mantissa (log2_digits h hn)
  exact ⟨hlow, hhigh⟩

theorem log2_mono {a b : Nat} (ha : 0 < a) (hab : a ≤ b) : a.log2 ≤ b.log2 := by
  rw [Nat.le_log2 (by omega)]
  exact Nat.le_trans (Nat.log2_self_le (Nat.ne_of_gt ha)) hab

/-- The place of a negative whole number. -/
theorem place_ofWhole {n : Nat} (h : 0 < n) (hn : n < 2 ^ 53) :
    placeOfDouble (ofWhole .negative n h) =
      -((1023 + n.log2) * 2 ^ 52 + (n * 2 ^ (52 - n.log2) - 2 ^ 52 : Nat) : Int) - 1 := by
  have hlog := log2_le h hn
  obtain ⟨hlow, hhigh⟩ := digits_bounds h hn
  have hbits : (ofWhole .negative n h).toBits.toNat =
      2 ^ 63 + ((n.log2 : Int) - 52 + 1023 + 52).toNat * 2 ^ 52 +
        (n * 2 ^ (52 - n.log2) - 2 ^ 52) :=
    toNat_pack_finite (h := digits_pos h) (log2_digits h hn) (by omega)
  have hexponent : ((n.log2 : Int) - 52 + 1023 + 52).toNat = 1023 + n.log2 := by omega
  rw [hexponent] at hbits
  unfold placeOfDouble
  dsimp only
  rw [hbits, if_neg (by omega)]
  omega

/-- The greater a whole number, the earlier its opposite. -/
theorem place_ofWhole_lt {a b : Nat} (ha : 0 < a) (hab : a < b) (hb : b < 2 ^ 53) :
    placeOfDouble (ofWhole .negative b (Nat.lt_trans ha hab)) <
      placeOfDouble (ofWhole .negative a ha) := by
  rw [place_ofWhole _ hb, place_ofWhole _ (Nat.lt_trans hab hb)]
  have hlog := log2_mono ha (Nat.le_of_lt hab)
  obtain ⟨hlow, hhigh⟩ := digits_bounds ha (Nat.lt_trans hab hb)
  obtain ⟨hlow', hhigh'⟩ := digits_bounds (Nat.lt_trans ha hab) hb
  rcases Nat.eq_or_lt_of_le hlog with heq | hlt
  · have := Nat.mul_lt_mul_of_pos_right hab (Nat.two_pow_pos (52 - b.log2))
    rw [heq] at hlow hhigh ⊢
    omega
  · omega

/-- The greater a whole number, the smaller its opposite. -/
theorem ofWhole_le {a b : Nat} (ha : 0 < a) (hab : a ≤ b) (hb : b < 2 ^ 53) :
    Scalar.le (ofWhole .negative b (Nat.lt_of_lt_of_le ha hab)) (ofWhole .negative a ha) = true := by
  have hlog := log2_mono ha hab
  have hle : (UnpackedFloat.compare (whole .negative b (Nat.lt_of_lt_of_le ha hab))
      (whole .negative a ha)).any (·.isLE) = true := by
    rcases Nat.eq_or_lt_of_le hlog with heq | hlt
    · have hexponents : compare ((b.log2 : Int) - 52) (a.log2 - 52) = .eq :=
        Int.compare_eq_eq.2 (by omega)
      have hdigits := Nat.mul_le_mul_right (2 ^ (52 - b.log2)) hab
      simp only [whole, UnpackedFloat.compare, hexponents, Ordering.eq_then, Option.any_some]
      rw [Nat.compare_swap, Nat.isLE_compare, heq]
      exact hdigits
    · have hexponents : compare ((b.log2 : Int) - 52) (a.log2 - 52) = .gt :=
        Int.compare_eq_gt.2 (by omega)
      simp only [whole, UnpackedFloat.compare, hexponents]
      rfl
  rw [← unpack_ofWhole _ _ hb, ← unpack_ofWhole _ _ (Nat.lt_of_le_of_lt hab hb)] at hle
  exact decide_eq_true (decide_eq_true hle)

theorem ofWhole_eq {n : Nat} (s : Sign) (h : 0 < n) (hn : n < 2 ^ 53) :
    Scalar.eq (ofWhole s n h) (ofWhole s n h) = true := by
  change (UnpackedFloat.compare (Float.Model.unpack _) (Float.Model.unpack _)) == some .eq
  rw [unpack_ofWhole _ _ hn]
  cases s <;> simp [whole, UnpackedFloat.compare]

end SymbolInduction.Doubles
