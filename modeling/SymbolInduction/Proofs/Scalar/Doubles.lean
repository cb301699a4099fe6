-- How far from zero doubles are. Rounding takes no number back below a power
-- of two that it has reached, so sums and products of large numbers are large,
-- however they are rounded; and a large negative double comes before every
-- small one in the total order.
import Mathlib
import SymbolInduction.Scalar

namespace SymbolInduction.Doubles

open Float.Model Float.Model.UnpackedFloat

/-- A number with a given sign that is at least `2 ^ k` away from zero, with
as many digits as a double holds. -/
inductive Reaches (k : Nat) (s : Sign) : UnpackedFloat → Prop
  | infinity : Reaches k s (.infinity s)
  | finite {m : Nat} {e : Int} (h : 0 < m) (hm : m.log2 = 52) (he : (k : Int) ≤ e + 52) :
      Reaches k s (.finite s m e h)

/-! ## Rounding -/

theorem mantissa_shiftRight (em : ExtendedMantissa) (n : Nat) :
    (em >>> n).mantissa = em.mantissa / 2 ^ n := by
  induction n with
  | zero => simp [HShiftRight.hShiftRight, Nat.repeat]
  | succ n ih =>
    change (em >>> n).mantissa / 2 = _
    rw [ih, Nat.div_div_eq_div_mul, Nat.pow_succ]

theorem le_roundedMantissa (em : ExtendedMantissa) :
    em.mantissa ≤ em.roundedMantissa ∧ em.roundedMantissa ≤ em.mantissa + 1 := by
  obtain ⟨m, roundBit, stickyBit⟩ := em
  cases roundBit <;> cases stickyBit <;>
    simp only [ExtendedMantissa.roundedMantissa, ExtendedMantissa.accuracy,
      Accuracy.roundToNearestEven] <;> omega

theorem mantissa_ofMantissaAndAccuracy (m : Nat) (acc : Accuracy) :
    (ExtendedMantissa.ofMantissaAndAccuracy m acc).mantissa = m := by
  cases acc with
  | exact => rfl
  | inexact o => cases o <;> rfl

/-- The exponent for a number, whose digits may not reach below the last one of
the least double. -/
theorem targetExponent_spec (m : Nat) (e : Int) :
    Format.binary64.targetExponent (totalExponent m e) = max (m.log2 + e - 52) (-1074) := by
  simp only [Format.targetExponent, totalExponent, Format.mantissaBits, Format.minExponent]
  omega

/-- The exponent for a number at `2 ^ L`, unless it is tiny. -/
theorem targetExponent_eq {m : Nat} {e : Int} (h : -1022 ≤ m.log2 + e) :
    Format.binary64.targetExponent (totalExponent m e) = m.log2 + e - 52 := by
  rw [targetExponent_spec]
  omega

/-- A number that is brought to its place loses the digits below that. -/
theorem shiftToTargetExponent_places (m : Nat) (e : Int) (acc : Accuracy) :
    ∃ places : Nat, (places : Int) = max (max (m.log2 + e - 52) (-1074) - e) 0 ∧
      (shiftToTargetExponent Format.binary64 m e acc).1.mantissa = m / 2 ^ places ∧
      (shiftToTargetExponent Format.binary64 m e acc).2 = e + places := by
  unfold shiftToTargetExponent shiftToExponent
  rw [targetExponent_spec]
  refine ⟨(max ((m.log2 : Int) + e - 52) (-1074) - e).toNat, Int.toNat_eq_max _, ?_, rfl⟩
  rw [mantissa_shiftRight, mantissa_ofMantissaAndAccuracy]

theorem shiftToTargetExponent_eq {m : Nat} {e : Int} (h : -1022 ≤ m.log2 + e) (hm : 52 ≤ m.log2)
    (acc : Accuracy) :
    (shiftToTargetExponent Format.binary64 m e acc).1.mantissa = m / 2 ^ (m.log2 - 52) ∧
      (shiftToTargetExponent Format.binary64 m e acc).2 = m.log2 + e - 52 := by
  obtain ⟨places, hplaces, hmantissa, hexponent⟩ := shiftToTargetExponent_places m e acc
  obtain rfl : places = m.log2 - 52 := by omega
  exact ⟨hmantissa, by omega⟩

theorem log2_div {m : Nat} (hm : 52 ≤ m.log2) :
    2 ^ 52 ≤ m / 2 ^ (m.log2 - 52) ∧ m / 2 ^ (m.log2 - 52) < 2 ^ 53 := by
  have hne : m ≠ 0 := by
    rintro rfl
    simp at hm
  have hlow := Nat.log2_self_le hne
  have hhigh := Nat.lt_log2_self (n := m)
  rw [Nat.le_div_iff_mul_le (Nat.two_pow_pos _), Nat.div_lt_iff_lt_mul (Nat.two_pow_pos _),
    ← Nat.pow_add, ← Nat.pow_add]
  constructor
  · rwa [show 52 + (m.log2 - 52) = m.log2 by omega]
  · rwa [show 53 + (m.log2 - 52) = m.log2 + 1 by omega]

/-- A number is rounded to as many digits as a double holds, where it stands or
at the next power of two. -/
theorem roundWithAccuracy_spec {m : Nat} {e : Int} (s : Sign) (hm : 52 ≤ m.log2)
    (he : -1022 ≤ m.log2 + e) (acc : Accuracy) :
    ∃ (m' : Nat) (e' : Int) (h : 0 < m'),
      roundWithAccuracy Format.binary64 s m e acc = .finite s m' e' h ∧ m'.log2 = 52 ∧
        (e' = m.log2 + e - 52 ∨ (e' = m.log2 + e - 51 ∧ m' = 2 ^ 52)) := by
  obtain ⟨hmantissa, hexponent⟩ := shiftToTargetExponent_eq he hm acc
  obtain ⟨hlow, hhigh⟩ := log2_div hm
  rw [← hmantissa] at hlow hhigh
  unfold roundWithAccuracy
  generalize shiftToTargetExponent Format.binary64 m e acc = first at *
  obtain ⟨em, e₁⟩ := first
  dsimp only at *
  obtain ⟨hround, hround'⟩ := le_roundedMantissa em
  generalize em.roundedMantissa = r at *
  -- the rounded digits are as many as before, or they are a power of two
  have hlog : 52 ≤ r.log2 := (Nat.le_log2 (by omega)).2 (by omega)
  have hlog' : r.log2 = 52 ∨ (r.log2 = 53 ∧ r = 2 ^ 53) := by
    by_cases hr : r < 2 ^ 53
    · left
      have := (Nat.log2_lt (by omega)).2 hr
      omega
    · obtain rfl : r = 2 ^ 53 := by omega
      exact Or.inr ⟨Nat.log2_two_pow, rfl⟩
  obtain ⟨hfinal, hfinalExponent⟩ :=
    shiftToTargetExponent_eq (m := r) (e := e₁) (by omega) hlog .exact
  generalize shiftToTargetExponent Format.binary64 r e₁ .exact = last at *
  obtain ⟨em', e₂⟩ := last
  dsimp only at *
  obtain ⟨hlow', hhigh'⟩ := log2_div hlog
  rw [← hfinal] at hlow' hhigh'
  have hpos : 0 < em'.mantissa := by omega
  refine ⟨em'.mantissa, e₂, hpos, dif_neg (Nat.ne_of_gt hpos), ?_, ?_⟩
  · have := (Nat.le_log2 (n := em'.mantissa) (by omega)).2 hlow'
    have := (Nat.log2_lt (n := em'.mantissa) (by omega)).2 hhigh'
    omega
  · rcases hlog' with hr | ⟨hr, rfl⟩
    · exact Or.inl (by omega)
    · rw [hr] at hfinal
      exact Or.inr ⟨by omega, hfinal⟩

/-- Rounding takes no number back below a power of two that it has reached. -/
theorem reaches_roundWithAccuracy {k m : Nat} {e : Int} (s : Sign) (hm : 52 ≤ m.log2)
    (hk : (k : Int) ≤ m.log2 + e) (acc : Accuracy) :
    Reaches k s (roundWithAccuracy Format.binary64 s m e acc) := by
  obtain ⟨m', e', h, heq, hlog, he⟩ := roundWithAccuracy_spec (e := e) s hm (by omega) acc
  rw [heq]
  exact .finite h hlog (by omega)

theorem log2_shiftLeft {m : Nat} (hm : 0 < m) (n : Nat) : (m <<< n).log2 = m.log2 + n := by
  rw [Nat.shiftLeft_eq]
  have hlow := Nat.log2_self_le (Nat.ne_of_gt hm)
  have hhigh := Nat.lt_log2_self (n := m)
  have hpos : 0 < m * 2 ^ n := Nat.mul_pos hm (Nat.two_pow_pos n)
  rw [Nat.log2_eq_iff (Nat.ne_of_gt hpos)]
  rw [Nat.add_right_comm, Nat.pow_add, Nat.pow_add (n := n)]
  exact ⟨Nat.mul_le_mul_right _ hlow, Nat.mul_lt_mul_of_pos_right hhigh (Nat.two_pow_pos n)⟩

theorem reaches_round {k m : Nat} {e : Int} (s : Sign) (hm : 0 < m) (hk : (k : Int) ≤ m.log2 + e) :
    Reaches k s (round Format.binary64 s m e) := by
  unfold UnpackedFloat.round decreaseExponent
  rw [targetExponent_eq (by omega)]
  dsimp only
  have hlog : (m <<< (e - (m.log2 + e - 52)).toNat).log2 =
      m.log2 + (e - (m.log2 + e - 52)).toNat := by
    exact log2_shiftLeft hm _
  apply reaches_roundWithAccuracy
  · omega
  · omega

theorem reaches_normalize {k m : Nat} {e : Int} (s zero : Sign) (hm : 0 < m)
    (hk : (k : Int) ≤ m.log2 + e) :
    Reaches k s (normalize Format.binary64 (s.apply m) e zero) := by
  unfold UnpackedFloat.normalize
  cases s with
  | negative =>
    rw [show compare (Sign.negative.apply (m : Int)) 0 = .lt from
      Int.compare_eq_lt.2 (by simp [Sign.apply]; omega)]
    simpa [Sign.apply] using reaches_round .negative hm hk
  | positive =>
    rw [show compare (Sign.positive.apply (m : Int)) 0 = .gt from
      Int.compare_eq_gt.2 (by simp [Sign.apply]; omega)]
    simpa [Sign.apply] using reaches_round .positive hm hk

/-! ## Packing -/

theorem unpack_infinity (s : Sign) :
    unpack Format.binary64 (packedInfinity Format.binary64 s) = .infinity s := by
  unfold UnpackedFloat.unpack packedInfinity
  simp

/-- The leading digit is left out when a number is packed, and put back. -/
theorem toNat_mantissa {m : Nat} (hm : m.log2 = 52) :
    (BitVec.ofNat 52 m).toNat = m - 2 ^ 52 ∧ 2 ^ 52 ≤ m ∧ m < 2 ^ 53 := by
  have hne : m ≠ 0 := by
    rintro rfl
    simp at hm
  have hlow := Nat.log2_self_le hne
  have hhigh := Nat.lt_log2_self (n := m)
  rw [hm] at hlow hhigh
  refine ⟨?_, hlow, hhigh⟩
  rw [BitVec.toNat_ofNat]
  omega

/-- The bits of a normal number. -/
theorem pack_finite {s : Sign} {m : Nat} {e : Int} {h : 0 < m} (hm : m.log2 = 52)
    (he : ¬2 ^ 11 ≤ (e + 1023 + 52).toNat + 1) :
    pack Format.binary64 (.finite s m e h) =
      packComponents Format.binary64 s (BitVec.ofNat 11 (e + 1023 + 52).toNat)
        (BitVec.ofNat 52 m) := by
  unfold UnpackedFloat.pack
  dsimp only
  have hlast : m.log2 + 1 = Format.binary64.mantissaBits := by
    rw [hm]
    rfl
  rw [if_pos hlast]
  exact if_neg he

/-- A normal number is what was packed. -/
theorem unpack_pack_finite {s : Sign} {m : Nat} {e : Int} {h : 0 < m} (hm : m.log2 = 52)
    (hlow : -1022 ≤ e + 52) (hhigh : ¬2 ^ 11 ≤ (e + 1023 + 52).toNat + 1) :
    unpack Format.binary64 (pack Format.binary64 (.finite s m e h)) = .finite s m e h := by
  obtain ⟨hmantissa, hleast, hmost⟩ := toNat_mantissa hm
  have hbits : (BitVec.ofNat 11 (e + 1023 + 52).toNat).toNat = (e + 1023 + 52).toNat := by
    rw [BitVec.toNat_ofNat]
    omega
  have hnotLast : BitVec.ofNat 11 (e + 1023 + 52).toNat ≠ -1#_ := by
    intro heq
    have := congrArg BitVec.toNat heq
    rw [hbits] at this
    simp at this
    omega
  have hnotFirst : BitVec.ofNat 11 (e + 1023 + 52).toNat ≠ 0#_ := by
    intro heq
    have := congrArg BitVec.toNat heq
    rw [hbits] at this
    simp at this
    omega
  have hdigits : (1#1 ++ BitVec.ofNat 52 m).toNat = m := by
    rw [BitVec.toNat_append, ← Nat.shiftLeft_add_eq_or_of_lt (BitVec.isLt _), hmantissa,
      Nat.shiftLeft_eq]
    simp
    omega
  have hexponent : ((e + 1023 + 52).toNat : Int) - (1023 + 52) = e := by omega
  rw [pack_finite hm hhigh]
  unfold UnpackedFloat.unpack
  simp only [unpackMantissa_packComponents, unpackExponent_packComponents,
    unpackSign_packComponents, Sign.ofBitVec_toBitVec]
  rw [if_neg hnotLast, if_neg hnotFirst]
  simp only [UnpackedFloat.finite.injEq, true_and]
  refine ⟨hdigits, ?_⟩
  rw [hbits]
  exact hexponent

/-- Packing keeps a number, or takes it to infinity. -/
theorem reaches_unpack_pack {k : Nat} {s : Sign} {u : UnpackedFloat} (hu : Reaches k s u) :
    Reaches k s (unpack Format.binary64 (pack Format.binary64 u)) := by
  cases hu with
  | infinity =>
    rw [show pack Format.binary64 (.infinity s) = packedInfinity Format.binary64 s from rfl,
      unpack_infinity]
    exact .infinity
  | @finite m e h hm he =>
    by_cases hbig : 2 ^ 11 ≤ (e + 1023 + 52).toNat + 1
    · have hpack : pack Format.binary64 (.finite s m e h) = packedInfinity Format.binary64 s :=
        if_pos hbig
      rw [hpack, unpack_infinity]
      exact .infinity
    · rw [unpack_pack_finite hm (by omega) hbig]
      exact .finite h hm he

theorem toNat_packComponents (s : Sign) (exponent : BitVec 11) (digits : BitVec 52) :
    (packComponents Format.binary64 s exponent digits).toNat =
      s.toBitVec.toNat * 2 ^ 63 + exponent.toNat * 2 ^ 52 + digits.toNat := by
  unfold packComponents
  rw [BitVec.toNat_append, BitVec.toNat_append, ← Nat.shiftLeft_add_eq_or_of_lt (BitVec.isLt _),
    ← Nat.shiftLeft_add_eq_or_of_lt (BitVec.isLt _), Nat.shiftLeft_eq, Nat.shiftLeft_eq]
  omega

theorem toNat_pack_finite {s : Sign} {m : Nat} {e : Int} {h : 0 < m} (hm : m.log2 = 52)
    (hhigh : ¬2 ^ 11 ≤ (e + 1023 + 52).toNat + 1) :
    (pack Format.binary64 (.finite s m e h)).toNat =
      s.toBitVec.toNat * 2 ^ 63 + (e + 1023 + 52).toNat * 2 ^ 52 + (m - 2 ^ 52) := by
  have hexponent : (BitVec.ofNat 11 (e + 1023 + 52).toNat).toNat = (e + 1023 + 52).toNat := by
    rw [BitVec.toNat_ofNat]
    omega
  rw [pack_finite hm hhigh, toNat_packComponents, hexponent, (toNat_mantissa hm).1]

/-- The bits of a large negative number. -/
theorem toNat_pack {k : Nat} (hk : k ≤ 1023) {u : UnpackedFloat} (hu : Reaches k .negative u) :
    2 ^ 63 + (1023 + k) * 2 ^ 52 ≤ (pack Format.binary64 u).toNat := by
  cases hu with
  | infinity =>
    have : (pack Format.binary64 (.infinity .negative)).toNat = 2 ^ 63 + 2047 * 2 ^ 52 := by
      decide
    omega
  | @finite m e h hm he =>
    by_cases hbig : 2 ^ 11 ≤ (e + 1023 + 52).toNat + 1
    · have hpack : pack Format.binary64 (.finite .negative m e h) =
          packedInfinity Format.binary64 .negative := if_pos hbig
      have : (packedInfinity Format.binary64 .negative).toNat = 2 ^ 63 + 2047 * 2 ^ 52 := by
        decide
      rw [hpack]
      omega
    · rw [toNat_pack_finite hm hbig, show Sign.negative.toBitVec.toNat = 1 from rfl]
      have hle : 1023 + k ≤ (e + 1023 + 52).toNat := by omega
      omega

/-! ## Arithmetic -/

theorem reaches_neg {k : Nat} {s : Sign} {u : UnpackedFloat} (hu : Reaches k s u) :
    Reaches k (-s) u.neg := by
  cases hu with
  | infinity => exact .infinity
  | finite h hm he => exact .finite h hm he

theorem reaches_mul {k l : Nat} {s t : Sign} {u v : UnpackedFloat} (hu : Reaches k s u)
    (hv : Reaches l t v) : Reaches (k + l) (s * t) (UnpackedFloat.mul Format.binary64 u v) := by
  cases hu with
  | infinity =>
    cases hv with
    | infinity => exact .infinity
    | finite => exact .infinity
  | @finite m e h hm he =>
    cases hv with
    | infinity => exact .infinity
    | @finite n f h' hn hf =>
      have hlog : 104 ≤ (m * n).log2 := by
        rw [Nat.le_log2 (Nat.ne_of_gt (Nat.mul_pos h h'))]
        have hlow := Nat.log2_self_le (Nat.ne_of_gt h)
        have hlow' := Nat.log2_self_le (Nat.ne_of_gt h')
        calc 2 ^ 104 = 2 ^ m.log2 * 2 ^ n.log2 := by rw [hm, hn, ← Nat.pow_add]
          _ ≤ m * n := Nat.mul_le_mul hlow hlow'
      exact reaches_roundWithAccuracy _ (by omega) (by omega) _

/-- The sum of two numbers with one sign is as far from zero as the second. -/
theorem reaches_add {k l : Nat} {s : Sign} {u v : UnpackedFloat} (hu : Reaches k s u)
    (hv : Reaches l s v) : Reaches l s (UnpackedFloat.add Format.binary64 u v) := by
  cases hu with
  | infinity =>
    cases hv with
    | infinity => cases s <;> exact .infinity
    | finite => exact .infinity
  | @finite m e h hm he =>
    cases hv with
    | infinity => exact .infinity
    | @finite n f h' hn hf =>
      simp only [UnpackedFloat.add, decreaseExponent]
      have hsum : ∀ a b : Nat, s.apply a + s.apply b = s.apply ((a + b : Nat) : Int) := by
        intro a b
        cases s <;> simp only [Sign.apply] <;> omega
      rw [hsum]
      have hshift := log2_shiftLeft h' (f - min e f).toNat
      have hpos : 0 < n <<< (f - min e f).toNat := by
        rw [Nat.shiftLeft_eq]
        exact Nat.mul_pos h' (Nat.two_pow_pos _)
      generalize n <<< (f - min e f).toNat = b at *
      generalize m <<< (e - min e f).toNat = a at *
      have hlog : b.log2 ≤ (a + b).log2 := by
        rw [Nat.le_log2 (by omega)]
        have := Nat.log2_self_le (Nat.ne_of_gt hpos)
        omega
      exact reaches_normalize s .positive (by omega) (by omega)

/-! ## Doubles -/

/-- A double with a given sign that is at least `2 ^ k` away from zero. -/
def IsFar (k : Nat) (s : Sign) (x : Float) : Prop :=
  ∃ u, Reaches k s u ∧ x = .ofModel (.pack u)

theorem isFar_pack {k : Nat} {s : Sign} {u : UnpackedFloat} (hu : Reaches k s u) :
    IsFar k s (.ofModel (.pack u)) := ⟨u, hu, rfl⟩

theorem IsFar.reaches {k : Nat} {s : Sign} {x : Float} (hx : IsFar k s x) :
    Reaches k s x.toModel.unpack := by
  obtain ⟨u, hu, rfl⟩ := hx
  exact reaches_unpack_pack hu

theorem isFar_neg {k : Nat} {s : Sign} {x : Float} (hx : IsFar k s x) : IsFar k (-s) (-x) :=
  isFar_pack (reaches_neg hx.reaches)

theorem isFar_mul {k l : Nat} {s t : Sign} {x y : Float} (hx : IsFar k s x) (hy : IsFar l t y) :
    IsFar (k + l) (s * t) (x * y) := isFar_pack (reaches_mul hx.reaches hy.reaches)

theorem isFar_add {k l : Nat} {s : Sign} {x y : Float} (hx : IsFar k s x) (hy : IsFar l s y) :
    IsFar l s (x + y) := isFar_pack (reaches_add hx.reaches hy.reaches)

theorem reaches_ofInt {k n : Nat} (hn : 2 ^ k ≤ n) :
    Reaches k .positive (UnpackedFloat.ofInt Format.binary64 n) := by
  have hpos : 0 < n := Nat.lt_of_lt_of_le (Nat.two_pow_pos k) hn
  have hlog : k ≤ n.log2 := (Nat.le_log2 (Nat.ne_of_gt hpos)).2 hn
  exact reaches_normalize .positive .positive hpos (by omega)

/-- Reading a number in full is rounding it, with room for its digits. -/
theorem ofScientific_eq {n : Nat} (hn : 0 < n) :
    UnpackedFloat.ofScientific Format.binary64 n 0 =
      roundWithAccuracy Format.binary64 .positive (n <<< 53) (-53) .exact := by
  have hhigh : ¬(0 : Int) > 2 ^ Format.binary64.exponentBits := by decide
  have hlow : ¬(0 : Int) < -((2 ^ Format.binary64.exponentBits : Int) + n.log2) := by
    have : (0 : Int) ≤ 2 ^ Format.binary64.exponentBits := by decide
    omega
  unfold UnpackedFloat.ofScientific
  rw [dif_neg (Nat.ne_of_gt hn), if_neg hhigh, if_neg hlow, if_pos (Int.le_refl 0)]
  simp only [UnpackedFloat.mul, Int.toNat_zero, Nat.pow_zero, Nat.mul_one, Int.add_zero]
  rfl

theorem reaches_ofScientific {k n : Nat} (hn : 2 ^ k ≤ n) :
    Reaches k .positive (UnpackedFloat.ofScientific Format.binary64 n 0) := by
  have hpos : 0 < n := Nat.lt_of_lt_of_le (Nat.two_pow_pos k) hn
  have hlog : k ≤ n.log2 := (Nat.le_log2 (Nat.ne_of_gt hpos)).2 hn
  have hshift := log2_shiftLeft hpos 53
  rw [ofScientific_eq hpos]
  exact reaches_roundWithAccuracy .positive (by omega) (by omega) .exact

theorem isFar_one : IsFar 0 .positive (Float.ofBits 0x3FF0000000000000) := by
  have hone : UnpackedFloat.unpack Format.binary64
      (0x3FF0000000000000 : UInt64).toBitVec = .finite .positive (2 ^ 52) (-52) (by decide) := by
    rfl
  refine isFar_pack ?_
  rw [hone]
  exact .finite _ (by decide) (by omega)

/-- A count of `2 ^ k` things or more is at least as far from zero. -/
theorem isFar_ofNat {k n : Nat} (hn : 2 ^ k ≤ n) : IsFar k .positive (Float.ofNat n) := by
  change IsFar k .positive (Float.ofScientific n false 0)
  unfold Float.ofScientific
  by_cases hsmall : n < 2 ^ 53
  · rw [dif_pos ⟨hsmall, by omega⟩]
    have hword : n.toUInt64.toNat = n := Nat.mod_eq_of_lt (by omega)
    have hcount : IsFar k .positive n.toUInt64.toFloat := by
      refine isFar_pack (u := UnpackedFloat.ofInt Format.binary64 (n.toUInt64.toNat : Int)) ?_
      rw [hword]
      exact reaches_ofInt hn
    exact isFar_mul hcount isFar_one
  · rw [dif_neg (fun h => hsmall h.1)]
    exact isFar_pack (reaches_ofScientific hn)

/-- A large negative double comes early in the total order. -/
theorem placeOfDouble_le {k : Nat} (hk : k ≤ 1023) {x : Float} (hx : IsFar k .negative x) :
    placeOfDouble x ≤ -((1023 + k) * 2 ^ 52) - 1 := by
  obtain ⟨u, hu, rfl⟩ := hx
  have hbits := toNat_pack hk hu
  change 2 ^ 63 + (1023 + k) * 2 ^ 52 ≤
    (Float.toBits (.ofModel (Float.Model.pack u))).toNat at hbits
  generalize Float.ofModel (Float.Model.pack u) = x at *
  have hlt := x.toBits.toNat_lt
  unfold placeOfDouble
  dsimp only
  rw [if_neg (by omega)]
  omega

end SymbolInduction.Doubles
