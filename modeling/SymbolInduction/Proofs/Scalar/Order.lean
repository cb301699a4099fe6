-- The order of the doubles that are not below zero. Their bits count upwards from
-- zero to infinity, so one of them is below another one exactly if it stands at an
-- earlier place, and two that are numerically equal are one double. Zero is meant
-- without a sign here, as it has another place with one.
import SymbolInduction.Proofs.Scalar.Signs

namespace SymbolInduction.Doubles

open Float.Model Float.Model.UnpackedFloat

/-- A double that is zero, without a sign, or above zero. -/
def FromZero (x : Float) : Prop := x = Scalar.zero ∨ Above x.toModel.unpack

/-! ## Places -/

/-- No two doubles stand at one place. -/
theorem eq_of_place {x y : Float} (h : placeOfDouble x = placeOfDouble y) : x = y := by
  refine Float.toBits_inj.1 (UInt64.toNat_inj.1 ?_)
  have hx := x.toBits.toNat_lt
  have hy := y.toBits.toNat_lt
  unfold placeOfDouble at h
  dsimp only at h
  split at h <;> split at h <;> omega

theorem place_zero : placeOfDouble Scalar.zero = 0 := by decide

/-- What is unpacked is what was packed. -/
theorem bits_eq {x : Float} {u : UnpackedFloat} (h : x.toModel.unpack = u) :
    x.toBits.toNat = (pack Format.binary64 u).toNat := by
  rw [← h]
  exact congrArg BitVec.toNat (pack_unpack_of_valid x.toModel.valid).symm

theorem place_of_bits {x : Float} (h : x.toBits.toNat < 2 ^ 63) :
    placeOfDouble x = x.toBits.toNat := by
  unfold placeOfDouble
  dsimp only
  split <;> omega

theorem place_infinity {x : Float} (h : x.toModel.unpack = .infinity .positive) :
    placeOfDouble x = 2047 * 2 ^ 52 := by
  have hbits : x.toBits.toNat = 2047 * 2 ^ 52 := (bits_eq h).trans (by decide)
  rw [place_of_bits (by omega), hbits]
  rfl

/-- The place of a number above zero, and how many digits it has. -/
theorem place_finite {x : Float} {m : Nat} {e : Int} {hm : 0 < m}
    (h : x.toModel.unpack = .finite .positive m e hm) :
    placeOfDouble x = (e + 1074) * 2 ^ 52 + m ∧ m < 2 ^ 53 ∧ e ≤ 971 ∧
      (e = -1074 ∨ -1074 ≤ e ∧ 2 ^ 52 ≤ m) := by
  have hcanonical := canonical_unpack x.toModel.toBits.toBitVec
  change Canonical x.toModel.unpack at hcanonical
  have hbits := bits_eq h
  have hsign : Sign.positive.toBitVec.toNat = 0 := rfl
  rw [h] at hcanonical
  -- the bits of a normal number leave out its leading digit, and raise the exponent for it
  rcases hcanonical with ⟨hlog, hlow, hhigh⟩ | ⟨hlog, rfl⟩
  · obtain ⟨-, hleast, hmost⟩ := toNat_mantissa hlog
    rw [toNat_pack_finite hlog (by omega), hsign] at hbits
    rw [place_of_bits (by omega)]
    omega
  · have hmost := (Nat.log2_lt (Nat.ne_of_gt hm)).1 hlog
    obtain ⟨hpack, hvalue⟩ := pack_short (s := .positive) (h := hm) hlog (e := -1074) (by decide)
    rw [hpack, toNat_packComponents, hvalue, hsign, BitVec.toNat_zero] at hbits
    rw [place_of_bits (by omega)]
    omega

theorem place_above {x : Float} (h : Above x.toModel.unpack) : 0 < placeOfDouble x := by
  generalize hu : x.toModel.unpack = u at h
  cases h with
  | infinity =>
    rw [place_infinity hu]
    decide
  | finite hm =>
    have := place_finite hu
    omega

/-! ## Comparing -/

theorem lt_finite_iff {m n : Nat} {e f : Int} (hm : 0 < m) (hn : 0 < n) :
    UnpackedFloat.lt (.finite .positive m e hm) (.finite .positive n f hn) = true ↔
      e < f ∨ e = f ∧ m < n := by
  change ((some ((compare e f).then (compare m n))) == some Ordering.lt) = true ↔ _
  rw [beq_iff_eq, Option.some_inj, Ordering.then_eq_lt, Int.compare_eq_lt, Int.compare_eq_eq,
    Nat.compare_eq_lt]

theorem lt_iff_place_of_above {x y : Float} (hx : Above x.toModel.unpack)
    (hy : Above y.toModel.unpack) :
    Scalar.lt x y = true ↔ placeOfDouble x < placeOfDouble y := by
  rw [lt_iff]
  generalize hu : x.toModel.unpack = u at hx
  generalize hv : y.toModel.unpack = v at hy
  cases hx with
  | infinity =>
    -- nothing comes after infinity
    refine iff_of_false (by cases hy <;> exact nofun) ?_
    rw [place_infinity hu]
    cases hy with
    | infinity => rw [place_infinity hv]; exact Int.lt_irrefl _
    | finite hn =>
      have hplace := place_finite hv
      omega
  | finite hm =>
    have hplace := place_finite hu
    cases hy with
    | infinity =>
      refine iff_of_true rfl ?_
      rw [place_infinity hv]
      omega
    | finite hn =>
      have hplace' := place_finite hv
      rw [lt_finite_iff]
      omega

/-- One number is below another exactly if it stands at an earlier place. -/
theorem lt_iff_place {x y : Float} (hx : FromZero x) (hy : FromZero y) :
    Scalar.lt x y = true ↔ placeOfDouble x < placeOfDouble y := by
  rcases hx with rfl | hx
  · rw [zero_lt_iff, place_zero]
    rcases hy with rfl | hy
    · refine iff_of_false ?_ (by decide)
      rw [unpack_zero]
      exact nofun
    · exact iff_of_true hy (place_above hy)
  · rcases hy with rfl | hy
    · rw [not_lt_zero (Or.inr (Or.inl hx)), place_zero]
      exact iff_of_false Bool.false_ne_true (Int.not_lt.2 (Int.le_of_lt (place_above hx)))
    · exact lt_iff_place_of_above hx hy

theorem FromZero.ne_nan {x : Float} (h : FromZero x) : x ≠ Float.nan := by
  rintro rfl
  rcases h with h | h
  · exact absurd h (by decide)
  · cases h

theorem FromZero.ne_neg_zero {x : Float} (h : FromZero x) : x ≠ -0 := by
  rintro rfl
  rcases h with h | h
  · exact absurd h (by decide)
  · cases h

/-- Numbers that are numerically equal are one. -/
theorem eq_iff {x y : Float} (hx : FromZero x) (hy : FromZero y) :
    Scalar.eq x y = true ↔ x = y := by
  refine Float.beq_iff_ne_nan_and_eq.trans ⟨fun ⟨_, _, h⟩ => ?_, fun h => ?_⟩
  · rcases h with h | ⟨-, h⟩ | ⟨h, -⟩
    · exact h
    · exact absurd h hy.ne_neg_zero
    · exact absurd h hx.ne_neg_zero
  · exact ⟨hx.ne_nan, hy.ne_nan, Or.inl h⟩

end SymbolInduction.Doubles
