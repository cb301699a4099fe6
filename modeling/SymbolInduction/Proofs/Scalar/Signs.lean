-- Signs of doubles. A sum of numbers that are not below zero is above zero as soon
-- as one of them is, however small they are and however the sums are rounded. A
-- quotient of such numbers is not below zero, though it may be rounded to nothing.
import SymbolInduction.Proofs.Scalar.Shares

namespace SymbolInduction.Doubles

open Float.Model Float.Model.UnpackedFloat

/-! ## Where doubles stand -/

/-- A number that is above zero. -/
inductive Above : UnpackedFloat → Prop
  | infinity : Above (.infinity .positive)
  | finite {m : Nat} {e : Int} (h : 0 < m) : Above (.finite .positive m e h)

/-- A finite number has no more digits than a double holds, and none of them is
further down than the last digit of the least double. -/
def Fits : UnpackedFloat → Prop
  | .finite _ m e _ => m.log2 ≤ 52 ∧ -1074 ≤ e
  | _ => True

/-- A finite number has as many digits as a double holds, or the last of its digits
is that of the least double. -/
def Canonical : UnpackedFloat → Prop
  | .finite _ m e _ => (m.log2 = 52 ∧ -1074 ≤ e ∧ e ≤ 971) ∨ (m.log2 < 52 ∧ e = -1074)
  | _ => True

theorem canonical_unpack (b : BitVec Format.binary64.numBits) :
    Canonical (unpack Format.binary64 b) := by
  have hbias : (Format.binary64.exponentBias : Int) = 1023 := rfl
  have hdigits : (unpackMantissa b).toNat < 2 ^ 52 := (unpackMantissa b).isLt
  have hexponent : (unpackExponent b).toNat < 2 ^ 11 := (unpackExponent b).isLt
  unfold UnpackedFloat.unpack
  dsimp only
  rw [hbias]
  split
  · split <;> trivial
  · rename_i hlast
    have hlast' : (unpackExponent b).toNat ≠ 2047 := fun h => hlast (BitVec.eq_of_toNat_eq h)
    split
    · rename_i hfirst
      split
      · trivial
      · rename_i hdigit
        have hne : (unpackMantissa b).toNat ≠ 0 := fun h => hdigit (BitVec.eq_of_toNat_eq h)
        refine Or.inr ⟨(Nat.log2_lt hne).2 hdigits, ?_⟩
        rw [hfirst]
        rfl
    · rename_i hfirst
      have hfirst' : (unpackExponent b).toNat ≠ 0 := fun h => hfirst (BitVec.eq_of_toNat_eq h)
      have hleading : (1#1 ++ unpackMantissa b).toNat = 2 ^ 52 + (unpackMantissa b).toNat := by
        rw [BitVec.toNat_append, ← Nat.shiftLeft_add_eq_or_of_lt (BitVec.isLt _)]
        rfl
      refine Or.inl ⟨?_, ?_, ?_⟩
      · rw [hleading]
        exact (Nat.log2_eq_iff (by omega)).2 ⟨by omega, by omega⟩
      · omega
      · omega

/-! ## Rounding -/

/-- A number that is brought to its place has no digit too many and none too far
down. It keeps a digit, unless all of them are too far down. -/
theorem shiftToTargetExponent_spec (m : Nat) (e : Int) (acc : Accuracy) :
    (shiftToTargetExponent Format.binary64 m e acc).1.mantissa.log2 ≤ 52 ∧
      -1074 ≤ (shiftToTargetExponent Format.binary64 m e acc).2 ∧
      (0 < m → -1074 ≤ m.log2 + e →
        0 < (shiftToTargetExponent Format.binary64 m e acc).1.mantissa) := by
  obtain ⟨places, hplaces, hmantissa, hexponent⟩ := shiftToTargetExponent_places m e acc
  rw [hmantissa, hexponent]
  refine ⟨?_, by omega, fun hm he => ?_⟩
  · by_cases hnone : m / 2 ^ places = 0
    · rw [hnone]
      decide
    · have hmost : m / 2 ^ places < 2 ^ 53 := by
        rw [Nat.div_lt_iff_lt_mul (Nat.two_pow_pos _), ← Nat.pow_add]
        exact Nat.lt_of_lt_of_le Nat.lt_log2_self (Nat.pow_le_pow_right (by decide) (by omega))
      have := (Nat.log2_lt hnone).2 hmost
      omega
  · have hleast : 2 ^ places ≤ m := Nat.le_trans (Nat.pow_le_pow_right (by decide) (by omega))
      (Nat.log2_self_le (Nat.ne_of_gt hm))
    exact Nat.div_pos hleast (Nat.two_pow_pos _)

theorem fits_roundWithAccuracy (s : Sign) (m : Nat) (e : Int) (acc : Accuracy) :
    Fits (roundWithAccuracy Format.binary64 s m e acc) := by
  unfold roundWithAccuracy
  dsimp only
  split
  · trivial
  · exact ⟨(shiftToTargetExponent_spec _ _ _).1, (shiftToTargetExponent_spec _ _ _).2.1⟩

/-- Rounding takes no number to zero that reaches the last digit of the least
double. -/
theorem above_roundWithAccuracy {m : Nat} {e : Int} (hm : 0 < m) (he : -1074 ≤ m.log2 + e)
    (acc : Accuracy) : Above (roundWithAccuracy Format.binary64 .positive m e acc) := by
  obtain ⟨-, hplace, hdigit⟩ := shiftToTargetExponent_spec m e acc
  have hfirst := hdigit hm he
  unfold roundWithAccuracy
  generalize shiftToTargetExponent Format.binary64 m e acc = first at *
  obtain ⟨em, e₁⟩ := first
  dsimp only at *
  have hround := (le_roundedMantissa em).1
  have hlast := (shiftToTargetExponent_spec em.roundedMantissa e₁ .exact).2.2 (by omega) (by omega)
  rw [dif_neg (Nat.ne_of_gt hlast)]
  exact .finite hlast

/-! ## Packing -/

/-- Digits that are too few for a normal number are put at the last place. -/
theorem pack_short {s : Sign} {m : Nat} {e : Int} {h : 0 < m} (hm : m.log2 < 52)
    (hhigh : ¬2 ^ 11 ≤ (e + 1023 + 52).toNat + 1) :
    pack Format.binary64 (.finite s m e h) =
        packComponents Format.binary64 s 0#11 (BitVec.ofNat 52 m) ∧
      (BitVec.ofNat 52 m).toNat = m :=
  ⟨(if_neg hhigh).trans (if_neg fun h => Nat.ne_of_lt hm (Nat.succ.inj h)),
    Nat.mod_eq_of_lt ((Nat.log2_lt (Nat.ne_of_gt h)).1 hm)⟩

theorem unpack_pack_short {s : Sign} {m : Nat} {e : Int} {h : 0 < m} (hm : m.log2 < 52)
    (hhigh : ¬2 ^ 11 ≤ (e + 1023 + 52).toNat + 1) :
    unpack Format.binary64 (pack Format.binary64 (.finite s m e h)) = .finite s m (-1074) h := by
  obtain ⟨hpack, hvalue⟩ := pack_short (s := s) (h := h) hm hhigh
  have hdigit : BitVec.ofNat 52 m ≠ 0#52 := fun heq => by
    have := congrArg BitVec.toNat heq
    rw [hvalue] at this
    exact Nat.ne_of_gt h this
  rw [hpack]
  unfold UnpackedFloat.unpack
  simp only [unpackMantissa_packComponents, unpackExponent_packComponents,
    unpackSign_packComponents, Sign.ofBitVec_toBitVec]
  rw [if_neg (by decide), if_pos trivial, dif_neg hdigit]
  simp only [hvalue]
  rfl

/-- Packing keeps the digits of a number, or takes the number to infinity. -/
theorem unpack_pack_cases {s : Sign} {m : Nat} {e : Int} {h : 0 < m} (hm : m.log2 ≤ 52)
    (he : -1074 ≤ e) :
    unpack Format.binary64 (pack Format.binary64 (.finite s m e h)) = .infinity s ∨
      (m.log2 = 52 ∧
        unpack Format.binary64 (pack Format.binary64 (.finite s m e h)) = .finite s m e h) ∨
      (m.log2 < 52 ∧
        unpack Format.binary64 (pack Format.binary64 (.finite s m e h)) = .finite s m (-1074) h) := by
  by_cases hbig : 2 ^ 11 ≤ (e + 1023 + 52).toNat + 1
  · left
    rw [show pack Format.binary64 (.finite s m e h) = packedInfinity Format.binary64 s from
      if_pos hbig, unpack_infinity]
  · right
    rcases Nat.eq_or_lt_of_le hm with hfull | hshort
    · exact Or.inl ⟨hfull, unpack_pack_finite hfull (by omega) hbig⟩
    · exact Or.inr ⟨hshort, unpack_pack_short hshort hbig⟩

theorem above_unpack_pack {u : UnpackedFloat} (h : Above u) (hfits : Fits u) :
    Above (unpack Format.binary64 (pack Format.binary64 u)) := by
  cases h with
  | infinity =>
    rw [show pack Format.binary64 (.infinity .positive) = packedInfinity Format.binary64 .positive
      from rfl, unpack_infinity]
    exact .infinity
  | @finite m e hm =>
    rcases unpack_pack_cases (s := .positive) (h := hm) hfits.1 hfits.2 with h | ⟨-, h⟩ | ⟨-, h⟩
    · rw [h]
      exact .infinity
    · rw [h]
      exact .finite hm
    · rw [h]
      exact .finite hm

theorem fits_of_canonical {u : UnpackedFloat} (h : Canonical u) : Fits u := by
  cases u with
  | finite s m e hm =>
    rcases h with ⟨hm, he, -⟩ | ⟨hm, he⟩
    · exact ⟨Nat.le_of_eq hm, he⟩
    · exact ⟨Nat.le_of_lt hm, Int.le_of_eq he.symm⟩
  | _ => trivial

theorem fits_unpack (x : Float) : Fits x.toModel.unpack := fits_of_canonical (canonical_unpack _)

/-! ## Sums -/

/-- A number that is not below zero. -/
def NotBelow (u : UnpackedFloat) : Prop := Above u ∨ ∃ s, u = .zero s

/-- The sum of two numbers above zero is rounded, but not to zero. -/
theorem above_round {m : Nat} {e : Int} (hm : 0 < m) (he : -1074 ≤ e) :
    Above (round Format.binary64 .positive m e) ∧ Fits (round Format.binary64 .positive m e) := by
  have htarget : -1074 ≤ Format.binary64.targetExponent (totalExponent m e) :=
    Int.le_max_right _ _
  unfold UnpackedFloat.round decreaseExponent
  dsimp only
  generalize Format.binary64.targetExponent (totalExponent m e) = target at htarget ⊢
  have hpos : 0 < m <<< (e - target).toNat := by
    rw [Nat.shiftLeft_eq]
    exact Nat.mul_pos hm (Nat.two_pow_pos _)
  exact ⟨above_roundWithAccuracy hpos (by omega) _, fits_roundWithAccuracy _ _ _ _⟩

theorem above_add {u v : UnpackedFloat} (hu : NotBelow u) (hv : NotBelow v) (hfits : Fits u)
    (hfits' : Fits v) (h : Above u ∨ Above v) :
    Above (UnpackedFloat.add Format.binary64 u v) ∧
      Fits (UnpackedFloat.add Format.binary64 u v) := by
  rcases hu with hu | ⟨s, rfl⟩
  · cases hu with
    | infinity =>
      rcases hv with hv | ⟨t, rfl⟩
      · cases hv <;> exact ⟨.infinity, trivial⟩
      · exact ⟨.infinity, trivial⟩
    | @finite m e hm =>
      rcases hv with hv | ⟨t, rfl⟩
      · cases hv with
        | infinity => exact ⟨.infinity, trivial⟩
        | @finite n f hn =>
          have hleast : -1074 ≤ min e f := Int.le_min.2 ⟨hfits.2, hfits'.2⟩
          simp only [UnpackedFloat.add, decreaseExponent]
          generalize hdigits : m <<< (e - min e f).toNat + n <<< (f - min e f).toNat = digits
          have hpos : 0 < digits := by
            rw [← hdigits, Nat.shiftLeft_eq]
            exact Nat.add_pos_left (Nat.mul_pos hm (Nat.two_pow_pos _)) _
          have hsum : Sign.positive.apply ((m <<< (e - min e f).toNat : Nat) : Int) +
              Sign.positive.apply ((n <<< (f - min e f).toNat : Nat) : Int) = (digits : Int) := by
            simp only [Sign.apply]
            omega
          rw [hsum]
          unfold UnpackedFloat.normalize
          rw [show compare (digits : Int) 0 = .gt from Int.compare_eq_gt.2 (by omega)]
          exact above_round hpos hleast
      · exact ⟨.finite hm, hfits⟩
  · rcases h with h | h
    · cases h
    · cases h with
      | infinity => exact ⟨.infinity, trivial⟩
      | finite hn => exact ⟨.finite hn, hfits'⟩

theorem notBelow_add {x y : Float} (hx : NotBelow x.toModel.unpack)
    (hy : NotBelow y.toModel.unpack) :
    NotBelow (x + y).toModel.unpack ∧
      (Above x.toModel.unpack ∨ Above y.toModel.unpack → Above (x + y).toModel.unpack) := by
  have habove : Above x.toModel.unpack ∨ Above y.toModel.unpack →
      Above (x + y).toModel.unpack := fun h =>
    have ⟨hsum, hfits⟩ := above_add hx hy (fits_unpack x) (fits_unpack y) h
    above_unpack_pack hsum hfits
  refine ⟨?_, habove⟩
  by_cases h : Above x.toModel.unpack ∨ Above y.toModel.unpack
  · exact Or.inl (habove h)
  · obtain ⟨s, hs⟩ := hx.resolve_left fun h' => h (Or.inl h')
    obtain ⟨t, ht⟩ := hy.resolve_left fun h' => h (Or.inr h')
    refine Or.inr ?_
    change ∃ s, unpack Format.binary64 (pack Format.binary64 (UnpackedFloat.add Format.binary64
      x.toModel.unpack y.toModel.unpack)) = .zero s
    rw [hs, ht]
    cases s <;> cases t <;> exact ⟨_, rfl⟩

theorem above_foldl {xs : List Float} (hxs : ∀ x ∈ xs, NotBelow x.toModel.unpack) {acc : Float}
    (hacc : NotBelow acc.toModel.unpack)
    (hsome : Above acc.toModel.unpack ∨ ∃ x ∈ xs, Above x.toModel.unpack) :
    Above (xs.foldl (· + ·) acc).toModel.unpack := by
  induction xs generalizing acc with
  | nil => exact hsome.resolve_right (by simp)
  | cons x xs ih =>
    obtain ⟨hsum, habove⟩ := notBelow_add hacc (hxs x (by simp))
    refine ih (fun y hy => hxs y (by simp [hy])) hsum ?_
    rcases hsome with h | ⟨y, hy, hy'⟩
    · exact Or.inl (habove (Or.inl h))
    · rcases List.mem_cons.1 hy with rfl | hy
      · exact Or.inl (habove (Or.inr hy'))
      · exact Or.inr ⟨y, hy, hy'⟩

/-! ## Comparing with zero -/

theorem unpack_zero : (Scalar.zero : Float).toModel.unpack = .zero .positive := unpack_ofNat_zero

theorem zero_lt_iff (x : Float) : Scalar.lt Scalar.zero x = true ↔ Above x.toModel.unpack := by
  rw [lt_iff, unpack_zero]
  cases x.toModel.unpack with
  | notANumber => exact ⟨nofun, nofun⟩
  | zero s => exact ⟨nofun, nofun⟩
  | infinity s =>
    cases s with
    | positive => exact ⟨fun _ => .infinity, fun _ => rfl⟩
    | negative => exact ⟨nofun, nofun⟩
  | finite s m e hm =>
    cases s with
    | positive => exact ⟨fun _ => .finite hm, fun _ => rfl⟩
    | negative => exact ⟨nofun, nofun⟩

theorem zero_le_iff (x : Float) : Scalar.le Scalar.zero x = true ↔ NotBelow x.toModel.unpack := by
  rw [le_iff, unpack_zero]
  cases x.toModel.unpack with
  | notANumber => exact ⟨nofun, nofun⟩
  | zero s => exact ⟨fun _ => Or.inr ⟨s, rfl⟩, fun _ => rfl⟩
  | infinity s =>
    cases s with
    | positive => exact ⟨fun _ => Or.inl .infinity, fun _ => rfl⟩
    | negative => exact ⟨nofun, nofun⟩
  | finite s m e hm =>
    cases s with
    | positive => exact ⟨fun _ => Or.inl (.finite hm), fun _ => rfl⟩
    | negative => exact ⟨nofun, nofun⟩

theorem zero_lt_zero : Scalar.lt Scalar.zero (Scalar.zero : Float) = false := by decide

theorem zero_le_zero : Scalar.le Scalar.zero (Scalar.zero : Float) = true := by decide

/-- What is above zero is not zero. -/
theorem eq_zero_of_above {x : Float} (h : Above x.toModel.unpack) :
    Scalar.eq x Scalar.zero = false := by
  change (UnpackedFloat.compare x.toModel.unpack (Scalar.zero : Float).toModel.unpack == some .eq) = _
  rw [unpack_zero]
  generalize x.toModel.unpack = u at h
  cases h <;> rfl

/-- Numbers that are not below zero, and one of them above it, add up to more than
zero. -/
theorem zero_lt_sum {xs : List Float} (hall : ∀ x ∈ xs, Scalar.le Scalar.zero x = true)
    (hsome : ∃ x ∈ xs, Scalar.lt Scalar.zero x = true) :
    Scalar.lt Scalar.zero (Scalar.sum xs) = true := by
  obtain ⟨x, hx, hlt⟩ := hsome
  rw [zero_lt_iff]
  refine above_foldl (fun y hy => (zero_le_iff y).1 (hall y hy)) (Or.inr ⟨.positive, unpack_zero⟩)
    (Or.inr ⟨x, hx, (zero_lt_iff x).1 hlt⟩)

/-! ## Quotients -/

/-- What is no number, or is not below zero. -/
def NotNegative (u : UnpackedFloat) : Prop := u = .notANumber ∨ NotBelow u

theorem notNegative_div {u v : UnpackedFloat} (hu : NotNegative u) (hv : Above v) :
    NotNegative (UnpackedFloat.div Format.binary64 u v) ∧
      Fits (UnpackedFloat.div Format.binary64 u v) := by
  rcases hu with rfl | hu | ⟨s, rfl⟩
  · cases hv <;> exact ⟨Or.inl rfl, trivial⟩
  · cases hu with
    | infinity =>
      cases hv with
      | infinity => exact ⟨Or.inl rfl, trivial⟩
      | finite => exact ⟨Or.inr (Or.inl .infinity), trivial⟩
    | @finite m e hm =>
      cases hv with
      | infinity => exact ⟨Or.inr (Or.inr ⟨_, rfl⟩), trivial⟩
      | @finite n f hn =>
        refine ⟨Or.inr ?_, fits_roundWithAccuracy _ _ _ _⟩
        simp only [UnpackedFloat.div]
        unfold roundWithAccuracy
        dsimp only
        split
        · exact Or.inr ⟨_, rfl⟩
        · exact Or.inl (.finite _)
  · cases hv <;> exact ⟨Or.inr (Or.inr ⟨_, rfl⟩), trivial⟩

/-- A quotient of numbers that are not below zero is not below zero. -/
theorem notNegative_quotient {x y : Float} (hx : NotNegative x.toModel.unpack)
    (hy : Above y.toModel.unpack) : NotNegative (x / y).toModel.unpack := by
  obtain ⟨hdiv, hfits⟩ := notNegative_div hx hy
  rw [div_eq]
  change NotNegative (unpack Format.binary64 (pack Format.binary64 _))
  generalize UnpackedFloat.div Format.binary64 _ _ = u at hdiv hfits ⊢
  rcases hdiv with rfl | h | ⟨s, rfl⟩
  · exact Or.inl rfl
  · exact Or.inr (Or.inl (above_unpack_pack h hfits))
  · cases s <;> exact Or.inr (Or.inr ⟨_, rfl⟩)

theorem not_lt_zero {x : Float} (h : NotNegative x.toModel.unpack) :
    Scalar.lt x Scalar.zero = false := by
  rw [← Bool.not_eq_true, lt_iff, unpack_zero]
  generalize x.toModel.unpack = u at h
  rcases h with rfl | h | ⟨s, rfl⟩
  · exact nofun
  · cases h <;> exact nofun
  · exact nofun

end SymbolInduction.Doubles
