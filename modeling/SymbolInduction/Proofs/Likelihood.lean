-- How likely programs are. A likelihood is never below zero, and it is zero for a
-- program that reproduces nothing. One that reproduces an example is more likely
-- than that, unless the discount for its arguments is infinite: however large a
-- finite discount is, the share is not rounded to nothing.
import SymbolInduction.Proofs.Score
import SymbolInduction.Proofs.Scalar.Order

namespace SymbolInduction.Doubles

open Float.Model Float.Model.UnpackedFloat

/-! ## Counts and discounts -/

theorem above_ofNat {n : Nat} (h : 0 < n) : Above (Float.ofNat n).toModel.unpack := by
  have hfar := (isFar_ofNat (k := 0) (n := n) h).reaches
  generalize (Float.ofNat n).toModel.unpack = u at hfar ⊢
  cases hfar with
  | infinity => exact .infinity
  | finite hm => exact .finite hm

theorem notNegative_ofNat (n : Nat) : NotNegative (Float.ofNat n).toModel.unpack := by
  rcases Nat.eq_zero_or_pos n with rfl | h
  · exact Or.inr (Or.inr ⟨_, unpack_ofNat_zero⟩)
  · exact Or.inr (Or.inl (above_ofNat h))

/-- Nothing is shared out. -/
theorem ofNat_zero_div {y : Float} (h : Above y.toModel.unpack) : Float.ofNat 0 / y = Float.ofNat 0 := by
  rw [div_eq, unpack_ofNat_zero]
  generalize y.toModel.unpack = v at h ⊢
  cases h <;> exact ofNat_zero_eq.symm

/-- A discount is one, or it is a quotient that is not below one. -/
theorem max_one_cases (x : Float) :
    Scalar.max x Scalar.one = (Scalar.one : Float) ∨
      (Scalar.max x Scalar.one = x ∧ Above x.toModel.unpack ∧
        UnpackedFloat.lt x.toModel.unpack (whole .positive 1 Nat.one_pos) = false) := by
  rw [max_eq]
  split
  · exact Or.inl rfl
  · rename_i hnumber
    rw [if_neg (by decide)]
    split
    · exact Or.inl rfl
    · rename_i hlt
      rw [lt_iff, unpack_one] at hlt
      refine Or.inr ⟨rfl, ?_, Bool.not_eq_true _ ▸ hlt⟩
      change ¬x.toModel.unpack.isNaN = true at hnumber
      generalize x.toModel.unpack = u at hnumber hlt
      cases u with
      | notANumber => exact absurd rfl hnumber
      | zero s => exact absurd rfl hlt
      | infinity s =>
        cases s with
        | positive => exact .infinity
        | negative => exact absurd rfl hlt
      | finite s m e hm =>
        cases s with
        | positive => exact .finite hm
        | negative => exact absurd rfl hlt

theorem above_max_one (x : Float) : Above (Scalar.max x Scalar.one).toModel.unpack := by
  rcases max_one_cases x with h | ⟨h, habove, -⟩
  · rw [h, unpack_one]
    exact .finite _
  · rwa [h]

/-! ## How large a quotient is -/

/-- A finite number is below `2 ^ (k + 1)`. -/
def AtMost (k : Int) : UnpackedFloat → Prop
  | .finite _ m e _ => m.log2 + e ≤ k
  | _ => True

theorem log2_le_of_le {m k : Nat} (h : m ≤ 2 ^ k) : m.log2 ≤ k := by
  rcases Nat.eq_zero_or_pos m with rfl | hm
  · exact Nat.zero_le k
  · have := log2_mono hm h
    rwa [Nat.log2_two_pow] at this

/-- A number that is brought to its place is not larger, unless it is put at the
last digit of the least double. -/
theorem mantissa_lt (m : Nat) (e : Int) (acc : Accuracy) :
    ∃ digits : Nat, (shiftToTargetExponent Format.binary64 m e acc).1.mantissa < 2 ^ digits ∧
      digits + (shiftToTargetExponent Format.binary64 m e acc).2 ≤ max (m.log2 + e + 1) (-1074) := by
  obtain ⟨places, hplaces, hmantissa, hexponent⟩ := shiftToTargetExponent_places m e acc
  rw [hmantissa, hexponent]
  refine ⟨m.log2 + 1 - places, ?_, by omega⟩
  rw [Nat.div_lt_iff_lt_mul (Nat.two_pow_pos _), ← Nat.pow_add]
  exact Nat.lt_of_lt_of_le Nat.lt_log2_self (Nat.pow_le_pow_right (by decide) (by omega))

/-- Rounding takes a number to the next power of two at most. -/
theorem atMost_roundWithAccuracy {k : Int} {m : Nat} {e : Int} (s : Sign) (hk : -1074 ≤ k)
    (h : m.log2 + e + 1 ≤ k) (acc : Accuracy) :
    AtMost k (roundWithAccuracy Format.binary64 s m e acc) := by
  obtain ⟨digits, hdigits, hplace⟩ := mantissa_lt m e acc
  unfold roundWithAccuracy
  generalize shiftToTargetExponent Format.binary64 m e acc = first at *
  obtain ⟨em, e₁⟩ := first
  dsimp only at *
  have hround := (le_roundedMantissa em).2
  have hlog : em.roundedMantissa.log2 ≤ digits := log2_le_of_le (by omega)
  obtain ⟨digits', hdigits', hplace'⟩ := mantissa_lt em.roundedMantissa e₁ .exact
  split
  · trivial
  · rename_i hne
    have := (Nat.log2_lt hne).2 hdigits'
    change ((Nat.log2 _ : Nat) : Int) + _ ≤ k
    omega

/-- Packing takes no number further from zero, unless to infinity. -/
theorem atMost_unpack_pack {k : Int} (hk : -1022 ≤ k) {u : UnpackedFloat} (hfits : Fits u)
    (h : AtMost k u) : AtMost k (unpack Format.binary64 (pack Format.binary64 u)) := by
  cases u with
  | notANumber => trivial
  | infinity s =>
    rw [show pack Format.binary64 (.infinity s) = packedInfinity Format.binary64 s from rfl,
      unpack_infinity]
    trivial
  | zero s => cases s <;> trivial
  | finite s m e hm =>
    rcases unpack_pack_cases (s := s) (h := hm) hfits.1 hfits.2 with h' | ⟨-, h'⟩ | ⟨hshort, h'⟩
    · rw [h']
      trivial
    · rw [h']
      exact h
    · rw [h']
      change (m.log2 : Int) + (-1074) ≤ k
      omega

/-- The digits of a quotient reach as far up as those of its parts tell. -/
theorem divCore_spec {m n : Nat} (e f : Int) (hm : 0 < m) (hn : 0 < n) :
    ((divCore Format.binary64 m e n f).1.log2 : Int) + (divCore Format.binary64 m e n f).2.1 ≤
      max (m.log2 + e - (n.log2 + f)) (-1074) := by
  unfold divCore
  rw [targetExponent_quotient]
  dsimp only
  generalize hplaces : (e - f - min (e - f) (max (m.log2 + e - (n.log2 + f) - 53) (-1074))).toNat =
    places
  by_cases hnone : m <<< places / n = 0
  · rw [hnone, Nat.log2_zero]
    omega
  · have hleast : 2 ^ (m <<< places / n).log2 * 2 ^ n.log2 ≤ m <<< places :=
      calc 2 ^ (m <<< places / n).log2 * 2 ^ n.log2
          ≤ m <<< places / n * n :=
            Nat.mul_le_mul (Nat.log2_self_le hnone) (Nat.log2_self_le (Nat.ne_of_gt hn))
        _ ≤ m <<< places := Nat.div_mul_le_self _ _
    have hpos : m <<< places ≠ 0 := fun h => hnone (by rw [h, Nat.zero_div])
    rw [← Nat.pow_add, ← Nat.le_log2 hpos, log2_shiftLeft hm] at hleast
    omega

/-- A quotient by a count is smaller than the count would have it be large. -/
theorem atMost_div_count (x : Float) {n : Nat} (h : 0 < n) (hn : n < 2 ^ 64) :
    AtMost (1024 - n.log2) (x / Float.ofNat n).toModel.unpack := by
  have hlog := (Nat.log2_lt (Nat.ne_of_gt h)).2 hn
  have hx := canonical_unpack x.toModel.toBits.toBitVec
  have hcount := between_ofNat h hn
  rw [div_eq]
  change Canonical x.toModel.unpack at hx
  change AtMost _ (unpack Format.binary64 (pack Format.binary64 _))
  suffices hdiv : Fits (UnpackedFloat.div Format.binary64 x.toModel.unpack
      (Float.ofNat n).toModel.unpack) ∧
      AtMost (1024 - n.log2) (UnpackedFloat.div Format.binary64 x.toModel.unpack
        (Float.ofNat n).toModel.unpack) by
    exact atMost_unpack_pack (by omega) hdiv.1 hdiv.2
  generalize (Float.ofNat n).toModel.unpack = v at hcount ⊢
  generalize x.toModel.unpack = u at hx ⊢
  cases hcount with
  | @mk d f hd hdigits hlow hhigh =>
    cases u with
    | finite s m e hm =>
      have hmost : (m.log2 : Int) + e ≤ 1023 := by
        rcases hx with ⟨hx, -, he⟩ | ⟨hx, he⟩ <;> omega
      have hquotient := divCore_spec e f hm hd
      have hdiv : UnpackedFloat.div Format.binary64 (.finite s m e hm) (.finite .positive d f hd) =
          roundWithAccuracy Format.binary64 (s / .positive) (divCore Format.binary64 m e d f).1
            (divCore Format.binary64 m e d f).2.1 (divCore Format.binary64 m e d f).2.2 := rfl
      rw [hdiv]
      generalize divCore Format.binary64 m e d f = core at hquotient ⊢
      exact ⟨fits_roundWithAccuracy _ _ _ _,
        atMost_roundWithAccuracy _ (by omega) (by omega) _⟩
    | _ => exact ⟨trivial, trivial⟩

/-- A discount that is finite is not much more than the count would have it be. -/
theorem between_max_one {k : Int} (hk : 0 ≤ k) {x : Float} (hx : AtMost k x.toModel.unpack)
    (hfinite : (Scalar.max x Scalar.one).isFinite = true) :
    Between 0 k (Scalar.max x Scalar.one).toModel.unpack := by
  rcases max_one_cases x with h | ⟨h, habove, hlt⟩
  · rw [h, unpack_one]
    exact .mk _ (log2_digits Nat.one_pos (by decide)) (by decide)
      (by rw [show Nat.log2 1 = 0 from rfl]; omega)
  · rw [h] at hfinite ⊢
    have hcanonical := canonical_unpack x.toModel.toBits.toBitVec
    change Canonical x.toModel.unpack at hcanonical
    change x.toModel.unpack.isFinite = true at hfinite
    generalize x.toModel.unpack = u at *
    cases habove with
    | infinity => cases hfinite
    | @finite m e hm =>
      have he : -52 ≤ e := by
        by_contra hsmall
        refine absurd hlt ?_
        unfold UnpackedFloat.lt UnpackedFloat.compare whole
        simp [Int.compare_eq_lt.2 (show e < ((Nat.log2 1 : Nat) : Int) - 52 from by
          rw [show Nat.log2 1 = 0 from rfl]; omega)]
      rcases hcanonical with ⟨hlog, -, -⟩ | ⟨-, hlast⟩
      · change (m.log2 : Int) + e ≤ k at hx
        exact .mk hm hlog (by omega) (by omega)
      · omega

/-! ## How small a quotient is -/

/-- A quotient is not rounded to nothing where its parts are not too far from each
other. -/
theorem above_div {low high low' high' : Int} {u v : UnpackedFloat} (hu : Between low high u)
    (hv : Between low' high' v) (hrange : -1073 ≤ low - high') :
    Above (UnpackedFloat.div Format.binary64 u v) ∧
      Fits (UnpackedFloat.div Format.binary64 u v) := by
  cases hu with
  | @mk m e h hm hl hh =>
    cases hv with
    | @mk n f h' hn hl' hh' =>
      refine ⟨?_, fits_roundWithAccuracy _ _ _ _⟩
      obtain ⟨-, hleast, -⟩ := toNat_mantissa hm
      obtain ⟨-, -, hmost⟩ := toNat_mantissa hn
      have htarget : Format.binary64.targetExponent (totalExponent m e - totalExponent n f) =
          max (e - f - 53) (-1074) := by
        rw [targetExponent_quotient, hm, hn]
        omega
      simp only [UnpackedFloat.div]
      unfold divCore
      rw [htarget]
      dsimp only
      generalize hplaces : (e - f - min (e - f) (max (e - f - 53) (-1074))).toNat = places
      have hdigits : 2 ^ (places - 1) ≤ m <<< places / n := by
        rw [Nat.le_div_iff_mul_le h', Nat.shiftLeft_eq]
        calc 2 ^ (places - 1) * n ≤ 2 ^ (places - 1) * 2 ^ 53 :=
              Nat.mul_le_mul_left _ (Nat.le_of_lt hmost)
          _ = 2 ^ 52 * 2 ^ places := by
              rw [← Nat.pow_add, ← Nat.pow_add]
              congr 1
              omega
          _ ≤ m * 2 ^ places := Nat.mul_le_mul_right _ hleast
      have hpos : 0 < m <<< places / n := Nat.lt_of_lt_of_le (Nat.two_pow_pos _) hdigits
      have hlog := (Nat.le_log2 (Nat.ne_of_gt hpos)).2 hdigits
      exact above_roundWithAccuracy hpos (by omega) _

/-- A share is not rounded to nothing by a finite discount. -/
theorem above_discounted {c n : Nat} (hc : 0 < c) (hcn : c ≤ n) (hn : n < 2 ^ 64) {x : Float}
    (hfinite : (Scalar.max (x / Float.ofNat n) Scalar.one).isFinite = true) :
    Above (Float.ofNat c / Float.ofNat n /
      Scalar.max (x / Float.ofNat n) Scalar.one).toModel.unpack := by
  have hpos : 0 < n := Nat.lt_of_lt_of_le hc hcn
  have hlog := (Nat.log2_lt (Nat.ne_of_gt hpos)).2 hn
  have hdiscount := between_max_one (by omega) (atMost_div_count x hpos hn) hfinite
  obtain ⟨habove, hfits⟩ := above_div (between_share hc hcn hn) hdiscount (by omega)
  rw [div_eq]
  exact above_unpack_pack habove hfits

/-- An infinite discount leaves nothing of a share. -/
theorem share_div_infinite {c n : Nat} (hcn : c ≤ n) (hpos : 0 < n) (hn : n < 2 ^ 64) {y : Float}
    (hy : Above y.toModel.unpack) (hinfinite : y.isFinite = false) :
    Float.ofNat c / Float.ofNat n / y = Float.ofNat 0 := by
  rcases Nat.eq_zero_or_pos c with rfl | hc
  · rw [ofNat_zero_div (above_ofNat hpos), ofNat_zero_div hy]
  · have hshare := between_share hc hcn hn
    change y.toModel.unpack.isFinite = false at hinfinite
    rw [div_eq]
    generalize (Float.ofNat c / Float.ofNat n).toModel.unpack = u at hshare ⊢
    generalize y.toModel.unpack = v at hy hinfinite ⊢
    cases hy with
    | finite => cases hinfinite
    | infinity =>
      cases hshare with
      | mk => exact ofNat_zero_eq.symm

end SymbolInduction.Doubles

namespace SymbolInduction.Score

open Doubles

/-! ## Likelihoods -/

variable {arity : Nat} {penalty : Float} {marks : List Bool}

theorem notNegative_likelihood (arity : Nat) (penalty : Float) (marks : List Bool) :
    NotNegative (ofMarks arity (some penalty) marks).likelihood.toModel.unpack := by
  by_cases hne : marks = []
  · subst hne
    exact Or.inr (Or.inr ⟨_, unpack_zero⟩)
  · have hcount := above_ofNat (List.length_pos_iff.2 hne)
    rw [likelihood_ofMarks arity penalty hne]
    exact notNegative_quotient (notNegative_quotient (notNegative_ofNat _) hcount) (above_max_one _)

/-- What reproduces nothing is not likely at all. -/
theorem likelihood_of_none (hnone : ∀ m ∈ marks, m = false) :
    (ofMarks arity (some penalty) marks).likelihood = Scalar.zero := by
  by_cases hne : marks = []
  · subst hne
    rfl
  · have hcount : marks.count true = 0 := by
      rw [List.count_eq_zero]
      exact fun hmem => absurd (hnone true hmem) (by decide)
    rw [likelihood_ofMarks arity penalty hne, hcount]
    change Float.ofNat 0 / Float.ofNat marks.length / discount penalty arity marks.length = _
    rw [ofNat_zero_div (above_ofNat (List.length_pos_iff.2 hne)), discount,
      ofNat_zero_div (above_max_one _)]
    rfl

/-- What reproduces something is likely, where the discount is finite. -/
theorem zero_lt_likelihood (hsome : true ∈ marks) (hlen : marks.length < 2 ^ 64)
    (hfinite : (discount penalty arity marks.length).isFinite = true) :
    Scalar.lt Scalar.zero (ofMarks arity (some penalty) marks).likelihood = true := by
  rw [likelihood_ofMarks arity penalty (List.ne_nil_of_mem hsome), zero_lt_iff]
  exact above_discounted (List.count_pos_iff.2 hsome) List.count_le_length hlen hfinite

theorem likelihood_of_infinite (hne : marks ≠ []) (hlen : marks.length < 2 ^ 64)
    (hinfinite : (discount penalty arity marks.length).isFinite = false) :
    (ofMarks arity (some penalty) marks).likelihood = Scalar.zero := by
  rw [likelihood_ofMarks arity penalty hne]
  exact share_div_infinite List.count_le_length (List.length_pos_iff.2 hne) hlen (above_max_one _)
    hinfinite

/-- A likelihood is zero, without a sign, or above zero. -/
theorem fromZero_likelihood (arity : Nat) (penalty : Float) (hlen : marks.length < 2 ^ 64) :
    FromZero (ofMarks arity (some penalty) marks).likelihood := by
  by_cases hsome : true ∈ marks
  · cases hfinite : (discount penalty arity marks.length).isFinite with
    | true => exact Or.inr ((zero_lt_iff _).1 (zero_lt_likelihood hsome hlen hfinite))
    | false => exact Or.inl (likelihood_of_infinite (List.ne_nil_of_mem hsome) hlen hfinite)
  · refine Or.inl (likelihood_of_none fun m hm => ?_)
    cases m with
    | true => exact absurd hm hsome
    | false => rfl

end SymbolInduction.Score
