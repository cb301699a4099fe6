-- Shares of counts in doubles. A count divided by itself is one, and divided by
-- a larger count at most one, however both are rounded; and a share that is
-- discounted is a number, whatever the discount.
import SymbolInduction.Score
import SymbolInduction.Proofs.Scalar.WholeDoubles

namespace SymbolInduction.Doubles

open Float.Model Float.Model.UnpackedFloat

/-! ## Quotients -/

/-- A positive number from `2 ^ low` on and below `2 ^ (high + 1)`, with as many
digits as a double holds. -/
inductive Between (low high : Int) : UnpackedFloat → Prop
  | mk {m : Nat} {e : Int} (h : 0 < m) (hm : m.log2 = 52) (hlow : low ≤ e + 52)
      (hhigh : e + 52 ≤ high) : Between low high (.finite .positive m e h)

theorem unpack_pack_between {low high : Int} (hlow : -1022 ≤ low) (hhigh : high ≤ 1023)
    {u : UnpackedFloat} (h : Between low high u) :
    unpack Format.binary64 (pack Format.binary64 u) = u := by
  cases h with
  | mk h hm hl hh => exact unpack_pack_finite hm (by omega) (by omega)

/-- The digits of a quotient are as many as those of a double, or one more. -/
theorem log2_quotient {m n : Nat} (hm : m.log2 = 52) (hn : n.log2 = 52) :
    ((m <<< 53) / n).log2 = if m < n then 52 else 53 := by
  obtain ⟨-, hlow, hhigh⟩ := toNat_mantissa hm
  obtain ⟨-, hlow', hhigh'⟩ := toNat_mantissa hn
  have hpos : 0 < n := by omega
  rw [Nat.shiftLeft_eq]
  split
  · have hleast : 2 ^ 52 ≤ m * 2 ^ 53 / n := (Nat.le_div_iff_mul_le hpos).2 (by omega)
    have hmost : m * 2 ^ 53 / n < 2 ^ 53 := (Nat.div_lt_iff_lt_mul hpos).2 (by omega)
    exact (Nat.log2_eq_iff (by omega)).2 ⟨hleast, hmost⟩
  · have hleast : 2 ^ 53 ≤ m * 2 ^ 53 / n := (Nat.le_div_iff_mul_le hpos).2 (by omega)
    have hmost : m * 2 ^ 53 / n < 2 ^ 54 := (Nat.div_lt_iff_lt_mul hpos).2 (by omega)
    exact (Nat.log2_eq_iff (by omega)).2 ⟨hleast, hmost⟩

/-- The exponent for a quotient, which is worked out to one digit more. -/
theorem targetExponent_quotient (m n : Nat) (e f : Int) :
    Format.binary64.targetExponent (totalExponent m e - totalExponent n f) =
      max (m.log2 + e - (n.log2 + f) - 53) (-1074) := by
  simp only [Format.targetExponent, totalExponent, Format.mantissaBits, Format.minExponent]
  omega

theorem divCore_eq {m n : Nat} {e f : Int} (hm : m.log2 = 52) (hn : n.log2 = 52)
    (hrange : -1000 ≤ e - f) :
    divCore Format.binary64 m e n f =
      ((m <<< 53) / n, e - f - 53, accuracyOfFraction ((m <<< 53) % n) n) := by
  have htarget : Format.binary64.targetExponent (totalExponent m e - totalExponent n f) =
      e - f - 53 := by
    rw [targetExponent_quotient, hm, hn]
    omega
  unfold divCore
  rw [htarget]
  dsimp only
  rw [show min (e - f) (e - f - 53) = e - f - 53 by omega,
    show (e - f - (e - f - 53)).toNat = 53 by omega]

/-- A quotient stands where the exponents put it, or one place further down, and
may be rounded up to the next power of two. -/
theorem div_spec {m n : Nat} {e f : Int} (h : 0 < m) (h' : 0 < n) (hm : m.log2 = 52)
    (hn : n.log2 = 52) (hrange : -1000 ≤ e - f) :
    ∃ (q : Nat) (g : Int) (hq : 0 < q),
      UnpackedFloat.div Format.binary64 (.finite .positive m e h) (.finite .positive n f h') =
        .finite .positive q g hq ∧ q.log2 = 52 ∧
      (g + 52 = (if m < n then e - f - 1 else e - f) ∨
        (g + 52 = (if m < n then e - f else e - f + 1) ∧ q = 2 ^ 52)) := by
  have hlog := log2_quotient hm hn
  have hround := roundWithAccuracy_spec (m := m <<< 53 / n) (e := e - f - 53)
    (.positive / .positive) (by rw [hlog]; split <;> omega) (by rw [hlog]; split <;> omega)
    (accuracyOfFraction ((m <<< 53) % n) n)
  obtain ⟨q, g, hq, heq, hlogq, hg⟩ := hround
  refine ⟨q, g, hq, ?_, hlogq, ?_⟩
  · simp only [UnpackedFloat.div]
    rw [divCore_eq hm hn hrange]
    dsimp only
    rw [heq]
    rfl
  · rw [hlog] at hg
    split at hg <;> omega

/-- A number divided by itself is one. -/
theorem div_self {m : Nat} {e : Int} (h : 0 < m) (hm : m.log2 = 52) :
    UnpackedFloat.div Format.binary64 (.finite .positive m e h) (.finite .positive m e h) =
      whole .positive 1 Nat.one_pos := by
  have hquotient : (m <<< 53) / m = 1 * 2 ^ 53 := by
    rw [Nat.shiftLeft_eq, Nat.mul_div_cancel_left _ h, Nat.one_mul]
  have hrest : (m <<< 53) % m = 0 := by rw [Nat.shiftLeft_eq, Nat.mul_mod_right]
  simp only [UnpackedFloat.div]
  rw [divCore_eq hm hm (by omega), hquotient, hrest]
  have hexponent : e - e - 53 = -((53 : Nat) : Int) := by omega
  rw [hexponent]
  exact roundWithAccuracy_whole .positive Nat.one_pos (by decide) (by decide)


/-! ## Counts -/

/-- A count that fits in a word is rounded to its own power of two, or to the
next one. -/
theorem between_ofNat {n : Nat} (h : 0 < n) (hn : n < 2 ^ 64) :
    Between n.log2 (n.log2 + 1) (Float.ofNat n).toModel.unpack := by
  by_cases hsmall : n < 2 ^ 53
  · rw [ofNat_eq h hsmall, unpack_ofWhole _ h hsmall]
    exact .mk _ (log2_digits h hsmall) (by omega) (by omega)
  · have hlog : 53 ≤ n.log2 := (Nat.le_log2 (by omega)).2 (by omega)
    have hlog' : n.log2 < 64 := (Nat.log2_lt (by omega)).2 hn
    have hshift := log2_shiftLeft h 53
    obtain ⟨m, e, hm, heq, hdigits, he⟩ := roundWithAccuracy_spec (m := n <<< 53) (e := -53)
      .positive (by omega) (by omega) .exact
    have hcount : Float.ofNat n = .ofModel (.pack (.finite .positive m e hm)) := by
      change Float.ofScientific n false 0 = _
      unfold Float.ofScientific
      rw [dif_neg fun h => hsmall h.1]
      change Float.ofModel (.pack (UnpackedFloat.ofScientific Format.binary64 n 0)) = _
      rw [ofScientific_eq h, heq]
    have hbetween : Between n.log2 (n.log2 + 1) (.finite .positive m e hm) :=
      .mk hm hdigits (by omega) (by omega)
    have hunpack := unpack_pack_between (by omega) (by omega) hbetween
    rw [hcount]
    change Between _ _ (unpack Format.binary64 (pack Format.binary64 _))
    rw [hunpack]
    exact hbetween

/-! ## Numbers -/

/-- The exponent of a finite number is not the one that stands for what is no
number. -/
theorem isNaN_unpack_packComponents {s : Sign} {b : BitVec 11} {digits : BitVec 52}
    (hb : b.toNat < 2047) :
    (unpack Format.binary64 (packComponents Format.binary64 s b digits)).isNaN = false := by
  have hne : b ≠ -1#_ := by
    rintro rfl
    exact absurd hb (by decide)
  unfold UnpackedFloat.unpack
  simp only [unpackExponent_packComponents]
  rw [if_neg hne]
  split
  · split <;> rfl
  · rfl

theorem isNaN_unpack_pack {u : UnpackedFloat} (h : u.isNaN = false) :
    (unpack Format.binary64 (pack Format.binary64 u)).isNaN = false := by
  cases u with
  | notANumber => cases h
  | infinity s =>
    rw [show pack Format.binary64 (.infinity s) = packedInfinity Format.binary64 s from rfl,
      unpack_infinity]
    rfl
  | zero s => cases s <;> rfl
  | finite s m e hm =>
    by_cases hbig : 2 ^ 11 ≤ (e + 1023 + 52).toNat + 1
    · rw [show pack Format.binary64 (.finite s m e hm) = packedInfinity Format.binary64 s from
        if_pos hbig, unpack_infinity]
      rfl
    · by_cases hlog : m.log2 = 52
      · rw [pack_finite hlog hbig]
        exact isNaN_unpack_packComponents (by rw [BitVec.toNat_ofNat]; omega)
      · have hshort : ¬m.log2 + 1 = Format.binary64.mantissaBits := fun h =>
          hlog (Nat.succ.inj h)
        have hpack : pack Format.binary64 (.finite s m e hm) =
            packComponents Format.binary64 s 0#_ (BitVec.ofNat _ m) :=
          (if_neg hbig).trans (if_neg hshort)
        rw [hpack]
        exact isNaN_unpack_packComponents (by decide)

theorem unpack_one : (Scalar.one : Float).toModel.unpack = whole .positive 1 Nat.one_pos := by
  change (Float.ofNat 1).toModel.unpack = _
  rw [ofNat_eq Nat.one_pos (by decide), unpack_ofWhole _ _ (by decide)]

theorem unpack_threshold :
    (Scalar.ratio 19 20 : Float).toModel.unpack =
      .finite .positive 8556839292003942 (-53) (by decide) := by
  have hbits : (Scalar.ratio 19 20 : Float) = Float.ofBits 0x3FEE666666666666 := by
    decide
  rw [hbits]
  rfl

theorem le_iff (x y : Float) :
    Scalar.le x y = true ↔ UnpackedFloat.le x.toModel.unpack y.toModel.unpack = true :=
  decide_eq_true_iff.trans decide_eq_true_iff

theorem lt_iff (x y : Float) :
    Scalar.lt x y = true ↔ UnpackedFloat.lt x.toModel.unpack y.toModel.unpack = true :=
  decide_eq_true_iff.trans decide_eq_true_iff

/-- What is not at least `19 / 20` is below one. -/
theorem lt_one_of_not_le {x : Float} (hx : x.isNaN = false)
    (h : Scalar.le (Scalar.ratio 19 20) x = false) : Scalar.lt x Scalar.one = true := by
  rw [← Bool.not_eq_true, le_iff, unpack_threshold] at h
  rw [lt_iff, unpack_one]
  change x.toModel.unpack.isNaN = false at hx
  unfold UnpackedFloat.le UnpackedFloat.lt UnpackedFloat.compare whole at *
  cases hu : x.toModel.unpack with
  | notANumber =>
    rw [hu] at hx
    cases hx
  | infinity s =>
    rw [hu] at h
    cases s with
    | positive => exact absurd rfl h
    | negative => rfl
  | zero s => rfl
  | finite s m e hm =>
    rw [hu] at h
    cases s with
    | negative => rfl
    | positive =>
      have he : e < -52 := by
        by_contra hge
        exact h (by simp [Int.compare_eq_lt.2 (show (-53 : Int) < e by omega)])
      simp [Int.compare_eq_lt.2 (show e < ((Nat.log2 1 : Nat) : Int) - 52 from he)]

/-! ## Shares -/

theorem div_eq (x y : Float) : x / y =
    .ofModel (.pack (UnpackedFloat.div Format.binary64 x.toModel.unpack y.toModel.unpack)) := rfl

theorem count_div_self {n : Nat} (h : 0 < n) (hn : n < 2 ^ 64) :
    Float.ofNat n / Float.ofNat n = Scalar.one := by
  have hcount := between_ofNat h hn
  rw [div_eq]
  generalize (Float.ofNat n).toModel.unpack = u at *
  cases hcount with
  | mk hm hlog =>
    rw [div_self hm hlog]
    exact (ofNat_eq Nat.one_pos (by decide)).symm

/-- A quotient of numbers that are not far from one is not far from one. -/
theorem between_div {low high low' high' : Int} {u v : UnpackedFloat} (hu : Between low high u)
    (hv : Between low' high' v) (hrange : -1000 ≤ low - high') :
    Between (low - high' - 1) (high - low' + 1) (UnpackedFloat.div Format.binary64 u v) := by
  cases hu with
  | @mk m e h hm hl hh =>
    cases hv with
    | @mk n f h' hn hl' hh' =>
      obtain ⟨q, g, hq, heq, hlog, hg⟩ := @div_spec m n e f h h' hm hn (by omega)
      rw [heq]
      refine .mk hq hlog ?_ ?_ <;> split at hg <;> omega

theorem isNaN_roundWithAccuracy (s : Sign) (m : Nat) (e : Int) (acc : Accuracy) :
    (roundWithAccuracy Format.binary64 s m e acc).isNaN = false := by
  unfold roundWithAccuracy
  dsimp only
  split <;> rfl

/-- What is finite, over what is not zero, is a number. -/
theorem isNaN_div {u v : UnpackedFloat} (hu : u.isNaN = false ∧ ∀ s, u ≠ .infinity s)
    (hv : v.isNaN = false ∧ ∀ s, v ≠ .zero s) :
    (UnpackedFloat.div Format.binary64 u v).isNaN = false := by
  cases u with
  | notANumber => cases hu.1
  | infinity s => exact absurd rfl (hu.2 s)
  | zero s =>
    cases v with
    | notANumber => cases hv.1
    | zero t => exact absurd rfl (hv.2 t)
    | _ => rfl
  | finite s m e hm =>
    cases v with
    | notANumber => cases hv.1
    | zero t => exact absurd rfl (hv.2 t)
    | infinity => rfl
    | finite => exact isNaN_roundWithAccuracy _ _ _ _

theorem ofNat_zero_eq : Float.ofNat 0 = .ofModel (.pack (.zero .positive)) := by decide

theorem unpack_ofNat_zero : (Float.ofNat 0).toModel.unpack = .zero .positive := by
  rw [ofNat_zero_eq]
  rfl

theorem zero_div_count {n : Nat} (h : 0 < n) (hn : n < 2 ^ 64) :
    Float.ofNat 0 / Float.ofNat n = Float.ofNat 0 := by
  have hcount := between_ofNat h hn
  rw [div_eq, unpack_ofNat_zero]
  generalize (Float.ofNat n).toModel.unpack = v at *
  cases hcount with
  | mk => exact ofNat_zero_eq.symm

theorem between_share {c n : Nat} (hc : 0 < c) (hcn : c ≤ n) (hn : n < 2 ^ 64) :
    Between (c.log2 - (n.log2 + 1) - 1) (c.log2 + 1 - n.log2 + 1)
      (Float.ofNat c / Float.ofNat n).toModel.unpack := by
  have hpos : 0 < n := Nat.lt_of_lt_of_le hc hcn
  have hlog := (Nat.log2_lt (Nat.ne_of_gt hpos)).2 hn
  have hlog' := log2_mono hc hcn
  have hshare := between_div (between_ofNat hc (by omega)) (between_ofNat hpos hn) (by omega)
  have hunpack := unpack_pack_between (by omega) (by omega) hshare
  rw [div_eq]
  change Between _ _ (unpack Format.binary64 (pack Format.binary64 _))
  rw [hunpack]
  exact hshare

/-- A share is a finite number. -/
theorem share_finite {c n : Nat} (hc : c ≤ n) (h : 0 < n) (hn : n < 2 ^ 64) :
    (Float.ofNat c / Float.ofNat n).toModel.unpack.isNaN = false ∧
      ∀ s, (Float.ofNat c / Float.ofNat n).toModel.unpack ≠ .infinity s := by
  rcases Nat.eq_zero_or_pos c with rfl | hpos
  · rw [zero_div_count h hn, unpack_ofNat_zero]
    exact ⟨rfl, by rintro s ⟨⟩⟩
  · have hshare := between_share hpos hc hn
    generalize (Float.ofNat c / Float.ofNat n).toModel.unpack = u at hshare ⊢
    cases hshare with
    | mk => exact ⟨rfl, by rintro s ⟨⟩⟩

theorem max_eq (x y : Float) : Scalar.max x y =
    if x.isNaN then y else if y.isNaN then x else if Scalar.lt x y then y else x := by
  change (if x.isNaN = true then y else if y.isNaN = true then x else if x < y then y else x) = _
  simp only [Scalar.lt, decide_eq_true_eq]

/-- What is at least one is a number, and not zero. -/
theorem max_one_spec (x : Float) :
    (Scalar.max x Scalar.one).toModel.unpack.isNaN = false ∧
      ∀ s, (Scalar.max x Scalar.one).toModel.unpack ≠ .zero s := by
  have hone : (Scalar.one : Float).toModel.unpack.isNaN = false ∧
      ∀ s, (Scalar.one : Float).toModel.unpack ≠ .zero s := by
    rw [unpack_one]
    exact ⟨rfl, by rintro s ⟨⟩⟩
  rw [max_eq]
  split
  · exact hone
  · rename_i hx
    have hnumber : x.toModel.unpack.isNaN = false := Bool.not_eq_true _ ▸ hx
    rw [if_neg (by exact Bool.not_eq_true _ ▸ hone.1)]
    split
    · exact hone
    · rename_i hlt
      refine ⟨hnumber, fun s hs => hlt ?_⟩
      rw [lt_iff, unpack_one, hs]
      rfl

theorem max_one_of_between {low : Int} (hlow : -1022 ≤ low) {u : UnpackedFloat}
    (hu : Between low (-1) u) : Scalar.max (.ofModel (.pack u)) Scalar.one = (Scalar.one : Float) := by
  have hunpack := unpack_pack_between hlow (by omega) hu
  rw [max_eq]
  split
  · rfl
  · rw [if_neg (by decide), if_pos]
    rw [lt_iff, unpack_one]
    change UnpackedFloat.lt (unpack Format.binary64 (pack Format.binary64 u)) _ = true
    rw [hunpack]
    cases hu with
    | @mk m e h hm hl hh =>
      unfold UnpackedFloat.lt UnpackedFloat.compare whole
      simp [Int.compare_eq_lt.2 (show e < ((Nat.log2 1 : Nat) : Int) - 52 by
        rw [show Nat.log2 1 = 0 from rfl]; omega)]

/-- A quotient by a larger number is below one, or rounded to one. -/
theorem div_of_lt {m n : Nat} {e f : Int} (h : 0 < m) (h' : 0 < n) (hm : m.log2 = 52)
    (hn : n.log2 = 52) (hrange : -1000 ≤ e - f) (hlt : e < f ∨ e = f ∧ m < n) :
    Between (-1001) (-1) (UnpackedFloat.div Format.binary64 (.finite .positive m e h)
        (.finite .positive n f h')) ∨
      UnpackedFloat.div Format.binary64 (.finite .positive m e h) (.finite .positive n f h') =
        whole .positive 1 Nat.one_pos := by
  obtain ⟨q, g, hq, heq, hlog, hg⟩ := div_spec h h' hm hn hrange
  rw [heq]
  by_cases hbelow : g + 52 ≤ -1
  · refine Or.inl (.mk hq hlog ?_ hbelow)
    split at hg <;> omega
  · obtain ⟨rfl, rfl⟩ : g = -52 ∧ q = 2 ^ 52 := by split at hg <;> omega
    exact Or.inr rfl

theorem max_one_of_div {u v : UnpackedFloat} {x y : Float} (hx : x.toModel.unpack = u)
    (hy : y.toModel.unpack = v) (h : Between (-1001) (-1) (UnpackedFloat.div Format.binary64 u v) ∨
      UnpackedFloat.div Format.binary64 u v = whole .positive 1 Nat.one_pos) :
    Scalar.max (x / y) Scalar.one = (Scalar.one : Float) := by
  rw [div_eq, hx, hy]
  rcases h with h | h
  · exact max_one_of_between (by decide) h
  · rw [h]
    decide

theorem max_one_of_lt {m n : Nat} (h : 0 < m) (hm : m < 2 ^ 53) (hlt : m < n) (hn : n < 2 ^ 64) :
    Scalar.max (Float.ofNat m / Float.ofNat n) Scalar.one = (Scalar.one : Float) := by
  have hpos : 0 < n := Nat.lt_trans h hlt
  have hlog := log2_le h hm
  have hunpack : (Float.ofNat m).toModel.unpack = whole .positive m h := by
    rw [ofNat_eq h hm, unpack_ofWhole _ h hm]
  by_cases hsmall : n < 2 ^ 53
  · refine max_one_of_div (v := whole .positive n hpos) hunpack ?_ ?_
    · rw [ofNat_eq hpos hsmall, unpack_ofWhole _ hpos hsmall]
    · have hlog' := log2_le hpos hsmall
      refine div_of_lt _ _ (log2_digits h hm) (log2_digits hpos hsmall) (by omega) ?_
      rcases Nat.eq_or_lt_of_le (log2_mono h (Nat.le_of_lt hlt)) with heq | hless
      · refine Or.inr ⟨by omega, ?_⟩
        rw [heq]
        exact Nat.mul_lt_mul_of_pos_right hlt (Nat.two_pow_pos _)
      · exact Or.inl (by omega)
  · have hcount := between_ofNat hpos hn
    have hlog' : 53 ≤ n.log2 := (Nat.le_log2 (Nat.ne_of_gt hpos)).2 (by omega)
    have hlog'' := (Nat.log2_lt (Nat.ne_of_gt hpos)).2 hn
    refine max_one_of_div hunpack rfl ?_
    generalize (Float.ofNat n).toModel.unpack = v at hcount ⊢
    cases hcount with
    | mk hq hdigits hl hh =>
      exact div_of_lt _ _ (log2_digits h hm) hdigits (by omega) (Or.inl (by omega))

/-- The discount is one where the arguments are not more than a tenth of the
examples. -/
theorem discount_eq_one {arity n : Nat} (h : 0 < n) (hn : n < 2 ^ 64)
    (harity : 10 * arity < 2 ^ 53) (hle : 10 * arity ≤ n) :
    Score.discount (Float.ofNat 10) arity n = Scalar.one := by
  change Scalar.max (Float.ofNat 10 * Float.ofNat arity / Float.ofNat n) Scalar.one = _
  rcases Nat.eq_zero_or_pos arity with rfl | hpos
  · have hproduct : Float.ofNat 10 * Float.ofNat 0 = Float.ofNat 0 := by decide
    rw [hproduct, zero_div_count h hn]
    decide
  · have hproduct : Float.ofNat 10 * Float.ofNat arity = Float.ofNat (10 * arity) := by
      rw [ofNat_eq (n := 10) (by decide) (by decide), ofNat_eq hpos (by omega),
        ofWhole_mul _ _ (by decide) hpos harity, ofNat_eq (by omega) harity]
      rfl
    rw [hproduct]
    rcases Nat.eq_or_lt_of_le hle with heq | hlt
    · rw [heq, count_div_self h hn]
      decide
    · exact max_one_of_lt (by omega) harity hlt hn

/-- Nothing, over what is not zero, is zero. -/
theorem zero_div_eq {v : UnpackedFloat} (hv : v.isNaN = false ∧ ∀ s, v ≠ .zero s) :
    ∃ s, UnpackedFloat.div Format.binary64 (.zero .positive) v = .zero s := by
  cases v with
  | notANumber => cases hv.1
  | zero t => exact absurd rfl (hv.2 t)
  | infinity t => exact ⟨_, rfl⟩
  | finite t => exact ⟨_, rfl⟩

theorem one_div_one : (Scalar.one : Float) / Scalar.one = Scalar.one :=
  @count_div_self 1 Nat.one_pos (by decide)

theorem isNaN_quotient {x y : Float}
    (hx : x.toModel.unpack.isNaN = false ∧ ∀ s, x.toModel.unpack ≠ .infinity s)
    (hy : y.toModel.unpack.isNaN = false ∧ ∀ s, y.toModel.unpack ≠ .zero s) :
    (x / y).isNaN = false := by
  rw [div_eq]
  exact isNaN_unpack_pack (isNaN_div hx hy)

end SymbolInduction.Doubles
