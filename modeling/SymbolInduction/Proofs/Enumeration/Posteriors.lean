-- What a search makes of hits and costs, in doubles: a candidate that misses no
-- example stands above every one that misses some, and among those that miss
-- none the cheaper one stands higher, as long as no cost is above a hundred.
import SymbolInduction.Enumeration.Search
import SymbolInduction.Proofs.Frontier
import SymbolInduction.Proofs.Scalar.WholeDoubles

namespace SymbolInduction.Enumeration

open Doubles Float.Model.UnpackedFloat

/-- The posterior of a candidate with a given cost that misses so many
examples. -/
def posterior (cost misses : Nat) : Float :=
  -Scalar.ofNat cost + -Scalar.ofNat misses * Scalar.ofNat 100

theorem logPosterior_candidate (task : Task) (s : Stored) (hits : Nat) :
    (Run.candidate task s hits : Candidate Float).logPosterior =
      posterior s.cost (task.examples.length - hits) := rfl

/-- Two misses weigh more than a hundred, whatever they are rounded to. -/
theorem isFar_posterior {cost misses : Nat} (hcost : 1 ≤ cost) (hmisses : 2 ≤ misses) :
    IsFar 7 .negative (posterior cost misses) := by
  have hprior : IsFar 0 .negative (-Float.ofNat cost) := isFar_neg (isFar_ofNat hcost)
  have hmiss : IsFar 1 .negative (-Float.ofNat misses) := isFar_neg (isFar_ofNat hmisses)
  have hhundred : IsFar 6 .positive (Float.ofNat 100) := isFar_ofNat (by decide)
  exact isFar_add hprior (isFar_mul hmiss hhundred)

theorem unpack_no_miss :
    (-Float.ofNat 0 * Float.ofNat 100).toModel.unpack = .zero .negative := by
  have hzero : -Float.ofNat 0 * Float.ofNat 100 = .ofModel (.pack (.zero .negative)) := by
    decide
  rw [hzero]
  rfl

/-- The posterior is a whole number: the cost, and a hundred for every miss. -/
theorem posterior_eq {cost misses : Nat} (hcost : 0 < cost) (hsmall : cost + 100 * misses < 2 ^ 53) :
    posterior cost misses =
      ofWhole .negative (cost + 100 * misses) (Nat.add_pos_left hcost _) := by
  have hprior : -Float.ofNat cost = ofWhole .negative cost hcost := by
    rw [ofNat_eq hcost (by omega), ofWhole_neg _ hcost (by omega)]
    rfl
  change -Float.ofNat cost + -Float.ofNat misses * Float.ofNat 100 = _
  rw [hprior]
  rcases Nat.eq_zero_or_pos misses with rfl | hmisses
  · rw [ofWhole_add_zero _ _ hcost (by omega) unpack_no_miss]
    simp only [Nat.mul_zero, Nat.add_zero]
  · have hmiss : -Float.ofNat misses * Float.ofNat 100 =
        ofWhole .negative (misses * 100) (by omega) := by
      rw [ofNat_eq hmisses (by omega), ofWhole_neg _ hmisses (by omega),
        ofNat_eq (n := 100) (by decide) (by decide), ofWhole_mul _ _ hmisses (by decide) (by omega)]
      rfl
    rw [hmiss, ofWhole_add _ hcost (by omega) (by omega)]
    simp only [Nat.mul_comm misses 100]

/-- A candidate with a miss comes before every candidate without one. -/
theorem place_of_misses {cost misses : Nat} (hpos : 0 < cost) (hcost : cost ≤ 100)
    (hmisses : 0 < misses) :
    placeOfDouble (posterior cost misses) < placeOfDouble (posterior 100 0) := by
  rw [@posterior_eq 100 0 (by decide) (by decide)]
  by_cases hsmall : cost + 100 * misses < 2 ^ 53
  · rw [posterior_eq hpos hsmall]
    exact place_ofWhole_lt (by decide) (by omega) hsmall
  · -- too many misses to count exactly, but far more than two
    have hfar := placeOfDouble_le (by decide) (@isFar_posterior cost misses hpos (by omega))
    have hlog : (100 : Nat).log2 = 6 := by decide
    obtain ⟨hlow, hhigh⟩ := digits_bounds (n := 100) (by decide) (by decide)
    have hhundred := place_ofWhole (n := 100) (by decide) (by decide)
    rw [hlog] at hlow hhigh hhundred
    change _ < placeOfDouble (ofWhole .negative 100 (by decide))
    omega

/-- Without misses, a greater cost comes first. -/
theorem place_of_cost {cost later : Nat} (hpos : 0 < cost) (hlt : cost < later) (hlater : later ≤ 100) :
    placeOfDouble (posterior later 0) < placeOfDouble (posterior cost 0) := by
  rw [posterior_eq hpos (by omega), posterior_eq (Nat.lt_trans hpos hlt) (by omega)]
  exact place_ofWhole_lt (by omega) (by omega) (by omega)

theorem logLikelihood_of_no_miss :
    Scalar.eq (-Scalar.ofNat 0 * Scalar.ofNat 100 : Float) Scalar.zero = true := by
  decide

theorem prior_le {cost later : Nat} (hpos : 0 < cost) (hle : cost ≤ later) (hlater : later ≤ 100) :
    Scalar.le (-Scalar.ofNat later : Float) (-Scalar.ofNat cost) = true := by
  have hprior : ∀ n : Nat, (hn : 0 < n) → n ≤ 100 → -Float.ofNat n = ofWhole .negative n hn := by
    intro n hn hmost
    rw [ofNat_eq hn (by omega), ofWhole_neg _ hn (by omega)]
    rfl
  change Scalar.le (-Float.ofNat later) (-Float.ofNat cost) = true
  rw [hprior later (by omega) hlater, hprior cost hpos (by omega)]
  exact ofWhole_le hpos hle (by omega)

theorem posterior_is_number {cost : Nat} (hpos : 0 < cost) (hcost : cost ≤ 100) :
    Scalar.eq (posterior cost 0) (posterior cost 0) = true := by
  rw [posterior_eq hpos (by omega)]
  exact ofWhole_eq _ _ (by omega)

theorem standing_of_no_miss (task : Task) {s : Stored} {hits : Nat} (hcost : s.cost ≤ 100)
    (hpos : 0 < s.cost) (hhits : task.examples.length - hits = 0) :
    (Run.candidate task s hits).standing = placeOfDouble (posterior s.cost 0) := by
  have hpost := logPosterior_candidate task s hits
  rw [hhits] at hpost
  have hnumber := posterior_is_number hpos hcost
  unfold Candidate.standing
  rw [if_neg]
  · rw [hpost]
  · unfold Candidate.isVoid
    rw [hpost, hnumber]
    simp

theorem standing_le (c : Candidate Float) : c.standing ≤ placeOfDouble c.logPosterior := by
  have := placeOfDouble_gt c.logPosterior
  unfold Candidate.standing
  split <;> omega

/-- What stands as high as a candidate without misses misses nothing itself,
and costs no more. -/
theorem of_standing_le (task : Task) {s u : Stored} {hits hits' : Nat} (hspos : 0 < s.cost)
    (hs : s.cost ≤ 100) (hupos : 0 < u.cost) (hu : u.cost ≤ 100)
    (hhits : task.examples.length - hits = 0)
    (hle : (Run.candidate task s hits).standing ≤ (Run.candidate task u hits').standing) :
    task.examples.length - hits' = 0 ∧ u.cost ≤ s.cost := by
  have hplace := standing_le (Run.candidate task u hits')
  rw [standing_of_no_miss task hs hspos hhits] at hle
  rw [logPosterior_candidate] at hplace
  have hworst : placeOfDouble (posterior 100 0) ≤ placeOfDouble (posterior s.cost 0) := by
    rcases Nat.eq_or_lt_of_le hs with h | h
    · exact Int.le_of_eq (by rw [h])
    · exact Int.le_of_lt (place_of_cost hspos h (Nat.le_refl 100))
  have hnone : task.examples.length - hits' = 0 := by
    rcases Nat.eq_zero_or_pos (task.examples.length - hits') with h | h
    · exact h
    · have := place_of_misses hupos hu h
      omega
  refine ⟨hnone, ?_⟩
  rw [hnone] at hplace
  rcases Nat.lt_or_ge s.cost u.cost with h | h
  · have := place_of_cost hspos h hu
    omega
  · exact h

end SymbolInduction.Enumeration
