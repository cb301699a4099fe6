-- The laws of ranking, where candidates are weighed in doubles: they stand in
-- one line, and the best of those that are kept stands as high as any.
import Mathlib.Algebra.Ring.Nat
import Mathlib.Algebra.Ring.Int.Defs
import SymbolInduction.Frontier

namespace SymbolInduction

/-! ## Standings -/

theorem placeOfDouble_gt (x : Float) : -2 ^ 64 < placeOfDouble x := by
  unfold placeOfDouble
  have hlt := Nat.mod_lt x.toBits.toNat (y := 2 ^ 63) (by decide)
  dsimp only
  split <;> omega

namespace Candidate

/-- Where a candidate stands: at the place of its posterior, and below all
places where the posterior is void. -/
def standing (c : Candidate Float) : Int :=
  if c.isVoid = true then -2 ^ 64 else placeOfDouble c.logPosterior

theorem rank_eq (a b : Candidate Float) : a.rank b = compare a.standing b.standing := by
  have ha := placeOfDouble_gt a.logPosterior
  have hb := placeOfDouble_gt b.logPosterior
  unfold rank standing
  cases a.isVoid with
  | true =>
    cases b.isVoid with
    | true => exact (Int.compare_eq_eq.2 rfl).symm
    | false => exact (Int.compare_eq_lt.2 hb).symm
  | false =>
    cases b.isVoid with
    | true => exact (Int.compare_eq_gt.2 ha).symm
    | false => rfl

theorem rank_isLE_iff (a b : Candidate Float) :
    (a.rank b).isLE = true ↔ a.standing ≤ b.standing := by
  rw [rank_eq, Int.isLE_compare]

theorem rank_isGT_iff (a b : Candidate Float) :
    (a.rank b).isGT = true ↔ b.standing < a.standing := by
  rw [rank_eq, Ordering.isGT_iff_eq_gt, Int.compare_eq_gt]

end Candidate

namespace Frontier

/-! ## The best candidate -/

theorem better_spec (a b : Candidate Float) :
    (better a b = a ∨ better a b = b) ∧
      a.standing ≤ (better a b).standing ∧ b.standing ≤ (better a b).standing := by
  unfold better
  split
  · rename_i h
    have := (Candidate.rank_isGT_iff a b).1 h
    exact ⟨Or.inl rfl, Int.le_refl _, by omega⟩
  · rename_i h
    rw [Candidate.rank_isGT_iff] at h
    exact ⟨Or.inr rfl, by omega, Int.le_refl _⟩

theorem foldl_better_spec (c : Candidate Float) (cs : List (Candidate Float)) :
    cs.foldl better c ∈ c :: cs ∧ ∀ d ∈ c :: cs, d.standing ≤ (cs.foldl better c).standing := by
  induction cs generalizing c with
  | nil => simp
  | cons b cs ih =>
    obtain ⟨hmem, hmost⟩ := ih (better c b)
    obtain ⟨hone, hc, hb⟩ := better_spec c b
    have hnext := hmost (better c b) (by simp)
    rw [List.foldl_cons]
    constructor
    · rcases List.mem_cons.1 hmem with hmem | hmem
      · rw [hmem]
        rcases hone with h | h <;> simp [h]
      · simp [hmem]
    · intro d hd
      rcases List.mem_cons.1 hd with rfl | hd
      · omega
      · rcases List.mem_cons.1 hd with rfl | hd
        · omega
        · exact hmost d (by simp [hd])

/-- The best of the candidates that are kept is a candidate, and none stands
higher, not even one that is not kept. -/
theorem best?_keepBest (f : Frontier Float) {n : Nat} (hn : 0 < n) {c : Candidate Float}
    (hc : c ∈ f.candidates) :
    ∃ b, (f.keepBest n).best? = some b ∧ b ∈ f.candidates ∧
      ∀ d ∈ f.candidates, d.standing ≤ b.standing := by
  let le : Candidate Float → Candidate Float → Bool := fun a b => (b.rank a).isLE
  have hmem : ∀ d, d ∈ f.candidates.mergeSort le ↔ d ∈ f.candidates := fun d => List.mem_mergeSort
  have hsorted : (f.candidates.mergeSort le).Pairwise (fun a b => le a b = true) := by
    refine List.pairwise_mergeSort ?_ ?_ _
    · intro a b d hab hbd
      simp only [le, Candidate.rank_isLE_iff] at *
      omega
    · intro a b
      simp only [le, Bool.or_eq_true, Candidate.rank_isLE_iff]
      omega
  have hkept : (f.keepBest n).candidates = (f.candidates.mergeSort le).take n := rfl
  cases hl : f.candidates.mergeSort le with
  | nil =>
    rw [← hmem, hl] at hc
    cases hc
  | cons first rest =>
    obtain ⟨n, rfl⟩ : ∃ k, n = k + 1 := ⟨n - 1, by omega⟩
    rw [hl, List.take_succ_cons] at hkept
    obtain ⟨hin, hmost⟩ := foldl_better_spec first (rest.take n)
    refine ⟨(rest.take n).foldl better first, ?_, ?_, ?_⟩
    · unfold best?
      rw [hkept]
    · rw [← hmem, hl]
      rcases List.mem_cons.1 hin with h | h
      · simp [h]
      · exact List.mem_cons_of_mem _ (List.mem_of_mem_take h)
    · intro d hd
      have hfirst : d.standing ≤ first.standing := by
        rw [← hmem, hl] at hd
        rw [hl] at hsorted
        rcases List.mem_cons.1 hd with rfl | hd
        · exact Int.le_refl _
        · exact (Candidate.rank_isLE_iff _ _).1 ((List.pairwise_cons.1 hsorted).1 d hd)
      have := hmost first (by simp)
      omega

theorem mem_of_best? {f : Frontier Float} {b : Candidate Float} (h : f.best? = some b) :
    b ∈ f.candidates := by
  unfold best? at h
  cases hl : f.candidates with
  | nil =>
    rw [hl] at h
    cases h
  | cons c cs =>
    rw [hl] at h
    cases h
    exact (foldl_better_spec c cs).1

theorem mem_of_mem_keepBest {α : Type} [Scalar α] {f : Frontier α} {n : Nat} {c : Candidate α}
    (h : c ∈ (f.keepBest n).candidates) : c ∈ f.candidates :=
  List.mem_mergeSort.1 (List.mem_of_mem_take h)

end Frontier

end SymbolInduction
