-- Likelihoods in exact numbers. The share of the examples that a program reproduces,
-- divided by the discount for its arguments, is the number of its hits over the number
-- of examples, or over the penalty for its arguments where that is more. So a hit never
-- makes a program less likely and a miss never more, on either side of the number of
-- examples at which the penalty ends; and how many hits solve a symbol can be counted.
import SymbolInduction.Proofs.Scalar.Exact
import SymbolInduction.Proofs.Symbol.Scores
import SymbolInduction.Proofs.Symbol.Solved

namespace SymbolInduction

/-! ## Shares -/

/-- One more hit adds as much to the hits as to what they are divided by, at least. -/
theorem share_le_of_hit {hits n : Nat} (h : hits ≤ n) (x : ℝ) :
    (hits : ℝ) / max (n : ℝ) x ≤ ((hits + 1 : Nat) : ℝ) / max ((n + 1 : Nat) : ℝ) x := by
  rcases Nat.eq_zero_or_pos n with rfl | hn
  · rw [Nat.le_zero.1 h, Nat.cast_zero, zero_div]
    exact div_nonneg (Nat.cast_nonneg _) (le_max_of_le_left (Nat.cast_nonneg _))
  · have hn : (0 : ℝ) < n := Nat.cast_pos.2 hn
    have hpos : 0 < max (n : ℝ) x := lt_max_of_lt_left hn
    have hpos' : 0 < max ((n + 1 : Nat) : ℝ) x := lt_max_of_lt_left (by positivity)
    have hgrow : max ((n + 1 : Nat) : ℝ) x ≤ max (n : ℝ) x + 1 := by
      refine max_le ?_ ?_
      · rw [Nat.cast_succ]
        exact add_le_add_left (le_max_left _ _) 1
      · exact (le_max_right _ _).trans (le_add_of_nonneg_right zero_le_one)
    have hhits : (hits : ℝ) ≤ max (n : ℝ) x := le_max_of_le_left (Nat.cast_le.2 h)
    rw [div_le_div_iff₀ hpos hpos']
    calc (hits : ℝ) * max ((n + 1 : Nat) : ℝ) x
        ≤ hits * (max (n : ℝ) x + 1) := mul_le_mul_of_nonneg_left hgrow (Nat.cast_nonneg _)
      _ = hits * max (n : ℝ) x + hits := by ring
      _ ≤ hits * max (n : ℝ) x + max (n : ℝ) x := by linarith
      _ = ((hits + 1 : Nat) : ℝ) * max (n : ℝ) x := by push_cast; ring

/-- One more miss adds nothing to the hits. -/
theorem share_le_of_miss {hits n : Nat} (h : hits ≤ n) (x : ℝ) :
    (hits : ℝ) / max ((n + 1 : Nat) : ℝ) x ≤ (hits : ℝ) / max (n : ℝ) x := by
  rcases Nat.eq_zero_or_pos n with rfl | hn
  · rw [Nat.le_zero.1 h, Nat.cast_zero, zero_div, zero_div]
  · have hpos : 0 < max (n : ℝ) x := lt_max_of_lt_left (Nat.cast_pos.2 hn)
    refine div_le_div_of_nonneg_left (Nat.cast_nonneg _) hpos (max_le_max_right x ?_)
    exact Nat.cast_le.2 (Nat.le_succ n)

namespace Score

/-- The likelihood from the marks of an explanation. -/
theorem likelihood_real (arity : Nat) (penalty : ℝ) (marks : List Bool) :
    (ofMarks arity (some penalty) marks).likelihood =
      marks.count true / max (marks.length : ℝ) (penalty * arity) := by
  by_cases hne : marks = []
  · subst hne
    simp [ofMarks]
  · have hpos : (0 : ℝ) < marks.length := Nat.cast_pos.2 (List.length_pos_iff.2 hne)
    have hdiscount : (marks.length : ℝ) * max (penalty * arity / marks.length) 1 =
        max (marks.length : ℝ) (penalty * arity) := by
      rw [mul_max_of_nonneg _ _ hpos.le, mul_one, mul_div_cancel₀ _ hpos.ne', max_comm]
    unfold ofMarks discount
    rw [if_neg hne, Scalar.one_real]
    change (marks.count true : ℝ) / marks.length / max (penalty * arity / marks.length) 1 = _
    rw [div_div, hdiscount]

end Score

namespace Explanation

/-- How many examples an explanation reproduces exactly. -/
def hits (e : Explanation) (examples : List Example) : Nat :=
  examples.countP fun ex => e.output ex.inputs == ex.output

/-- The likelihood of an explanation on some examples. -/
noncomputable def likelihood (e : Explanation) (penalty : ℝ) (examples : List Example) : ℝ :=
  (e.score examples (some penalty)).value.1.likelihood

/-- What the hits are divided by: the number of examples, or the penalty for the
arguments where that is more. -/
noncomputable def scale (e : Explanation) (penalty : ℝ) (examples : List Example) : ℝ :=
  max (examples.length : ℝ) (penalty * e.arity)

variable (e : Explanation) (penalty : ℝ)

theorem count_marks (examples : List Example) : (e.marks examples).count true = e.hits examples := by
  unfold marks hits List.count
  rw [List.countP_map]
  exact List.countP_congr fun ex _ => by simp

theorem hits_le_length (examples : List Example) : e.hits examples ≤ examples.length :=
  List.countP_le_length

theorem likelihood_eq (examples : List Example) :
    e.likelihood penalty examples = e.hits examples / e.scale penalty examples := by
  unfold likelihood scale
  rw [value_score, Score.likelihood_real, count_marks]
  unfold marks
  rw [List.length_map]

/-- What is tried on nothing is not likely at all. -/
theorem likelihood_nil : e.likelihood penalty [] = 0 := by
  rw [likelihood_eq, hits, List.countP_nil, Nat.cast_zero, zero_div]

theorem scale_nonneg (examples : List Example) : 0 ≤ e.scale penalty examples :=
  le_max_of_le_left (Nat.cast_nonneg _)

theorem scale_pos {examples : List Example} (h : examples ≠ []) : 0 < e.scale penalty examples :=
  lt_max_of_lt_left (Nat.cast_pos.2 (List.length_pos_iff.2 h))

theorem likelihood_mem_unit (examples : List Example) :
    0 ≤ e.likelihood penalty examples ∧ e.likelihood penalty examples ≤ 1 := by
  rw [likelihood_eq]
  have hhits : (e.hits examples : ℝ) ≤ e.scale penalty examples :=
    le_max_of_le_left (Nat.cast_le.2 (e.hits_le_length examples))
  exact ⟨div_nonneg (Nat.cast_nonneg _) (e.scale_nonneg penalty examples),
    div_le_one_of_le₀ hhits (e.scale_nonneg penalty examples)⟩

/-! ## One more example -/

theorem hits_concat_of_hit {ex : Example} (h : e.output ex.inputs = ex.output)
    (examples : List Example) : e.hits (examples ++ [ex]) = e.hits examples + 1 := by
  simp [hits, List.countP_append, h]

theorem hits_concat_of_miss {ex : Example} (h : e.output ex.inputs ≠ ex.output)
    (examples : List Example) : e.hits (examples ++ [ex]) = e.hits examples := by
  simp [hits, List.countP_append, h]

theorem scale_concat (examples : List Example) (ex : Example) :
    e.scale penalty (examples ++ [ex]) =
      max ((examples.length + 1 : Nat) : ℝ) (penalty * e.arity) := by
  unfold scale
  rw [List.length_append, List.length_singleton]

theorem likelihood_le_of_hit {ex : Example} (h : e.output ex.inputs = ex.output)
    (examples : List Example) :
    e.likelihood penalty examples ≤ e.likelihood penalty (examples ++ [ex]) := by
  rw [likelihood_eq, likelihood_eq, e.hits_concat_of_hit h, scale_concat]
  exact share_le_of_hit (e.hits_le_length examples) _

theorem likelihood_le_of_miss {ex : Example} (h : e.output ex.inputs ≠ ex.output)
    (examples : List Example) :
    e.likelihood penalty (examples ++ [ex]) ≤ e.likelihood penalty examples := by
  rw [likelihood_eq, likelihood_eq, e.hits_concat_of_miss h, scale_concat]
  exact share_le_of_miss (e.hits_le_length examples) _

theorem likelihood_of_perm {examples other : List Example} (h : examples.Perm other) :
    e.likelihood penalty examples = e.likelihood penalty other := by
  have hhits : e.hits examples = e.hits other := h.countP_eq _
  rw [likelihood_eq, likelihood_eq, hhits]
  unfold scale
  rw [h.length_eq]

/-! ## How many hits are enough -/

theorem le_likelihood_iff {examples : List Example} (h : examples ≠ []) (t : ℝ) :
    Scalar.le t (e.likelihood penalty examples) = true ↔
      t * e.scale penalty examples ≤ e.hits examples := by
  rw [Scalar.le_real, likelihood_eq, le_div_iff₀ (e.scale_pos penalty h)]

/-- Fewer hits than the threshold's part of the penalty are not enough, however many
examples there are. -/
theorem not_le_likelihood {t : ℝ} (ht : 0 < t) {examples : List Example}
    (h : (e.hits examples : ℝ) < t * (penalty * e.arity)) :
    Scalar.le t (e.likelihood penalty examples) = false := by
  rw [← Bool.not_eq_true]
  intro hle
  by_cases hne : examples = []
  · rw [hne, Scalar.le_real, likelihood_nil] at hle
    exact absurd ht (not_lt.2 hle)
  · have hscale : t * (penalty * e.arity) ≤ t * e.scale penalty examples :=
      mul_le_mul_of_nonneg_left (le_max_right _ _) ht.le
    exact absurd (hscale.trans ((e.le_likelihood_iff penalty hne t).1 hle)) (not_le.2 h)

end Explanation

namespace Symbol

/-- The program of the symbol has as many hits as the threshold takes of what they
are divided by. -/
def HasHits (s : Symbol ℝ) : Prop :=
  s.explanation ≠ none ∧ s.examples ≠ [] ∧
    s.settings.solvedThreshold * s.explanation.scale s.settings.arityPenalty s.examples ≤
      s.explanation.hits s.examples

theorem earns_iff {s : Symbol ℝ} (h : s.Scored) (ht : 0 < s.settings.solvedThreshold) :
    s.Earns ↔ s.HasHits := by
  have hlikelihood : s.explanation.likelihood s.settings.arityPenalty s.examples = s.likelihood :=
    congrArg Score.likelihood h
  unfold Earns HasHits
  rw [← hlikelihood]
  refine and_congr_right fun _ => ?_
  by_cases hne : s.examples = []
  · refine iff_of_false (fun hle => ?_) fun hhits => hhits.1 hne
    rw [hne, Scalar.le_real, Explanation.likelihood_nil] at hle
    exact absurd ht (not_lt.2 hle)
  · rw [Explanation.le_likelihood_iff _ _ hne]
    exact (and_iff_right hne).symm

/-- A symbol that is not solved is solved by evidence or by a program exactly if
its program has enough hits then. -/
theorem solved_change_iff_hasHits {idx arity : Nat} {settings : Settings ℝ}
    (ht : 0 < settings.solvedThreshold) (changes : List Change) (c : Change)
    (hunsolved : ((fresh idx arity settings).after changes).solved = false) :
    (((fresh idx arity settings).after changes).change c).solved = true ↔
      c.IsRating ∧ (((fresh idx arity settings).after changes).change c).HasHits := by
  have hfresh : (fresh idx arity settings).Standing := standing_fresh idx arity settings none false
  have hlearned := learned_change (learned_after idx arity settings changes) c
  rw [solved_change_iff (standing_after hfresh changes) c, hunsolved,
    earns_iff hlearned.scored (by rwa [hlearned.settings])]
  exact or_iff_right fun h => Bool.false_ne_true h.2

/-- On examples, the likelihood of a program is the number of its hits over the number
of examples, or over the penalty for its arguments where that is more. So it lies
between zero and one; a hit never lowers it, a miss never raises it, and their order is
nothing to it. It reaches a threshold where the hits reach the threshold's part of what
they are divided by, and with fewer hits than the threshold's part of the penalty it
never does. A symbol that is learned, and is not solved, is solved by evidence or by a
program exactly if its program has as many hits then. -/
theorem evidence_moves_a_likelihood_the_right_way :
    (∀ (e : Explanation) (penalty : ℝ) (examples : List Example),
      (examples ≠ [] → e.likelihood penalty examples =
        e.hits examples / max (examples.length : ℝ) (penalty * e.arity)) ∧
      (0 ≤ e.likelihood penalty examples ∧ e.likelihood penalty examples ≤ 1) ∧
      (∀ ex : Example, e.output ex.inputs = ex.output →
        e.likelihood penalty examples ≤ e.likelihood penalty (examples ++ [ex])) ∧
      (∀ ex : Example, e.output ex.inputs ≠ ex.output →
        e.likelihood penalty (examples ++ [ex]) ≤ e.likelihood penalty examples) ∧
      (∀ other, examples.Perm other →
        e.likelihood penalty examples = e.likelihood penalty other) ∧
      (examples ≠ [] → ∀ t, Scalar.le t (e.likelihood penalty examples) = true ↔
        t * max (examples.length : ℝ) (penalty * e.arity) ≤ e.hits examples) ∧
      ∀ t, 0 < t → (e.hits examples : ℝ) < t * (penalty * e.arity) →
        Scalar.le t (e.likelihood penalty examples) = false) ∧
    ∀ (idx arity : Nat) (settings : Settings ℝ), 0 < settings.solvedThreshold →
      ∀ (changes : List Change) (c : Change),
        let s := (fresh idx arity settings).after changes
        s.solved = false →
          ((s.change c).solved = true ↔ c.IsRating ∧ (s.change c).HasHits) := by
  refine ⟨fun e penalty examples => ?_, fun idx arity settings ht changes c => ?_⟩
  · exact ⟨fun _ => e.likelihood_eq penalty examples, e.likelihood_mem_unit penalty examples,
      fun _ h => e.likelihood_le_of_hit penalty h examples,
      fun _ h => e.likelihood_le_of_miss penalty h examples,
      fun _ h => e.likelihood_of_perm penalty h,
      fun h t => e.le_likelihood_iff penalty h t,
      fun _ ht h => e.not_le_likelihood penalty ht h⟩
  · exact solved_change_iff_hasHits ht changes c

/-- Numbers and their successors, one after another. -/
def successors (n : Nat) : List Example :=
  (List.range n).map fun k => ⟨[.int (Int64.ofNat k)], .int (Int64.ofNat (k + 1))⟩

/-- The program that gives the successor. -/
def successor : Explanation := some (.ofTerm (.lam (.app (.prim .incr) (.var 0))))

/-- Nine hits and no miss are too few for a program of one argument, though each of
them helps; and without examples no program solves a symbol. -/
theorem nine_hits_are_too_few :
    successors 9 ≠ [] ∧ successor.likelihood 10 (successors 9) = 9 / 10 ∧
      Scalar.le (19 / 20 : ℝ) (successor.likelihood 10 (successors 9)) = false ∧
      successor.likelihood 10 (successors 9) ≤ successor.likelihood 10 (successors 10) ∧
      ∀ p ∈ successor, ((fresh 0 1 (Settings.default : Settings ℝ)).change (.consider p)).solved ≠
        true := by
  have hne : successors 9 ≠ [] := by decide
  have hhits : successor.hits (successors 9) = 9 := by decide
  have harity : successor.arity = 1 := rfl
  have hlength : (successors 9).length = 9 := rfl
  obtain ⟨hscore, hsolved⟩ := evidence_moves_a_likelihood_the_right_way
  obtain ⟨heq, -, hhit, -, -, -, hfew⟩ := hscore successor 10 (successors 9)
  refine ⟨hne, ?_, hfew _ (by norm_num) ?_, ?_, fun p hp h => ?_⟩
  · rw [heq hne, hhits, harity, hlength]
    norm_num
  · rw [hhits, harity]
    norm_num
  · exact hhit ⟨[.int 9], .int 10⟩ (by decide)
  · have hthreshold : 0 < (Settings.default : Settings ℝ).solvedThreshold := by
      simp [Settings.default, Scalar.ratio, Scalar.ofNat]
    obtain ⟨-, -, hexamples, -⟩ :=
      (hsolved 0 1 Settings.default hthreshold [] (.consider p) rfl).1 h
    exact hexamples (examples_consider _ p)

end Symbol

end SymbolInduction
