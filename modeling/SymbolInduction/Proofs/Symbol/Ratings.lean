-- How a symbol is rated. After observations its likelihood is the score of its
-- program on its examples, so one that is not solved is less likely than one,
-- and a candidate that reproduces all examples takes its place and solves it.
import SymbolInduction.Symbol.Tasks
import SymbolInduction.Proofs.Symbol.Scores

namespace SymbolInduction.Symbol

/-! ## Observations -/

section

variable {α : Type} [Scalar α]

/-- The likelihood is the score of the program on the examples. -/
def Rated (s : Symbol α) : Prop :=
  s.likelihood = (Score.ofMarks s.explanation.arity (some s.settings.arityPenalty)
    (s.explanation.marks s.examples)).likelihood

theorem Scored.rated {s : Symbol α} (h : s.Scored) : s.Rated := by
  have hscore := congrArg Score.likelihood h
  rw [Explanation.value_score] at hscore
  exact hscore.symm

theorem rated_rescore (s : Symbol α) : s.rescore.value.Rated := (scored_rescore s).rated

/-- After a round of observations a symbol that is learned is rated, and it is
settled whether it is solved. -/
theorem rated_observe {s : Symbol α} (h : s.learnable = true) (batch : List Example) :
    (s.observe batch).value.Rated ∧ (s.observe batch).value.learnable = true ∧
      ((s.observe batch).value.solved = false → (s.observe batch).value.explanation = none ∨
        Scalar.le (s.observe batch).value.settings.solvedThreshold (s.observe batch).value.likelihood =
          false) := by
  have hrated := rated_rescore (s.withEvidence (ofArity s.arity batch))
  have hlearnable : (s.withEvidence (ofArity s.arity batch)).rescore.value.learnable = true := h
  rw [observe_of_learnable h, audit_eq]
  generalize (s.withEvidence (ofArity s.arity batch)).rescore.value = r at hrated hlearnable ⊢
  refine ⟨hrated, hlearnable, ?_⟩
  simp only [settle, hlearnable, Bool.not_true, Bool.false_eq_true, if_false]
  intro hsolved
  cases he : r.explanation with
  | none => exact Or.inl rfl
  | some p =>
    rw [he] at hsolved
    simp only [Option.isNone_some, Bool.false_eq_true, if_false, Bool.or_eq_false_iff] at hsolved
    exact Or.inr hsolved.2

end

/-! ## Candidates -/

/-- A symbol that is not solved is less likely than one, where no example has a
mark for its output. -/
theorem lt_one_of_unsolved {s : Symbol Float} (hrated : s.Rated)
    (hthreshold : s.settings.solvedThreshold = Scalar.ratio 19 20)
    (hunsolved : s.explanation = none ∨
      Scalar.le s.settings.solvedThreshold s.likelihood = false)
    (houtputs : ∀ e ∈ s.examples, e.output ≠ .empty ∧ e.output ≠ .missing)
    (hlen : s.examples.length < 2 ^ 64) : Scalar.lt s.likelihood Scalar.one = true := by
  have hmarks : (s.explanation.marks s.examples).length < 2 ^ 64 := by
    unfold Explanation.marks
    rwa [List.length_map]
  have hle : Scalar.le (Scalar.ratio 19 20) s.likelihood = false := by
    rcases hunsolved with hnone | hle
    · rw [hrated]
      refine Score.not_le_likelihood ?_ hmarks
      -- without a program the output is a mark
      intro m hm
      rw [hnone] at hm
      obtain ⟨e, he, rfl⟩ := List.mem_map.1 hm
      obtain ⟨hempty, hmissing⟩ := houtputs e he
      unfold Explanation.output
      cases e.inputs with
      | nil => exact beq_eq_false_iff_ne.2 hempty.symm
      | cons x xs => exact beq_eq_false_iff_ne.2 hmissing.symm
    · rwa [← hthreshold]
  rw [hrated] at hle ⊢
  exact Score.likelihood_lt_one hmarks hle

/-- A candidate that reproduces all examples, ten for each of its arguments,
takes the place of the program of a symbol that is less likely than one, and
solves the symbol. -/
theorem consider_of_all {s : Symbol Float} {p : Program} (hlearnable : s.learnable = true)
    (hlikely : Scalar.lt s.likelihood Scalar.one = true)
    (hthreshold : s.settings.solvedThreshold = Scalar.ratio 19 20)
    (hpenalty : s.settings.arityPenalty = Scalar.ofNat 10) (hne : s.examples ≠ [])
    (hall : ∀ e ∈ s.examples, p.output e.inputs = e.output) (hlen : s.examples.length < 2 ^ 64)
    (harity : 10 * p.arity < 2 ^ 53) (hle : 10 * p.arity ≤ s.examples.length) :
    (s.consider p).value.2.solved = true ∧ (s.consider p).value.2.likelihood = Scalar.one ∧
      ∃ q, (s.consider p).value.2.explanation = some q ∧ q.body = p.body := by
  have hmarks : (Explanation.marks (some p) s.examples).length = s.examples.length := List.length_map _
  have hscore : (s.offer p).1.likelihood = Scalar.one := by
    unfold offer
    rw [Explanation.value_score, hpenalty]
    refine Score.likelihood_of_all ?_ ?_ (hmarks ▸ hlen) harity (hmarks ▸ hle)
    · rw [← List.length_pos_iff, hmarks, List.length_pos_iff]
      exact hne
    · intro m hm
      obtain ⟨e, he, rfl⟩ := List.mem_map.1 hm
      exact beq_iff_eq.2 (hall e he)
  have hprefers : s.prefers (s.offer p).1.likelihood p = true := by
    unfold prefers
    rw [hscore, hlikely]
    rfl
  obtain ⟨q, hq, hbody⟩ := Option.map_eq_some_iff.1 (Eq.symm (s.same_withCandidate p))
  rcases s.consider_cases p with ⟨hpassed | hpassed, -⟩ | ⟨-, -, htaken⟩
  · cases hlearnable.symm.trans hpassed
  · cases hprefers.symm.trans hpassed
  · rw [htaken]
    refine ⟨?_, hscore, q, hq, hbody⟩
    have hsolved : Scalar.le (Scalar.ratio 19 20) (Scalar.one : Float) = true := by decide
    have hsome : (s.offer p).2 = some q := hq
    simp [withCandidate, settle, hlearnable, hthreshold, hscore, hsolved, hsome]

end SymbolInduction.Symbol
