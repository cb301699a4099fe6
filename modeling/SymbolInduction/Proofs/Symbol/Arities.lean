-- Programs of another arity. Nobody asks how many arguments a candidate takes: one
-- that takes too many or too few has no output for any example, and so it is not
-- likely at all. That keeps it from a symbol that is likely, and lets it take the
-- place of a program with a longer text while the symbol is not.
import SymbolInduction.Proofs.Symbol.Failures

namespace SymbolInduction.Symbol

/-- A program of another arity is right nowhere where no failure was observed. -/
theorem misses_of_arity_ne {arity : Nat} {settings : Settings Float} {s : Symbol Float}
    (h : s.Learned arity settings) (hreal : ∀ e ∈ s.examples, e.output ≠ .missing) {p : Program}
    (hp : p.arity ≠ arity) : ∀ e ∈ s.examples, Explanation.output (some p) e.inputs ≠ e.output := by
  intro e he houtput
  have hgives : p.output e.inputs ≠ .missing := fun hmissing =>
    hreal e he (houtput.symm.trans hmissing)
  exact hp ((Program.length_of_output hgives).symm.trans (h.inputs e he))

/-- A likely symbol has no program of another arity, and a candidate of another
arity is taken exactly on a tie: by a symbol that is not likely at all, and for a
shorter text. -/
theorem another_arity_is_taken_on_a_tie (idx arity : Nat) (settings : Settings Float)
    (changes : List Change) :
    let s := (fresh idx arity settings).after changes
    (∀ e ∈ s.examples, e.output ≠ .missing) →
      (∀ p, s.explanation = some p → Scalar.lt Scalar.zero s.likelihood = true → p.arity = arity) ∧
        ∀ q : Program, q.arity ≠ arity →
          ((s.consider q).value.1 = true ↔ Scalar.eq Scalar.zero s.likelihood = true ∧
            q.text.utf8ByteSize < s.explanation.text.utf8ByteSize) := by
  intro s hreal
  have h : s.Learned arity settings := learned_after idx arity settings changes
  refine ⟨fun p hp hlikely => ?_, fun q hq => ?_⟩
  · by_contra harity
    have hmisses := misses_of_arity_ne h hreal harity
    rw [← hp] at hmisses
    have hzero : s.likelihood = Scalar.zero :=
      h.scored.rated.trans (likelihood_of_misses _ hmisses)
    rw [hzero, Doubles.zero_lt_zero] at hlikely
    exact Bool.false_ne_true hlikely
  · have hoffer : (s.offer q).1.likelihood = Scalar.zero := by
      rw [offer_eq]
      exact likelihood_of_misses _ (misses_of_arity_ne h hreal hq)
    have hnotBelow : Scalar.lt s.likelihood Scalar.zero = false := by
      rw [h.scored.rated]
      exact Doubles.not_lt_zero (Score.notNegative_likelihood _ _ _)
    rw [taken_iff h.learnable, hoffer]
    unfold prefers
    rw [hnotBelow, Bool.false_or, Bool.and_eq_true, decide_eq_true_iff]

set_option maxRecDepth 1000 in
/-- The identity was taken for its example, and the constant is not. -/
theorem a_likely_identity_stays :
    let s := (fresh 0 1 (Settings.default : Settings Float)).after
      [.observe [⟨[.int 1], .int 1⟩], .consider (.ofTerm (.lam (.var 0)))]
    (∀ e ∈ s.examples, e.output ≠ .missing) ∧ (∃ p, s.explanation = some p ∧ p.arity = 1) ∧
      (s.consider (.ofTerm (.literal 3))).value.1 = false := by
  have hstate := another_arity_is_taken_on_a_tie 0 1 (Settings.default : Settings Float)
    [.observe [⟨[.int 1], .int 1⟩], .consider (.ofTerm (.lam (.var 0)))]
  dsimp only at hstate ⊢
  generalize hs : (fresh 0 1 (Settings.default : Settings Float)).after
    [.observe [⟨[.int 1], .int 1⟩], .consider (.ofTerm (.lam (.var 0)))] = s at hstate ⊢
  have hreal : ∀ e ∈ s.examples, e.output ≠ .missing := by
    rw [← hs]
    decide
  have hlikely : Scalar.lt Scalar.zero s.likelihood = true := by
    rw [← hs]
    decide
  obtain ⟨p, hp⟩ : ∃ p, s.explanation = some p := by
    rw [← Option.isSome_iff_exists, ← hs]
    decide
  obtain ⟨harity, htaken⟩ := hstate hreal
  refine ⟨hreal, ⟨p, hp, harity p hp hlikely⟩, ?_⟩
  rw [← Bool.not_eq_true, htaken _ (by decide)]
  rintro ⟨hzero, -⟩
  rw [← hs] at hzero
  exact absurd hzero (by decide)

/-- A new symbol that takes one argument takes a constant for its program. -/
theorem a_constant_is_taken_for_a_function :
    let s := (fresh 0 1 (Settings.default : Settings Float)).after
      [.consider (.ofTerm (.literal 3))]
    s.arity = 1 ∧ s.explanation.map Program.arity = some 0 := by
  decide

end SymbolInduction.Symbol
