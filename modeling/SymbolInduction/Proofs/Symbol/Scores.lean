-- The score of a symbol. Whatever happens to a symbol that is learned, its
-- likelihood and its marks are the score of the program it has on the examples
-- it has: observations bring new examples and a new score, a candidate that is
-- taken brings its own score, and one that is not taken changes nothing.
import SymbolInduction.Proofs.Symbol.Histories

namespace SymbolInduction.Symbol

variable {α : Type} [Scalar α]

/-- The likelihood and the marks are the score of the program on the examples. -/
def Scored (s : Symbol α) : Prop :=
  (s.explanation.score s.examples (some s.settings.arityPenalty)).value.1 =
    { likelihood := s.likelihood, correct := s.correct }

/-- A score does not depend on what the program remembers. -/
theorem score_eq_of_same {e e' : Explanation} (h : Explanation.Same e e') (examples : List Example)
    (penalty : Option α) :
    (e.score examples penalty).value.1 = (e'.score examples penalty).value.1 := by
  rw [Explanation.value_score, Explanation.value_score, h.arity_eq, h.marks_eq]

theorem scored_rescore (s : Symbol α) : s.rescore.value.Scored :=
  (score_eq_of_same (Explanation.same_score s.explanation s.examples
    (some s.settings.arityPenalty)) s.examples (some s.settings.arityPenalty)).symm

theorem scored_observe {s : Symbol α} (h : s.learnable = true) (batch : List Example) :
    (s.observe batch).value.Scored := by
  rw [observe_of_learnable h, audit_eq]
  exact scored_rescore _

theorem scored_consider {s : Symbol α} (h : s.Scored) (p : Program) :
    (s.consider p).value.2.Scored := by
  rcases s.consider_cases p with ⟨-, hsame⟩ | ⟨-, -, htaken⟩
  · rw [hsame]
    exact h
  · rw [htaken]
    -- the candidate brings the score it was offered with
    exact (score_eq_of_same (s.same_withCandidate p) s.examples (some s.settings.arityPenalty)).symm

theorem scored_clear (s : Symbol α) : s.clear.Scored := rfl

theorem scored_change {s : Symbol α} (hlearnable : s.learnable = true) (h : s.Scored) (c : Change) :
    (s.change c).Scored := by
  cases c with
  | observe batch => exact scored_observe hlearnable batch
  | consider p => exact scored_consider h p
  | settle => exact h
  | clear => exact scored_clear s

/-- There is one mark for each example, in their order. -/
theorem Scored.marks_eq {s : Symbol α} (h : s.Scored) {marks : List Bool}
    (hmarks : s.correct = some marks) : marks = s.explanation.marks s.examples := by
  have hcorrect := congrArg Score.correct h
  rw [Explanation.value_score, hmarks] at hcorrect
  unfold Score.ofMarks at hcorrect
  split at hcorrect
  · cases hcorrect
  · exact (Option.some.inj hcorrect).symm

/-- In each state of a symbol that is learned, the likelihood and the marks are
the score of the program of that state on the examples of that state. Where
there are marks, there is one for each example, and it says whether the program
gives the output of that example. -/
theorem score_and_program_agree (idx arity : Nat) (settings : Settings α) (changes : List Change) :
    let s := (fresh idx arity settings).after changes
    (s.explanation.score s.examples (some settings.arityPenalty)).value.1 =
        { likelihood := s.likelihood, correct := s.correct } ∧
      ∀ marks ∈ s.correct,
        List.Forall₂ (fun m e => m = (s.explanation.output e.inputs == e.output)) marks s.examples := by
  have hstate := after_of_change
    (P := fun s : Symbol α => s.learnable = true ∧ s.settings = settings ∧ s.Scored)
    (fun s c ⟨hlearnable, hsettings, hscored⟩ => ⟨learnable_change hlearnable c,
      (s.follows_change c).settings.trans hsettings, scored_change hlearnable hscored c⟩)
    (s := fresh idx arity settings) ⟨rfl, rfl, rfl⟩ changes
  obtain ⟨-, hsettings, hscored⟩ := hstate
  intro s
  refine ⟨hsettings ▸ hscored, fun marks hmarks => ?_⟩
  rw [hscored.marks_eq hmarks]
  exact List.forall₂_map_left_iff.2 (List.forall₂_same.2 fun e _ => rfl)

/-! ## After any history -/

/-- What is true of a symbol that is learned, from the arity and the settings it
began with, whatever has happened to it. -/
structure Learned (n : Nat) (given : Settings α) (s : Symbol α) : Prop where
  learnable : s.learnable = true
  arity : s.arity = n
  settings : s.settings = given
  fits : s.Fits
  scored : s.Scored
  inputs : ∀ e ∈ s.examples, e.inputs.length = n

theorem examples_consider (s : Symbol α) (p : Program) :
    (s.consider p).value.2.examples = s.examples := by
  rcases s.consider_cases p with ⟨-, h⟩ | ⟨-, -, h⟩
  · rw [h]
  · rw [h]
    rfl

theorem learned_change {arity : Nat} {settings : Settings α} {s : Symbol α}
    (h : s.Learned arity settings) (c : Change) : (s.change c).Learned arity settings where
  learnable := learnable_change h.learnable c
  arity := (s.follows_change c).arity.trans h.arity
  settings := (s.follows_change c).settings.trans h.settings
  fits := (s.follows_change c).fits h.fits
  scored := scored_change h.learnable h.scored c
  inputs := by
    cases c with
    | observe batch => exact fun e he => (length_inputs_observe h.fits batch e he).trans h.arity
    | consider p =>
      intro e he
      exact h.inputs e (s.examples_consider p ▸ he)
    | settle => exact h.inputs
    | clear => exact fun e he => absurd he List.not_mem_nil

theorem learned_fresh (idx arity : Nat) (settings : Settings α) :
    (fresh idx arity settings).Learned arity settings where
  learnable := rfl
  arity := rfl
  settings := rfl
  fits _ he := absurd he List.not_mem_nil
  scored := rfl
  inputs _ he := absurd he List.not_mem_nil

theorem learned_after (idx arity : Nat) (settings : Settings α) (changes : List Change) :
    ((fresh idx arity settings).after changes).Learned arity settings :=
  after_of_change (P := Learned arity settings) (fun _ c h => learned_change h c)
    (learned_fresh idx arity settings) changes

end SymbolInduction.Symbol
