-- Histories of a symbol that is learned: observations, candidates, decisions
-- on whether it is solved, and forgetting, in any order. Through all of them
-- the symbol stays one that is learned, with the settings it began with.
import SymbolInduction.Proofs.Symbol.Steps

namespace SymbolInduction

/-- An entry of a history with one more at its end is that last one, or one of
the history. -/
theorem concat_eq_append_cons {β : Type} {history before since : List β} {last entry : β}
    (h : history ++ [last] = before ++ entry :: since) :
    (before = history ∧ entry = last ∧ since = []) ∨
      ∃ since', since = since' ++ [last] ∧ history = before ++ entry :: since' := by
  rcases List.eq_nil_or_concat' since with rfl | ⟨since', last', rfl⟩
  · obtain ⟨rfl, rfl⟩ := List.append_singleton_inj.1 h
    exact Or.inl ⟨rfl, rfl, rfl⟩
  · rw [← List.cons_append, ← List.append_assoc] at h
    obtain ⟨rfl, rfl⟩ := List.append_singleton_inj.1 h
    exact Or.inr ⟨since', rfl, rfl⟩

namespace Symbol

/-- One thing that happens to a symbol that is learned. -/
inductive Change where
  | observe (batch : List Example)
  | consider (candidate : Program)
  | settle
  | clear

variable {α : Type} [Scalar α]

/-- The symbol after one change. -/
def change (s : Symbol α) : Change → Symbol α
  | .observe batch => (s.observe batch).value
  | .consider p => (s.consider p).value.2
  | .settle => s.settle
  | .clear => s.clear

/-- The symbol after several changes, first one first. -/
def after (s : Symbol α) (changes : List Change) : Symbol α := changes.foldl change s

/-- What one change keeps is kept by all of them together. -/
theorem after_of_change {P : Symbol α → Prop} (hchange : ∀ s c, P s → P (s.change c))
    {s : Symbol α} (hs : P s) (changes : List Change) : P (s.after changes) := by
  induction changes generalizing s with
  | nil => exact hs
  | cons c changes ih => exact ih (hchange s c hs)

theorem follows_change (s : Symbol α) (c : Change) : Follows s (s.change c) := by
  cases c with
  | observe batch => exact s.follows_observe batch
  | consider p => exact s.follows_consider p
  | settle => exact s.follows_settle
  | clear => exact s.follows_clear

/-- What is known of the program of a domain is only looked at. -/
theorem audit_eq (s : Symbol α) (batch : List Example) :
    (s.audit batch).value = { s with groundTruth := (s.audit batch).value.groundTruth } := by
  unfold audit
  split <;> rfl

/-- A symbol that is learned scores its program anew in each round. -/
theorem observe_of_learnable {s : Symbol α} (h : s.learnable = true) (batch : List Example) :
    (s.observe batch).value =
      ((s.withEvidence (ofArity s.arity batch)).rescore.value.settle.audit
        (ofArity s.arity batch)).value := by
  unfold observe
  dsimp only
  rw [if_pos (by exact h)]
  rfl

theorem learnable_observe {s : Symbol α} (h : s.learnable = true) (batch : List Example) :
    (s.observe batch).value.learnable = true := by
  rw [observe_of_learnable h, audit_eq]
  exact h

theorem learnable_consider (s : Symbol α) (p : Program) :
    (s.consider p).value.2.learnable = s.learnable := by
  rcases s.consider_cases p with ⟨-, h⟩ | ⟨-, -, h⟩
  · rw [h]
  · rw [h]
    rfl

theorem same_observe {s : Symbol α} (h : s.learnable = true) (batch : List Example) :
    Explanation.Same s.explanation (s.observe batch).value.explanation := by
  rw [observe_of_learnable h, audit_eq]
  exact Explanation.same_score _ _ (some s.settings.arityPenalty)

/-- A symbol that is offered a program keeps its own, or is learned and takes it. -/
theorem same_consider (s : Symbol α) (p : Program) :
    Explanation.Same s.explanation (s.consider p).value.2.explanation ∨
      (s.learnable = true ∧ Explanation.Same (some p) (s.consider p).value.2.explanation) := by
  rcases s.consider_cases p with ⟨-, h⟩ | ⟨hlearnable, -, h⟩
  · rw [h]
    exact Or.inl rfl
  · rw [h]
    exact Or.inr ⟨hlearnable, s.same_withCandidate p⟩

theorem learnable_change {s : Symbol α} (h : s.learnable = true) (c : Change) :
    (s.change c).learnable = true := by
  cases c with
  | observe batch => exact learnable_observe h batch
  | consider p => exact (s.learnable_consider p).trans h
  | settle => exact h
  | clear => exact h

end Symbol

end SymbolInduction
