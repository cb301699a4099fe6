-- What happens to one symbol. Whatever is observed, offered, asked or
-- forgotten, a symbol keeps its number, its arity and its settings, and its
-- evidence is of lists of as many arguments as it takes.
import SymbolInduction.Symbol.Use
import SymbolInduction.Proofs.Evidence
import SymbolInduction.Proofs.Score

namespace SymbolInduction.Symbol

variable {α : Type}

/-- The evidence is of lists of as many arguments as the symbol takes. -/
def Fits (s : Symbol α) : Prop := ∀ e ∈ s.evidence.entries, e.1.length = s.arity

/-- A later state of a symbol. -/
structure Follows (s s' : Symbol α) : Prop where
  idx : s'.idx = s.idx
  arity : s'.arity = s.arity
  settings : s'.settings = s.settings
  fits : s.Fits → s'.Fits

theorem follows_self (s : Symbol α) : Follows s s := ⟨rfl, rfl, rfl, id⟩

theorem Follows.trans {s s' s'' : Symbol α} (h : Follows s s') (h' : Follows s' s'') :
    Follows s s'' :=
  ⟨h'.idx.trans h.idx, h'.arity.trans h.arity, h'.settings.trans h.settings, h'.fits ∘ h.fits⟩

theorem SameRecord.follows {s s' : Symbol α} (h : SameRecord s s') (hidx : s'.idx = s.idx) :
    Follows s s' where
  idx := hidx
  arity := h.arity
  settings := h.settings
  fits hs := by
    unfold Fits at hs ⊢
    rw [h.evidence, h.arity]
    exact hs

variable [Scalar α]

/-! ## Observations -/

theorem fits_add {ev : Evidence α} {arity : Nat} (h : ∀ e ∈ ev.entries, e.1.length = arity)
    {ex : Example} (hex : ex.arity = arity) : ∀ e ∈ (ev.add ex).entries, e.1.length = arity := by
  intro e he
  rcases Table.mem_alterIn he with heq | ⟨t, ht⟩
  · rw [heq]
    exact hex
  · exact h (e.1, t) ht

theorem fits_observe {ev : Evidence α} {arity : Nat} (h : ∀ e ∈ ev.entries, e.1.length = arity)
    (decay : α) {batch : List Example} (hbatch : ∀ ex ∈ batch, ex.arity = arity) :
    ∀ e ∈ (ev.observe decay batch).entries, e.1.length = arity := by
  have hfade : ∀ e ∈ (ev.fade decay).entries, e.1.length = arity := by
    intro e he
    obtain ⟨e', he', rfl⟩ := List.mem_map.1 he
    exact h e' he'
  unfold Evidence.observe
  generalize ev.fade decay = ev' at hfade
  induction batch generalizing ev' with
  | nil => exact hfade
  | cons ex batch ih =>
    exact ih (fun ex' hex' => hbatch ex' (by simp [hex'])) _ (fits_add hfade (hbatch ex (by simp)))

theorem follows_withEvidence (s : Symbol α) (batch : List Example) :
    Follows s (s.withEvidence (ofArity s.arity batch)) where
  idx := rfl
  arity := rfl
  settings := rfl
  fits hs := by
    refine fits_observe hs _ fun ex hex => ?_
    have := (List.mem_filter.1 hex).2
    simpa using this

theorem idx_audit (s : Symbol α) (batch : List Example) : (s.audit batch).value.idx = s.idx := by
  unfold audit
  split <;> rfl

theorem follows_observe (s : Symbol α) (batch : List Example) :
    Follows s (s.observe batch).value := by
  refine (follows_withEvidence s batch).trans ((sameRecord_observe s batch).follows ?_)
  unfold observe
  dsimp only
  split <;> exact idx_audit _ _

/-- The examples after a round have as many arguments as the symbol takes. -/
theorem length_inputs_observe {s : Symbol α} (hs : s.Fits) (batch : List Example) :
    ∀ e ∈ (s.observe batch).value.examples, e.inputs.length = s.arity := by
  have hrecord := sameRecord_observe s batch
  have hfits := (follows_withEvidence s batch).fits hs
  intro e he
  rw [hrecord.examples] at he
  obtain ⟨⟨xs, t⟩, hentry, heq⟩ := List.mem_filterMap.1 he
  obtain ⟨y, -, rfl⟩ := Option.map_eq_some_iff.1 heq
  exact hfits _ hentry

/-! ## Candidates -/

/-- The score with which a candidate is offered, and what the candidate remembers
of being scored. -/
def offer (s : Symbol α) (p : Program) : Score α × Explanation :=
  (Explanation.score (some p) s.examples (some s.settings.arityPenalty)).value

/-- The symbol with a candidate in the place of its program. -/
def withCandidate (s : Symbol α) (p : Program) : Symbol α :=
  ({ s with
    explanation := (s.offer p).2, likelihood := (s.offer p).1.likelihood
    correct := (s.offer p).1.correct } : Symbol α).settle

/-- A candidate takes the place of the program of a symbol that is learned and
prefers it; any other symbol stays as it is. -/
theorem consider_cases (s : Symbol α) (p : Program) :
    ((s.learnable = false ∨ s.prefers (s.offer p).1.likelihood p = false) ∧
        (s.consider p).value = (false, s)) ∨
      (s.learnable = true ∧ s.prefers (s.offer p).1.likelihood p = true ∧
        (s.consider p).value = (true, s.withCandidate p)) := by
  unfold consider withCandidate offer
  cases hlearnable : s.learnable with
  | false => exact Or.inl ⟨Or.inl rfl, rfl⟩
  | true =>
    rw [if_neg (by simp), Logged.value_bind]
    generalize (Explanation.score (some p) s.examples (some s.settings.arityPenalty)).value = out
    obtain ⟨score, explanation⟩ := out
    dsimp only
    cases s.prefers score.likelihood p with
    | false => exact Or.inl ⟨Or.inr rfl, rfl⟩
    | true => exact Or.inr ⟨rfl, rfl, rfl⟩

/-- A symbol that is learned takes the candidates that it prefers. -/
theorem taken_iff {s : Symbol α} (h : s.learnable = true) (p : Program) :
    (s.consider p).value.1 = true ↔ s.prefers (s.offer p).1.likelihood p = true := by
  rcases s.consider_cases p with ⟨hpassed | hpassed, heq⟩ | ⟨-, htaken, heq⟩
  · cases h.symm.trans hpassed
  · rw [heq, hpassed]
  · rw [heq, htaken]

theorem offer_eq (s : Symbol α) (p : Program) :
    (s.offer p).1 = .ofMarks p.arity (some s.settings.arityPenalty)
      (Explanation.marks (some p) s.examples) := Explanation.value_score _ _ _

/-- What a candidate remembers makes it no other program. -/
theorem same_withCandidate (s : Symbol α) (p : Program) :
    Explanation.Same (some p) (s.withCandidate p).explanation :=
  Explanation.same_score (some p) s.examples (some s.settings.arityPenalty)

/-! ## All that can happen -/

theorem sameRecord_consider (s : Symbol α) (p : Program) :
    SameRecord s (s.consider p).value.2 ∧ (s.consider p).value.2.idx = s.idx := by
  rcases s.consider_cases p with ⟨-, h⟩ | ⟨-, -, h⟩
  · rw [h]
    exact ⟨⟨rfl, rfl, rfl, rfl⟩, rfl⟩
  · rw [h]
    exact ⟨⟨rfl, rfl, rfl, rfl⟩, rfl⟩

theorem follows_consider (s : Symbol α) (p : Program) : Follows s (s.consider p).value.2 :=
  (sameRecord_consider s p).1.follows (sameRecord_consider s p).2

theorem follows_settle (s : Symbol α) : Follows s s.settle := ⟨rfl, rfl, rfl, id⟩

theorem follows_freeze (s : Symbol α) : Follows s s.freeze := ⟨rfl, rfl, rfl, id⟩

theorem follows_clear (s : Symbol α) : Follows s s.clear where
  idx := rfl
  arity := rfl
  settings := rfl
  fits _ := by
    intro e he
    cases he

theorem follows_apply (s : Symbol α) (draw : WeightedDraw α) (xs : Inputs) :
    Follows s (s.apply draw xs).value.2 := by
  unfold apply
  split
  · exact ⟨rfl, rfl, rfl, id⟩
  · split <;> exact follows_self s

theorem follows_solve (s : Symbol α) (draw : WeightedDraw α) (position : Nat) (xs : Inputs)
    (acceptable : List Value) : Follows s (s.solve draw position xs acceptable).value.2 := by
  unfold solve
  split
  · exact follows_self s
  · split
    · exact follows_self s
    · exact follows_apply s draw _

/-- One thing that happens to a symbol in use: observations, a candidate, a
question, or a decision on whether it is learned. -/
inductive Step : Symbol α → Symbol α → Prop
  | observe (s : Symbol α) (batch : List Example) : Step s (s.observe batch).value
  | consider (s : Symbol α) (p : Program) : Step s (s.consider p).value.2
  | settle (s : Symbol α) : Step s s.settle
  | freeze (s : Symbol α) : Step s s.freeze
  | clear (s : Symbol α) : Step s s.clear
  | apply (s : Symbol α) (draw : WeightedDraw α) (xs : Inputs) : Step s (s.apply draw xs).value.2
  | solve (s : Symbol α) (draw : WeightedDraw α) (position : Nat) (xs : Inputs)
      (acceptable : List Value) : Step s (s.solve draw position xs acceptable).value.2
  | mark (s : Symbol α) (learnable fewshot : Bool) : Step s { s with learnable, fewshot }

theorem Step.follows {s s' : Symbol α} (h : Step s s') : Follows s s' := by
  cases h with
  | observe batch => exact follows_observe s batch
  | consider p => exact follows_consider s p
  | settle => exact follows_settle s
  | freeze => exact follows_freeze s
  | clear => exact follows_clear s
  | apply draw xs => exact follows_apply s draw xs
  | solve draw position xs acceptable => exact follows_solve s draw position xs acceptable
  | mark => exact ⟨rfl, rfl, rfl, id⟩

end SymbolInduction.Symbol
