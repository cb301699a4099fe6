-- When a symbol is solved. A symbol that is learned is solved from the moment
-- on at which it has a program that is likely enough, and until it is cleared:
-- later observations may make the program less likely, and other programs may
-- take its place, but what was earned once stays.
import SymbolInduction.Proofs.Symbol.Histories

namespace SymbolInduction.Symbol

/-- A change that brings evidence or a program. -/
def Change.IsRating : Change → Prop
  | .observe _ | .consider _ => True
  | .settle | .clear => False

variable {α : Type} [Scalar α]

/-- The symbol has a program, and it is likely enough. -/
def Earns (s : Symbol α) : Prop :=
  s.explanation ≠ none ∧ Scalar.le s.settings.solvedThreshold s.likelihood = true

/-- A change that brought evidence or a program left the symbol with a program
that is likely enough, and the symbol was not cleared since. -/
def HasEarned (s : Symbol α) (changes : List Change) : Prop :=
  ∃ before c since, changes = before ++ c :: since ∧ c.IsRating ∧
    (s.after (before ++ [c])).Earns ∧ Change.clear ∉ since

/-! ## One change -/

/-- Between two changes a symbol that is learned has a program if it is solved,
and is solved if it has one that is likely enough. -/
structure Standing (s : Symbol α) : Prop where
  learnable : s.learnable = true
  explained : s.solved = true → s.explanation ≠ none
  earned : s.Earns → s.solved = true

/-- Only clearing takes a program away. -/
theorem explained_change {s : Symbol α} (h : s.learnable = true) {c : Change} (hc : c ≠ .clear)
    (hs : s.explanation ≠ none) : (s.change c).explanation ≠ none := by
  cases c with
  | observe batch => exact fun hnone => hs ((same_observe h batch).eq_none_iff.2 hnone)
  | consider p =>
    rcases s.same_consider p with hkept | ⟨-, htaken⟩
    · exact fun hnone => hs (hkept.eq_none_iff.2 hnone)
    · exact fun hnone => Option.some_ne_none p (htaken.eq_none_iff.2 hnone)
  | settle => exact hs
  | clear => exact absurd rfl hc

/-- Settling solves a symbol that has a program if it is likely enough, and
leaves it solved if it was. -/
theorem solved_settle_iff {s : Symbol α} (hlearnable : s.learnable = true)
    (hexplained : s.solved = true → s.explanation ≠ none) :
    s.settle.solved = true ↔ s.solved = true ∨ s.Earns := by
  unfold settle Earns
  cases he : s.explanation with
  | none =>
    rw [he] at hexplained
    simpa [hlearnable] using hexplained
  | some p => simp [hlearnable]

theorem solved_observe_iff {s : Symbol α} (h : s.Standing) (batch : List Example) :
    (s.observe batch).value.solved = true ↔
      s.solved = true ∨ (s.observe batch).value.Earns := by
  have hkept := same_observe h.learnable batch
  rw [observe_of_learnable h.learnable, audit_eq] at hkept ⊢
  exact solved_settle_iff (s := (s.withEvidence (ofArity s.arity batch)).rescore.value) h.learnable
    fun hsolved hnone => h.explained hsolved (hkept.eq_none_iff.2 hnone)

theorem solved_consider_iff {s : Symbol α} (h : s.Standing) (p : Program) :
    (s.consider p).value.2.solved = true ↔
      s.solved = true ∨ (s.consider p).value.2.Earns := by
  rcases s.consider_cases p with ⟨-, hpassed⟩ | ⟨-, -, htaken⟩
  · -- a candidate that is passed over leaves a symbol that has been settled
    rw [hpassed]
    exact ⟨Or.inl, fun hsolved => hsolved.elim id h.earned⟩
  · rw [htaken]
    exact solved_settle_iff h.learnable fun _ hnone =>
      Option.some_ne_none p ((s.same_withCandidate p).eq_none_iff.2 hnone)

theorem solved_settle {s : Symbol α} (h : s.Standing) : s.settle.solved = s.solved := by
  rw [Bool.eq_iff_iff, solved_settle_iff h.learnable h.explained]
  exact ⟨fun hsolved => hsolved.elim id h.earned, Or.inl⟩

/-- After a change a symbol is solved if it was and has not been cleared, or if
evidence or a program came in and left it with a program that is likely enough. -/
theorem solved_change_iff {s : Symbol α} (h : s.Standing) (c : Change) :
    (s.change c).solved = true ↔
      (c ≠ .clear ∧ s.solved = true) ∨ (c.IsRating ∧ (s.change c).Earns) := by
  cases c with
  | observe batch => simpa [Change.IsRating, change] using solved_observe_iff h batch
  | consider p => simpa [Change.IsRating, change] using solved_consider_iff h p
  | settle => simp [Change.IsRating, change, solved_settle h]
  | clear => simp [Change.IsRating, change, clear]

theorem standing_change {s : Symbol α} (h : s.Standing) (c : Change) : (s.change c).Standing where
  learnable := learnable_change h.learnable c
  explained hsolved := by
    rcases (solved_change_iff h c).1 hsolved with ⟨hc, hs⟩ | ⟨-, hearns⟩
    · exact explained_change h.learnable hc (h.explained hs)
    · exact hearns.1
  earned hearns := by
    refine (solved_change_iff h c).2 ?_
    cases c with
    | observe batch => exact Or.inr ⟨trivial, hearns⟩
    | consider p => exact Or.inr ⟨trivial, hearns⟩
    | settle => exact Or.inl ⟨Change.noConfusion, h.earned hearns⟩
    | clear => exact absurd rfl hearns.1

/-! ## Histories -/

theorem after_concat (s : Symbol α) (changes : List Change) (c : Change) :
    s.after (changes ++ [c]) = (s.after changes).change c := by
  unfold after
  rw [List.foldl_append]
  rfl

/-- What a history has earned, it has earned before its last change, and that
was no clearing, or by its last change. -/
theorem hasEarned_concat_iff (s : Symbol α) (changes : List Change) (c : Change) :
    s.HasEarned (changes ++ [c]) ↔
      (c ≠ .clear ∧ s.HasEarned changes) ∨
        (c.IsRating ∧ ((s.after changes).change c).Earns) := by
  constructor
  · rintro ⟨before, earning, since, hsplit, hrating, hearns, hsince⟩
    rcases concat_eq_append_cons hsplit with ⟨rfl, rfl, -⟩ | ⟨since, rfl, rfl⟩
    · exact Or.inr ⟨hrating, after_concat s before earning ▸ hearns⟩
    · rw [List.mem_append, not_or] at hsince
      exact Or.inl ⟨fun hc => hsince.2 (by simp [hc]), before, earning, since, rfl, hrating,
        hearns, hsince.1⟩
  · rintro (⟨hc, before, earning, since, rfl, hrating, hearns, hsince⟩ | ⟨hrating, hearns⟩)
    · refine ⟨before, earning, since ++ [c], by simp, hrating, hearns, ?_⟩
      simpa [hsince] using hc.symm
    · exact ⟨changes, c, [], rfl, hrating, after_concat s changes c ▸ hearns, List.not_mem_nil⟩

theorem standing_after {s : Symbol α} (h : s.Standing) (changes : List Change) :
    (s.after changes).Standing :=
  after_of_change (P := Standing) (fun _ c h => standing_change h c) h changes

theorem solved_after_iff {s : Symbol α} (h : s.Standing) (hunsolved : s.solved = false)
    (changes : List Change) : (s.after changes).solved = true ↔ s.HasEarned changes := by
  induction changes using List.reverseRecOn with
  | nil =>
    refine iff_of_false (by simp [after, hunsolved]) ?_
    rintro ⟨before, c, since, hsplit, -⟩
    simp at hsplit
  | append_singleton changes c ih =>
    rw [after_concat, solved_change_iff (standing_after h changes), ih, hasEarned_concat_iff]

theorem standing_fresh (idx arity : Nat) (settings : Settings α) (truth : Option Program)
    (fewshot : Bool) :
    Standing { fresh idx arity settings with groundTruth := truth, fewshot } where
  learnable := rfl
  explained h := by cases h
  earned h := absurd rfl h.1

/-- At each moment a symbol that is learned is solved exactly if, since it was
new or was last cleared, evidence or a program came in and left it with a program
that is likely enough. So one without a program is not solved, one with a program
that is likely enough is, and no change but clearing makes it unsolved again. -/
theorem solved_was_earned (idx arity : Nat) (settings : Settings α) (truth : Option Program)
    (fewshot : Bool) (changes : List Change) :
    let start : Symbol α := { fresh idx arity settings with groundTruth := truth, fewshot }
    let s := start.after changes
    (s.solved = true ↔ start.HasEarned changes) ∧
      (s.explanation = none → s.solved = false) ∧ (s.Earns → s.solved = true) ∧
      ∀ c, c ≠ .clear → s.solved = true → (s.change c).solved = true := by
  intro start s
  have hstart : start.Standing := standing_fresh idx arity settings truth fewshot
  have hs : s.Standing := standing_after hstart changes
  refine ⟨solved_after_iff hstart rfl changes, fun hnone => ?_, hs.earned, fun c hc hsolved => ?_⟩
  · rw [← Bool.not_eq_true]
    exact fun hsolved => hs.explained hsolved hnone
  · exact (solved_change_iff hs c).2 (Or.inl ⟨hc, hsolved⟩)

end SymbolInduction.Symbol
