-- The order within a round. Every observation adds one to the weight of its own
-- output, so two of them may be taken in either order, and those of another arity
-- are passed over. What a round makes of a symbol depends on its examples alone,
-- not on where they stand, in whatever numbers the weights are kept.
import SymbolInduction.Proofs.Symbol.Histories

namespace SymbolInduction

variable {α : Type} [Scalar α]

/-! ## Evidence -/

theorem Tally.add_comm (t : Tally α) (y z : Value) : (t.add y).add z = (t.add z).add y := by
  by_cases h : y = z
  · rw [h]
  · exact t.alter_comm_of_ne h _ _

namespace Evidence

theorem add_comm (ev : Evidence α) (d e : Example) : (ev.add d).add e = (ev.add e).add d := by
  unfold add
  by_cases h : d.inputs = e.inputs
  · -- both add to the weights of the same arguments
    rw [h, Table.alter_alter, Table.alter_alter]
    simp only [Option.getD_some, Tally.add_comm _ d.output e.output]
  · exact ev.alter_comm_of_ne h _ _

theorem observe_eq_of_perm (ev : Evidence α) (decay : α) {batch batch' : List Example}
    (h : batch.Perm batch') : ev.observe decay batch = ev.observe decay batch' :=
  h.foldl_eq' (fun d _ e _ ev => ev.add_comm d e) (ev.fade decay)

end Evidence

namespace Symbol

/-! ## Rounds -/

/-- The symbol once it has taken in a batch, and before it looks at its known
program. -/
def absorb (s : Symbol α) (batch : List Example) : Symbol α :=
  let s := s.withEvidence batch
  (if s.learnable then s.rescore.value else s).settle

theorem observe_eq_audit (s : Symbol α) (batch : List Example) :
    (s.observe batch).value =
      ((s.absorb (ofArity s.arity batch)).audit (ofArity s.arity batch)).value := by
  unfold observe absorb ofArity
  dsimp only
  split <;> rfl

/-- The known program is only asked for outputs. -/
theorem same_audit (s : Symbol α) (batch : List Example) :
    Explanation.Same s.groundTruth (s.audit batch).value.groundTruth := by
  unfold audit
  cases htruth : s.groundTruth with
  | none => exact congrArg (Option.map Program.body) htruth.symm
  | some truth =>
    exact (Explanation.same_score (α := α) (some truth) batch none).trans
      (Explanation.same_score (α := α) _ s.examples none)

/-- A batch leaves a symbol with the number, the evidence, the examples, the marks,
the program, the likelihood and the decision that its examples make, and with the
program that it had for its known one. -/
theorem exists_observe_eq (s : Symbol α) (batch : List Example) :
    ∃ truth, Explanation.Same s.groundTruth truth ∧
      (s.observe batch).value = { s.absorb (ofArity s.arity batch) with groundTruth := truth } := by
  have hkept : (s.absorb (ofArity s.arity batch)).groundTruth = s.groundTruth := by
    unfold absorb
    dsimp only
    split <;> rfl
  refine ⟨_, hkept ▸ same_audit (s.absorb (ofArity s.arity batch)) (ofArity s.arity batch), ?_⟩
  rw [observe_eq_audit, audit_eq]

theorem absorb_eq_of_perm (s : Symbol α) {batch batch' : List Example} (h : batch.Perm batch') :
    s.absorb batch = s.absorb batch' := by
  unfold absorb withEvidence
  rw [s.evidence.observe_eq_of_perm s.settings.decay h]

/-- Examples of another arity are passed over, wherever they stand. -/
theorem perm_ofArity {arity : Nat} {batch others mixed : List Example}
    (hothers : ∀ e ∈ others, e.arity ≠ arity) (hmixed : mixed.Perm (batch ++ others)) :
    (ofArity arity mixed).Perm (ofArity arity batch) := by
  have hnone : ofArity arity others = [] :=
    List.filter_eq_nil_iff.2 fun e he => by simpa using hothers e he
  have hfilter := hmixed.filter fun e => e.arity == arity
  rw [List.filter_append] at hfilter
  change (ofArity arity mixed).Perm (ofArity arity batch ++ ofArity arity others) at hfilter
  rwa [hnone, List.append_nil] at hfilter

/-- The order of the observations within a round does not matter, and neither do
observations of another arity. Whatever the symbol, if one batch has the examples of
another one in any order, and anywhere among them examples that have more or fewer
arguments than the symbol takes, then both batches leave the symbol in one state: with
the same weights, examples, marks, likelihood and decision on whether it is solved.
Only what its known program remembers may differ. -/
theorem a_round_is_its_examples (s : Symbol α) {batch others mixed : List Example}
    (hothers : ∀ e ∈ others, e.arity ≠ s.arity) (hmixed : mixed.Perm (batch ++ others)) :
    ∃ truth, Explanation.Same (s.observe batch).value.groundTruth truth ∧
      (s.observe mixed).value = { (s.observe batch).value with groundTruth := truth } := by
  obtain ⟨truth, hsame, hbatch⟩ := s.exists_observe_eq batch
  obtain ⟨truth', hsame', hmixedState⟩ := s.exists_observe_eq mixed
  rw [s.absorb_eq_of_perm (perm_ofArity hothers hmixed)] at hmixedState
  refine ⟨truth', ?_, ?_⟩
  · rw [hbatch]
    exact hsame.symm.trans hsame'
  · rw [hmixedState, hbatch]

set_option maxRecDepth 1000 in
/-- Two of three observations agree, in whatever order they come, and one with two
arguments comes between them. -/
theorem two_of_three_in_another_order :
    let s := (fresh 0 1 (Settings.default : Settings Float)).after
      [.observe [⟨[.int 1], .int 1⟩], .consider (.ofTerm (.lam (.var 0)))]
    let batch : List Example := [⟨[.int 2], .int 3⟩, ⟨[.int 2], .int 2⟩, ⟨[.int 2], .int 2⟩]
    let others : List Example := [⟨[.int 7, .int 7], .int 0⟩]
    let mixed : List Example :=
      [⟨[.int 2], .int 2⟩, ⟨[.int 7, .int 7], .int 0⟩, ⟨[.int 2], .int 3⟩, ⟨[.int 2], .int 2⟩]
    (∀ e ∈ others, e.arity ≠ s.arity) ∧ mixed.Perm (batch ++ others) ∧
      (s.observe mixed).value.evidence = (s.observe batch).value.evidence ∧
      (s.observe mixed).value.examples = [⟨[.int 2], .int 2⟩] ∧
      (s.observe mixed).value.correct = some [true] := by
  intro s batch others mixed
  have hothers : ∀ e ∈ others, e.arity ≠ s.arity := by decide
  have hmixed : mixed.Perm (batch ++ others) := by decide
  have hexamples : (s.observe batch).value.examples = [⟨[.int 2], .int 2⟩] := by decide
  have hcorrect : (s.observe batch).value.correct = some [true] := by decide
  obtain ⟨truth, -, hsame⟩ := a_round_is_its_examples s hothers hmixed
  rw [hsame]
  exact ⟨hothers, hmixed, rfl, hexamples, hcorrect⟩

end Symbol

end SymbolInduction
