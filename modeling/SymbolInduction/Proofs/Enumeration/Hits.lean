-- What a search records of its hits. A candidate is scored by the examples of
-- which the search saw the body of its program give the output; and on each of
-- these the program itself gives that output, wherever it has the steps of the
-- body and a little more.
import SymbolInduction.Proofs.Enumeration.Tasks
import SymbolInduction.Proofs.Evaluation.Pace

namespace SymbolInduction.Enumeration

open Evaluation

/-- Every example of the task has as many arguments as the task, and none of
them is missing. -/
def ProperInputs (task : Task) : Prop :=
  ∀ e ∈ task.examples, e.inputs.length = task.arity ∧ Value.missing ∉ e.inputs

/-- The examples that count as hits of a stored term, which are those whose
output it was seen to give. -/
def hitsOf (examples : List Example) (s : Stored) : List Example :=
  ((s.signature.zip examples).filter fun p => p.1.gives p.2.output).map (·.2)

/-- The examples that do not count as hits of a stored term. -/
def missesOf (examples : List Example) (s : Stored) : List Example :=
  ((s.signature.zip examples).filter fun p => !p.1.gives p.2.output).map (·.2)

/-! ## Counting hits -/

theorem length_hitsOf (examples : List Example) (s : Stored) :
    (hitsOf examples s).length = Bank.hits examples s := by
  unfold hitsOf Bank.hits
  rw [List.length_map, List.countP_eq_length_filter]

/-- Each example is a hit or a miss. -/
theorem length_missesOf {examples : List Example} {s : Stored}
    (hlen : s.signature.length = examples.length) :
    (missesOf examples s).length = examples.length - Bank.hits examples s := by
  have hsplit : (s.signature.zip examples).length =
      (hitsOf examples s).length + (missesOf examples s).length := by
    unfold hitsOf missesOf
    rw [List.length_map, List.length_map, ← List.length_eq_length_filter_add]
  rw [List.length_zip, hlen, Nat.min_self, length_hitsOf] at hsplit
  omega

section

variable {α : Type} [Scalar α] {scope : Scope} {run : Run α}

/-- On an example that counts as a hit of a term, the term gives a datum with
the value of the output. -/
theorem exists_eval_of_mem_hitsOf {s : Stored} (hsig : scope.signature? s.term = some s.signature)
    {e : Example} (he : e ∈ hitsOf scope.task.examples s) :
    e ∈ scope.task.examples ∧ ∃ d m,
      eval scope.limits s.term (environmentOf e) {} = .ok d m ∧ d.toValue = .ok e.output := by
  unfold hitsOf at he
  obtain ⟨⟨o, e'⟩, hmem, rfl⟩ := List.mem_map.1 he
  obtain ⟨hzip, hgives⟩ := List.mem_filter.1 hmem
  have ho : observed? scope s.term e' = some o :=
    (List.forall₂_iff_zip.1 (forall₂_signature hsig).flip).2 hzip
  obtain ⟨d, hd, hy⟩ := eq_ok_of_gives ho hgives
  refine ⟨(List.of_mem_zip hzip).2, ?_⟩
  unfold outcome at hd
  cases hrun : eval scope.limits s.term (environmentOf e') {} with
  | error err m =>
    rw [hrun] at hd
    cases hd
  | ok d' m =>
    rw [hrun] at hd
    cases hd
    exact ⟨d, m, rfl, hy⟩

/-- A candidate is the program of a stored term with a hit, and its likelihood
falls with the misses of the term. -/
theorem exists_stored_of_mem (hsound : run.Sound scope) {maximum : Nat} {c : Candidate α}
    (hc : c ∈ (run.frontier scope.task maximum).candidates) :
    ∃ s ∈ run.bank.stored.toList, scope.signature? s.term = some s.signature ∧
      c.program = s.term.lambdas scope.task.arity ∧
        c.logLikelihood =
          -Scalar.ofNat (missesOf scope.task.examples s).length * Scalar.ofNat 100 ∧
        hitsOf scope.task.examples s ≠ [] := by
  have hmem : c ∈ run.candidates.toList := Frontier.mem_of_mem_keepBest hc
  obtain ⟨s, hs, hhits, rfl⟩ := (mem_candidates_iff hsound c).1 hmem
  have hsig := hsound.signature?_stored hs
  refine ⟨s, hs, hsig, rfl, ?_, ?_⟩
  · rw [length_missesOf (forall₂_signature hsig).length_eq.symm]
    rfl
  · rw [← length_hitsOf] at hhits
    exact fun h => hhits (List.length_eq_zero_iff.2 h)

end

/-! ## Hits are real -/

/-- What a search keeps is what it saw. With room for a term, for its table and for
its counters it returns a run; and in every run that is returned, each
candidate is a program of as many arguments as the task, made of the body of a
stored term with a hit, and its likelihood is that of the misses. On each
example that counts as a hit, the program gives the output, under all limits
with the steps of one evaluation of the search and two more for each argument,
and one more level than the search has; it takes the steps that the body took in
the search and two more for each argument. -/
theorem recorded_hits_are_real {α : Type} [Scalar α] (scope : Scope) (g : Grammar)
    (seeds : List Term) (readings maximum : Nat) (hcost : 1 ≤ scope.bounds.maxCost)
    (hinputs : ProperInputs scope.task) :
    (scope.bounds.Roomy → ∃ run : Run α, solveTask scope g seeds readings = .ok run) ∧
      ∀ run : Run α, solveTask scope g seeds readings = .ok run →
        ∀ c ∈ (run.frontier scope.task maximum).candidates, c.program.arity = scope.task.arity ∧
          ∃ s ∈ run.bank.stored.toList, c.program = s.term.lambdas scope.task.arity ∧
            c.logLikelihood =
              -Scalar.ofNat (missesOf scope.task.examples s).length * Scalar.ofNat 100 ∧
            hitsOf scope.task.examples s ≠ [] ∧
            ∀ e ∈ hitsOf scope.task.examples s,
              ∃ d m, eval scope.limits s.term (environmentOf e) {} = .ok d m ∧
                ∀ limits : Limits, scope.bounds.stepLimit + 2 * scope.task.arity ≤ limits.steps →
                  201 ≤ limits.depth → evaluate limits c.program e.inputs {} =
                    .ok e.output ⟨m.steps + 2 * scope.task.arity, 0⟩ := by
  refine ⟨exists_solveTask hcost, fun run hrun c hc => ?_⟩
  have hsound := sound_of_solveTask_of_place hcost hrun
  obtain ⟨s, hs, hsig, hprogram, hlikelihood, hhits⟩ := exists_stored_of_mem hsound hc
  refine ⟨?_, s, hs, hprogram, hlikelihood, hhits, fun e he => ?_⟩
  · obtain ⟨e, he⟩ := List.exists_mem_of_ne_nil _ hhits
    obtain ⟨-, d, m, heval, hy⟩ := exists_eval_of_mem_hitsOf hsig he
    rw [hprogram]
    exact arity_lambdas_of_value? (value?_of_eval heval) hy _
  · obtain ⟨hmem, d, m, heval, hy⟩ := exists_eval_of_mem_hitsOf hsig he
    obtain ⟨hlength, hmissing⟩ := hinputs e hmem
    refine ⟨d, m, heval, fun limits hsteps hdepth => ?_⟩
    rw [← hlength] at hsteps ⊢
    rw [hprogram, ← hlength]
    exact evaluate_lambdas hmissing heval hy hsteps hdepth

/-- The successor again, with one example that it gives and one that it does
not. -/
def halfScope : Scope :=
  { successorScope with
    task := { successorScope.task with examples := [⟨[.int 1], .int 2⟩, ⟨[.int 3], .int 7⟩] } }

theorem stored_of_half {run : Run Float}
    (h : solveTask halfScope successorGrammar [] 0 = .ok run) :
    run.bank.stored.toList =
        [⟨.var 0, 1, [.int 1, .int 3]⟩, ⟨.app (.prim .incr) (.var 0), 2, [.int 2, .int 4]⟩] ∧
      run.candidates.toList.map (·.program) = [.lam (.app (.prim .incr) (.var 0))] := by
  have hrun : (solveTask (α := Float) halfScope successorGrammar [] 0).toOption.map
      (fun run => (run.bank.stored.toList, run.candidates.toList.map (·.program))) =
        some ([⟨.var 0, 1, [.int 1, .int 3]⟩, ⟨.app (.prim .incr) (.var 0), 2, [.int 2, .int 4]⟩],
          [.lam (.app (.prim .incr) (.var 0))]) := by
    decide
  rw [h] at hrun
  exact Prod.mk.inj (Option.some.inj hrun)

theorem half_of_the_hits_are_real :
    ∃ run : Run Float, solveTask halfScope successorGrammar [] 0 = .ok run ∧
      ∃ c, (run.frontier halfScope.task 5).candidates = [c] ∧
        c.program = .lam (.app (.prim .incr) (.var 0)) ∧
        c.logLikelihood = -Scalar.ofNat 1 * Scalar.ofNat 100 ∧
        ∃ m, evaluate { steps := 22, depth := 201 } c.program [.int 1] {} = .ok (.int 2) m := by
  have hinputs : ProperInputs halfScope.task := by
    unfold ProperInputs
    decide
  obtain ⟨hreturns, hreal⟩ :=
    recorded_hits_are_real (α := Float) halfScope successorGrammar [] 0 5 (by decide) hinputs
  obtain ⟨run, hrun⟩ := hreturns successor_roomy
  obtain ⟨hstored, hprograms⟩ := stored_of_half hrun
  obtain ⟨c, hcandidates, hprogram⟩ := List.map_eq_singleton_iff.1 hprograms
  have hkept : (run.frontier halfScope.task 5).candidates = [c] := by
    simp [Run.frontier, Frontier.keepBest, hcandidates]
  have hc : c ∈ (run.frontier halfScope.task 5).candidates := by
    rw [hkept]
    exact List.mem_singleton.2 rfl
  obtain ⟨-, s, hs, hbody, hlikelihood, -, hhits⟩ := hreal run hrun c hc
  rw [hprogram] at hbody
  rw [hstored] at hs
  simp only [List.mem_cons, List.not_mem_nil, or_false] at hs
  rcases hs with rfl | rfl
  · cases hbody
  · obtain ⟨d, m, -, hevaluate⟩ := hhits ⟨[.int 1], .int 2⟩ (by decide)
    exact ⟨run, hrun, c, hkept, hprogram, hlikelihood, _, hevaluate _ (by decide) (by decide)⟩

end SymbolInduction.Enumeration
