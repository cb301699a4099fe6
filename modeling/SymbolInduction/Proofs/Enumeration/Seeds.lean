-- What programs that were found before do to a search. Their bodies are stored at cost
-- one, ahead of everything else, so another term may stand for what they show, and then
-- stands in all that is built on it. But what a search without them finds is still found:
-- a program that shows the same, at no greater cost.
import SymbolInduction.Proofs.Enumeration.Hits
import SymbolInduction.Proofs.Enumeration.Origins

namespace SymbolInduction.Enumeration

open Evaluation

variable {α : Type} [Scalar α] {scope : Scope} {g : Grammar} {seeds : List Term}

/-! ## What was stored could be built -/

section

variable {run : Run α}

/-- A stored term is worth keeping, where its evaluations come to an end. -/
theorem shows_of_stored (hsound : run.Sound scope) {s : Stored}
    (hs : s ∈ run.bank.stored.toList)
    (hcompletes : ∀ e ∈ scope.task.examples, Completes scope.limits (environmentOf e) s.term) :
    Shows scope s.term := by
  have hsig := forall₂_signature (hsound.signature?_stored hs)
  refine ⟨hcompletes, fun e he d hd => ?_, ?_⟩
  · obtain ⟨o, -, ho⟩ := exists_of_mem_right hsig.flip he
    have hobserved : observed? scope s.term e = Observation.ofOutcome? (.ok d) := ofOutcome?_congr hd
    rw [ho] at hobserved
    cases d <;> first | rfl | cases hobserved
  · have hshows := hsound.bank.shows s hs
    unfold AllFail at hshows
    push Not at hshows
    obtain ⟨o, hmem, hseen⟩ := hshows
    obtain ⟨e, he, ho⟩ := exists_of_mem_right hsig hmem
    refine ⟨e, he, ?_⟩
    cases hvalue : value? scope.limits (environmentOf e) s.term with
    | some d => exact ⟨d, rfl⟩
    | none =>
      rw [observed?_of_none hvalue] at ho
      exact absurd (Option.some.inj ho).symm hseen

/-- Without programs from before, each stored term could be built, at its cost. -/
theorem enumerable_of_stored (hsound : run.Sound scope)
    (hfounded : run.Founded g scope.task.arity []) (hcomplete : run.Completes scope g [])
    {s : Stored} (hs : s ∈ run.bank.stored.toList) : Enumerable scope g s.term s.cost := by
  -- the arguments of an operation cost less than it does
  induction hcost : s.cost using Nat.strong_induction_on generalizing s with
  | _ cost ih =>
    have hshows := shows_of_stored hsound hs (hcomplete s.term (.stored hs))
    have horigin := hfounded.origin s hs
    rw [hcost] at horigin
    generalize s.term = t at hshows horigin
    cases horigin with
    | starting ht =>
      unfold startingTerms at ht
      simp only [List.filter_nil, List.map_nil, List.nil_append, List.mem_append, List.mem_map,
        List.mem_range] at ht
      rcases ht with ⟨i, hi, rfl⟩ | ⟨c, hc, rfl⟩
      · exact .var hi hshows
      · obtain ⟨hmem, hleaf⟩ := List.mem_filter.1 hc
        rw [Bool.and_eq_true, beq_iff_eq] at hleaf
        exact .leaf hmem hleaf.2 hshows
    | @operation op args hop hargs hlen =>
      obtain ⟨hmem, htakes⟩ := List.mem_filter.1 hop
      rw [Bool.and_eq_true, bne_iff_ne] at htakes
      have hbuilt : ∀ a ∈ args.map fun s => (s.term, s.cost), Enumerable scope g a.1 a.2 := by
        intro a ha
        obtain ⟨u, hu, rfl⟩ := List.mem_map.1 ha
        have hle := Run.le_sum_of_mem (List.mem_map_of_mem (f := (·.cost)) hu)
        exact ih u.cost (by omega) (hargs u hu) rfl
      have happlied := @Enumerable.applied scope g op (args.map fun s => (s.term, s.cost)) hmem
        htakes.1 htakes.2 (by rw [List.length_map, hlen]) hbuilt
      rw [List.map_map, List.map_map] at happlied
      exact happlied hshows

end

/-! ## Programs that show nothing -/

/-- A term that shows nothing is turned down, unless its evaluation stops the program. -/
theorem offer_of_refused {cost : Nat} {run : Run α} {t : Term}
    (h : ∀ signature, run.bank.signature? t = some signature → AllFail signature) :
    Run.offer scope cost run t = .ok run ∨
      Run.offer scope cost run t = .error (.failed .countOverflow) := by
  have hoffered := Run.offered scope cost run t
  generalize Run.offer scope cost run t = result at hoffered ⊢
  have hrefused : ∀ signature, run.bank.signature? t = some signature →
      run.bank.refuses signature = true := by
    intro signature hsig
    have hfails := h signature hsig
    unfold Bank.refuses
    rw [Bool.or_eq_true, List.all_eq_true]
    exact Or.inl fun o ho => beq_iff_eq.2 (hfails o ho)
  cases hoffered with
  | refused => exact Or.inl rfl
  | stored hsig hnew => exact absurd (hrefused _ hsig) (by simp [hnew])
  | lost hsig hnew => exact absurd (hrefused _ hsig) (by simp [hnew])
  | stopped => exact Or.inr rfl

theorem foldlM_offer_of_refused {cost : Nat} {run : Run α} {ts : List Term}
    (h : ∀ t ∈ ts, ∀ signature, run.bank.signature? t = some signature → AllFail signature) :
    ts.foldlM (Run.offer scope cost) run = .ok run ∨
      ts.foldlM (Run.offer scope cost) run = .error (.failed .countOverflow) := by
  induction ts with
  | nil => exact Or.inl rfl
  | cons t ts ih =>
    rw [List.foldlM_cons]
    rcases @offer_of_refused _ _ scope cost run t (h t List.mem_cons_self) with hr | hr
    · rw [hr]
      exact ih fun u hu => h u (List.mem_cons_of_mem _ hu)
    · rw [hr]
      exact Or.inr rfl

/-- The body of the program shows something on the examples of the task. -/
def BodyShows (scope : Scope) (t : Term) : Prop :=
  t.arity = scope.task.arity ∧ ∃ signature,
    scope.signature? (t.stripLambdas scope.task.arity) = some signature ∧ ¬AllFail signature

/-- Programs that take another number of arguments than the task, or show nothing, leave
the search as it is, unless an evaluation of theirs stops the program. -/
theorem steps_of_nothing_shown (h : ∀ t ∈ seeds, ¬BodyShows scope t) (g : Grammar)
    (readings : Nat) :
    steps scope g seeds (Run.start scope readings : Run α) =
        steps scope g [] (Run.start scope readings) ∨
      steps scope g seeds (Run.start scope readings : Run α) =
        .error (.failed .countOverflow) := by
  let bodies := (seeds.filter (·.arity == scope.task.arity)).map (·.stripLambdas scope.task.arity)
  have hrefused := @foldlM_offer_of_refused α _ scope 1 (Run.start scope readings) bodies <| by
    refine fun t ht signature hsig => by_contra fun hshows => ?_
    obtain ⟨seed, hseed, rfl⟩ := List.mem_map.1 ht
    obtain ⟨hmem, harity⟩ := List.mem_filter.1 hseed
    exact h seed hmem ⟨beq_iff_eq.1 harity, signature, hsig, hshows⟩
  have hstarting : startingTerms g scope.task.arity seeds =
      bodies ++ startingTerms g scope.task.arity [] := by
    simp [startingTerms, bodies]
  unfold steps
  rw [hstarting, List.foldlM_append]
  rcases hrefused with hnothing | hstops
  · rw [hnothing]
    exact Or.inl rfl
  · rw [hstops]
    exact Or.inr rfl

/-! ## Two searches -/

/-- The one candidate can stand for the other: their bodies show the same, it costs no
more, and it is as likely. -/
def StandsFor (scope : Scope) (c' c : Candidate α) : Prop :=
  ∃ t t' cost cost', scope.signature? t' = scope.signature? t ∧ cost' ≤ cost ∧
    c.program = t.lambdas scope.task.arity ∧ c'.program = t'.lambdas scope.task.arity ∧
    c.logPrior = -Scalar.ofNat cost ∧ c'.logPrior = -Scalar.ofNat cost' ∧
    c'.logLikelihood = c.logLikelihood

/-- A frontier with room for all candidates has them all. -/
theorem mem_frontier_of_room {run : Run α} {maximum : Nat} (h : run.candidates.size ≤ maximum)
    {c : Candidate α} (hc : c ∈ run.candidates.toList) :
    c ∈ (run.frontier scope.task maximum).candidates := by
  unfold Run.frontier Frontier.keepBest
  dsimp only
  rw [List.take_of_length_le]
  · exact List.mem_mergeSort.2 hc
  · rwa [List.length_mergeSort, Array.length_toList]

theorem exists_standsFor (hinputs : FullInputs scope.task) {run run' : Run α}
    (hsound : run.Sound scope) (hfounded : run.Founded g scope.task.arity [])
    (hcomplete : run.Completes scope g [])
    (hbelow : ∀ s ∈ run.bank.stored.toList, s.cost ≤ scope.bounds.maxCost)
    (hfilled : run'.Filled scope g seeds scope.bounds.maxCost)
    (hcomplete' : run'.Completes scope g seeds) {c : Candidate α} (hc : c ∈ run.candidates.toList) :
    ∃ c' ∈ run'.candidates.toList, StandsFor scope c' c := by
  obtain ⟨s, hs, hhits, rfl⟩ := (mem_candidates_iff hsound c).1 hc
  have hsound' := hfilled.within.sound
  have hbuilt := enumerable_of_stored hsound hfounded hcomplete hs
  obtain ⟨s', hs', hsig, hle⟩ :=
    exists_representative hinputs hfilled hcomplete' hbuilt (hbelow s hs)
  have hsame : s'.signature = s.signature :=
    Option.some.inj (hsig.symm.trans (hsound.signature?_stored hs))
  have hhits' : Bank.hits scope.task.examples s' = Bank.hits scope.task.examples s := by
    unfold Bank.hits
    rw [hsame]
  refine ⟨_, (mem_candidates_iff hsound' _).2 ⟨s', hs', hhits' ▸ hhits, rfl⟩, s.term, s'.term,
    s.cost, s'.cost, ?_, hle, rfl, rfl, rfl, rfl, ?_⟩
  · rw [hsound'.signature?_stored hs', hsig]
  · unfold Run.candidate
    rw [hhits']

/-- With programs from before or without, a search that has room for a term, for its table
and for its counters returns. Where none of their bodies shows anything, the two searches
are one. Else a candidate that is found without them may be missing with them; but where
the search with them is not cut short, and no evaluation stops at a limit, there is one
that can stand for it: a program that shows the same, costs no more and is as likely. -/
theorem reuse_loses_no_behaviour (scope : Scope) (g : Grammar) (seeds : List Term)
    (readings : Nat) (hcost : 1 ≤ scope.bounds.maxCost) :
    (scope.bounds.Roomy → ∃ run₀ run₁ : Run α, solveTask scope g [] readings = .ok run₀ ∧
      solveTask scope g seeds readings = .ok run₁) ∧
    ∀ run₀ run₁ : Run α, solveTask scope g [] readings = .ok run₀ →
      solveTask scope g seeds readings = .ok run₁ →
      ((∀ t ∈ seeds, ¬BodyShows scope t) → run₁ = run₀) ∧
      (FullInputs scope.task →
        (∀ r : Run α, steps scope g seeds (Run.start scope readings) ≠ .error (.over r)) →
        run₀.Completes scope g [] → run₁.Completes scope g seeds →
        ∀ maximum₀ maximum, run₁.candidates.size ≤ maximum →
          ∀ c ∈ (run₀.frontier scope.task maximum₀).candidates,
            ∃ c' ∈ (run₁.frontier scope.task maximum).candidates, StandsFor scope c' c) := by
  refine ⟨fun hroomy => ?_, fun run₀ run₁ hrun₀ hrun₁ => ⟨fun hnothing => ?_, ?_⟩⟩
  · obtain ⟨run₀, hrun₀⟩ := @exists_solveTask α _ scope g [] readings hcost hroomy
    obtain ⟨run₁, hrun₁⟩ := @exists_solveTask α _ scope g seeds readings hcost hroomy
    exact ⟨run₀, run₁, hrun₀, hrun₁⟩
  · obtain ⟨htable, hend⟩ := solveTask_eq_ok_iff.1 hrun₁
    rcases steps_of_nothing_shown (α := α) hnothing g readings with hsame | hstops
    · rw [hsame] at hend
      exact Except.ok.inj ((solveTask_eq_ok_iff.2 ⟨htable, hend⟩).symm.trans hrun₀)
    · simp [hstops] at hend
  · intro hinputs huncut hcomplete₀ hcomplete₁ maximum₀ maximum hroom c hc
    have hsound₀ := sound_of_solveTask_of_place hcost hrun₀
    have hbelow : ∀ s ∈ run₀.bank.stored.toList, s.cost ≤ scope.bounds.maxCost := by
      intro s hs
      have hroom := hsound₀.bank.room s hs
      rw [hsound₀.size] at hroom
      omega
    obtain ⟨c', hc', hstands⟩ := exists_standsFor hinputs hsound₀
      (Run.founded_of_solveTask hrun₀) hcomplete₀ hbelow
      (filled_of_solveTask hcost huncut hrun₁) hcomplete₁ (Frontier.mem_of_mem_keepBest hc)
    exact ⟨c', mem_frontier_of_room hroom hc', hstands⟩

/-! ### A constant in the place of the successor -/

/-- A program that gives two, whatever it is given. -/
def reusedTwo : Term := .lam (.literal 2)

theorem stored_of_reuse {run : Run Float}
    (h : solveTask successorScope successorGrammar [reusedTwo] 0 = .ok run) :
    run.bank.stored.toList =
        [⟨.literal 2, 1, [.int 2]⟩, ⟨.var 0, 1, [.int 1]⟩,
          ⟨.app (.prim .incr) (.literal 2), 2, [.int 3]⟩] ∧
      run.candidates.toList.map (·.program) = [reusedTwo] := by
  have hrun : (solveTask (α := Float) successorScope successorGrammar [reusedTwo] 0).toOption.map
      (fun run => (run.bank.stored.toList, run.candidates.toList.map (·.program))) =
        some ([⟨.literal 2, 1, [.int 2]⟩, ⟨.var 0, 1, [.int 1]⟩,
          ⟨.app (.prim .incr) (.literal 2), 2, [.int 3]⟩], [reusedTwo]) := by
    decide +kernel
  rw [h] at hrun
  exact Prod.mk.inj (Option.some.inj hrun)

theorem reuse_completes {run : Run Float}
    (h : solveTask successorScope successorGrammar [reusedTwo] 0 = .ok run) :
    run.Completes successorScope successorGrammar [reusedTwo] := by
  obtain ⟨hstored, -⟩ := stored_of_reuse h
  have hvar : Shows successorScope (.var 0) := shows_of_value? (n := 1) rfl
  have hincr : Shows successorScope (.app (.prim .incr) (.var 0)) := shows_of_value? (n := 2) rfl
  have hseed : Shows successorScope (.literal 2) := shows_of_value? (n := 2) rfl
  have hnext : Shows successorScope (.app (.prim .incr) (.literal 2)) :=
    shows_of_value? (n := 3) rfl
  intro t ht
  cases ht with
  | starting ht =>
    rcases List.mem_pair.1 ht with rfl | rfl
    · exact hseed.completes
    · exact hvar.completes
  | stored hs =>
    rw [hstored] at hs
    simp only [List.mem_cons, List.not_mem_nil, or_false] at hs
    rcases hs with rfl | rfl | rfl
    · exact hseed.completes
    · exact hvar.completes
    · exact hnext.completes
  | @operation op args hop hargs hlen hcost =>
    obtain rfl : op = ⟨.prim .incr⟩ := List.mem_singleton.1 hop
    obtain ⟨s, rfl⟩ := List.length_eq_one_iff.1 hlen
    have hs := hargs s (List.mem_singleton.2 rfl)
    rw [hstored] at hs
    simp only [List.mem_cons, List.not_mem_nil, or_false] at hs
    rcases hs with rfl | rfl | rfl
    · exact hnext.completes
    · exact hincr.completes
    · exact absurd hcost (by decide)

theorem programs_of_successor {run : Run Float}
    (h : solveTask successorScope successorGrammar [] 0 = .ok run) :
    run.candidates.toList.map (·.program) = [.lam (.app (.prim .incr) (.var 0))] := by
  have hrun : (solveTask (α := Float) successorScope successorGrammar [] 0).toOption.map
      (fun run => run.candidates.toList.map (·.program)) =
        some [.lam (.app (.prim .incr) (.var 0))] := by
    decide +kernel
  rw [h] at hrun
  exact Option.some.inj hrun

/-- Neither search is cut short. -/
theorem successor_uncut : ∀ seeds ∈ [[], [reusedTwo]],
    (steps (α := Float) successorScope successorGrammar seeds
      (Run.start successorScope 0)).isOk = true := by decide +kernel

theorem programs_frontier {run : Run Float} {t : Term}
    (h : run.candidates.toList.map (·.program) = [t]) (task : Task) :
    (run.frontier task 20).candidates.map (·.program) = [t] := by
  obtain ⟨c, hc, rfl⟩ := List.map_eq_singleton_iff.1 h
  simp [Run.frontier, Frontier.keepBest, hc]

/-- On the one example that there is, the constant can stand for the successor. -/
theorem a_reused_constant_stands_for_the_successor :
    ∃ run₀ run₁ : Run Float, solveTask successorScope successorGrammar [] 0 = .ok run₀ ∧
      solveTask successorScope successorGrammar [reusedTwo] 0 = .ok run₁ ∧
      ∃ c c', (run₀.frontier successorScope.task 20).candidates = [c] ∧
        (run₁.frontier successorScope.task 20).candidates = [c'] ∧
        StandsFor successorScope c' c := by
  have hinputs : FullInputs successorScope.task := by
    unfold FullInputs
    decide
  have huncut : ∀ r : Run Float, steps successorScope successorGrammar [reusedTwo]
      (Run.start successorScope 0) ≠ .error (.over r) := by
    have hends := successor_uncut [reusedTwo] (by simp)
    intro r hr
    rw [hr] at hends
    cases hends
  obtain ⟨hreturn, hreuse⟩ := reuse_loses_no_behaviour (α := Float)
    successorScope successorGrammar [reusedTwo] 0 (by decide)
  obtain ⟨run₀, run₁, hrun₀, hrun₁⟩ := hreturn successor_roomy
  obtain ⟨-, hkept⟩ := hreuse run₀ run₁ hrun₀ hrun₁
  have hroom : run₁.candidates.size ≤ 20 := by
    have hlen := congrArg List.length (stored_of_reuse hrun₁).2
    rw [List.length_map, Array.length_toList] at hlen
    rw [hlen]
    decide
  obtain ⟨c, hc, -⟩ := List.map_eq_singleton_iff.1
    (programs_frontier (programs_of_successor hrun₀) successorScope.task)
  obtain ⟨c', hc', -⟩ := List.map_eq_singleton_iff.1
    (programs_frontier (stored_of_reuse hrun₁).2 successorScope.task)
  obtain ⟨d, hd, hstands⟩ := hkept hinputs huncut (successor_completes hrun₀)
    (reuse_completes hrun₁) 20 20 hroom c (hc ▸ List.mem_singleton_self c)
  rw [hc', List.mem_singleton] at hd
  exact ⟨run₀, run₁, hrun₀, hrun₁, c, c', hc, hc', hd ▸ hstands⟩

/-- The successor itself is lost, though neither search is cut short, and there is room for
it: the body of the program from before is stored in its place. -/
theorem the_successor_is_lost_to_a_constant :
    (∀ seeds ∈ [[], [reusedTwo]], (steps (α := Float) successorScope successorGrammar seeds
      (Run.start successorScope 0)).isOk = true) ∧
    ∃ run₀ run₁ : Run Float, solveTask successorScope successorGrammar [] 0 = .ok run₀ ∧
      solveTask successorScope successorGrammar [reusedTwo] 0 = .ok run₁ ∧
      (run₀.frontier successorScope.task 20).candidates.map (·.program) =
        [.lam (.app (.prim .incr) (.var 0))] ∧
      (run₁.frontier successorScope.task 20).candidates.map (·.program) = [reusedTwo] ∧
      ¬ ∀ c ∈ (run₀.frontier successorScope.task 20).candidates,
        c ∈ (run₁.frontier successorScope.task 20).candidates := by
  obtain ⟨run₀, hrun₀⟩ := @exists_solveTask Float _ successorScope successorGrammar [] 0
    (by decide) successor_roomy
  obtain ⟨run₁, hrun₁⟩ := @exists_solveTask Float _ successorScope successorGrammar [reusedTwo] 0
    (by decide) successor_roomy
  have hfirst := programs_frontier (programs_of_successor hrun₀) successorScope.task
  have hsecond := programs_frontier (stored_of_reuse hrun₁).2 successorScope.task
  refine ⟨successor_uncut, run₀, run₁, hrun₀, hrun₁, hfirst, hsecond, fun hfound => ?_⟩
  have hmem : Term.lam (.app (.prim .incr) (.var 0)) ∈ [reusedTwo] := by
    rw [← hsecond]
    refine List.map_subset _ hfound ?_
    rw [hfirst]
    exact List.mem_singleton_self _
  exact absurd hmem (by decide)

end SymbolInduction.Enumeration
