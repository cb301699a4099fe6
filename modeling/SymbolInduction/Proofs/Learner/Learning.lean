-- Learning without noise. Where a program within reach of the search
-- reproduces all examples of a symbol, one due round solves the symbol.
import SymbolInduction.Proofs.Enumeration.Tasks
import SymbolInduction.Proofs.Evaluation.Programs
import SymbolInduction.Proofs.Learner.Rounds
import SymbolInduction.Proofs.Symbol.Ratings

namespace SymbolInduction

open Enumeration Evaluation

/-! ## Programs for a task -/

section

variable {bounds : Bounds} {task : Task} {body : Term}

/-- A body that reproduces the examples of a task is no function, so its program
takes as many arguments as the task. -/
theorem arity_of_reproduces (hbody : Reproduces (untimed bounds task) body)
    (hne : task.examples ≠ []) : (body.lambdas task.arity).arity = task.arity := by
  obtain ⟨e, he⟩ := List.exists_mem_of_ne_nil _ hne
  obtain ⟨d, hd, hy⟩ := hbody e he
  exact arity_lambdas_of_value? hd hy _

/-- A program whose body reproduces the examples of a task gives their outputs,
where no limit stops it. -/
theorem output_of_reproduces (hbody : Reproduces (untimed bounds task) body)
    (hinputs : FullInputs task) {e : Example} (he : e ∈ task.examples)
    (hlen : e.inputs.length = task.arity)
    (hends : ∀ err, outcome (evaluate {} (body.lambdas task.arity) e.inputs) = .error err →
      err.isLimit = false) :
    (Program.ofTerm (body.lambdas task.arity)).output e.inputs = e.output := by
  obtain ⟨d, hd, hy⟩ := hbody e he
  have hmissing := (hinputs e he).2
  have harity := arity_of_reproduces hbody (List.ne_nil_of_mem he)
  rw [← hlen] at harity hends ⊢
  have hrun : (Body.term (body.lambdas e.inputs.length)).run e.inputs = .ok e.output :=
    outcome_evaluate hmissing hd hy hends
  have haccepts : (Body.term (body.lambdas e.inputs.length)).accepts e.inputs = true := by
    unfold Body.accepts Body.arity
    simp [harity, hmissing]
  change Body.output (.term (body.lambdas e.inputs.length)) e.inputs = _
  unfold Body.output Body.answer
  rw [if_pos haccepts, hrun]

/-- No example of a task that can be solved has a mark for its output. -/
theorem output_ne_mark {t : Term} (ht : Reproduces (untimed bounds task) t)
    (hinputs : FullInputs task) {e : Example} (he : e ∈ task.examples) :
    e.output ≠ .empty ∧ e.output ≠ .missing := by
  obtain ⟨d, hd, hy⟩ := ht e he
  have hmark := @value?_ne_empty (untimed bounds task).limits task hinputs e he t
  rw [hd] at hmark
  generalize e.output = y at hy ⊢
  cases d <;> cases hy
  case int => exact ⟨by simp, by simp⟩
  case list => exact ⟨by simp, by simp⟩
  case empty => exact absurd rfl hmark

end

namespace Learner

/-- The next round meets no limit: not in its search, and not where the symbol
`s` at position `i` scores what was found for it. -/
structure Unlimited (bounds : Bounds) (clock : Clock) (l : Learner Float) (source : DrawSource)
    (data : List (List Example)) (i : Nat) (s : Symbol Float) : Prop where
  search : Unhindered bounds clock (l.query source data) (clock.now 0)
    (l.query source data).tasks 1
  score : ∀ found, (oracle bounds clock (l.query source data)).value = .ok found →
    ∀ (f : Frontier Float) (best : Candidate Float), (Task.nameFor i, f) ∈ found.solutions.entries →
      f.best? = some best → ∀ e ∈ s.examples, ∀ err,
        outcome (evaluate {} best.program e.inputs) = .error err → err.isLimit = false

variable {l : Learner Float} {source : DrawSource} {data : List (List Example)}

theorem exists_of_mem_names (hdue : l.options.schedule (l.round + 1) = true) {name : String}
    (h : name ∈ (l.tasksOf source data).map (·.name)) : ∃ i, name = Task.nameFor i := by
  obtain ⟨task, htask, rfl⟩ := List.mem_map.1 h
  rw [tasksOf_eq hdue, List.mem_filterMap] at htask
  obtain ⟨⟨s, i⟩, -, hs⟩ := htask
  exact ⟨s.idx, Symbol.name_of_task? hs⟩

/-- A symbol that is learned comes out of the observations of a round. -/
theorem exists_observed {i : Nat} {s : Symbol Float}
    (hs : (l.observed source data).symbols[i]? = some s) (hlearnable : s.learnable = true) :
    ∃ s₀ batch, l.symbols[i]? = some s₀ ∧ s₀.learnable = true ∧ s = (s₀.observe batch).value := by
  have hsymbols := forall₂_observeFrom (source l.options.seed (l.round + 1))
    (l.options.schedule (l.round + 1)) data 0 l.symbols
  obtain ⟨s₀, hs₀, heq⟩ := getElem?_of_forall₂ hsymbols hs
  split at heq
  · rename_i h
    exact ⟨s₀, _, hs₀, h, heq⟩
  · rename_i h
    subst heq
    exact absurd hlearnable h

/-- What a symbol that is learned and not solved is like once it has taken in the
observations of a round. -/
theorem observed_of_unsolved (hl : Reached l) {i : Nat} {s : Symbol Float}
    (hs : (l.observed source data).symbols[i]? = some s) (hlearnable : s.learnable = true)
    (hunsolved : s.solved = false) :
    s.Rated ∧ (s.explanation = none ∨ Scalar.le s.settings.solvedThreshold s.likelihood = false) ∧
      ∀ e ∈ s.examples, e.inputs.length = s.arity := by
  obtain ⟨s₀, batch, hs₀, hlearnable₀, rfl⟩ := exists_observed hs hlearnable
  obtain ⟨hrated, -, hjudged⟩ := Symbol.rated_observe hlearnable₀ batch
  obtain ⟨-, -, hfits⟩ := hl.numbered i s₀ hs₀
  refine ⟨hrated, hjudged hunsolved, ?_⟩
  rw [(s₀.follows_observe batch).arity]
  exact Symbol.length_inputs_observe hfits batch

theorem readyFor_of_unsolved (tasks : List Task) {i : Nat} {s : Symbol Float}
    (hs : l.symbols[i]? = some s) (hunsolved : s.solved = false) :
    (l.readyFor tasks).symbols[i]? = some s := by
  have hsymbols := (l.readied_readyFor tasks).symbols
  have hlt := (List.getElem?_eq_some_iff.1 hs).1
  rw [hsymbols.length_eq] at hlt
  have hs' := List.getElem?_eq_getElem hlt
  obtain ⟨t, ht, -, hsame⟩ := getElem?_of_forall₂ hsymbols hs'
  rw [hs] at ht
  cases ht
  rw [hs', hsame hunsolved]

/-- A symbol that is not solved considers the best candidate for its task. -/
theorem offered_of_task (hdue : l.options.schedule (l.round + 1) = true)
    {found : Findings Float}
    (hkeys : ∀ entry ∈ found.solutions.entries, entry.1 ∈ (l.tasksOf source data).map (·.name))
    {i : Nat} {s : Symbol Float} (hs : (l.observed source data).symbols[i]? = some s)
    (hunsolved : s.solved = false) (hi : i < 2 ^ 64) {f : Frontier Float} {best : Candidate Float}
    (hentry : (Task.nameFor i, f) ∈ found.solutions.entries) (hbest : f.best? = some best) :
    (l.offered source data found)[i]? = some (s.consider (.ofTerm best.program)).value.2 := by
  refine adoptAll_named hentry found.solutions.nodup_keys ?_ ?_ hbest (readyFor_of_unsolved _ hs hunsolved)
  · intro entry hmem hne hname
    obtain ⟨j, hj⟩ := exists_of_mem_names hdue (hkeys entry hmem)
    rw [hj, Task.symbolNamed?_nameFor] at hname
    split at hname
    · cases hname
      exact hne hj
    · cases hname
  · rw [Task.symbolNamed?_nameFor, if_pos hi]

/-- A round after which a symbol was offered its candidate ends with the symbol as
it is, or another one drove it out. -/
theorem kept_or_driven_out {oracle : Oracle Float} {found : Findings Float}
    (htasks : l.tasksOf source data ≠ [])
    (hfound : (oracle (l.query source data)).value = .ok found) {i : Nat} {s : Symbol Float}
    (hs : (l.offered source data found)[i]? = some s) :
    (l.learn source data oracle).value.2.symbols[i]? = some s ∨
      (l.learn source data oracle).value.2.symbols[i]? = some s.clear ∧
        ∃ j u, j ≠ i ∧ (l.offered source data found)[j]? = some u ∧ DrivesOut j u i s := by
  have hmerged := settled_mergeFrom 0 (l.offered source data found)
  rw [symbols_learn htasks hfound]
  by_cases hstays : Stays (l.offered source data found) i s
  · exact Or.inl (hmerged.stays i s hs hstays)
  · refine Or.inr ⟨hmerged.cleared i s hs hstays, ?_⟩
    unfold Stays at hstays
    push Not at hstays
    exact hstays

/-- A round for which the oracle finds something ends with a report. -/
theorem exists_report {oracle : Oracle Float} {found : Findings Float}
    (htasks : l.tasksOf source data ≠ [])
    (hfound : (oracle (l.query source data)).value = .ok found) :
    ∃ report, (l.learn source data oracle).value.1 = .ok report := by
  unfold learn
  simp only [Logged.value_bind, start_of_tasks htasks, hfound]
  exact ⟨_, rfl⟩

/-- Where a word counts all values of some examples, ten for each argument, the
quotients in a score are of counts that are exact. -/
theorem counts_of_word {n arity : Nat} (hle : 10 * arity ≤ n)
    (hword : n * (arity + 1) < 2 ^ 64) : n < 2 ^ 64 ∧ 10 * arity < 2 ^ 53 := by
  refine ⟨Nat.lt_of_le_of_lt (Nat.le_mul_of_pos_right n arity.succ_pos) hword, ?_⟩
  by_contra hlarge
  have hsquare : 10 * arity * (arity + 1) ≤ n * (arity + 1) := Nat.mul_le_mul_right _ hle
  have hmany : 2 ^ 53 * 2 ^ 11 ≤ 10 * arity * (arity + 1) := Nat.mul_le_mul (by omega) (by omega)
  omega

/-- The symbol is solved for certain, by a program that is right on its examples. -/
structure SolvedFor (examples : List Example) (s : Symbol Float) : Prop where
  examples_eq : s.examples = examples
  solved : s.solved = true
  likelihood : s.likelihood = Scalar.one
  program : ∃ p, s.explanation = some p ∧ ∀ e ∈ examples, p.output e.inputs = e.output

/-- A program that is right on all examples solves a symbol that was not solved. -/
theorem solvedFor_consider {s : Symbol Float} {p : Program} (hlearnable : s.learnable = true)
    (hrated : s.Rated)
    (hjudged : s.explanation = none ∨ Scalar.le s.settings.solvedThreshold s.likelihood = false)
    (hthreshold : s.settings.solvedThreshold = Scalar.ratio 19 20)
    (hpenalty : s.settings.arityPenalty = Scalar.ofNat 10) (hne : s.examples ≠ [])
    (houtputs : ∀ e ∈ s.examples, e.output ≠ .empty ∧ e.output ≠ .missing)
    (hright : ∀ e ∈ s.examples, p.output e.inputs = e.output) (harity : p.arity = s.arity)
    (hle : 10 * s.arity ≤ s.examples.length) (hword : s.examples.length * (s.arity + 1) < 2 ^ 64) :
    SolvedFor s.examples (s.consider p).value.2 := by
  obtain ⟨hlen, hpenalized⟩ := counts_of_word hle hword
  have hlikely : Scalar.lt s.likelihood Scalar.one = true :=
    Symbol.lt_one_of_unsolved hrated hthreshold hjudged houtputs hlen
  rw [← harity] at hpenalized hle
  obtain ⟨hsolved, hlikelihood, q, hq, hbody⟩ :=
    Symbol.consider_of_all hlearnable hlikely hthreshold hpenalty hne hright hlen hpenalized hle
  refine ⟨(s.sameRecord_consider p).1.examples, hsolved, hlikelihood, q, hq, fun e he => ?_⟩
  rw [← hright e he]
  exact congrArg (Body.output · e.inputs) hbody

/-- Learning without noise takes one due round. In a learner that came about
without taking up a saved model, with the default threshold and penalty, let a
symbol that is learned be unsolved once the round's observations are taken in,
with at least as many examples as a task needs, one, and ten for each argument,
and at most as many as a task takes. If a term that the search can build within
its greatest cost, a hundred at most, reproduces all of them, and no limit is
met, then the round ends with a report and solves the symbol, and another symbol
can only drive it out in the merge. The position of the symbol and the number of values in its examples
fit in a word of the machine. -/
theorem a_due_round_solves (hl : Reached l) (hdue : l.options.schedule (l.round + 1) = true)
    (hthreshold : l.options.settings.solvedThreshold = Scalar.ratio 19 20)
    (hpenalty : l.options.settings.arityPenalty = Scalar.ofNat 10) {bounds : Bounds} {clock : Clock}
    (hmaxCost : bounds.maxCost ≤ 100) (hmaximum : 1 ≤ l.options.maximumFrontier) {i : Nat}
    {s : Symbol Float} (hs : (l.observed source data).symbols[i]? = some s)
    (hlearnable : s.learnable = true) (hunsolved : s.solved = false)
    (hleast : max (max l.options.settings.minTaskExamples 1) (10 * s.arity) ≤ s.examples.length)
    (hmost : s.examples.length ≤ l.options.settings.maxTaskExamples)
    (hinputs : FullInputs s.wholeTask) {t : Term} {cost : Nat}
    (ht : Enumerable (untimed bounds s.wholeTask) (l.query source data).grammar t cost)
    (hcost : cost ≤ bounds.maxCost) (hreproduces : Reproduces (untimed bounds s.wholeTask) t)
    (hlimits : Unlimited bounds clock l source data i s)
    (hword : i < 2 ^ 64 ∧ s.examples.length * (s.arity + 1) < 2 ^ 64) :
    let out := (l.learn source data (oracle bounds clock)).value
    ∃ found, (oracle bounds clock (l.query source data)).value = .ok found ∧
      (∃ report, out.1 = .ok report) ∧
        ∃ s', SolvedFor s.examples s' ∧ (l.offered source data found)[i]? = some s' ∧
          (out.2.symbols[i]? = some s' ∨ out.2.symbols[i]? = some s'.clear ∧
            ∃ j u, j ≠ i ∧ (l.offered source data found)[j]? = some u ∧ DrivesOut j u i s') := by
  intro out
  obtain ⟨hidx, hsettings, -⟩ := (l.follows_observe source data).numbered hl.numbered i s hs
  rw [(l.follows_observe source data).options] at hsettings
  rw [← hsettings] at hthreshold hpenalty hleast hmost
  have hne : s.examples ≠ [] := List.length_pos_iff.1 (by omega)
  -- the task of the symbol is among those of the round
  have htask := mem_tasksOf hdue hs (Symbol.task?_eq hlearnable hunsolved hne (by omega) hmost _)
  obtain ⟨found, hfound, hkeys, f, best, body, hentry, hbest, hprogram, hbody⟩ := oracle_solves
    (by rw [tasks_query]; exact nodup_names hl.numbered hdue) hlimits.search
    (by rw [tasks_query]; exact htask) hinputs hmaxCost
    (by rw [maximumFrontier_query]; exact hmaximum) ht hcost hreproduces
  rw [tasks_query] at hkeys
  have hentry : (Task.nameFor i, f) ∈ found.solutions.entries := hidx ▸ hentry
  have hoffered := offered_of_task hdue hkeys hs hunsolved hword.1 hentry hbest
  obtain ⟨hrated, hjudged, hlengths⟩ := observed_of_unsolved hl hs hlearnable hunsolved
  have hright : ∀ e ∈ s.examples, (Program.ofTerm best.program).output e.inputs = e.output := by
    intro e he
    rw [hprogram]
    refine output_of_reproduces hbody hinputs he ((hlengths e he).trans s.arity_wholeTask.symm) ?_
    rw [← hprogram]
    exact hlimits.score found hfound f best hentry hbest e he
  have harity : (Program.ofTerm best.program).arity = s.arity := by
    change best.program.arity = s.arity
    rw [hprogram, arity_of_reproduces hbody hne, s.arity_wholeTask]
  have htasks := List.ne_nil_of_mem htask
  exact ⟨found, hfound, exists_report htasks hfound, _,
    solvedFor_consider hlearnable hrated hjudged hthreshold hpenalty hne
      (fun e he => output_ne_mark hreproduces hinputs he) hright harity (by omega) hword.2,
    hoffered, kept_or_driven_out htasks hfound hoffered⟩

/-! ### A symbol that gives back its argument -/

/-- What is observed of the symbol: ten numbers, none of which is a component. -/
def echoes : List Example :=
  (List.range 10).map fun n => ⟨[.int (Int64.ofNat (n + 2))], .int (Int64.ofNat (n + 2))⟩

/-- A new learner with one symbol, which asks for programs in every round. -/
def echoing : Learner Float :=
  .new [{ name := "echo", arity := 1 }] { Options.default with schedule := .always }

/-- What its oracle is asked in the first round. -/
def echoQuery : Query := echoing.query (fun _ _ _ => .first) [echoes]

/-- How far the oracle searches: up to cost one. -/
def echoBounds : Bounds := .ofWords 1 10 20

/-- Its search for the one task, which has all the time. -/
def echoScope : Scope where
  bounds := echoBounds
  clock := .still
  deadline := echoQuery.budget.timeout.nanoseconds
  task := .forSymbol 0 (Symbol.requestFor 1 (echoes.headD ⟨[], .empty⟩)) echoes

/-- The terms of cost one. -/
def echoTerms : List Term := [.var 0, .literal 0, .literal 1, .prim .nil]

theorem tasks_echoQuery : echoQuery.tasks = [echoScope.task] := by decide

theorem deadline_echo : deadlineFor .still echoQuery.budget.timeout 0 1 1 =
    .ok echoScope.deadline := by decide +kernel

theorem startingTerms_echo :
    startingTerms echoQuery.grammar echoScope.task.arity (seedsOf echoQuery) = echoTerms := by
  decide

/-- The search stores these terms, and one of them is a candidate. -/
theorem exists_echo_run : ∃ run : Run Float,
    steps echoScope echoQuery.grammar (seedsOf echoQuery) (Run.start echoScope 3) = .ok run ∧
      run.bank.stored.toList.map (fun s => (s.term, s.cost)) = echoTerms.map (fun t => (t, 1)) ∧
        run.candidates.toList.map (·.program) = [.lam (.var 0)] := by
  have hsteps : (steps (α := Float) echoScope echoQuery.grammar (seedsOf echoQuery)
      (Run.start echoScope 3)).toOption.map (fun run =>
        (run.bank.stored.toList.map (fun s => (s.term, s.cost)),
          run.candidates.toList.map (·.program))) =
      some (echoTerms.map (fun t => (t, 1)), [.lam (.var 0)]) := by
    decide
  cases hrun : steps (α := Float) echoScope echoQuery.grammar (seedsOf echoQuery)
      (Run.start echoScope 3) with
  | error e =>
    rw [hrun] at hsteps
    cases hsteps
  | ok run =>
    rw [hrun] at hsteps
    obtain ⟨hstored, hcandidates⟩ := Prod.mk.inj (Option.some.inj hsteps)
    exact ⟨run, rfl, hstored, hcandidates⟩

theorem echo_completes {run : Run Float}
    (hstored : run.bank.stored.toList.map (fun s => (s.term, s.cost)) =
      echoTerms.map (fun t => (t, 1))) :
    run.Completes echoScope echoQuery.grammar (seedsOf echoQuery) := by
  have hends : ∀ t ∈ echoTerms, ∀ e ∈ echoes,
      (outcome (eval echoScope.limits t (environmentOf e))).isOk = true := by
    decide
  have hcompletes : ∀ t ∈ echoTerms, ∀ e ∈ echoScope.task.examples,
      Completes echoScope.limits (environmentOf e) t := by
    intro t ht e he err herr
    have hend := hends t ht e he
    rw [herr] at hend
    cases hend
  have hcheap : ∀ s ∈ run.bank.stored.toList, s.term ∈ echoTerms ∧ s.cost = 1 := by
    intro s hs
    have hmem := List.mem_map_of_mem (f := fun s : Stored => (s.term, s.cost)) hs
    rw [hstored] at hmem
    obtain ⟨t, ht, heq⟩ := List.mem_map.1 hmem
    obtain ⟨rfl, hcost⟩ := Prod.mk.inj heq
    exact ⟨ht, hcost.symm⟩
  intro t ht
  cases ht with
  | starting ht =>
    rw [startingTerms_echo] at ht
    exact hcompletes t ht
  | @stored s hs => exact hcompletes s.term (hcheap s hs).1
  | @operation op args hop hargs hlen hcost =>
    -- an operation on stored terms costs more than one
    have hop : (op.isFirstOrder && op.arity != 0) = true := (List.mem_filter.1 hop).2
    cases args with
    | nil => simp [← hlen] at hop
    | cons s args =>
      rw [List.map_cons, List.sum_cons, (hcheap s (hargs s (by simp))).2] at hcost
      exact absurd hcost (by change ¬_ ≤ 1; omega)

/-- What the oracle finds for the one task is a program that gives back its
argument. -/
theorem program_of_echo {found : Findings Float}
    (hfound : (oracle echoBounds .still echoQuery).value = .ok found) {name : String}
    {f : Frontier Float} {best : Candidate Float} (hentry : (name, f) ∈ found.solutions.entries)
    (hbest : f.best? = some best) : best.program = .lam (.var 0) := by
  obtain ⟨run, hsteps, -, hcandidates⟩ := exists_echo_run
  obtain rfl := eq_frontier_of_one_task (by decide) tasks_echoQuery (by decide) deadline_echo
    hsteps hfound hentry
  have hmem := Frontier.mem_of_mem_keepBest (Frontier.mem_of_best? hbest)
  have hprogram := List.mem_map_of_mem (f := fun c : Candidate Float => c.program) hmem
  rw [hcandidates] at hprogram
  exact List.mem_singleton.1 hprogram

theorem exists_echo_symbol : ∃ s : Symbol Float,
    (echoing.observed (fun _ _ _ => .first) [echoes]).symbols = [s] ∧ s.learnable = true ∧
      s.solved = false ∧ s.arity = 1 ∧ s.examples = echoes := by
  have hsymbols : ((echoing.observed (fun _ _ _ => .first) [echoes]).symbols.map fun s =>
      (s.learnable, s.solved, s.arity, s.examples)) = [(true, false, 1, echoes)] := by
    decide
  obtain ⟨s, hs, heq⟩ := List.map_eq_singleton_iff.1 hsymbols
  simp only [Prod.mk.injEq] at heq
  exact ⟨s, hs, heq⟩

/-- Within the limits of the search the variable gives back the argument. -/
theorem value_echo {scope : Scope} (hbounds : scope.bounds = echoBounds) {e : Example}
    (he : e ∈ echoes) : ∃ n, e = ⟨[.int n], .int n⟩ ∧
      outcome (eval scope.limits (.var 0) (environmentOf e)) = .ok (.int n) := by
  unfold Scope.limits
  rw [hbounds]
  obtain ⟨n, -, rfl⟩ := List.mem_map.1 he
  exact ⟨_, rfl, rfl⟩

theorem echo_reproduces {scope : Scope} (hbounds : scope.bounds = echoBounds)
    (hexamples : scope.task.examples = echoes) : Reproduces scope (.var 0) := by
  intro e he
  obtain ⟨n, rfl, hvalue⟩ := value_echo hbounds (hexamples ▸ he)
  exact ⟨.int n, congrArg Except.toOption hvalue, rfl⟩

theorem echo_shows {scope : Scope} (hbounds : scope.bounds = echoBounds)
    (hexamples : scope.task.examples = echoes) : Shows scope (.var 0) := by
  refine ⟨?_, ?_, ?_⟩
  · intro e he err herr
    obtain ⟨n, rfl, hvalue⟩ := value_echo hbounds (hexamples ▸ he)
    cases hvalue.symm.trans herr
  · intro e he d hd
    obtain ⟨n, rfl, hvalue⟩ := value_echo hbounds (hexamples ▸ he)
    cases (congrArg Except.toOption hvalue).symm.trans hd
    rfl
  · have he : echoes[0] ∈ scope.task.examples := by
      rw [hexamples]
      exact List.getElem_mem _
    obtain ⟨d, hd, -⟩ := echo_reproduces hbounds hexamples _ he
    exact ⟨_, he, d, hd⟩

theorem echo_unlimited {s : Symbol Float} (hexamples : s.examples = echoes) :
    Unlimited echoBounds .still echoing (fun _ _ _ => .first) [echoes] 0 s where
  search := by
    obtain ⟨run, hsteps, hstored, -⟩ := exists_echo_run
    change Unhindered echoBounds .still echoQuery 0 echoQuery.tasks 1
    rw [tasks_echoQuery]
    exact ⟨by decide, _, deadline_echo, run, hsteps, echo_completes hstored, trivial⟩
  score found hfound f best hentry hbest e he err herr := by
    have hends : ∀ e ∈ echoes, (outcome (evaluate {} (.lam (.var 0)) e.inputs)).isOk = true := by
      decide
    have hend := hends e (hexamples ▸ he)
    rw [← program_of_echo hfound hentry hbest, herr] at hend
    cases hend

/-- A new learner learns in one round to give back an argument. -/
theorem an_echo_is_learned_in_one_round :
    let out := (echoing.learn (fun _ _ _ => .first) [echoes] (oracle echoBounds .still)).value
    (∃ report, out.1 = .ok report) ∧
      ∃ s, out.2.symbols[0]? = some s ∧ SolvedFor echoes s := by
  intro out
  obtain ⟨s, hsymbols, hlearnable, hunsolved, harity, hexamples⟩ := exists_echo_symbol
  have hs : (echoing.observed (fun _ _ _ => .first) [echoes]).symbols[0]? = some s := by
    rw [hsymbols]
    rfl
  have hinputs : FullInputs s.wholeTask := by
    intro e he
    change e ∈ s.examples at he
    rw [hexamples] at he
    obtain ⟨n, rfl, -⟩ := @value_echo (untimed echoBounds s.wholeTask) rfl e he
    simp
  have hvar : (0 : Nat) < s.wholeTask.arity := by rw [s.arity_wholeTask, harity]; decide
  obtain ⟨found, -, hreport, s', hsolved, hoffered, hend⟩ := a_due_round_solves (.new _ _) rfl rfl rfl
    (by decide) (by decide) hs hlearnable hunsolved (by rw [harity, hexamples]; decide)
    (by rw [hexamples]; decide) hinputs (.var hvar (echo_shows rfl hexamples)) (by decide)
    (echo_reproduces rfl hexamples) (echo_unlimited hexamples) (by rw [harity, hexamples]; decide)
  rw [hexamples] at hsolved
  refine ⟨hreport, s', hend.resolve_right ?_, hsolved⟩
  -- there is no other symbol that could drive it out
  rintro ⟨-, j, u, hj, hu, -⟩
  have hfollows := ((echoing.observed (fun _ _ _ => .first) [echoes]).readied_readyFor
    (echoing.tasksOf (fun _ _ _ => .first) [echoes])).follows.trans
      (follows_adoptAll _ found.solutions.entries)
  obtain ⟨s₀, hs₀, -⟩ := hfollows.symbols j u hu
  rw [hsymbols, List.getElem?_singleton, if_neg hj] at hs₀
  cases hs₀

end Learner

end SymbolInduction
