-- A search for several tasks. Where no limit is met, each task has its whole
-- search, and the frontier of a task that can be solved has for its best
-- candidate a program whose body reproduces all examples.
import SymbolInduction.Proofs.Enumeration.Completeness

namespace SymbolInduction.Enumeration

open Evaluation

/-! ## What hits all examples -/

theorem eq_ok_of_gives {r : Except EvalError Datum} {o : Observation} {y : Value}
    (ho : Observation.ofOutcome? r = some o) (hy : o.gives y = true) :
    ∃ d, r.toOption = some d ∧ d.toValue = .ok y := by
  cases r with
  | error e =>
    cases ho
    cases y <;> cases hy
  | ok d =>
    refine ⟨d, rfl, ?_⟩
    cases d <;> cases ho <;> cases y <;> simp_all [Observation.gives, Datum.toValue]

/-- A stored term that hits all examples reproduces them. -/
theorem reproduces_of_hits {scope : Scope} {s : Stored}
    (hsig : scope.signature? s.term = some s.signature)
    (hhits : scope.task.examples.length - Bank.hits scope.task.examples s = 0) :
    Reproduces scope s.term := by
  have hobserved := forall₂_signature hsig
  have hlen := hobserved.length_eq
  have hcount : Bank.hits scope.task.examples s = (s.signature.zip scope.task.examples).length := by
    have hle : Bank.hits scope.task.examples s ≤ (s.signature.zip scope.task.examples).length :=
      List.countP_le_length
    rw [List.length_zip] at hle ⊢
    omega
  have hgives := List.countP_eq_length.1 hcount
  have hboth : List.Forall₂ (fun o e => observed? scope s.term e = some o ∧ o.gives e.output = true)
      s.signature scope.task.examples :=
    List.forall₂_iff_zip.2 ⟨hlen.symm, fun hmem =>
      ⟨(List.forall₂_iff_zip.1 hobserved.flip).2 hmem, hgives _ hmem⟩⟩
  intro e he
  obtain ⟨o, -, ho, hy⟩ := exists_of_mem_right hboth he
  exact eq_ok_of_gives ho hy

/-! ## Searches at different times -/

/-- The scope of a search for a task, for what does not depend on time. -/
def untimed (bounds : Bounds) (task : Task) : Scope :=
  { bounds, clock := .still, deadline := 0, task }

theorem Enumerable.timed {bounds : Bounds} {task : Task} {g : Grammar} {t : Term} {cost : Nat}
    (h : Enumerable (untimed bounds task) g t cost) (clock : Clock) (deadline : Nat) :
    Enumerable { bounds, clock, deadline, task } g t cost := by
  have hshows : ∀ t, Shows (untimed bounds task) t → Shows { bounds, clock, deadline, task } t :=
    fun t h => ⟨h.completes, h.data, h.value⟩
  induction h with
  | var hi h => exact .var hi (hshows _ h)
  | leaf hc harity h => exact .leaf hc harity (hshows _ h)
  | applied hc hfirst harity hlen _ h ih => exact .applied hc hfirst harity hlen ih (hshows _ h)

/-- The programs from which a search for a query starts. -/
def seedsOf (q : Query) : List Term := (q.exploration.map (·.programs)).getD []

/-- A frontier that a search for the task left, which no limit cut short. -/
def Searched (bounds : Bounds) (q : Query) (task : Task) (f : Frontier Float) : Prop :=
  ∃ (clock : Clock) (deadline readings : Nat) (run : Run Float),
    steps { bounds, clock, deadline, task } q.grammar (seedsOf q)
        (Run.start { bounds, clock, deadline, task } readings) = .ok run ∧
      run.Completes { bounds, clock, deadline, task } q.grammar (seedsOf q) ∧
        f = run.frontier task q.budget.maximumFrontier

/-- Where some term that could be built reproduces all examples, the best
candidate is a program whose body reproduces them. -/
theorem Searched.exists_best {bounds : Bounds} {q : Query} {task : Task} {f : Frontier Float}
    (h : Searched bounds q task f) (hinputs : FullInputs task) (hmax : bounds.maxCost ≤ 100)
    (hmaximum : 1 ≤ q.budget.maximumFrontier) {t : Term} {cost : Nat}
    (ht : Enumerable (untimed bounds task) q.grammar t cost) (hcost : cost ≤ bounds.maxCost)
    (hreproduces : Reproduces (untimed bounds task) t) :
    ∃ best body, f.best? = some best ∧ best.program = body.lambdas task.arity ∧
      Reproduces (untimed bounds task) body := by
  obtain ⟨clock, deadline, readings, run, hsteps, hcomplete, rfl⟩ := h
  have ht := ht.timed clock deadline
  have hpos := ht.pos
  have hlands := @Run.lands_steps Float _ { bounds, clock, deadline, task } q.grammar (seedsOf q)
    readings (by dsimp only; omega)
  rw [hsteps] at hlands
  have hfilled : run.Filled { bounds, clock, deadline, task } q.grammar (seedsOf q) bounds.maxCost :=
    hlands
  obtain ⟨s, hs, hsig, hle⟩ := exists_representative hinputs hfilled hcomplete ht hcost
  have hexamples : task.examples ≠ [] := by
    obtain ⟨e, he, -⟩ := ht.shows.value
    exact List.ne_nil_of_mem he
  obtain ⟨u, hu, hbest, hnone, -⟩ := Enumeration.exists_best hfilled.within hmax hmaximum hs hexamples
    (hits_eq hinputs hreproduces hsig)
  have hbody := reproduces_of_hits (hfilled.within.sound.signature?_stored hu) hnone
  exact ⟨_, u.term, hbest, rfl, hbody⟩

/-! ## All tasks -/

theorem value_bind_run {α β γ : Type} (x : Searching α β) (f : β → Searching α γ) :
    (x >>= f).run.value =
      match x.run.value with
      | .ok b => (f b).run.value
      | .error e => .error e := by
  change (x.run >>= ExceptT.bindCont f).value = _
  rw [Logged.value_bind]
  cases x.run.value <;> rfl

@[simp]
theorem value_of {α β : Type} (x : Except Panic β) :
    (Searching.of x : Searching α β).run.value = x.mapError .panicked := rfl

/-- A search for some tasks meets no limit: there is time left for each of
them, until an instant that the clock can show; no search is cut short, and no
evaluation stops at a limit. -/
def Unhindered (bounds : Bounds) (clock : Clock) (q : Query) (start : Nat) :
    List Task → (readings : Nat) → Prop
  | [], _ => True
  | task :: rest, readings =>
    clock.now readings - start < q.budget.timeout.nanoseconds ∧
      ∃ deadline,
        deadlineFor clock q.budget.timeout start (rest.length + 1) readings = .ok deadline ∧
        ∃ run : Run Float,
          steps { bounds, clock, deadline, task } q.grammar (seedsOf q)
              (Run.start { bounds, clock, deadline, task } (readings + 2)) = .ok run ∧
            run.Completes { bounds, clock, deadline, task } q.grammar (seedsOf q) ∧
              Unhindered bounds clock q start rest run.readings

theorem solutions_add (p : Progress Float) (name : String) (f : Frontier Float) :
    (p.add name f).solutions =
      if f.candidates.isEmpty then p.solutions else p.solutions.insert name f := by
  unfold Progress.add
  dsimp only
  split <;> rfl

theorem get?_add (p : Progress Float) {name : String} {f : Frontier Float}
    (hf : f.candidates ≠ []) : (p.add name f).solutions.get? name = some f := by
  rw [solutions_add, if_neg (by simpa using hf), Table.get?_insert, if_pos rfl]

theorem get?_add_of_ne (p : Progress Float) {name other : String} (f : Frontier Float)
    (h : other ≠ name) : (p.add name f).solutions.get? other = p.solutions.get? other := by
  rw [solutions_add]
  split
  · rfl
  · rw [Table.get?_insert, if_neg h]

theorem value_visitTask {bounds : Bounds} {clock : Clock} {q : Query} {task : Task} {deadline : Nat}
    {p : Progress Float} {run : Run Float}
    (h : solveTask { bounds, clock, deadline, task } q.grammar (seedsOf q) p.readings = .ok run) :
    (visitTask bounds clock q task deadline p).run.value =
      .ok { p.add task.name (run.frontier task q.budget.maximumFrontier) with
        readings := run.readings } := by
  unfold visitTask
  dsimp only
  unfold seedsOf at h
  rw [value_bind_run, value_of, h]
  rfl

theorem value_visitTasks {bounds : Bounds} {clock : Clock} {q : Query} {start : Nat} {task : Task}
    {rest : List Task} {p : Progress Float} {run : Run Float} {deadline : Nat} (isFirst : Bool)
    (htime : ¬q.budget.timeout.nanoseconds ≤ clock.now p.readings - start)
    (hdeadline : deadlineFor clock q.budget.timeout start (rest.length + 1) p.readings =
      .ok deadline)
    (h : solveTask { bounds, clock, deadline, task } q.grammar (seedsOf q) (p.readings + 2) =
      .ok run) :
    (visitTasks bounds clock q start isFirst (task :: rest) p).run.value =
      (visitTasks bounds clock q start false rest
        { p.add task.name (run.frontier task q.budget.maximumFrontier) with
          readings := run.readings }).run.value := by
  rw [visitTasks]
  dsimp only
  rw [if_neg htime, value_bind_run, value_of, hdeadline]
  simp only [Except.mapError]
  rw [value_bind_run, value_visitTask (p := { p with readings := p.readings + 2 }) h]
  unfold Progress.add
  dsimp only
  split <;> rfl

/-- A search that meets no limit searches programs for all tasks, and gives the
frontiers with candidates under the names of their tasks, and no others. -/
theorem visitTasks_spec {bounds : Bounds} {clock : Clock} {q : Query} {start : Nat}
    {tasks : List Task} (htable : bounds.maxCost + 1 ≤ Bank.capacity)
    (hnames : (tasks.map (·.name)).Nodup) (isFirst : Bool) {p : Progress Float}
    (hfree : Unhindered bounds clock q start tasks p.readings) :
    ∃ p', (visitTasks bounds clock q start isFirst tasks p).run.value = .ok p' ∧
      (∀ name ∉ tasks.map (·.name), p'.solutions.get? name = p.solutions.get? name) ∧
        ∀ task ∈ tasks, ∃ f, Searched bounds q task f ∧
          (f.candidates ≠ [] → p'.solutions.get? task.name = some f) := by
  induction tasks generalizing isFirst p with
  | nil => exact ⟨p, rfl, fun _ _ => rfl, by simp⟩
  | cons task rest ih =>
    obtain ⟨htime, deadline, hdeadline, run, hsteps, hcomplete, hrest⟩ := hfree
    rw [List.map_cons, List.nodup_cons] at hnames
    let f : Frontier Float := run.frontier task q.budget.maximumFrontier
    obtain ⟨p', hp', hothers, hsearched⟩ :=
      @ih hnames.2 false { p.add task.name f with readings := run.readings } hrest
    rw [value_visitTasks isFirst (by omega) hdeadline
      (solveTask_eq_ok_iff.2 ⟨htable, Or.inl hsteps⟩)]
    refine ⟨p', hp', ?_, ?_⟩
    · intro name hname
      rw [List.map_cons, List.mem_cons, not_or] at hname
      rw [hothers name hname.2]
      exact get?_add_of_ne p f hname.1
    · intro t ht
      rcases List.mem_cons.1 ht with rfl | ht
      · refine ⟨f, ⟨clock, _, _, run, hsteps, hcomplete, rfl⟩, fun hf => ?_⟩
        rw [hothers t.name hnames.1]
        exact get?_add p hf
      · exact hsearched t ht

/-- An oracle answers with what its visits to the tasks came to. -/
theorem value_oracle {bounds : Bounds} {clock : Clock} {q : Query} {p : Progress Float}
    (hp : (visitTasks bounds clock q (clock.now 0) true q.tasks { readings := 1 }).run.value = .ok p) :
    (oracle bounds clock q).value =
      .ok { solutions := p.solutions, frontiers := p.frontiers
            exploration := some { grammarVersion := q.grammar.version
                                  requests := requestsOf q.tasks
                                  programs := p.found } } := by
  unfold oracle
  rw [value_bind_run, hp]
  rfl

/-- An oracle that meets no limit answers, with solutions for tasks of the query
and no others. -/
theorem oracle_spec {bounds : Bounds} {clock : Clock} {q : Query}
    (htable : bounds.maxCost + 1 ≤ Bank.capacity) (hnames : (q.tasks.map (·.name)).Nodup)
    (hfree : Unhindered bounds clock q (clock.now 0) q.tasks 1) :
    ∃ found : Findings Float, (oracle bounds clock q).value = .ok found ∧
      (∀ entry ∈ found.solutions.entries, entry.1 ∈ q.tasks.map (·.name)) ∧
        ∀ task ∈ q.tasks, ∃ f, Searched bounds q task f ∧
          (f.candidates ≠ [] → (task.name, f) ∈ found.solutions.entries) := by
  obtain ⟨p, hp, hothers, hsearched⟩ :=
    @visitTasks_spec bounds clock q (clock.now 0) q.tasks htable hnames true { readings := 1 } hfree
  refine ⟨_, value_oracle hp, ?_, ?_⟩
  · rintro ⟨name, f⟩ hentry
    by_contra hname
    have hget := hothers name hname
    rw [Table.get?_eq_some_iff.2 hentry] at hget
    cases hget
  · intro task htask
    obtain ⟨f, hf, hget⟩ := hsearched task htask
    exact ⟨f, hf, fun hne => Table.get?_eq_some_iff.1 (hget hne)⟩

/-- An oracle that meets no limit finds a program for each task that some term
within its reach solves. -/
theorem oracle_solves {bounds : Bounds} {clock : Clock} {q : Query} {task : Task}
    (hnames : (q.tasks.map (·.name)).Nodup)
    (hfree : Unhindered bounds clock q (clock.now 0) q.tasks 1) (htask : task ∈ q.tasks)
    (hinputs : FullInputs task) (hmax : bounds.maxCost ≤ 100)
    (hmaximum : 1 ≤ q.budget.maximumFrontier) {t : Term} {cost : Nat}
    (ht : Enumerable (untimed bounds task) q.grammar t cost) (hcost : cost ≤ bounds.maxCost)
    (hreproduces : Reproduces (untimed bounds task) t) :
    ∃ found : Findings Float, (oracle bounds clock q).value = .ok found ∧
      (∀ entry ∈ found.solutions.entries, entry.1 ∈ q.tasks.map (·.name)) ∧
        ∃ f best body, (task.name, f) ∈ found.solutions.entries ∧ f.best? = some best ∧
          best.program = body.lambdas task.arity ∧ Reproduces (untimed bounds task) body := by
  have htable : bounds.maxCost + 1 ≤ Bank.capacity :=
    Nat.le_trans (Nat.succ_le_succ hmax) (by decide)
  obtain ⟨found, hfound, hkeys, hsearched⟩ := oracle_spec htable hnames hfree
  obtain ⟨f, hf, hentry⟩ := hsearched task htask
  obtain ⟨best, body, hbest, hprogram, hbody⟩ :=
    hf.exists_best hinputs hmax hmaximum ht hcost hreproduces
  have hne : f.candidates ≠ [] := List.ne_nil_of_mem (Frontier.mem_of_best? hbest)
  exact ⟨found, hfound, hkeys, f, best, body, hentry hne, hbest, hprogram, hbody⟩

/-- Where the query has one task, what is found is what the search for it left. -/
theorem eq_frontier_of_one_task {bounds : Bounds} {clock : Clock} {q : Query} {task : Task}
    {run : Run Float} {deadline : Nat} (htable : bounds.maxCost + 1 ≤ Bank.capacity)
    (htasks : q.tasks = [task])
    (htime : ¬q.budget.timeout.nanoseconds ≤ clock.now 1 - clock.now 0)
    (hdeadline : deadlineFor clock q.budget.timeout (clock.now 0) 1 1 = .ok deadline)
    (h : steps { bounds, clock, deadline, task } q.grammar (seedsOf q)
      (Run.start { bounds, clock, deadline, task } 3) = .ok run)
    {found : Findings Float} (hfound : (oracle bounds clock q).value = .ok found) {name : String}
    {f : Frontier Float} (hentry : (name, f) ∈ found.solutions.entries) :
    f = run.frontier task q.budget.maximumFrontier := by
  let p : Progress Float := { readings := 1 }
  have hvisit := @value_visitTasks bounds clock q (clock.now 0) task [] p run deadline true htime
    hdeadline (solveTask_eq_ok_iff.2 ⟨htable, Or.inl h⟩)
  rw [← htasks] at hvisit
  rw [value_oracle hvisit] at hfound
  obtain rfl := Except.ok.inj hfound
  have hget := Table.get?_eq_some_iff.2 hentry
  change (p.add task.name _).solutions.get? name = some f at hget
  by_cases hname : name = task.name
  · subst hname
    by_cases hempty : (run.frontier task q.budget.maximumFrontier).candidates = []
    · rw [solutions_add, if_pos (by simpa using hempty)] at hget
      cases hget
    · rw [get?_add p hempty] at hget
      exact (Option.some.inj hget).symm
  · rw [get?_add_of_ne p _ hname] at hget
    cases hget

end SymbolInduction.Enumeration
