-- What a search looks up by number: the pool of a cost, the stored terms, the entries of a
-- pool, and the wheels of an odometer. Every number is in range but one. A search in which
-- no term may cost anything has no pool for the terms it starts from, and the first of them
-- that shows something finds no place. What else can stop the program is a number that
-- does not fit: the size of a table, a counter, or an instant.
import SymbolInduction.Proofs.Enumeration.Seeds

namespace SymbolInduction.Enumeration

/-! ## The odometer -/

/-- Turns an odometer from one of its wheels on. The wheel and its pool are looked up by
number. The wheel goes one further; at the end of its pool it goes back to zero, and the
next wheel turns. -/
def turn (pools : Array (Array Nat)) (wheels : Array Nat) (k : Nat) :
    Except Panic (Option (Array Nat)) :=
  if k < wheels.size then do
    let i ← entry wheels k
    let pool ← entry pools k
    if i + 1 < pool.size then .ok (some (wheels.setIfInBounds k (i + 1)))
    else turn pools (wheels.setIfInBounds k 0) (k + 1)
  else .ok none
termination_by wheels.size - k
decreasing_by
  rw [Array.size_setIfInBounds]
  omega

/-- Where there are as many wheels as pools, nothing that a turn looks up is missing, and
it goes to the next choice. -/
theorem turn_eq {pools : Array (Array Nat)} {wheels : Array Nat} (h : wheels.size = pools.size)
    (k : Nat) :
    turn pools wheels k =
      .ok ((nextChoice? ((pools.toList.drop k).map (·.size)) (wheels.toList.drop k)).map
        fun rest => (wheels.toList.take k ++ rest).toArray) := by
  -- by the wheels that are left; those before `k` stay as they are
  induction hleft : wheels.size - k generalizing wheels k with
  | zero =>
    have hnone : wheels.toList.drop k = [] := by
      rw [List.drop_eq_nil_iff, Array.length_toList]
      omega
    rw [turn, if_neg (by omega), hnone]
    cases (pools.toList.drop k).map (·.size) <;> rfl
  | succ n ih =>
    have hk : k < wheels.size := by omega
    have hpool : k < pools.size := by omega
    have hi : entry wheels k = .ok wheels[k] :=
      (entry_eq_ok_iff _ _ _).2 (Array.getElem?_eq_getElem hk)
    have hsize : entry pools k = .ok pools[k] :=
      (entry_eq_ok_iff _ _ _).2 (Array.getElem?_eq_getElem hpool)
    have hwheels : wheels.toList.drop k = wheels[k] :: wheels.toList.drop (k + 1) := by
      rw [List.drop_eq_getElem_cons (by simpa using hk), Array.getElem_toList]
    have hpools : pools.toList.drop k = pools[k] :: pools.toList.drop (k + 1) := by
      rw [List.drop_eq_getElem_cons (by simpa using hpool), Array.getElem_toList]
    rw [turn, if_pos hk, hi, hsize, hwheels, hpools, List.map_cons, nextChoice?]
    dsimp only [bind, Except.bind]
    split
    · have hset : (wheels.setIfInBounds k (wheels[k] + 1)).toList =
          wheels.toList.take k ++ (wheels[k] + 1) :: wheels.toList.drop (k + 1) := by
        rw [Array.toList_setIfInBounds, List.set_eq_take_cons_drop _ (by simpa using hk)]
      rw [Option.map_some, ← hset, Array.toArray_toList]
    · have hdrop : (wheels.setIfInBounds k 0).toList.drop (k + 1) = wheels.toList.drop (k + 1) := by
        rw [Array.toList_setIfInBounds, List.drop_set_of_lt (Nat.lt_succ_self k)]
      have htake : (wheels.setIfInBounds k 0).toList.take (k + 1) =
          wheels.toList.take k ++ [0] := by
        rw [Array.toList_setIfInBounds, List.take_succ_eq_append_getElem (by simpa using hk),
          List.take_set_of_le (Nat.le_refl k), List.getElem_set_self]
      rw [ih (by simpa using h) (k + 1) (by simp; omega), hdrop, htake, Option.map_map]
      simp only [Function.comp_def, List.append_assoc, List.singleton_append]

/-! ## A search in which no term may cost anything -/

/-- The term shows something on the examples of the task. -/
def Visible (scope : Scope) (t : Term) : Prop :=
  ∃ signature, scope.signature? t = some signature ∧ ¬AllFail signature

section

variable {α : Type} [Scalar α] {scope : Scope} {run : Run α}

/-- Every term costs something, so no term was stored. -/
theorem stored_eq_nil (h : run.Sound scope) (hroom : scope.bounds.maxCost = 0) :
    run.bank.stored.toList = [] := by
  rw [List.eq_nil_iff_forall_not_mem]
  intro s hs
  have hpos := h.positive s hs
  have hbelow := h.bank.room s hs
  rw [h.size] at hbelow
  omega

/-- A term that shows something finds no place, and any other one is turned down; unless an
evaluation stops the program. -/
theorem offer_without_room (h : run.Sound scope) (hroom : scope.bounds.maxCost = 0) (t : Term) :
    (Run.offer scope 1 run t = .ok run ∧ ¬Visible scope t) ∨
    (Run.offer scope 1 run t = .error (.failed (.indexOutOfRange 1 1)) ∧ Visible scope t) ∨
    (Run.offer scope 1 run t = .error (.failed .countOverflow) ∧ ¬scope.bounds.limits.Fits) := by
  have hsize : run.bank.byCost.size = 1 := by rw [h.size, hroom]
  have hrefuses : ∀ signature, run.bank.refuses signature = true ↔ AllFail signature := by
    intro signature
    rw [Bank.refuses_iff h.bank, stored_eq_nil h hroom]
    simp
  have hoffered := Run.offered scope 1 run t
  generalize Run.offer scope 1 run t = result at hoffered ⊢
  cases hoffered with
  | refused hrefused =>
    refine Or.inl ⟨rfl, ?_⟩
    rintro ⟨signature, hsig, hshows⟩
    exact hshows ((hrefuses signature).1 (hrefused signature (h.signature?_eq t ▸ hsig)))
  | stored _ _ hplace => omega
  | @lost signature hsig hnew _ =>
    refine Or.inr (Or.inl ⟨by rw [hsize], signature, h.signature?_eq t ▸ hsig, fun hfails => ?_⟩)
    rw [(hrefuses signature).2 hfails] at hnew
    cases hnew
  | stopped hstop =>
    exact Or.inr (Or.inr ⟨rfl, fun hfits => Bank.not_overflows (h.limits ▸ hfits) t hstop⟩)

/-- The first term that shows something finds no place. -/
theorem foldlM_offer_without_room (h : run.Sound scope) (hroom : scope.bounds.maxCost = 0)
    (ts : List Term) :
    (ts.foldlM (Run.offer scope 1) run = .ok run ∧ ∀ t ∈ ts, ¬Visible scope t) ∨
    (ts.foldlM (Run.offer scope 1) run = .error (.failed (.indexOutOfRange 1 1)) ∧
      ∃ t ∈ ts, Visible scope t) ∨
    (ts.foldlM (Run.offer scope 1) run = .error (.failed .countOverflow) ∧
      ¬scope.bounds.limits.Fits) := by
  induction ts with
  | nil => exact Or.inl ⟨rfl, by simp⟩
  | cons t ts ih =>
    rw [List.foldlM_cons]
    rcases offer_without_room h hroom t with ⟨ht, hnone⟩ | ⟨ht, hvisible⟩ | ⟨ht, hfits⟩
    · rw [ht]
      rcases ih with ⟨hts, hnone'⟩ | ⟨hts, u, hu, hvisible⟩ | ⟨hts, hfits⟩
      · exact Or.inl ⟨hts, List.forall_mem_cons.2 ⟨hnone, hnone'⟩⟩
      · exact Or.inr (Or.inl ⟨hts, u, List.mem_cons_of_mem _ hu, hvisible⟩)
      · exact Or.inr (Or.inr ⟨hts, hfits⟩)
    · rw [ht]
      exact Or.inr (Or.inl ⟨rfl, t, List.mem_cons_self, hvisible⟩)
    · rw [ht]
      exact Or.inr (Or.inr ⟨rfl, hfits⟩)

theorem steps_without_room (hroom : scope.bounds.maxCost = 0) (g : Grammar) (seeds : List Term)
    (run : Run α) :
    steps scope g seeds run =
      (startingTerms g scope.task.arity seeds).foldlM (Run.offer scope 1) run := by
  unfold steps
  rw [hroom]
  exact bind_pure _

/-- How a search for a task stops the program that starts from some terms. -/
inductive Breaks (bounds : Bounds) (task : Task) (starting : List Term) : Panic → Prop
  /-- The size of the table by cost is no word. -/
  | size (h : bounds.maxCost + 1 = UInt64.size) : Breaks bounds task starting .countOverflow
  /-- The table by cost has too many entries to be addressed. -/
  | table (h : Bank.capacity < bounds.maxCost + 1) (hword : bounds.maxCost + 1 < UInt64.size) :
      Breaks bounds task starting .capacityOverflow
  /-- No term may cost anything, and a term to start from shows something. -/
  | place (h : bounds.maxCost = 0) (ht : ∃ t ∈ starting, Visible (untimed bounds task) t) :
      Breaks bounds task starting (.indexOutOfRange 1 1)
  /-- A counter of an evaluation has no word left for the step that is too many. -/
  | counter (h : bounds.maxCost + 1 ≤ Bank.capacity) (hfits : ¬bounds.limits.Fits) :
      Breaks bounds task starting .countOverflow

section

variable {bounds : Bounds} {clock : Clock} {deadline readings : Nat} {task : Task} {g : Grammar}
  {seeds : List Term} {p : Panic}

theorem breaks_of_steps (htable : bounds.maxCost + 1 ≤ Bank.capacity)
    (h : steps { bounds, clock, deadline, task } g seeds
      (Run.start { bounds, clock, deadline, task } readings : Run α) = .error (.failed p)) :
    Breaks bounds task (startingTerms g task.arity seeds) p := by
  rcases Nat.eq_zero_or_pos bounds.maxCost with hroom | hplace
  · have hsound := (Run.within_start (α := α) { bounds, clock, deadline, task } readings 0).sound
    rw [steps_without_room hroom] at h
    rcases foldlM_offer_without_room hsound hroom (startingTerms g task.arity seeds) with
      ⟨hall, -⟩ | ⟨hall, hvisible⟩ | ⟨hall, hfits⟩
    · cases hall.symm.trans h
    · cases hall.symm.trans h
      exact .place hroom hvisible
    · cases hall.symm.trans h
      exact .counter htable hfits
  · have hlands := @Run.lands_steps α _ { bounds, clock, deadline, task } g seeds readings hplace
    rw [h] at hlands
    obtain ⟨rfl, hfits⟩ := hlands
    exact .counter htable hfits

theorem breaks_of_solveTask
    (h : solveTask (α := α) { bounds, clock, deadline, task } g seeds readings = .error p) :
    Breaks bounds task (startingTerms g task.arity seeds) p := by
  have hword := bounds.maxCost_lt
  unfold solveTask at h
  rcases create_cases task.examples bounds.maxCost bounds.limits with
    ⟨hsize, hcreate⟩ | ⟨⟨htable, hroom⟩, hcreate⟩ | ⟨htable, hcreate⟩
  · simp only [hcreate, bind, Except.bind, Except.error.injEq] at h
    exact h ▸ .size (by omega)
  · simp only [hcreate, bind, Except.bind, Except.error.injEq] at h
    exact h ▸ .table htable hroom
  · simp only [hcreate, bind, Except.bind] at h
    split at h
    · cases h
    · cases h
    · rename_i hsteps
      cases h
      exact breaks_of_steps htable hsteps

/-- Where no counter can stop the program, that is how a search stops it. -/
theorem solveTask_of_breaks (hfits : bounds.limits.Fits)
    (h : Breaks bounds task (startingTerms g task.arity seeds) p) :
    solveTask (α := α) { bounds, clock, deadline, task } g seeds readings = .error p := by
  have hone : 1 < Bank.capacity := by decide
  have hcapacity := capacity_lt
  unfold solveTask
  rcases create_cases task.examples bounds.maxCost bounds.limits with
    ⟨hsize, hcreate⟩ | ⟨⟨htable, hroom⟩, hcreate⟩ | ⟨htable, hcreate⟩
  · simp only [hcreate, bind, Except.bind]
    cases h <;> first | rfl | omega
  · simp only [hcreate, bind, Except.bind]
    cases h <;> first | rfl | omega
  · simp only [hcreate, bind, Except.bind]
    cases h with
    | size => omega
    | table => omega
    | counter _ hnone => exact absurd hfits hnone
    | place hroom hvisible =>
      have hsound := (Run.within_start (α := α) { bounds, clock, deadline, task } readings 0).sound
      have hsteps := @steps_without_room α _ { bounds, clock, deadline, task } hroom g seeds
        (Run.start { bounds, clock, deadline, task } readings)
      rcases foldlM_offer_without_room hsound hroom (startingTerms g task.arity seeds) with
        ⟨-, hnone⟩ | ⟨hall, -⟩ | ⟨-, hnone⟩
      · obtain ⟨t, ht, hvisible⟩ := hvisible
        exact absurd hvisible (hnone t ht)
      · rw [hall] at hsteps
        unfold Run.start at hsteps
        rw [hsteps]
      · exact absurd hfits hnone

end

/-! ## A search for several tasks -/

/-- How an oracle stops the program: in the search for one of its tasks, or at the instant
until which the first one of the tasks that are left has time. -/
def OracleBreaks (bounds : Bounds) (clock : Clock) (q : Query) (start : Nat) (tasks : List Task)
    (p : Panic) : Prop :=
  (∃ task ∈ tasks, Breaks bounds task (startingTerms q.grammar task.arity (seedsOf q)) p) ∨
    ∃ left readings, left ≠ [] ∧ left <:+ tasks ∧
      deadlineFor clock q.budget.timeout start left.length readings = .error p

section

variable {bounds : Bounds} {clock : Clock} {q : Query} {start : Nat} {task : Task}
  {rest : List Task} {panic : Panic}

theorem OracleBreaks.later (h : OracleBreaks bounds clock q start rest panic) :
    OracleBreaks bounds clock q start (task :: rest) panic := by
  rcases h with ⟨u, hu, hbreaks⟩ | ⟨left, readings, hne, hleft, hdeadline⟩
  · exact Or.inl ⟨u, List.mem_cons_of_mem _ hu, hbreaks⟩
  · exact Or.inr ⟨left, readings, hne, hleft.trans (List.suffix_cons task rest), hdeadline⟩

theorem error_of_visitTask {deadline : Nat} {p : Progress α} {e : OracleFailure}
    (h : (visitTask bounds clock q task deadline p).run.value = .error e) :
    ∃ panic, e = .panicked panic ∧
      Breaks bounds task (startingTerms q.grammar task.arity (seedsOf q)) panic := by
  unfold visitTask at h
  dsimp only at h
  rw [value_bind_run, value_of] at h
  cases hrun : solveTask (α := α) { bounds, clock, deadline, task } q.grammar
      ((q.exploration.map (·.programs)).getD []) p.readings with
  | ok run =>
    rw [hrun] at h
    cases h
  | error panic =>
    rw [hrun] at h
    cases h
    exact ⟨panic, rfl, breaks_of_solveTask hrun⟩

/-- A search for some tasks fails where time is over before the first of all tasks, and else
only where the program stops. -/
theorem error_of_visitTasks {isFirst : Bool} {tasks : List Task} {p : Progress α}
    {e : OracleFailure}
    (h : (visitTasks bounds clock q start isFirst tasks p).run.value = .error e) :
    (e = .reported .timeout ∧ isFirst = true ∧ tasks ≠ [] ∧
        q.budget.timeout.nanoseconds ≤ clock.now p.readings - start) ∨
      ∃ panic, e = .panicked panic ∧ OracleBreaks bounds clock q start tasks panic := by
  induction tasks generalizing isFirst p with
  | nil => cases h
  | cons task rest ih =>
    -- a later task may be late: it is left out then
    have hrest : ∀ p' : Progress α,
        (visitTasks bounds clock q start false rest p').run.value = .error e →
          ∃ panic, e = .panicked panic ∧
            OracleBreaks bounds clock q start (task :: rest) panic := by
      intro p' hp'
      rcases ih hp' with ⟨-, hfirst, -⟩ | ⟨panic, he, hbreaks⟩
      · cases hfirst
      · exact ⟨panic, he, hbreaks.later⟩
    rw [visitTasks] at h
    dsimp only at h
    by_cases hlate : q.budget.timeout.nanoseconds ≤ clock.now p.readings - start
    · rw [if_pos hlate] at h
      cases isFirst with
      | true =>
        cases h
        exact Or.inl ⟨rfl, rfl, List.cons_ne_nil _ _, hlate⟩
      | false => exact Or.inr (hrest _ h)
    · rw [if_neg hlate, value_bind_run, value_of] at h
      refine Or.inr ?_
      cases hdeadline : deadlineFor clock q.budget.timeout start (rest.length + 1) p.readings with
      | error panic =>
        rw [hdeadline] at h
        cases h
        exact ⟨panic, rfl, Or.inr ⟨task :: rest, p.readings, List.cons_ne_nil _ _,
          List.suffix_refl _, hdeadline⟩⟩
      | ok deadline =>
        rw [hdeadline] at h
        simp only [Except.mapError] at h
        rw [value_bind_run] at h
        split at h
        · exact hrest _ h
        · rename_i e' hvisit
          cases h
          obtain ⟨panic, he, hbreaks⟩ := error_of_visitTask hvisit
          exact ⟨panic, he, Or.inl ⟨task, List.mem_cons_self, hbreaks⟩⟩

theorem error_of_oracle {e : OracleFailure}
    (h : (oracle (α := α) bounds clock q).value = .error e) :
    (e = .reported .timeout ∧ q.tasks ≠ [] ∧
        q.budget.timeout.nanoseconds ≤ clock.now 1 - clock.now 0) ∨
      ∃ panic, e = .panicked panic ∧
        OracleBreaks bounds clock q (clock.now 0) q.tasks panic := by
  unfold oracle at h
  rw [value_bind_run] at h
  split at h
  · cases h
  · rename_i e' hvisits
    cases h
    rcases error_of_visitTasks hvisits with ⟨rfl, -, hne, hlate⟩ | hbreaks
    · exact Or.inl ⟨rfl, hne, hlate⟩
    · exact Or.inr hbreaks

end

end

/-! ## Every other index is in range -/

/-- A search for a task stops the program only in the ways that `Breaks` lists, and in each of
them, where no counter of an evaluation can stop it. Only one of them is a number that is
out of range: where no term may cost anything and a term to start from shows something, it
is offered at cost one, and the only pool is that of cost zero. All else that a search looks
up by number is there. An oracle returns an error only if time is over before its first
task; it stops the program only where a search for one of its tasks does, or where the
instant until which a task has time is none that the clock can show. And an odometer that
looks its wheels and pools up by number finds them, and turns to the next choice. -/
theorem a_search_goes_wrong_only_without_room {α : Type} [Scalar α] (bounds : Bounds)
    (clock : Clock) :
    (∀ (task : Task) (g : Grammar) (seeds : List Term) (deadline readings : Nat) (p : Panic),
      (solveTask (α := α) { bounds, clock, deadline, task } g seeds readings = .error p →
        Breaks bounds task (startingTerms g task.arity seeds) p) ∧
      (bounds.limits.Fits → Breaks bounds task (startingTerms g task.arity seeds) p →
        solveTask (α := α) { bounds, clock, deadline, task } g seeds readings = .error p)) ∧
    (∀ (q : Query) (e : OracleFailure), (oracle (α := α) bounds clock q).value = .error e →
      (e = .reported .timeout ∧ q.tasks ≠ [] ∧
          q.budget.timeout.nanoseconds ≤ clock.now 1 - clock.now 0) ∨
        ∃ p, e = .panicked p ∧ OracleBreaks bounds clock q (clock.now 0) q.tasks p) ∧
    ∀ (pools : Array (Array Nat)) (wheels : Array Nat), wheels.size = pools.size →
      turn pools wheels 0 =
        .ok ((nextChoice? (pools.toList.map (·.size)) wheels.toList).map List.toArray) := by
  refine ⟨fun task g seeds deadline readings p => ⟨breaks_of_solveTask, solveTask_of_breaks⟩,
    fun q e => error_of_oracle, fun pools wheels hsize => ?_⟩
  have hturn := turn_eq hsize 0
  simpa only [List.drop_zero, List.take_zero, List.nil_append] using hturn

/-- A search for the number two in which no term may cost anything. -/
def roomlessScope : Scope where
  bounds := .ofWords 0 20000 2000
  clock := .still
  deadline := 1
  task := { name := "0", request := .int, examples := [⟨[], .int 2⟩] }

/-- A grammar whose one component is the number one. -/
def unitGrammar : Grammar := { components := [⟨.literal 1⟩], version := 0 }

/-- There is time, but no place for the number one. -/
theorem a_number_finds_no_place :
    roomlessScope.clock.now 0 < roomlessScope.deadline ∧
      solveTask (α := Float) roomlessScope unitGrammar [] 0 = .error (.indexOutOfRange 1 1) := by
  have hsignature : roomlessScope.signature? (.literal 1) = some [.int 1] := by rfl
  have hshows : ¬AllFail [.int 1] := by simp [AllFail]
  have hstarting : .literal 1 ∈ startingTerms unitGrammar 0 [] := by decide
  exact ⟨by decide, solveTask_of_breaks ⟨by decide, by decide⟩
    (.place rfl ⟨.literal 1, hstarting, [.int 1], hsignature, hshows⟩)⟩

end SymbolInduction.Enumeration
