-- What a due round does for one symbol that is not solved: its task goes to the
-- oracle, the answer finds its way back by the name of the task, and its best
-- candidate is the one that the symbol considers.
import SymbolInduction.Proofs.Decimal.RoundTrip
import SymbolInduction.Proofs.Learner.Reached

namespace SymbolInduction

/-! ## Names of tasks -/

namespace Task

/-- The name of the task for the symbol with number `idx`. -/
def nameFor (idx : Nat) : String := String.ofList (Decimal.natChars idx)

theorem symbolNamed?_nameFor (idx : Nat) :
    symbolNamed? (nameFor idx) = if idx < 2 ^ 64 then some idx else none := by
  unfold symbolNamed? nameFor
  rw [String.toList_ofList, Decimal.uint64Of?_of_digits fun c hc => Decimal.isDigit_of_mem_natChars hc,
    Decimal.natOf?_natChars, Option.bind_some]
  unfold Decimal.uint64OfNat?
  change Option.map _ (if idx < 2 ^ 64 then _ else _) = _
  split
  · rename_i h
    exact congrArg some (Nat.mod_eq_of_lt h)
  · rfl

theorem nameFor_injective {i j : Nat} (h : nameFor i = nameFor j) : i = j := by
  have hchars : Decimal.natChars i = Decimal.natChars j := String.ofList_injective h
  have hi := Decimal.natOf?_natChars i
  rw [hchars, Decimal.natOf?_natChars] at hi
  exact (Option.some.inj hi).symm

end Task

namespace Symbol

variable {α : Type}

/-- The task with all examples of the symbol. -/
def wholeTask (s : Symbol α) : Task :=
  .forSymbol s.idx (requestFor s.arity (s.examples.headD ⟨[], .empty⟩)) s.examples

theorem arity_wholeTask (s : Symbol α) : s.wholeTask.arity = s.arity := arity_requestFor s.arity _

/-- A symbol that is to be solved sets its whole task, where the examples are
neither too few nor too many. -/
theorem task?_eq {s : Symbol α} (hlearnable : s.learnable = true) (hunsolved : s.solved = false)
    (hne : s.examples ≠ []) (hleast : s.settings.minTaskExamples ≤ s.examples.length)
    (hmost : s.examples.length ≤ s.settings.maxTaskExamples) (draws : Draws) :
    s.task? draws = some s.wholeTask := by
  have hnone : ¬(decide (s.examples.length < s.settings.minTaskExamples) || s.solved ||
      !s.learnable) = true := by
    simp only [hunsolved, hlearnable, Bool.not_true, Bool.or_false, decide_eq_true_eq]
    omega
  have hsample : s.mustSample = false := by
    unfold mustSample
    exact decide_eq_false (by omega)
  unfold task? wholeTask
  rw [if_neg hnone, hsample]
  cases he : s.examples with
  | nil => exact absurd he hne
  | cons e es => rfl

theorem name_of_task? {s : Symbol α} {draws : Draws} {task : Task} (h : s.task? draws = some task) :
    task.name = Task.nameFor s.idx := by
  unfold task? at h
  split at h
  · cases h
  · split at h
    · cases h
    · cases h
      rfl

theorem task?_of_not_learnable {s : Symbol α} (h : s.learnable = false) (draws : Draws) :
    s.task? draws = none := by
  unfold task?
  rw [if_pos (by simp [h])]

end Symbol

namespace Learner

variable {α : Type} [Scalar α]

/-! ## The tasks of a round -/

/-- The tasks of a due round are those that the symbols set once they have
taken in their observations. -/
theorem tasks_observeFrom (draws : Nat → Draws) (data : List (List Example)) (position : Nat)
    (symbols : List (Symbol α)) :
    (observeFrom draws true data position symbols).value.1 =
      ((observeFrom draws true data position symbols).value.2.zipIdx position).filterMap
        fun (s, i) => s.task? (draws i) := by
  induction symbols generalizing position with
  | nil => rfl
  | cons s symbols ih =>
    unfold observeFrom
    split
    · simp only [Logged.value_bind, Logged.value_pure, ih, List.zipIdx_cons, List.filterMap_cons,
        if_true]
      cases Symbol.task? _ (draws position) <;> rfl
    · rename_i hs
      have htask : s.task? (draws position) = none :=
        Symbol.task?_of_not_learnable (by simpa using hs) _
      simp only [Logged.value_bind, Logged.value_pure, ih, List.zipIdx_cons, List.filterMap_cons,
        htask]

/-- No round that is not due has tasks. -/
theorem no_tasks_observeFrom (draws : Nat → Draws) (data : List (List Example)) (position : Nat)
    (symbols : List (Symbol α)) : (observeFrom draws false data position symbols).value.1 = [] := by
  induction symbols generalizing position with
  | nil => rfl
  | cons s symbols ih =>
    unfold observeFrom
    split
    · simp only [Logged.value_bind, Logged.value_pure, ih]
      rfl
    · simp only [Logged.value_bind, Logged.value_pure, ih]

theorem sublist_map_filterMap {β γ δ : Type} {f : β → Option γ} {g : γ → δ} {k : β → δ} {xs : List β}
    (h : ∀ x ∈ xs, ∀ y, f x = some y → g y = k x) :
    ((xs.filterMap f).map g).Sublist (xs.map k) := by
  induction xs with
  | nil => exact .slnil
  | cons x xs ih =>
    have ih := ih fun x' hx' => h x' (by simp [hx'])
    rw [List.filterMap_cons]
    cases hx : f x with
    | none => exact .cons _ ih
    | some y =>
      rw [List.map_cons, List.map_cons, h x (by simp) y hx]
      exact .cons_cons _ ih

/-- The learner once it has taken in the observations of its next round. -/
def observed (l : Learner α) (source : DrawSource) (data : List (List Example)) : Learner α :=
  (l.observe source data).value.2

/-- The tasks of the next round. -/
def tasksOf (l : Learner α) (source : DrawSource) (data : List (List Example)) : List Task :=
  (l.observe source data).value.1

section

variable {l : Learner α} {source : DrawSource} {data : List (List Example)}

theorem tasksOf_eq (hdue : l.options.schedule (l.round + 1) = true) :
    l.tasksOf source data = (l.observed source data).symbols.zipIdx.filterMap
      fun (s, i) => s.task? (source l.options.seed (l.round + 1) i) := by
  unfold tasksOf observed observe
  simp only [Logged.value_bind, Logged.value_pure, hdue]
  exact tasks_observeFrom _ data 0 l.symbols

theorem tasksOf_of_not_due (h : l.options.schedule (l.round + 1) = false) :
    l.tasksOf source data = [] := by
  unfold tasksOf observe
  simp only [Logged.value_bind, Logged.value_pure, h]
  exact no_tasks_observeFrom _ data 0 l.symbols

/-- A symbol's task is named for its number. Where that is its position, no two
tasks share a name. -/
theorem nodup_names_of_idx
    (hidx : ∀ (i : Nat) (s : Symbol α), (l.observed source data).symbols[i]? = some s → s.idx = i)
    (hdue : l.options.schedule (l.round + 1) = true) :
    ((l.tasksOf source data).map (·.name)).Nodup := by
  rw [tasksOf_eq hdue]
  have hnames : ((l.observed source data).symbols.zipIdx.map fun p => Task.nameFor p.2).Nodup := by
    have hpositions := (List.nodup_zipIdx_map_snd (l.observed source data).symbols).map
      fun i j h => Task.nameFor_injective h
    rwa [List.map_map] at hpositions
  refine hnames.sublist (sublist_map_filterMap ?_)
  rintro ⟨s, i⟩ hmem task htask
  have hs := List.mem_zipIdx_iff_getElem?.1 hmem
  rw [Symbol.name_of_task? htask, hidx i s hs]

theorem nodup_names (hl : l.Numbered) (hdue : l.options.schedule (l.round + 1) = true) :
    ((l.tasksOf source data).map (·.name)).Nodup := by
  have hnumbered := (l.follows_observe source data).numbered hl
  exact nodup_names_of_idx (fun i s hs => (hnumbered i s hs).1) hdue

theorem mem_tasksOf (hdue : l.options.schedule (l.round + 1) = true) {i : Nat} {s : Symbol α}
    (hs : (l.observed source data).symbols[i]? = some s) {task : Task}
    (htask : s.task? (source l.options.seed (l.round + 1) i) = some task) :
    task ∈ l.tasksOf source data := by
  rw [tasksOf_eq hdue, List.mem_filterMap]
  exact ⟨(s, i), List.mem_zipIdx_iff_getElem?.2 hs, htask⟩

end

/-! ## What comes back -/

/-- What the oracle is asked in the next round. -/
def query (l : Learner α) (source : DrawSource) (data : List (List Example)) : Query :=
  ((l.observed source data).ask (l.tasksOf source data)).value.1

/-- The symbols of the next round after all findings were offered to them, and
before any of them are merged. -/
def offered (l : Learner α) (source : DrawSource) (data : List (List Example)) (found : Findings α) :
    List (Symbol α) :=
  (((l.observed source data).readyFor (l.tasksOf source data)).adoptAll
    found.solutions.entries).value.2.symbols

section

variable {l : Learner α} {source : DrawSource} {data : List (List Example)}

theorem tasks_query : (l.query source data).tasks = l.tasksOf source data := by
  unfold query
  rw [value_ask]

theorem maximumFrontier_query :
    (l.query source data).budget.maximumFrontier = l.options.maximumFrontier := by
  unfold query
  rw [value_ask]
  have hoptions := ((l.observed source data).readied_readyFor (l.tasksOf source data)).options
  change ((l.observed source data).readyFor (l.tasksOf source data)).options.maximumFrontier = _
  rw [hoptions]
  rfl

/-- A round with tasks makes ready for a search. -/
theorem start_of_tasks (h : l.tasksOf source data ≠ []) :
    (l.start source data).value =
      (some (l.query source data), (l.observed source data).readyFor (l.tasksOf source data)) := by
  unfold start query observed tasksOf at *
  simp only [Logged.value_bind]
  rw [if_neg (by simpa using h)]
  simp only [Logged.value_bind, Logged.value_pure, value_ask]

theorem start_of_no_tasks (h : l.tasksOf source data = []) :
    (l.start source data).value = (none, l.observed source data) := by
  unfold start observed tasksOf at *
  simp only [Logged.value_bind]
  rw [if_pos (by simpa using h)]
  rfl

/-- A round with tasks for which the oracle finds something ends with a merge of
the symbols to which that was offered. -/
theorem symbols_learn {oracle : Oracle α} {found : Findings α} (htasks : l.tasksOf source data ≠ [])
    (hfound : (oracle (l.query source data)).value = .ok found) :
    (l.learn source data oracle).value.2.symbols =
      (mergeFrom 0 (l.offered source data found).length (l.offered source data found)).value.2 := by
  unfold learn
  simp only [Logged.value_bind, start_of_tasks htasks, hfound]
  rfl

/-! ## Finding the way back -/

theorem adopt_of_ne (l : Learner α) {name : String} {i : Nat} (f : Frontier α)
    (h : Task.symbolNamed? name ≠ some i) :
    (l.adopt name f).value.2.symbols[i]? = l.symbols[i]? := by
  rcases l.adopt_cases name f with heq | ⟨j, s, best, hname, -, -, heq⟩
  · rw [heq]
  · rw [heq]
    refine List.getElem?_set_ne ?_
    rintro rfl
    exact h hname

theorem adoptAll_of_ne {entries : List (String × Frontier α)} {i : Nat}
    (h : ∀ e ∈ entries, Task.symbolNamed? e.1 ≠ some i) (l : Learner α) :
    (l.adoptAll entries).value.2.symbols[i]? = l.symbols[i]? := by
  induction entries generalizing l with
  | nil => rfl
  | cons e entries ih =>
    have hrest := ih (fun e' he' => h e' (by simp [he'])) (l.adopt e.1 e.2).value.2
    rw [adopt_of_ne l e.2 (h e (by simp))] at hrest
    exact hrest

theorem adopt_named {l : Learner α} {name : String} {i : Nat} {s : Symbol α} {f : Frontier α}
    {best : Candidate α} (hs : l.symbols[i]? = some s) (hname : Task.symbolNamed? name = some i)
    (hbest : f.best? = some best) :
    (l.adopt name f).value.2.symbols[i]? = some (s.consider (.ofTerm best.program)).value.2 := by
  have hlt := (List.getElem?_eq_some_iff.1 hs).1
  unfold adopt
  simp only [hname, hbest, hs, Logged.value_bind, Logged.value_pure]
  exact List.getElem?_set_self hlt

/-- A symbol to which one entry is addressed considers the best candidate of
that entry, whatever stands in the others. -/
theorem adoptAll_named {entries : List (String × Frontier α)} {name : String} {i : Nat}
    {s : Symbol α} {f : Frontier α} {best : Candidate α} (hentry : (name, f) ∈ entries)
    (hnodup : (entries.map (·.1)).Nodup)
    (hothers : ∀ e ∈ entries, e.1 ≠ name → Task.symbolNamed? e.1 ≠ some i)
    (hname : Task.symbolNamed? name = some i) (hbest : f.best? = some best) {l : Learner α}
    (hs : l.symbols[i]? = some s) :
    (l.adoptAll entries).value.2.symbols[i]? =
      some (s.consider (.ofTerm best.program)).value.2 := by
  induction entries generalizing l with
  | nil => cases hentry
  | cons e entries ih =>
    rw [List.map_cons, List.nodup_cons] at hnodup
    have hrest : ∀ e' ∈ entries, e'.1 ≠ name → Task.symbolNamed? e'.1 ≠ some i :=
      fun e' he' => hothers e' (by simp [he'])
    rcases List.mem_cons.1 hentry with rfl | hentry
    · have hlast := @adoptAll_of_ne α _ entries i (fun e' he' => hrest e' he' fun heq =>
        hnodup.1 (heq ▸ List.mem_map_of_mem (f := (·.1)) he')) (l.adopt name f).value.2
      rw [adopt_named hs hname hbest] at hlast
      exact hlast
    · have hne : e.1 ≠ name := by
        rintro rfl
        exact hnodup.1 (List.mem_map_of_mem (f := (·.1)) hentry)
      refine ih hentry hnodup.2 hrest ?_
      rw [adopt_of_ne l e.2 (hothers e (by simp) hne)]
      exact hs

end

end Learner

end SymbolInduction
