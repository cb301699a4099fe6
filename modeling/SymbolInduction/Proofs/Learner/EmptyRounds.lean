-- Rounds that bring no programs: none are due, no symbol sets a task, or the search
-- fails. Such a round takes in its observations and nothing else happens to the symbols,
-- not even where the learner made ready for a search. It then compares programs on
-- examples, but these programs were just scored on the same examples and remember them.
import SymbolInduction.Proofs.Learner.Learning
import SymbolInduction.Proofs.Learner.Promotions
import SymbolInduction.Proofs.Symbol.Histories

namespace SymbolInduction

variable {α : Type}

/-! ## Symbols -/

namespace Symbol

/-- The program of a symbol, where there is one, remembers all examples. -/
def Recalls (s : Symbol α) : Prop := ∀ e ∈ s.examples, s.explanation.Remembers e.inputs

variable [Scalar α]

theorem recalls_observe {s : Symbol α} (h : s.learnable = true) (batch : List Example) :
    (s.observe batch).value.Recalls := by
  rw [observe_of_learnable h, audit_eq]
  exact fun e he => Explanation.remembers_score he (some s.settings.arityPenalty)

/-- What the observations of a round make of a symbol. Those of its own stand in the
data set at its number, and a symbol that is not learned takes in none. -/
def hear (s : Symbol α) (data : List (List Example)) : Symbol α :=
  if s.learnable then (s.observe (data.getD s.idx [])).value else s

theorem recalls_hear {s : Symbol α} {data : List (List Example)}
    (h : (s.hear data).learnable = true) : (s.hear data).Recalls := by
  unfold hear at h ⊢
  split at h
  · rename_i hs
    rw [if_pos hs]
    exact recalls_observe hs _
  · rename_i hs
    exact absurd h hs

end Symbol

namespace Learner

/-! ## Comparing programs -/

section

variable {p q : Program} {examples : List Example}

/-- Comparing a program on examples that it remembers leaves it as it is. -/
theorem agreement_of_remembers (h : ∀ e ∈ examples, p.Remembers e.inputs) :
    (agreement (α := α) p q examples).value.2.1 = p :=
  agreement_of_compared fun e he => h e (compared_subset p q examples he)

theorem promotedFor_of_remembers {options : Options α} {c : Canon} {own : Term}
    (h : ∀ e ∈ examples, p.Remembers e.inputs) :
    (promotedFor options c p own examples).value.2.1 = p := by
  unfold promotedFor
  simp only [Logged.value_bind]
  split
  · exact agreement_of_remembers h
  · simp only [Logged.value_bind, Logged.value_pure, agreement_of_remembers h]

end

/-! ## Making ready -/

/-- Promotion leaves symbols as they are whose programs remember their examples. -/
theorem promotions_of_recalls (l : Learner α) {symbols : List (Symbol α)} (c : Canon)
    (h : ∀ s ∈ symbols, s.learnable = true → s.Recalls) :
    (l.promotions c symbols).value.2 = symbols := by
  induction symbols generalizing c with
  | nil => rfl
  | cons s symbols ih =>
    have hrest := fun c => ih c fun s' hs' => h s' (List.mem_cons_of_mem _ hs')
    unfold promotions
    split
    · simp only [Logged.value_bind, Logged.value_pure, hrest]
    · rename_i p t hpromotable
      obtain ⟨hlearnable, -, hp⟩ := of_promotable? hpromotable
      -- the program is put back into its symbol as it was
      have hrecalls := h s List.mem_cons_self hlearnable
      have hsame : (promotedFor l.options c p t s.examples).value.2.1 = p :=
        promotedFor_of_remembers fun e he => hrecalls e he p hp
      simp only [Logged.value_bind, Logged.value_pure, hrest, hsame, ← hp]

variable [Scalar α]

/-- Making ready for a search leaves symbols as they are whose programs remember their
examples. -/
theorem prepared_readyFor {l : Learner α} (h : ∀ s ∈ l.symbols, s.learnable = true → s.Recalls)
    (tasks : List Task) : Prepared l (l.readyFor tasks) := by
  have hgrown : Prepared l l.grown := by
    unfold grown
    split
    · unfold updateGrammar
      simp only [Logged.value_bind, promotions_of_recalls l _ h]
      exact prepared_renew l _
    · exact l.prepared_self
  exact hgrown.trans (l.prepared_of_grown tasks)

/-! ## Rounds -/

section

variable {l : Learner α} {source : DrawSource} {data : List (List Example)}

/-- The learner in its next round, once all symbols have heard their observations. -/
def hear (l : Learner α) (data : List (List Example)) : Learner α :=
  { l with round := l.round + 1, symbols := l.symbols.map (·.hear data) }

theorem observed_eq : l.observed source data = l.hear data := by
  have hsymbols : l.symbols.map (·.hear data) = (l.observed source data).symbols := by
    rw [← List.forall₂_eq_eq_eq, List.forall₂_map_left_iff]
    exact (forall₂_observeFrom _ _ data 0 l.symbols).imp fun s s' h => h.symm
  unfold hear
  rw [hsymbols]
  rfl

theorem prepared_hear (tasks : List Task) : Prepared (l.hear data) ((l.hear data).readyFor tasks) := by
  refine prepared_readyFor (fun s hs hlearnable => ?_) tasks
  obtain ⟨s, -, rfl⟩ := List.mem_map.1 hs
  exact Symbol.recalls_hear hlearnable

/-- A search that fails with an error ends the round with the learner that was ready for
it. -/
theorem learn_of_error {oracle : Oracle α} {e : OracleError} (htasks : l.tasksOf source data ≠ [])
    (hfails : (oracle (l.query source data)).value = .error (.reported e)) :
    let out := (l.learn source data oracle).value
    out.2 = (l.hear data).readyFor (l.tasksOf source data) ∧
      ∃ report, out.1 = .ok report ∧ report.updated = 0 ∧ report.merged = 0 := by
  unfold learn
  simp only [Logged.value_bind, start_of_tasks htasks, hfails, observed_eq]
  exact ⟨rfl, _, rfl, rfl, rfl⟩

theorem learn_of_no_tasks (oracle : Oracle α) (htasks : l.tasksOf source data = []) :
    let out := (l.learn source data oracle).value
    out.2 = l.hear data ∧ ∃ report, out.1 = .ok report ∧ report.updated = 0 ∧ report.merged = 0 := by
  unfold learn
  simp only [Logged.value_bind, start_of_no_tasks htasks, observed_eq]
  exact ⟨rfl, _, rfl, rfl, rfl⟩

end

/-- A search that fails with an error, and a round without tasks, leave a learner that has
heard its observations and nothing else. Whatever the learner, the observations and the
oracle, no symbol is changed but by its own observations, and the round is reported with
nothing taken or merged. After a failed search the grammar, the frontiers and what is kept
for exploration are those that the learner made ready for that search. Without tasks, and
where the round is not due, these are as they were. -/
theorem a_round_without_findings_only_observes (l : Learner α) (source : DrawSource)
    (data : List (List Example)) (oracle : Oracle α) :
    let tasks := l.tasksOf source data
    let ready := (l.hear data).readyFor tasks
    let out := (l.learn source data oracle).value
    (∀ e, tasks ≠ [] → (oracle (l.query source data)).value = .error (.reported e) →
        out.2 = { l.hear data with
          grammar := ready.grammar, frontiers := ready.frontiers, exploration := ready.exploration } ∧
          ∃ report, out.1 = .ok report ∧ report.updated = 0 ∧ report.merged = 0) ∧
      (l.options.schedule (l.round + 1) = false ∨ tasks = [] →
        out.2 = l.hear data ∧
          ∃ report, out.1 = .ok report ∧ report.updated = 0 ∧ report.merged = 0) := by
  intro tasks ready out
  refine ⟨fun e htasks hfails => ?_, fun hnone => ?_⟩
  · obtain ⟨hlearner, hreport⟩ := learn_of_error htasks hfails
    exact ⟨hlearner.trans (prepared_hear tasks).eq, hreport⟩
  · have htasks : l.tasksOf source data = [] := by
      rcases hnone with hnotDue | hnone
      · exact tasksOf_of_not_due hnotDue
      · exact hnone
    exact learn_of_no_tasks oracle htasks

/-- A search that takes too long leaves an echo with what it has heard. -/
theorem a_timeout_leaves_what_was_heard :
    let source : DrawSource := fun _ _ _ => .first
    let oracle : Oracle Float := fun _ => pure (.error (.reported .timeout))
    let out := (echoing.learn source [echoes] oracle).value
    echoing.tasksOf source [echoes] ≠ [] ∧
      (∃ report, out.1 = .ok report ∧ report.updated = 0 ∧ report.merged = 0) ∧
      out.2.symbols = (echoing.hear [echoes]).symbols ∧
      out.2.symbols.map (·.examples) = [echoes] := by
  intro source oracle out
  have htasks : echoing.tasksOf source [echoes] ≠ [] := by
    rw [← tasks_query]
    exact tasks_echoQuery ▸ List.cons_ne_nil _ _
  obtain ⟨hfailed, -⟩ := a_round_without_findings_only_observes echoing source [echoes] oracle
  obtain ⟨hout, hreport⟩ := hfailed .timeout htasks rfl
  have hsymbols : out.2.symbols = (echoing.hear [echoes]).symbols := congrArg symbols hout
  refine ⟨htasks, hreport, hsymbols, ?_⟩
  rw [hsymbols]
  decide

end Learner

end SymbolInduction
