-- The task that a symbol sets, whatever is drawn. Its examples are all that the
-- symbol has, or as many as a task takes: those that the program gets wrong come
-- first, and the others only fill up what is left. The marks say which ones are
-- wrong, as they are those of the present program on the present examples.
import SymbolInduction.Symbol.Tasks
import SymbolInduction.Proofs.Symbol.Scores

namespace SymbolInduction

/-! ## Draws -/

namespace Draws

variable (draws : Draws) {n : Nat} {es : List Example}

/-- So many examples are chosen as are asked for, where there are so many. -/
theorem length_choose_of_le (h : n ≤ es.length) : (draws.choose n es).length = n := by
  rw [draws.choose_length, Nat.min_eq_left h]

theorem choose_subset : draws.choose n es ⊆ es := by
  obtain ⟨rest, hperm⟩ := draws.choose_perm n es
  exact fun e he => hperm.subset (List.mem_append_left rest he)

/-- All examples are chosen where all are asked for. -/
theorem choose_length_perm : (draws.choose es.length es).Perm es := by
  obtain ⟨rest, hperm⟩ := draws.choose_perm es.length es
  have hlength := hperm.length_eq
  rw [List.length_append, draws.length_choose_of_le (Nat.le_refl _)] at hlength
  have hrest : rest = [] := List.eq_nil_of_length_eq_zero (by omega)
  rwa [hrest, List.append_nil] at hperm

end Draws

namespace Symbol

/-! ## What is marked -/

theorem withMarks_map (examples : List Example) (f : Example → Bool) :
    withMarks examples (examples.map f) = examples.map fun e => (e, f e) := by
  induction examples with
  | nil => rfl
  | cons e examples ih => simp only [List.map_cons, withMarks, ih]

theorem map_fst_withMarks (examples : List Example) (marks : List Bool) :
    (withMarks examples marks).map (·.1) = examples := by
  induction examples generalizing marks with
  | nil => rfl
  | cons e examples ih => cases marks <;> simp only [withMarks, List.map_cons, ih]

/-- Every example is wrong or right. -/
theorem perm_wrong_right {α : Type} (s : Symbol α) :
    (s.wrongExamples ++ s.rightExamples).Perm s.examples := by
  unfold wrongExamples rightExamples
  rw [← List.map_append]
  have hmarked := (List.perm_append_comm.trans (List.filter_append_perm (·.2) s.markedExamples)).map
    (·.1)
  rwa [show s.markedExamples.map (·.1) = s.examples from map_fst_withMarks _ _] at hmarked

section

variable {α : Type} [Scalar α] {s : Symbol α}

/-- Where there are no marks, there are no examples. -/
theorem Scored.getD_correct (h : s.Scored) :
    s.correct.getD [] = s.explanation.marks s.examples := by
  have hcorrect : (Score.ofMarks s.explanation.arity (some s.settings.arityPenalty)
      (s.explanation.marks s.examples)).correct = s.correct := by
    rw [← Explanation.value_score]
    exact congrArg Score.correct h
  rw [← hcorrect]
  unfold Score.ofMarks
  split
  · rename_i hnone
    exact hnone.symm
  · rfl

theorem Scored.markedExamples_eq (h : s.Scored) : s.markedExamples =
    s.examples.map fun e => (e, s.explanation.output e.inputs == e.output) := by
  unfold markedExamples
  rw [h.getD_correct]
  exact withMarks_map _ _

/-- The examples that are right are those whose output the program gives. -/
theorem mem_rightExamples (h : s.Scored) {e : Example} :
    e ∈ s.rightExamples ↔ e ∈ s.examples ∧ s.explanation.output e.inputs = e.output := by
  unfold rightExamples
  rw [h.markedExamples_eq]
  simp

end

/-- The examples whose output the program does not give. -/
def missed {α : Type} (s : Symbol α) : List Example :=
  s.examples.filter fun e => s.explanation.output e.inputs != e.output

theorem wrongExamples_eq {α : Type} [Scalar α] {s : Symbol α} (h : s.Scored) :
    s.wrongExamples = s.missed := by
  unfold wrongExamples missed
  rw [h.markedExamples_eq, List.filter_map, List.map_map]
  exact List.map_id _

/-! ## What is sampled -/

section

variable {α : Type} (s : Symbol α) (draws : Draws) {max : Nat}

/-- What is sampled are some of the examples. -/
theorem exists_perm_sampleExamples (max : Nat) :
    ∃ rest, (s.sampleExamples draws max ++ rest).Perm s.examples := by
  unfold sampleExamples
  dsimp only
  split
  · obtain ⟨rest, hperm⟩ := draws.choose_perm max s.wrongExamples
    refine ⟨rest ++ s.rightExamples, ((draws.shuffle_perm _).append_right _).trans ?_⟩
    rw [← List.append_assoc]
    exact (hperm.append_right _).trans s.perm_wrong_right
  · obtain ⟨rest, hperm⟩ := draws.choose_perm (max - s.wrongExamples.length) s.rightExamples
    refine ⟨rest, ((draws.shuffle_perm _).append_right _).trans ?_⟩
    rw [List.append_assoc]
    exact (hperm.append_left _).trans s.perm_wrong_right

theorem length_sampleExamples (h : max ≤ s.examples.length) :
    (s.sampleExamples draws max).length = max := by
  have hlength := s.perm_wrong_right.length_eq
  rw [List.length_append] at hlength
  unfold sampleExamples
  dsimp only
  rw [(draws.shuffle_perm _).length_eq]
  split
  · rename_i hwrong
    exact draws.length_choose_of_le hwrong
  · -- there are enough right examples to fill up
    rw [List.length_append, draws.length_choose_of_le (by omega)]
    omega

/-- None of the wrong examples is left out, where they are not too many. -/
theorem wrongExamples_subset_sample (h : s.wrongExamples.length ≤ max) :
    s.wrongExamples ⊆ s.sampleExamples draws max := by
  unfold sampleExamples
  dsimp only
  refine fun e he => (draws.shuffle_perm _).symm.subset ?_
  split
  · -- then they are exactly as many as are asked for
    rename_i hwrong
    rw [Nat.le_antisymm hwrong h]
    exact draws.choose_length_perm.symm.subset he
  · exact List.mem_append_left _ he

/-- Only wrong examples are taken, where they are enough. -/
theorem sample_subset_wrongExamples (h : max ≤ s.wrongExamples.length) :
    s.sampleExamples draws max ⊆ s.wrongExamples := by
  unfold sampleExamples
  dsimp only
  rw [if_pos h]
  exact fun e he => draws.choose_subset ((draws.shuffle_perm _).subset he)

end

/-! ## Tasks -/

/-- What the examples of a task with at most `max` of them are: all examples of the
symbol, or so many of them, the ones that its program misses first. None of them is
repeated. -/
structure Represents {α : Type} (s : Symbol α) (max : Nat) (chosen : List Example) : Prop where
  nodup : chosen.Nodup
  whole : s.examples.length ≤ max → chosen.Perm s.examples
  size : max < s.examples.length → chosen ⊆ s.examples ∧ chosen.length = max
  missed : max < s.examples.length → s.missed.length ≤ max → s.missed ⊆ chosen
  only : max < s.examples.length → max < s.missed.length → chosen ⊆ s.missed

variable {α : Type} [Scalar α]

omit [Scalar α] in
theorem represents_whole {s : Symbol α} {max : Nat} (hnodup : s.examples.Nodup)
    (h : s.examples.length ≤ max) : s.Represents max s.examples where
  nodup := hnodup
  whole _ := .refl _
  size hmax := absurd hmax (Nat.not_lt.2 h)
  missed hmax := absurd hmax (Nat.not_lt.2 h)
  only hmax := absurd hmax (Nat.not_lt.2 h)

theorem represents_sample {s : Symbol α} {max : Nat} (hnodup : s.examples.Nodup) (hscored : s.Scored)
    (draws : Draws) (h : max < s.examples.length) :
    s.Represents max (s.sampleExamples draws max) := by
  obtain ⟨rest, hperm⟩ := s.exists_perm_sampleExamples draws max
  have hwrong := wrongExamples_eq hscored
  constructor
  case nodup => exact (hperm.nodup_iff.2 hnodup).of_append_left
  case whole => exact fun hmax => absurd h (Nat.not_lt.2 hmax)
  case size =>
    exact fun _ => ⟨fun e he => hperm.subset (List.mem_append_left rest he),
      s.length_sampleExamples draws (Nat.le_of_lt h)⟩
  case missed =>
    intro _ hfew
    rw [← hwrong] at hfew ⊢
    exact s.wrongExamples_subset_sample draws hfew
  case only =>
    intro _ hmany
    rw [← hwrong] at hmany ⊢
    exact s.sample_subset_wrongExamples draws (Nat.le_of_lt hmany)

omit [Scalar α] in
theorem task?_isSome_iff (s : Symbol α) (draws : Draws) :
    (s.task? draws).isSome = true ↔ s.learnable = true ∧ s.solved = false ∧
      max 1 s.settings.minTaskExamples ≤ s.examples.length := by
  unfold task?
  split
  · rename_i hnone
    simp only [Bool.or_eq_true, decide_eq_true_eq, Bool.not_eq_true'] at hnone
    refine iff_of_false Bool.false_ne_true ?_
    rintro ⟨hlearnable, hunsolved, hleast⟩
    rcases hnone with (hfew | hsolved) | hpinned
    · omega
    · exact Bool.false_ne_true (hunsolved.symm.trans hsolved)
    · exact Bool.false_ne_true (hpinned.symm.trans hlearnable)
  · rename_i hsome
    simp only [Bool.or_eq_true, decide_eq_true_eq, Bool.not_eq_true', not_or,
      Bool.not_eq_true, Bool.not_eq_false] at hsome
    obtain ⟨⟨henough, hunsolved⟩, hlearnable⟩ := hsome
    split
    · rename_i hnil
      refine iff_of_false Bool.false_ne_true ?_
      rintro ⟨-, -, hleast⟩
      rw [hnil, List.length_nil] at hleast
      omega
    · rename_i e es hcons
      refine iff_of_true rfl ⟨hlearnable, hunsolved, ?_⟩
      rw [hcons, List.length_cons] at henough ⊢
      omega

omit [Scalar α] in
theorem of_task? {s : Symbol α} {draws : Draws} {task : Task} (h : s.task? draws = some task) :
    task.arity = s.arity ∧ task.examples =
      if s.mustSample then s.sampleExamples draws s.settings.maxTaskExamples else s.examples := by
  unfold task? at h
  split at h
  · cases h
  · split at h
    · cases h
    · rename_i e es hcons
      cases h
      rw [hcons]
      exact ⟨arity_requestFor s.arity e, rfl⟩

/-! ## After any history -/

theorem ascending_change {s : Symbol α}
    (h : s.examples.Pairwise fun a b => compare a.inputs b.inputs = .lt) (c : Change) :
    (s.change c).examples.Pairwise fun a b => compare a.inputs b.inputs = .lt := by
  cases c with
  | observe batch =>
    change (s.observe batch).value.examples.Pairwise _
    rw [(s.sameRecord_observe batch).examples]
    exact Evidence.ascending_confident s.settings _
  | consider p =>
    change (s.consider p).value.2.examples.Pairwise _
    rw [s.examples_consider p]
    exact h
  | settle => exact h
  | clear => exact .nil

/-- No two examples have the same arguments. -/
theorem nodup_examples_after (idx arity : Nat) (settings : Settings α) (changes : List Change) :
    ((fresh idx arity settings).after changes).examples.Nodup := by
  have hascending := after_of_change
    (P := fun s : Symbol α => s.examples.Pairwise fun a b => compare a.inputs b.inputs = .lt)
    (fun _ c h => ascending_change h c) (s := fresh idx arity settings) .nil changes
  refine hascending.imp fun {a b} hlt heq => ?_
  simp [heq] at hlt

/-- A symbol sets a task exactly if it is to be learned, is not solved, and has as many
examples as a task needs, one at least. Whatever is drawn, the task is for a program
with the arguments of the symbol, and has all examples of the symbol, or as many as a
task takes. Then it has all those that the program misses, where they are not too many,
and else only such. -/
theorem a_task_represents_its_symbol (idx arity : Nat) (settings : Settings α)
    (changes : List Change) (draws : Draws) :
    let s := (fresh idx arity settings).after changes
    ((s.task? draws).isSome = true ↔ s.learnable = true ∧ s.solved = false ∧
        max 1 settings.minTaskExamples ≤ s.examples.length) ∧
      ∀ task ∈ s.task? draws,
        task.arity = arity ∧ s.Represents settings.maxTaskExamples task.examples := by
  intro s
  have h : s.Learned arity settings := learned_after idx arity settings changes
  have hnodup : s.examples.Nodup := nodup_examples_after idx arity settings changes
  refine ⟨?_, fun task htask => ?_⟩
  · rw [← h.settings]
    exact s.task?_isSome_iff draws
  · obtain ⟨harity, hexamples⟩ := of_task? htask
    refine ⟨harity.trans h.arity, ?_⟩
    unfold mustSample at hexamples
    rw [h.settings] at hexamples
    rw [hexamples]
    split
    · rename_i hmany
      exact represents_sample hnodup h.scored draws (of_decide_eq_true hmany)
    · rename_i hfew
      exact represents_whole hnodup (Nat.not_lt.1 fun hlt => hfew (decide_eq_true hlt))

set_option maxRecDepth 1000 in
/-- Two of three examples make up a task. The one that the program gets wrong is one of
them, though it comes last. -/
theorem the_miss_is_in_the_task :
    let settings : Settings Float := { Settings.default with maxTaskExamples := 2 }
    let batch : List Example := [⟨[.int 1], .int 1⟩, ⟨[.int 2], .int 2⟩, ⟨[.int 3], .int 4⟩]
    let s := (fresh 0 1 settings).after [.observe batch, .consider (.ofTerm (.lam (.var 0)))]
    ∃ task ∈ s.task? Draws.first,
      task.examples.length = 2 ∧ ⟨[.int 3], .int 4⟩ ∈ task.examples := by
  intro settings batch s
  have hmissed : s.missed = [⟨[.int 3], .int 4⟩] := by decide
  obtain ⟨hsome, hevery⟩ := a_task_represents_its_symbol 0 1 settings
    [.observe batch, .consider (.ofTerm (.lam (.var 0)))] Draws.first
  obtain ⟨task, htask⟩ := Option.isSome_iff_exists.1 (hsome.2 (by decide))
  obtain ⟨-, hrep⟩ := hevery task htask
  refine ⟨task, htask, (hrep.size (by decide)).2, hrep.missed (by decide) (by decide) ?_⟩
  exact hmissed ▸ List.mem_singleton_self _

end Symbol

end SymbolInduction
