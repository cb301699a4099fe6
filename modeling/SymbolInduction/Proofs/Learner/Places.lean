-- Which symbol the observations, the tasks and the solutions of a round concern.
-- Observations are looked up and tasks are named by the number of a symbol, while
-- solutions are offered by position. Rounds, changes of the grammar, merges and new
-- symbols keep the two the same; a saved model brings numbers of its own.
import SymbolInduction.Proofs.Learner.Checkpoints
import SymbolInduction.Proofs.Learner.Rounds

namespace SymbolInduction

namespace Symbol

variable {α : Type} [Scalar α]

theorem Turn.idx_eq {s s' : Symbol α} (h : Turn s s') : s'.idx = s.idx := by
  cases h with
  | observe _ batch => exact (s.follows_observe batch).idx
  | consider t => exact (s.follows_consider (.ofTerm t)).idx
  | remember => rfl
  | clear => rfl

theorem idx_eq_of_turns {s s' : Symbol α} (h : Turns s s') : s'.idx = s.idx := by
  induction h with
  | refl => rfl
  | tail _ hturn ih => exact hturn.idx_eq.trans ih

end Symbol

namespace Learner

variable {α : Type}

/-- The numbers of the symbols, in the order of their positions. -/
def numbers (l : Learner α) : List Nat := l.symbols.map (·.idx)

/-- Each symbol has the number of its position. -/
def Placed (l : Learner α) : Prop := l.numbers = List.range l.symbols.length

/-- Whether the symbols are in their places can be told from their numbers. -/
theorem placed_iff_numbers {l : Learner α} : l.Placed ↔ l.numbers = List.range l.numbers.length := by
  unfold Placed numbers
  rw [List.length_map]

theorem placed_iff {l : Learner α} :
    l.Placed ↔ ∀ (i : Nat) (s : Symbol α), l.symbols[i]? = some s → s.idx = i := by
  unfold Placed numbers
  constructor
  · intro h i s hs
    have hnumber := congrArg (·[i]?) h
    rw [List.getElem?_map, hs, List.getElem?_range (List.getElem?_eq_some_iff.1 hs).1] at hnumber
    exact Option.some.inj hnumber
  · intro h
    refine List.ext_getElem (by simp) fun i hi _ => ?_
    rw [List.length_map] at hi
    rw [List.getElem_map, List.getElem_range]
    exact h i _ (List.getElem?_eq_getElem hi)

/-! ## A saved model -/

theorem idx_load (s : Symbol α) (m : SavedSymbol α) : (s.load m).2.idx = m.idx := by
  cases hs : s.learnable with
  | false => rw [Symbol.load_of_pinned hs]; rfl
  | true =>
    rw [Symbol.load_of_learnable hs]
    cases m.explanation? <;> rfl

/-- Where a model is taken up, each symbol takes up what was saved of it. -/
theorem loadSymbols_eq_zipWith {symbols : List (Symbol α)} {model : List (SavedSymbol α)}
    (hlength : model.length = symbols.length) (h : (loadSymbols symbols model).1 = .ok ()) :
    (loadSymbols symbols model).2 = List.zipWith (fun s m => (s.load m).2) symbols model := by
  induction symbols generalizing model with
  | nil =>
    obtain rfl := List.length_eq_zero_iff.1 hlength
    rfl
  | cons s symbols ih =>
    cases model with
    | nil => cases hlength
    | cons m model =>
      unfold loadSymbols at h ⊢
      rw [List.zipWith_cons_cons]
      generalize s.load m = out at h ⊢
      obtain ⟨outcome, s'⟩ := out
      cases outcome with
      | error e => cases h
      | ok _ => exact congrArg (s' :: ·) (ih (Nat.succ.inj hlength) h)

theorem length_of_accepted {l : Learner α} {model : List (SavedSymbol α)}
    (h : (l.load (some model)).1 = .ok ()) : model.length = l.symbols.length := by
  by_contra hlength
  rw [load_of_length_ne hlength] at h
  cases h

theorem symbols_load {l : Learner α} {model : List (SavedSymbol α)}
    (h : (l.load (some model)).1 = .ok ()) :
    (l.load (some model)).2.symbols = List.zipWith (fun s m => (s.load m).2) l.symbols model := by
  have hlength := length_of_accepted h
  rw [load_of_length_eq hlength] at h ⊢
  refine loadSymbols_eq_zipWith hlength ?_
  cases houtcome : (loadSymbols l.symbols model).1 with
  | error e =>
    rw [houtcome] at h
    cases h
  | ok _ => rfl

/-- A model that is taken up has as many symbols, and they bring their numbers. -/
theorem numbers_load {l : Learner α} {model : List (SavedSymbol α)}
    (h : (l.load (some model)).1 = .ok ()) :
    (l.load (some model)).2.numbers = model.map (·.idx) := by
  have hlength := length_of_accepted h
  unfold numbers
  rw [symbols_load h, List.map_zipWith]
  refine List.ext_getElem (by simp [hlength]) fun i hi hi' => ?_
  rw [List.getElem_zipWith, List.getElem_map, idx_load]

theorem placed_load_iff {l : Learner α} {model : List (SavedSymbol α)}
    (h : (l.load (some model)).1 = .ok ()) :
    (l.load (some model)).2.Placed ↔ model.map (·.idx) = List.range model.length := by
  rw [placed_iff_numbers, numbers_load h, List.length_map]

variable [Scalar α]

/-! ## One operation -/

theorem map_idx_of_turns {symbols symbols' : List (Symbol α)}
    (h : List.Forall₂ Symbol.Turns symbols symbols') :
    symbols'.map (·.idx) = symbols.map (·.idx) := by
  induction h with
  | nil => rfl
  | cons hturns _ ih => rw [List.map_cons, List.map_cons, Symbol.idx_eq_of_turns hturns, ih]

theorem placed_iff_of_succeeds {l l' : Learner α} (h : Succeeds l l') :
    l'.Placed ↔ l.Placed := by
  have hnumbers : l'.numbers = l.numbers := map_idx_of_turns h
  rw [placed_iff_numbers, placed_iff_numbers, hnumbers]

theorem placed_new (vocabulary : Vocabulary) (options : Options α) :
    (new vocabulary options).Placed :=
  placed_iff.2 fun i s hs => (numbered_new vocabulary options i s hs).1

theorem placed_extend_iff (l : Learner α) (arity : Nat) :
    (l.extend arity).value.2.Placed ↔ l.Placed := by
  have hnumbers : (l.extend arity).value.2.numbers = l.numbers ++ [l.symbols.length] := by
    unfold numbers extend
    simp only [Logged.value_bind, Logged.value_pure, (prepared_renew _ _).symbols, List.map_append,
      List.map_map]
    rfl
  have hlength : l.numbers.length = l.symbols.length := List.length_map _
  rw [placed_iff_numbers, placed_iff_numbers, hnumbers, List.length_append, List.length_singleton,
    List.range_succ, hlength, List.append_cancel_right_eq]

/-- The saved model that an operation takes up. -/
def Operation.model? {α : Type} : Operation α → Option (List (SavedSymbol α))
  | .load model => model
  | _ => none

theorem placed_perform_iff {l : Learner α} {op : Operation α}
    (h : ∀ model, op = .load model → (l.load model).1 = .ok ()) :
    (l.perform op).Placed ↔
      match op.model? with
      | some model => model.map (·.idx) = List.range model.length
      | none => l.Placed := by
  cases op with
  | extend arity => exact l.placed_extend_iff arity
  | load model =>
    cases model with
    | none => exact Iff.rfl
    | some model => exact placed_load_iff (h _ rfl)
  | _ => exact placed_iff_of_succeeds (l.succeeds_perform rfl)

/-! ## Operations one after another -/

theorem after_concat (l : Learner α) (operations : List (Operation α)) (op : Operation α) :
    l.after (operations ++ [op]) = (l.after operations).perform op := by
  unfold after
  rw [List.foldl_append]
  rfl

/-- Every saved model that the operations take up is taken up without an error. -/
def Accepts (l : Learner α) (operations : List (Operation α)) : Prop :=
  ∀ before model since, operations = before ++ .load model :: since →
    ((l.after before).load model).1 = .ok ()

theorem accepts_nil (l : Learner α) : l.Accepts [] := by
  intro before model since hsplit
  simp at hsplit

theorem Accepts.concat {l : Learner α} {operations : List (Operation α)} (h : l.Accepts operations)
    {op : Operation α} (hop : ∀ model, op = .load model → ((l.after operations).load model).1 = .ok ()) :
    l.Accepts (operations ++ [op]) := by
  intro before model since hsplit
  rcases concat_eq_append_cons hsplit with ⟨rfl, hmodel, -⟩ | ⟨since, -, hbefore⟩
  · exact hop model hmodel.symm
  · exact h before model since hbefore

/-- The last saved model that was taken up, if any. -/
def lastModel? {α : Type} (operations : List (Operation α)) : Option (List (SavedSymbol α)) :=
  (operations.filterMap Operation.model?).getLast?

theorem lastModel?_concat {α : Type} (operations : List (Operation α)) (op : Operation α) :
    lastModel? (operations ++ [op]) = op.model?.or (lastModel? operations) := by
  unfold lastModel?
  rw [List.filterMap_append, List.getLast?_append]
  cases hop : op.model? with
  | none => simp [hop]
  | some model => simp [hop]

/-- Symbols that had the numbers of their positions have them after any operations,
if the last saved model that was taken up gives them those numbers. -/
theorem placed_after_iff {l : Learner α} (hl : l.Placed) {operations : List (Operation α)}
    (h : l.Accepts operations) :
    (l.after operations).Placed ↔
      ∀ model ∈ lastModel? operations, model.map (·.idx) = List.range model.length := by
  induction operations using List.reverseRecOn with
  | nil => exact iff_of_true hl (by simp [lastModel?])
  | append_singleton operations op ih =>
    have hbefore : l.Accepts operations := fun before model since hsplit =>
      h before model (since ++ [op]) (by rw [hsplit]; simp)
    rw [after_concat, lastModel?_concat,
      placed_perform_iff fun model hop => h operations model [] (by rw [hop])]
    cases op.model? with
    | none => exact ih hbefore
    | some model => simp

/-! ## Rounds -/

/-- The learner that has asked for the programs of the next round. -/
def asking (l : Learner α) (source : DrawSource) (data : List (List Example)) : Learner α :=
  (l.observed source data).readyFor (l.tasksOf source data)

/-- What the next round does for the number `i` concerns the symbol at position
`i`: its observations, the name of its task, which no other task has, and the
solutions under that name. -/
structure Routes (l : Learner α) (source : DrawSource) (data : List (List Example)) : Prop where
  observations : ∀ (i : Nat) (s : Symbol α), l.symbols[i]? = some s →
    (l.observed source data).symbols[i]? =
      some (if s.learnable then (s.observe (data.getD i [])).value else s)
  tasks : ∀ (i : Nat) (s : Symbol α), (l.observed source data).symbols[i]? = some s →
    ∀ draws, ∀ task ∈ s.task? draws, task.name = Task.nameFor i
  names : l.options.schedule (l.round + 1) = true →
    ((l.tasksOf source data).map (·.name)).Nodup
  solutions : ∀ (i : Nat) (s : Symbol α), i < 2 ^ 64 →
    (l.asking source data).symbols[i]? = some s → ∀ found : Findings α,
      (∀ e ∈ found.solutions.entries, Task.symbolNamed? e.1 = some i → e.1 = Task.nameFor i) →
      ∀ f best, found.solutions.get? (Task.nameFor s.idx) = some f → f.best? = some best →
        (l.offered source data found)[i]? = some (s.consider (.ofTerm best.program)).value.2
  passed : ∀ (i : Nat) (found : Findings α),
    (∀ e ∈ found.solutions.entries, Task.symbolNamed? e.1 ≠ some i) →
      (l.offered source data found)[i]? = (l.asking source data).symbols[i]?

theorem Placed.routes {l : Learner α} (h : l.Placed) (source : DrawSource)
    (data : List (List Example)) : l.Routes source data := by
  have hobserved : (l.observed source data).Placed :=
    (placed_iff_of_succeeds (l.succeeds_observe source data)).2 h
  have hasking : (l.asking source data).Placed :=
    (placed_iff_of_succeeds (succeeds_readyFor _ _)).2 hobserved
  refine ⟨fun i s hs => ?_, fun i s hs draws task htask => ?_,
    nodup_names_of_idx (placed_iff.1 hobserved), fun i s hi hs found hothers f best hf hbest => ?_,
    fun i found hnone => adoptAll_of_ne hnone _⟩
  · have hsymbols := forall₂_observeFrom (source l.options.seed (l.round + 1))
      (l.options.schedule (l.round + 1)) data 0 l.symbols
    obtain ⟨s', hs', heq⟩ := getElem?_of_forall₂ hsymbols.flip hs
    rw [placed_iff.1 h i s hs] at heq
    exact hs'.trans (congrArg some heq)
  · rw [Symbol.name_of_task? htask, placed_iff.1 hobserved i s hs]
  · obtain rfl := placed_iff.1 hasking i s hs
    exact adoptAll_named (Table.get?_eq_some_iff.1 hf) found.solutions.nodup_keys
      (fun e he hne hname => hne (hothers e he hname))
      (by rw [Task.symbolNamed?_nameFor, if_pos hi]) hbest hs

/-- In a learner that has come about from a new one each symbol has the number of
its position exactly if the last saved model that was taken up, where there is
one, has its symbols in the order of their numbers. There the observations, the
task and the solutions of each number concern one symbol. -/
theorem symbols_keep_their_places_iff (vocabulary : Vocabulary) (options : Options α)
    {operations : List (Operation α)} (h : (new vocabulary options).Accepts operations) :
    let l := (new vocabulary options).after operations
    (l.Placed ↔ ∀ model ∈ lastModel? operations, model.map (·.idx) = List.range model.length) ∧
      (l.Placed → ∀ source data, l.Routes source data) := by
  intro l
  exact ⟨placed_after_iff (placed_new vocabulary options) h, fun hl => hl.routes⟩

/-! ### A model in its order, and one that swaps two symbols -/

/-- A saved model of symbols without programs, with the given numbers. -/
def unlearned (numbers : List Nat) : List (SavedSymbol Float) :=
  numbers.map fun idx => { idx, solved := false, likelihood := Scalar.zero, arity := 1, program := none }

/-- A lesson, a new symbol, and a model for the three symbols. -/
def lessonAndModel : List (Operation Float) :=
  [.learn (fun _ _ _ => .first) [[⟨[.int 4], .int 4⟩]] echoOracle, .extend 1,
    .load (some (unlearned [0, 1, 2]))]

/-- After a model in the order of its numbers the symbols are in their places. -/
theorem a_model_in_order_keeps_its_places :
    (new echoAndOne inEveryRound).Accepts lessonAndModel ∧
      ((new echoAndOne inEveryRound).after lessonAndModel).Placed := by
  have haccepts : (new echoAndOne inEveryRound).Accepts lessonAndModel := by
    refine (((accepts_nil _).concat ?_).concat ?_).concat ?_
    · rintro _ ⟨⟩
    · rintro _ ⟨⟩
    · rintro _ ⟨⟩
      decide +kernel
  refine ⟨haccepts, (symbols_keep_their_places_iff echoAndOne inEveryRound haccepts).1.2 ?_⟩
  rintro _ ⟨⟩
  rfl

/-- Two symbols that are learned. -/
def pair : Vocabulary := [{ name := "first", arity := 1 }, { name := "second", arity := 1 }]

/-- A model that swaps two symbols is taken up without an error. In the next round
the example for the first symbol goes to the second one, and the program that is
found for it goes to the first one, which has no example for it. -/
theorem a_swapped_model_misleads_a_round :
    let l := (new pair inEveryRound).after [.load (some (unlearned [1, 0]))]
    (new pair inEveryRound).Accepts [.load (some (unlearned [1, 0]))] ∧ ¬l.Placed ∧
      l.numbers = [1, 0] ∧
      (l.perform (.learn (fun _ _ _ => .first) [[⟨[.int 4], .int 4⟩], []] echoOracle)).symbols.map
        (fun s => (s.idx, s.examples.length, s.explanation.text)) = [(1, 0, "NULL"), (0, 1, "NULL")] := by
  intro l
  refine ⟨(accepts_nil _).concat ?_, ?_, ?_, ?_⟩
  · rintro _ ⟨⟩
    decide +kernel
  · unfold Placed
    decide +kernel
  · decide +kernel
  · decide +kernel

end Learner

end SymbolInduction
