-- Versions of the grammar. A version names one grammar: it grows by one where
-- the components change, and only there. What searches have left behind holds
-- for the present grammar alone: a new grammar drops all of it, new scores only
-- thin it out, and what an oracle answers was asked under the grammar in use.
import SymbolInduction.Proofs.Learner.Operations

namespace SymbolInduction

/-- A call of an oracle: what it was asked, and what it answered. -/
structure Call (α : Type) where
  query : Query
  answer : Except OracleFailure (Findings α)

/-! ## Frontiers that stem from others -/

/-- What new scores leave of a candidate. -/
def Candidate.origin {α : Type} (c : Candidate α) : Term × α := (c.program, c.logPrior)

namespace Frontier

variable {α : Type}

/-- The candidates of `f` are some of those of `g`, though their likelihoods may
be other ones. -/
structure Stems (f g : Frontier α) : Prop where
  task : f.task = g.task
  request : f.request = g.request
  candidates : (f.candidates.map Candidate.origin).Sublist (g.candidates.map Candidate.origin)

theorem stems_self (f : Frontier α) : Stems f f := ⟨rfl, rfl, .refl _⟩

theorem Stems.trans {f g h : Frontier α} (hfg : Stems f g) (hgh : Stems g h) : Stems f h :=
  ⟨hfg.task.trans hgh.task, hfg.request.trans hgh.request, hfg.candidates.trans hgh.candidates⟩

/-- Where there were no candidates, there are none. -/
theorem Stems.ne_nil {f g : Frontier α} (h : Stems f g) (hf : f.candidates ≠ []) :
    g.candidates ≠ [] := by
  intro hg
  have hnil := h.candidates
  rw [hg, List.map_nil, List.sublist_nil, List.map_eq_nil_iff] at hnil
  exact hf hnil

end Frontier

namespace Learner

variable {α : Type}

/-! ## What is left of earlier searches -/

/-- The grammar stays, or another one with the next version takes its place. -/
def Advances (g g' : Grammar) : Prop :=
  g' = g ∨ (g'.descriptions ≠ g.descriptions ∧ g'.version = g.version + 1)

/-- What `l'` has of earlier searches, `l` had before, and under the same grammar. -/
structure Keeps (l l' : Learner α) : Prop where
  grammar : Advances l.grammar l'.grammar
  frontiers : ∀ name f, l'.frontiers.get? name = some f → f.candidates ≠ [] →
    l'.grammar = l.grammar ∧ ∃ g, l.frontiers.get? name = some g ∧ f.Stems g
  exploration : ∀ x, l'.exploration = some x → l'.grammar = l.grammar ∧ l.exploration = some x

theorem keeps_of_eq {l l' : Learner α} (hgrammar : l'.grammar = l.grammar)
    (hfrontiers : l'.frontiers = l.frontiers) (hexploration : l'.exploration = l.exploration) :
    Keeps l l' where
  grammar := Or.inl hgrammar
  frontiers _ f hf _ := ⟨hgrammar, f, hfrontiers ▸ hf, f.stems_self⟩
  exploration _ hx := ⟨hgrammar, hexploration ▸ hx⟩

/-- The grammar changes once at most. -/
theorem Keeps.trans {l l' l'' : Learner α} (h : Keeps l l') (h' : Keeps l' l'')
    (hgrammar : l'.grammar = l.grammar ∨ l''.grammar = l'.grammar) : Keeps l l'' where
  grammar := by
    rcases hgrammar with hgrammar | hgrammar
    · exact hgrammar ▸ h'.grammar
    · exact hgrammar ▸ h.grammar
  frontiers name f hf hne := by
    obtain ⟨heq', g', hg', hstems'⟩ := h'.frontiers name f hf hne
    obtain ⟨heq, g, hg, hstems⟩ := h.frontiers name g' hg' (hstems'.ne_nil hne)
    exact ⟨heq'.trans heq, g, hg, hstems'.trans hstems⟩
  exploration x hx := by
    obtain ⟨heq', hx'⟩ := h'.exploration x hx
    obtain ⟨heq, hx⟩ := h.exploration x hx'
    exact ⟨heq'.trans heq, hx⟩

/-! ### New grammars -/

theorem keeps_renew (l : Learner α) (terms : List Term) : Keeps l (l.renew terms).value.2 := by
  unfold renew
  dsimp only
  split
  · exact keeps_of_eq rfl rfl rfl
  · rename_i hother
    refine ⟨Or.inr ⟨fun hsame => hother ?_, rfl⟩, ?_, ?_⟩
    · exact beq_iff_eq.2 hsame
    · rintro name f ⟨⟩
    · rintro x ⟨⟩

/-- Other symbols, names and base terms make no difference to what is kept. -/
theorem keeps_renew_of_eq {l l' : Learner α} (hgrammar : l'.grammar = l.grammar)
    (hfrontiers : l'.frontiers = l.frontiers) (hexploration : l'.exploration = l.exploration)
    (terms : List Term) : Keeps l (l'.renew terms).value.2 :=
  (keeps_of_eq hgrammar hfrontiers hexploration).trans (keeps_renew l' terms) (Or.inl hgrammar)

theorem keeps_extend [Scalar α] (l : Learner α) (arity : Nat) :
    Keeps l (l.extend arity).value.2 := by
  unfold extend
  simp only [Logged.value_bind, Logged.value_pure]
  refine keeps_renew_of_eq ?_ ?_ ?_ _ <;> rfl

theorem keeps_updateGrammar [Scalar α] (l : Learner α) : Keeps l l.updateGrammar.value.2 := by
  unfold updateGrammar
  simp only [Logged.value_bind]
  refine keeps_renew_of_eq ?_ ?_ ?_ _ <;> rfl

/-! ### New scores -/

variable [Scalar α]

theorem sublist_rescoreCandidates (penalty : α) (examples : List Example)
    (candidates : List (Candidate α)) :
    ((rescoreCandidates penalty examples candidates).value.map Candidate.origin).Sublist
      (candidates.map Candidate.origin) := by
  induction candidates with
  | nil => exact .refl _
  | cons c candidates ih =>
    unfold rescoreCandidates
    simp only [Logged.value_bind, Logged.value_pure]
    split
    · exact ih.cons_cons _
    · exact ih.cons _

omit [Scalar α] in
/-- A task takes some of its old candidates from the frontier under its name, and
leaves all others alone. -/
theorem keeps_rescoredTask (l : Learner α) (t : Task) {f : Frontier α}
    (hf : f.Stems ((l.frontiers.get? t.name).getD (.unexplored t))) :
    Keeps l { l with frontiers := l.frontiers.insert t.name f } where
  grammar := Or.inl rfl
  frontiers name f' hf' hne := by
    refine ⟨rfl, ?_⟩
    change (l.frontiers.insert t.name f).get? name = some f' at hf'
    rw [Table.get?_insert] at hf'
    split at hf'
    · rename_i hname
      subst hname
      cases hf'
      cases hg : l.frontiers.get? t.name with
      | none =>
        -- a frontier that was not there before has no candidates
        rw [hg] at hf
        exact absurd rfl (hf.ne_nil hne)
      | some g =>
        rw [hg] at hf
        exact ⟨g, rfl, hf⟩
    · exact ⟨f', hf', f'.stems_self⟩
  exploration _ hx := ⟨rfl, hx⟩

theorem keeps_rescoreFrontiers (l : Learner α) (tasks : List Task) :
    Keeps l (l.rescoreFrontiers tasks).value ∧
      (l.rescoreFrontiers tasks).value.grammar = l.grammar := by
  induction tasks generalizing l with
  | nil => exact ⟨keeps_of_eq rfl rfl rfl, rfl⟩
  | cons t tasks ih =>
    unfold rescoreFrontiers
    simp only [Logged.value_bind]
    refine ⟨Keeps.trans (keeps_rescoredTask l t ?_) (ih _).1 (Or.inl rfl), (ih _).2⟩
    exact ⟨rfl, rfl, sublist_rescoreCandidates l.options.settings.arityPenalty t.examples _⟩

omit [Scalar α] in
theorem keeps_dropStale (l : Learner α) (tasks : List Task) :
    Keeps l (l.dropStale tasks).value ∧ (l.dropStale tasks).value.grammar = l.grammar := by
  unfold dropStale
  split
  · exact ⟨keeps_of_eq rfl rfl rfl, rfl⟩
  · split
    · exact ⟨keeps_of_eq rfl rfl rfl, rfl⟩
    · refine ⟨⟨Or.inl rfl, fun _ f hf _ => ⟨rfl, f, hf, f.stems_self⟩, ?_⟩, rfl⟩
      rintro x ⟨⟩

omit [Scalar α] in
/-- What is not dropped holds for the grammar and for the types of the tasks. -/
theorem valid_of_dropStale {l : Learner α} {tasks : List Task} {x : Exploration}
    (h : (l.dropStale tasks).value.exploration = some x) :
    x.grammarVersion = l.grammar.version ∧ x.requests = requestsOf tasks := by
  unfold dropStale at h
  split at h
  · rename_i hnone
    cases hnone.symm.trans h
  · rename_i y hy
    split at h
    · rename_i hvalid
      cases hy.symm.trans h
      unfold Exploration.isValidFor at hvalid
      rw [Bool.and_eq_true, beq_iff_eq, beq_iff_eq] at hvalid
      exact hvalid
    · cases h

/-! ### A round -/

theorem keeps_readyFor (l : Learner α) (tasks : List Task) : Keeps l (l.readyFor tasks) := by
  have hgrown : Keeps l l.grown := by
    unfold grown
    split
    · exact l.keeps_updateGrammar
    · exact keeps_of_eq rfl rfl rfl
  have hrescored : Keeps l.grown (l.grown.rescored tasks) ∧
      (l.grown.rescored tasks).grammar = l.grown.grammar := by
    unfold rescored
    split
    · exact keeps_rescoreFrontiers _ tasks
    · exact ⟨keeps_of_eq rfl rfl rfl, rfl⟩
  obtain ⟨hdropped, hgrammar⟩ := (l.grown.rescored tasks).keeps_dropStale tasks
  exact (hgrown.trans hrescored.1 (Or.inr hrescored.2)).trans hdropped (Or.inr hgrammar)

theorem keeps_observe (l : Learner α) (source : DrawSource) (data : List (List Example)) :
    Keeps l (l.observe source data).value.2 := keeps_of_eq rfl rfl rfl

/-- A round that asks an oracle asks it under the grammar that the learner then
has, and hands it nothing that was found for other grammars or types. -/
theorem keeps_start (l : Learner α) (source : DrawSource) (data : List (List Example)) :
    let before := (l.start source data).value
    Keeps l before.2 ∧ ∀ q, before.1 = some q → q.grammar = before.2.grammar ∧
      ∀ x, q.exploration = some x →
        x.grammarVersion = q.grammar.version ∧ x.requests = requestsOf q.tasks := by
  have hobserve := l.keeps_observe source data
  rcases l.start_cases source data with h | h
  · rw [h]
    refine ⟨hobserve, ?_⟩
    rintro q ⟨⟩
  · rw [h]
    refine ⟨hobserve.trans (keeps_readyFor _ _) (Or.inl rfl), ?_⟩
    rintro q ⟨⟩
    refine ⟨rfl, fun x hx => ?_⟩
    obtain ⟨hversion, hrequests⟩ := valid_of_dropStale hx
    refine ⟨?_, hrequests⟩
    rw [hversion]
    exact congrArg Grammar.version (keeps_dropStale _ _).2.symm

theorem search_adoptAll (l : Learner α) (entries : List (String × Frontier α)) :
    (l.adoptAll entries).value.2.grammar = l.grammar ∧
      (l.adoptAll entries).value.2.exploration = l.exploration := by
  induction entries generalizing l with
  | nil => exact ⟨rfl, rfl⟩
  | cons entry entries ih =>
    have hadopt : (l.adopt entry.1 entry.2).value.2.grammar = l.grammar ∧
        (l.adopt entry.1 entry.2).value.2.exploration = l.exploration := by
      rcases l.adopt_cases entry.1 entry.2 with h | ⟨i, s, best, -, -, -, h⟩ <;> rw [h] <;>
        exact ⟨rfl, rfl⟩
    obtain ⟨hgrammar, hexploration⟩ := ih (l.adopt entry.1 entry.2).value.2
    exact ⟨hgrammar.trans hadopt.1, hexploration.trans hadopt.2⟩

/-- The findings take the place of the frontiers, and of what was explored
before if there is anything new. -/
theorem search_takeIn (l : Learner α) (found : Findings α) :
    (l.takeIn found).value.2.2.grammar = l.grammar ∧
      (l.takeIn found).value.2.2.frontiers = found.frontiers ∧
      (l.takeIn found).value.2.2.exploration = found.exploration.or l.exploration := by
  obtain ⟨hgrammar, hexploration⟩ := l.search_adoptAll found.solutions.entries
  refine ⟨hgrammar, rfl, ?_⟩
  rw [← hexploration]
  rfl

/-! ## Calls -/

/-- The call that the operation makes, where it makes one. -/
def Operation.call? (l : Learner α) : Operation α → Option (Call α)
  | .learn source data oracle =>
    (l.start source data).value.1.map fun q => { query := q, answer := (oracle q).value }
  | _ => none

/-- The calls that are made in the course of several operations, first one first. -/
def calls (l : Learner α) : List (Operation α) → List (Call α)
  | [] => []
  | op :: operations => (op.call? l).toList ++ (l.perform op).calls operations

/-- What is left of earlier searches was answered to one of these calls, under
the grammar that is in use. -/
structure Current (past : List (Call α)) (l : Learner α) : Prop where
  frontiers : ∀ name f, l.frontiers.get? name = some f → f.candidates ≠ [] →
    ∃ call ∈ past, call.query.grammar = l.grammar ∧ ∃ found, call.answer = .ok found ∧
      ∃ g, found.frontiers.get? name = some g ∧ f.Stems g
  exploration : ∀ x, l.exploration = some x →
    ∃ call ∈ past, call.query.grammar = l.grammar ∧ ∃ found, call.answer = .ok found ∧
      found.exploration = some x

omit [Scalar α] in
theorem Current.keeps {past past' : List (Call α)} {l l' : Learner α} (h : Current past l)
    (hkeeps : Keeps l l') (hpast : past ⊆ past') : Current past' l' where
  frontiers name f hf hne := by
    obtain ⟨hgrammar, g, hg, hstems⟩ := hkeeps.frontiers name f hf hne
    obtain ⟨call, hcall, hasked, found, hanswer, g', hg', hstems'⟩ :=
      h.frontiers name g hg (hstems.ne_nil hne)
    exact ⟨call, hpast hcall, hgrammar ▸ hasked, found, hanswer, g', hg', hstems.trans hstems'⟩
  exploration x hx := by
    obtain ⟨hgrammar, hx⟩ := hkeeps.exploration x hx
    obtain ⟨call, hcall, hasked, found, hanswer, hfound⟩ := h.exploration x hx
    exact ⟨call, hpast hcall, hgrammar ▸ hasked, found, hanswer, hfound⟩

/-- A call is made under the grammar that the learner has after the round. -/
theorem grammar_of_call {l : Learner α} {op : Operation α} {call : Call α}
    (h : op.call? l = some call) :
    call.query.grammar = (l.perform op).grammar ∧
      ∀ x, call.query.exploration = some x →
        x.grammarVersion = call.query.grammar.version ∧
          x.requests = requestsOf call.query.tasks := by
  cases op with
  | learn source data oracle =>
    obtain ⟨q, hq, rfl⟩ := Option.map_eq_some_iff.1 h
    obtain ⟨hgrammar, hexploration⟩ := (l.keeps_start source data).2 q hq
    refine ⟨hgrammar.trans (Eq.symm ?_), hexploration⟩
    change (l.learn source data oracle).value.2.grammar = _
    rcases l.learn_cases source data oracle with ⟨-, h⟩ | ⟨-, -, ⟨-, -, h⟩ | ⟨found, -, h⟩⟩
    · rw [h]
    · rw [h]
    · rw [h]
      exact (search_takeIn _ found).1
  | updateGrammar => cases h
  | rescoreFrontiers tasks => cases h
  | merge => cases h
  | extend arity => cases h
  | load model => cases h

/-- One operation changes the grammar once at most, and what it leaves of earlier
searches is from the calls so far. -/
theorem current_perform {past : List (Call α)} {l : Learner α} (h : Current past l)
    (op : Operation α) :
    Advances l.grammar (l.perform op).grammar ∧
      Current (past ++ (op.call? l).toList) (l.perform op) := by
  have hold : ∀ l', Keeps l l' →
      Advances l.grammar l'.grammar ∧ Current (past ++ (op.call? l).toList) l' :=
    fun l' hkeeps => ⟨hkeeps.grammar, h.keeps hkeeps (List.subset_append_left _ _)⟩
  cases op with
  | learn source data oracle =>
    obtain ⟨hkeeps, hasked⟩ := l.keeps_start source data
    change Advances l.grammar (l.learn source data oracle).value.2.grammar ∧
      Current _ (l.learn source data oracle).value.2
    rcases l.learn_cases source data oracle with ⟨-, h⟩ | ⟨q, hq, ⟨-, -, h⟩ | ⟨found, hfound, h⟩⟩
    · rw [h]
      exact hold _ hkeeps
    · rw [h]
      exact hold _ hkeeps
    · obtain ⟨hgrammar, hfrontiers, hexploration⟩ :=
        search_takeIn (l.start source data).value.2 found
      obtain ⟨hadvances, hcurrent⟩ := hold _ hkeeps
      have hcall : { query := q, answer := .ok found } ∈
          past ++ (Operation.call? l (.learn source data oracle)).toList := by
        change _ ∈ past ++ ((l.start source data).value.1.map _).toList
        rw [hq, Option.map_some, hfound]
        simp
      have hcallGrammar := (hasked q hq).1.trans hgrammar.symm
      rw [h]
      refine ⟨hgrammar ▸ hadvances, ?_, ?_⟩
      · intro name f hf _
        rw [hfrontiers] at hf
        exact ⟨_, hcall, hcallGrammar, found, rfl, f, hf, f.stems_self⟩
      · intro x hx
        rw [hexploration] at hx
        cases hnew : found.exploration with
        | some y =>
          rw [hnew] at hx
          exact ⟨_, hcall, hcallGrammar, found, rfl, hnew.trans hx⟩
        | none =>
          -- nothing new was explored, so what was handed to the oracle is kept
          rw [hnew, Option.none_or] at hx
          obtain ⟨call, hmem, hsame, found', hanswer, hx⟩ := hcurrent.exploration x hx
          exact ⟨call, hmem, hsame.trans hgrammar.symm, found', hanswer, hx⟩
  | updateGrammar => exact hold _ l.keeps_updateGrammar
  | rescoreFrontiers tasks => exact hold _ (l.keeps_rescoreFrontiers tasks).1
  | merge => exact hold _ (keeps_of_eq rfl rfl rfl)
  | extend arity => exact hold _ (l.keeps_extend arity)
  | load model =>
    refine hold _ ?_
    change Keeps l (l.load model).2
    unfold load
    split
    · exact keeps_of_eq rfl rfl rfl
    · split <;> exact keeps_of_eq rfl rfl rfl

/-! ## Runs -/

theorem current_after {past : List (Call α)} {l : Learner α} (h : Current past l)
    (operations : List (Operation α)) :
    Current (past ++ l.calls operations) (l.after operations) := by
  induction operations generalizing past l with
  | nil => exact (List.append_nil past).symm ▸ h
  | cons op operations ih =>
    have hrest := ih (current_perform h op).2
    rw [List.append_assoc] at hrest
    exact hrest

theorem current_new (vocabulary : Vocabulary) (options : Options α) :
    Current [] (new vocabulary options) where
  frontiers _ _ h := by cases h
  exploration _ h := by cases h

/-- A later grammar has a later version, or it is the same. -/
theorem version_le_after {past : List (Call α)} {l : Learner α} (h : Current past l)
    (operations : List (Operation α)) :
    l.grammar.version ≤ (l.after operations).grammar.version ∧
      ((l.after operations).grammar.version = l.grammar.version →
        (l.after operations).grammar = l.grammar) := by
  induction operations generalizing past l with
  | nil => exact ⟨Nat.le_refl _, fun _ => rfl⟩
  | cons op operations ih =>
    obtain ⟨hadvances, hcurrent⟩ := current_perform h op
    obtain ⟨hle, hsame⟩ := ih hcurrent
    change l.grammar.version ≤ ((l.perform op).after operations).grammar.version ∧
      (((l.perform op).after operations).grammar.version = l.grammar.version →
        ((l.perform op).after operations).grammar = l.grammar)
    rcases hadvances with heq | ⟨-, hversion⟩
    · rw [heq] at hle hsame
      exact ⟨hle, hsame⟩
    · exact ⟨by omega, fun hagain => by omega⟩

/-- In any run of a learner, with any oracles and any saved models, the version
of the grammar never falls, and two moments with one version have one grammar.
An operation raises the version by one if it changes the set of components, and
else not at all. Stored candidates and stored explorations were answered to a
call that was made under the present grammar; a call is made under the grammar
that the learner has after it, and what it hands over of earlier explorations
has the version of that grammar and the types of the tasks. -/
theorem a_version_names_one_grammar (vocabulary : Vocabulary) (options : Options α)
    (operations later : List (Operation α)) (op : Operation α) :
    let l := (new vocabulary options).after operations
    (l.grammar.version ≤ (l.after later).grammar.version ∧
        ((l.after later).grammar.version = l.grammar.version →
          (l.after later).grammar = l.grammar)) ∧
      (l.perform op).grammar.version = l.grammar.version +
        (if (l.perform op).grammar.descriptions = l.grammar.descriptions then 0 else 1) ∧
      Current ((new vocabulary options).calls operations) l ∧
      ∀ call ∈ op.call? l, call.query.grammar = (l.perform op).grammar ∧
        ∀ x ∈ call.query.exploration, x.grammarVersion = (l.perform op).grammar.version ∧
          x.requests = requestsOf call.query.tasks := by
  have hcurrent := current_after (current_new vocabulary options) operations
  intro l
  refine ⟨version_le_after hcurrent later, ?_, hcurrent, fun call hcall => ?_⟩
  · rcases (current_perform hcurrent op).1 with heq | ⟨hne, hversion⟩
    · rw [heq, if_pos rfl, Nat.add_zero]
    · rw [if_neg hne, hversion]
  · obtain ⟨hgrammar, hexploration⟩ := grammar_of_call hcall
    exact ⟨hgrammar, fun x hx => hgrammar ▸ hexploration x hx⟩

end Learner

end SymbolInduction
