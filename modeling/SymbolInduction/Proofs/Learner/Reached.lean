-- The learners that come about without taking up a saved model, whatever was
-- observed, found and asked. In each of them a symbol has the number of its
-- position, the settings of the learner, and evidence that fits its arity.
import SymbolInduction.Learner.Round
import SymbolInduction.Proofs.Learner.Merge
import SymbolInduction.Proofs.Symbol.Steps

namespace SymbolInduction.Learner

variable {α : Type}

/-- Each symbol has the number of its position and the settings of the learner,
and its evidence fits its arity. -/
def Numbered (l : Learner α) : Prop :=
  ∀ (i : Nat) (s : Symbol α), l.symbols[i]? = some s →
    s.idx = i ∧ s.settings = l.options.settings ∧ s.Fits

/-- A later state of a learner with the same symbols. -/
structure Follows (l l' : Learner α) : Prop where
  options : l'.options = l.options
  symbols : ∀ (i : Nat) (s' : Symbol α), l'.symbols[i]? = some s' →
    ∃ s, l.symbols[i]? = some s ∧ s.Follows s'

theorem follows_of_symbols_eq {l l' : Learner α} (hoptions : l'.options = l.options)
    (hsymbols : l'.symbols = l.symbols) : Follows l l' := by
  refine ⟨hoptions, fun i s hs => ⟨s, ?_, s.follows_self⟩⟩
  rw [← hsymbols]
  exact hs

theorem Follows.trans {l l' l'' : Learner α} (h : Follows l l') (h' : Follows l' l'') :
    Follows l l'' := by
  refine ⟨h'.options.trans h.options, ?_⟩
  intro i s'' hs''
  obtain ⟨s', hs', hfollows'⟩ := h'.symbols i s'' hs''
  obtain ⟨s, hs, hfollows⟩ := h.symbols i s' hs'
  exact ⟨s, hs, hfollows.trans hfollows'⟩

theorem Follows.numbered {l l' : Learner α} (h : Follows l l') (hl : l.Numbered) : l'.Numbered := by
  intro i s' hs'
  obtain ⟨s, hs, hfollows⟩ := h.symbols i s' hs'
  obtain ⟨hidx, hsettings, hfits⟩ := hl i s hs
  exact ⟨hfollows.idx.trans hidx, by rw [hfollows.settings, hsettings, h.options],
    hfollows.fits hfits⟩

theorem follows_set {l : Learner α} {i : Nat} {s s' : Symbol α} (hs : l.symbols[i]? = some s)
    (h : s.Follows s') : Follows l { l with symbols := l.symbols.set i s' } := by
  refine ⟨rfl, fun j t ht => ?_⟩
  rw [List.getElem?_set] at ht
  split at ht
  · rename_i hij
    subst hij
    split at ht
    · cases ht
      exact ⟨s, hs, h⟩
    · cases ht
  · exact ⟨t, ht, t.follows_self⟩

theorem getElem?_of_forall₂ {β γ : Type} {R : β → γ → Prop} {xs : List β} {ys : List γ}
    (h : List.Forall₂ R xs ys) {i : Nat} {y : γ} (hy : ys[i]? = some y) :
    ∃ x, xs[i]? = some x ∧ R x y := by
  induction h generalizing i with
  | nil => cases hy
  | cons hxy _ ih =>
    cases i with
    | zero =>
      cases hy
      exact ⟨_, rfl, hxy⟩
    | succ i => exact ih hy

/-! ## The query -/

/-- A later state of a learner that differs only in its grammar and in what was found
under one. -/
structure Prepared (l l' : Learner α) : Prop where
  options : l'.options = l.options
  symbols : l'.symbols = l.symbols
  names : l'.names = l.names
  baseTerms : l'.baseTerms = l.baseTerms
  round : l'.round = l.round

theorem prepared_self (l : Learner α) : Prepared l l := ⟨rfl, rfl, rfl, rfl, rfl⟩

theorem Prepared.trans {l l' l'' : Learner α} (h : Prepared l l') (h' : Prepared l' l'') :
    Prepared l l'' :=
  ⟨h'.options.trans h.options, h'.symbols.trans h.symbols, h'.names.trans h.names,
    h'.baseTerms.trans h.baseTerms, h'.round.trans h.round⟩

theorem Prepared.eq {l l' : Learner α} (h : Prepared l l') : l' = { l with
    grammar := l'.grammar, frontiers := l'.frontiers, exploration := l'.exploration } := by
  obtain ⟨hoptions, hsymbols, hnames, hbaseTerms, hround⟩ := h
  cases l'
  cases hoptions
  cases hsymbols
  cases hnames
  cases hbaseTerms
  cases hround
  rfl

theorem Prepared.follows {l l' : Learner α} (h : Prepared l l') : Follows l l' :=
  follows_of_symbols_eq h.options h.symbols

/-- What making ready for a search leaves of the symbols: those that are not
solved are as they were. -/
structure Readied (l l' : Learner α) : Prop where
  options : l'.options = l.options
  symbols : List.Forall₂ (fun s s' => Symbol.Follows s s' ∧ (s.solved = false → s' = s)) l.symbols
    l'.symbols

theorem readied_self (l : Learner α) : Readied l l :=
  ⟨rfl, List.forall₂_same.2 fun s _ => ⟨s.follows_self, fun _ => rfl⟩⟩

theorem Readied.of_prepared {l l' l'' : Learner α} (h : Readied l l') (h' : Prepared l' l'') :
    Readied l l'' :=
  ⟨h'.options.trans h.options, h'.symbols ▸ h.symbols⟩

theorem Readied.follows {l l' : Learner α} (h : Readied l l') : Follows l l' := by
  refine ⟨h.options, fun i s' hs' => ?_⟩
  obtain ⟨s, hs, hfollows, -⟩ := getElem?_of_forall₂ h.symbols hs'
  exact ⟨s, hs, hfollows⟩

theorem of_promotable? {l : Learner α} {s : Symbol α} {p : Program} {t : Term}
    (h : l.promotable? s = some (p, t)) :
    s.learnable = true ∧ s.solved = true ∧ s.explanation = some p := by
  unfold promotable? at h
  split at h
  · rename_i hready
    obtain ⟨q, hq, hbound⟩ := Option.bind_eq_some_iff.1 h
    obtain ⟨u, -, hguard⟩ := Option.bind_eq_some_iff.1 hbound
    split at hguard
    · cases hguard
      simp only [Bool.and_eq_true] at hready
      exact ⟨hready.1.1, hready.1.2, hq⟩
    · cases hguard
  · cases h

/-- Only the programs of solved symbols are promoted, and they are no other
programs afterwards. -/
theorem forall₂_promotions (l : Learner α) (c : Canon) (symbols : List (Symbol α)) :
    List.Forall₂ (fun s s' => Symbol.Follows s s' ∧ (s.solved = false → s' = s)) symbols
      (l.promotions c symbols).value.2 := by
  induction symbols generalizing c with
  | nil => exact .nil
  | cons s symbols ih =>
    unfold promotions
    split
    · exact .cons ⟨s.follows_self, fun _ => rfl⟩ (ih c)
    · rename_i p t hpromotable
      refine .cons ⟨⟨rfl, rfl, rfl, id⟩, fun hunsolved => ?_⟩ (ih _)
      cases hunsolved.symm.trans (of_promotable? hpromotable).2.1

theorem prepared_renew (l : Learner α) (terms : List Term) :
    Prepared l (l.renew terms).value.2 := by
  unfold renew
  dsimp only
  split <;> exact ⟨rfl, rfl, rfl, rfl, rfl⟩

theorem readied_updateGrammar (l : Learner α) : Readied l l.updateGrammar.value.2 := by
  have hpromotions := l.forall₂_promotions
    { add := .ofTerm l.options.add, monus := .ofTerm l.options.monus } l.symbols
  unfold updateGrammar
  simp only [Logged.value_bind]
  generalize (l.promotions _ l.symbols).value = out at hpromotions ⊢
  have hrenewed := { l with symbols := out.2 }.prepared_renew (l.baseTerms ++ out.1)
  exact ⟨hrenewed.options, hrenewed.symbols ▸ hpromotions⟩

variable [Scalar α]

theorem prepared_rescoreFrontiers (l : Learner α) (tasks : List Task) :
    Prepared l (l.rescoreFrontiers tasks).value := by
  induction tasks generalizing l with
  | nil => exact l.prepared_self
  | cons t ts ih =>
    unfold rescoreFrontiers
    refine Prepared.trans ?_ (ih _)
    exact ⟨rfl, rfl, rfl, rfl, rfl⟩

omit [Scalar α] in
theorem prepared_dropStale (l : Learner α) (tasks : List Task) :
    Prepared l (l.dropStale tasks).value := by
  unfold dropStale
  split
  · exact l.prepared_self
  · split <;> exact ⟨rfl, rfl, rfl, rfl, rfl⟩

/-- The learner after its grammar was built anew, where it promotes programs. -/
def grown (l : Learner α) : Learner α :=
  if l.options.promotes then l.updateGrammar.value.2 else l

/-- The learner after its frontiers were scored anew, where it does that. -/
def rescored (l : Learner α) (tasks : List Task) : Learner α :=
  if l.options.rescores then (l.rescoreFrontiers tasks).value else l

/-- The learner that is ready to search programs for some tasks. -/
def readyFor (l : Learner α) (tasks : List Task) : Learner α :=
  ((l.grown.rescored tasks).dropStale tasks).value

theorem value_ask (l : Learner α) (tasks : List Task) :
    (l.ask tasks).value =
      ({ grammar := (l.readyFor tasks).grammar, tasks
         budget := budgetFor (l.readyFor tasks).options tasks
         exploration := (l.readyFor tasks).exploration }, l.readyFor tasks) := by
  unfold ask readyFor grown rescored
  simp only [Logged.value_bind]
  by_cases hpromotes : l.options.promotes = true
  · rw [if_pos hpromotes, if_pos hpromotes]
    simp only [Logged.value_bind, Logged.value_map]
    split <;> rfl
  · rw [if_neg hpromotes, if_neg hpromotes]
    simp only [Logged.value_bind, Logged.value_pure]
    split <;> rfl

/-- Once the grammar is built, making ready leaves the symbols alone. -/
theorem prepared_of_grown (l : Learner α) (tasks : List Task) :
    Prepared l.grown (l.readyFor tasks) := by
  have hrescored : Prepared l.grown (l.grown.rescored tasks) := by
    unfold rescored
    split
    · exact prepared_rescoreFrontiers _ tasks
    · exact prepared_self _
  exact hrescored.trans (prepared_dropStale _ tasks)

theorem readied_readyFor (l : Learner α) (tasks : List Task) : Readied l (l.readyFor tasks) := by
  have hgrown : Readied l l.grown := by
    unfold grown
    split
    · exact l.readied_updateGrammar
    · exact l.readied_self
  exact hgrown.of_prepared (l.prepared_of_grown tasks)

/-! ## Observations -/

theorem forall₂_observeFrom (draws : Nat → Draws) (due : Bool) (data : List (List Example))
    (position : Nat) (symbols : List (Symbol α)) :
    List.Forall₂ (fun s s' => s' = if s.learnable then (s.observe (data.getD s.idx [])).value else s)
      symbols (observeFrom draws due data position symbols).value.2 := by
  induction symbols generalizing position with
  | nil => exact .nil
  | cons s symbols ih =>
    unfold observeFrom
    split
    · rename_i hs
      exact .cons (by rw [if_pos hs]) (ih (position + 1))
    · rename_i hs
      exact .cons (by rw [if_neg hs]) (ih (position + 1))

theorem follows_observe (l : Learner α) (source : DrawSource) (data : List (List Example)) :
    Follows l (l.observe source data).value.2 := by
  refine ⟨rfl, fun i s' hs' => ?_⟩
  obtain ⟨s, hs, rfl⟩ := getElem?_of_forall₂ (forall₂_observeFrom _ _ _ _ _) hs'
  refine ⟨s, hs, ?_⟩
  split
  · exact s.follows_observe _
  · exact s.follows_self

/-! ## The findings -/

/-- An entry that is named for a symbol and has candidates is offered to that
symbol; any other one is passed over. -/
theorem adopt_cases (l : Learner α) (name : String) (f : Frontier α) :
    (l.adopt name f).value = (false, l) ∨
      ∃ i s best, Task.symbolNamed? name = some i ∧ l.symbols[i]? = some s ∧
        f.best? = some best ∧ (l.adopt name f).value =
          ((s.consider (.ofTerm best.program)).value.1, { l with
            symbols := l.symbols.set i (s.consider (.ofTerm best.program)).value.2 }) := by
  unfold adopt
  split
  · rename_i i best hname hbest
    split
    · exact Or.inl rfl
    · rename_i s hs
      exact Or.inr ⟨i, s, best, hname, hs, hbest, rfl⟩
  · exact Or.inl rfl

theorem follows_adopt (l : Learner α) (name : String) (f : Frontier α) :
    Follows l (l.adopt name f).value.2 := by
  rcases l.adopt_cases name f with h | ⟨i, s, best, -, hs, -, h⟩
  · rw [h]
    exact follows_of_symbols_eq rfl rfl
  · rw [h]
    exact follows_set hs (s.follows_consider _)

theorem follows_adoptAll (l : Learner α) (entries : List (String × Frontier α)) :
    Follows l (l.adoptAll entries).value.2 := by
  induction entries generalizing l with
  | nil => exact follows_of_symbols_eq rfl rfl
  | cons entry entries ih =>
    unfold adoptAll
    exact (l.follows_adopt entry.1 entry.2).trans (ih _)

theorem follows_merge (l : Learner α) : Follows l l.merge.value.2 := by
  have hsettled := settled_mergeFrom 0 l.symbols
  refine ⟨rfl, fun i s' hs' => ?_⟩
  have hlt : i < l.symbols.length := by
    rw [← hsettled.length]
    exact (List.getElem?_eq_some_iff.1 hs').1
  have hs := List.getElem?_eq_getElem hlt
  have hs' : (mergeFrom 0 l.symbols.length l.symbols).value.2[i]? = some s' := hs'
  refine ⟨_, hs, ?_⟩
  rcases hsettled.kept_or_cleared i _ hs with h | h
  · rw [hs'] at h
    cases h
    exact Symbol.follows_self _
  · rw [hs'] at h
    cases h
    exact Symbol.follows_clear _

theorem follows_takeIn (l : Learner α) (found : Findings α) :
    Follows l (l.takeIn found).value.2.2 := by
  unfold takeIn
  refine (l.follows_adoptAll found.solutions.entries).trans (Follows.trans ?_ (follows_merge _))
  exact follows_of_symbols_eq rfl rfl

/-! ## A round -/

/-- A round begins with the observations; where they lead to tasks, the learner is
made ready and asks for their programs. -/
theorem start_cases (l : Learner α) (source : DrawSource) (data : List (List Example)) :
    let observed := (l.observe source data).value
    (l.start source data).value = (none, observed.2) ∨
      (l.start source data).value =
        (some { grammar := (observed.2.readyFor observed.1).grammar, tasks := observed.1
                budget := budgetFor (observed.2.readyFor observed.1).options observed.1
                exploration := (observed.2.readyFor observed.1).exploration },
          observed.2.readyFor observed.1) := by
  unfold start
  simp only [Logged.value_bind]
  split
  · exact Or.inl rfl
  · refine Or.inr ?_
    simp only [Logged.value_bind, Logged.value_pure, value_ask]

/-- A round without tasks ends after its observations, one without an answer once
the learner was ready, and any other with what the oracle has found. -/
theorem learn_cases (l : Learner α) (source : DrawSource) (data : List (List Example))
    (oracle : Oracle α) :
    let before := (l.start source data).value
    let after := (l.learn source data oracle).value.2
    (before.1 = none ∧ after = before.2) ∨
      ∃ q, before.1 = some q ∧
        ((∃ e, (oracle q).value = .error e ∧ after = before.2) ∨
          ∃ found, (oracle q).value = .ok found ∧ after = (before.2.takeIn found).value.2.2) := by
  unfold learn
  simp only [Logged.value_bind]
  generalize (l.start source data).value = before
  obtain ⟨query, l'⟩ := before
  cases query with
  | none => exact Or.inl ⟨rfl, rfl⟩
  | some q =>
    refine Or.inr ⟨q, rfl, ?_⟩
    simp only [Logged.value_bind]
    cases hanswer : (oracle q).value with
    | error failure =>
      refine Or.inl ⟨failure, rfl, ?_⟩
      cases failure <;> rfl
    | ok found => exact Or.inr ⟨found, rfl, rfl⟩

theorem follows_start (l : Learner α) (source : DrawSource) (data : List (List Example)) :
    Follows l (l.start source data).value.2 := by
  have hobserve := l.follows_observe source data
  rcases l.start_cases source data with h | h
  · rw [h]
    exact hobserve
  · rw [h]
    exact hobserve.trans (readied_readyFor _ _).follows

theorem follows_learn (l : Learner α) (source : DrawSource) (data : List (List Example))
    (oracle : Oracle α) : Follows l (l.learn source data oracle).value.2 := by
  have hstart := l.follows_start source data
  rcases l.learn_cases source data oracle with ⟨-, h⟩ | ⟨q, -, ⟨e, -, h⟩ | ⟨found, -, h⟩⟩
  · exact h ▸ hstart
  · exact h ▸ hstart
  · exact h ▸ hstart.trans (follows_takeIn _ found)

/-! ## Learners in use -/

/-- A learner that came about without taking up a saved model: a new one, and
what rounds of learning with any oracles, changes of its grammar, merges, new
symbols and whatever happens to one of its symbols make of it. -/
inductive Reached : Learner α → Prop
  | new (vocabulary : Vocabulary) (options : Options α) : Reached (new vocabulary options)
  | learn {l : Learner α} (h : Reached l) (source : DrawSource) (data : List (List Example))
      (oracle : Oracle α) : Reached (l.learn source data oracle).value.2
  | updateGrammar {l : Learner α} (h : Reached l) : Reached l.updateGrammar.value.2
  | rescoreFrontiers {l : Learner α} (h : Reached l) (tasks : List Task) :
      Reached (l.rescoreFrontiers tasks).value
  | merge {l : Learner α} (h : Reached l) : Reached l.merge.value.2
  | extend {l : Learner α} (h : Reached l) (arity : Nat) : Reached (l.extend arity).value.2
  | symbol {l : Learner α} (h : Reached l) {i : Nat} {s s' : Symbol α}
      (hs : l.symbols[i]? = some s) (hstep : s.Step s') :
      Reached { l with symbols := l.symbols.set i s' }

theorem numbered_new (vocabulary : Vocabulary) (options : Options α) :
    Numbered (new vocabulary options) := by
  intro i s hs
  have hsymbols : (new vocabulary options).symbols =
      vocabulary.mapIdx (symbolFor options.settings) := rfl
  rw [hsymbols, List.getElem?_mapIdx] at hs
  obtain ⟨e, -, rfl⟩ := Option.map_eq_some_iff.1 hs
  unfold symbolFor
  split <;> exact ⟨rfl, rfl, by intro e he; cases he⟩

theorem numbered_extend {l : Learner α} (h : l.Numbered) (arity : Nat) :
    (l.extend arity).value.2.Numbered := by
  unfold extend
  simp only [Logged.value_bind]
  refine (prepared_renew _ _).follows.numbered ?_
  intro i s hs
  rcases Nat.lt_or_ge i l.symbols.length with hi | hi
  · rw [List.getElem?_append_left (by simpa using hi), List.getElem?_map] at hs
    obtain ⟨t, ht, rfl⟩ := Option.map_eq_some_iff.1 hs
    obtain ⟨hidx, hsettings, hfits⟩ := h i t ht
    exact ⟨hidx, hsettings, t.follows_freeze.fits hfits⟩
  · rw [List.getElem?_append_right (by simpa using hi), List.length_map,
      List.getElem?_singleton] at hs
    split at hs
    · cases hs
      exact ⟨by simp only [Symbol.fresh]; omega, rfl, by intro e he; cases he⟩
    · cases hs

/-- In a learner in use each symbol has the number of its position and the
settings of the learner, and its evidence fits its arity. -/
theorem Reached.numbered {l : Learner α} (h : Reached l) : l.Numbered := by
  induction h with
  | new vocabulary options => exact numbered_new vocabulary options
  | learn _ source data oracle ih => exact (follows_learn _ source data oracle).numbered ih
  | updateGrammar _ ih => exact (readied_updateGrammar _).follows.numbered ih
  | rescoreFrontiers _ tasks ih => exact (prepared_rescoreFrontiers _ tasks).follows.numbered ih
  | merge _ ih => exact (follows_merge _).numbered ih
  | extend _ arity ih => exact numbered_extend ih arity
  | symbol _ hs hstep ih => exact (follows_set hs hstep.follows).numbered ih

end SymbolInduction.Learner
