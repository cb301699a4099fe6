-- The components of a learner's grammar. A grammar that is built anew has the primitives
-- with which it starts, the programs of the symbols that were there when the learner was
-- last given a new one, and the programs that are promoted. What was built before makes
-- no difference, and what is built twice is the same.
import SymbolInduction.Proofs.Learner.Promotions
import SymbolInduction.Proofs.Learner.Trust
import SymbolInduction.Proofs.Learner.Versions

namespace SymbolInduction.Learner

open Explanation (Same)

variable {α : Type}

/-! ## What operations leave alone -/

/-- The components of the grammar are different terms. -/
def Distinct (l : Learner α) : Prop := l.grammar.terms.Nodup

/-- The learner has the same options, and the same terms with which its grammars start;
and no term is twice in its grammar that was there once. -/
structure Rooted (l l' : Learner α) : Prop where
  options : l'.options = l.options
  baseTerms : l'.baseTerms = l.baseTerms
  distinct : l.Distinct → l'.Distinct

theorem Rooted.trans {l l' l'' : Learner α} (h : Rooted l l') (h' : Rooted l' l'') : Rooted l l'' :=
  ⟨h'.options.trans h.options, h'.baseTerms.trans h.baseTerms, h'.distinct ∘ h.distinct⟩

theorem Prepared.rooted {l l' : Learner α} (h : Prepared l l') (hgrammar : l'.grammar = l.grammar) :
    Rooted l l' :=
  ⟨h.options, h.baseTerms, fun hdistinct => by rwa [Distinct, hgrammar]⟩

theorem rooted_renew (l : Learner α) (terms : List Term) : Rooted l (l.renew terms).value.2 := by
  refine ⟨(l.prepared_renew terms).options, (l.prepared_renew terms).baseTerms, fun hdistinct => ?_⟩
  rcases l.renew_cases terms with ⟨-, hkept⟩ | ⟨-, -, hnew⟩
  · rwa [hkept]
  · rw [Distinct, hnew]
    exact Grammar.nodup_terms_ofTerms _ _

theorem rooted_updateGrammar (l : Learner α) : Rooted l l.updateGrammar.value.2 := by
  let l' : Learner α := { l with symbols := (l.promotions l.canon l.symbols).value.2 }
  have hl' : Rooted l l' := ⟨rfl, rfl, id⟩
  rw [value_updateGrammar]
  exact hl'.trans (l'.rooted_renew l.promotedTerms)

variable [Scalar α]

theorem rooted_readyFor (l : Learner α) (tasks : List Task) : Rooted l (l.readyFor tasks) := by
  have hgrown : Rooted l l.grown := by
    unfold grown
    split
    · exact l.rooted_updateGrammar
    · exact ⟨rfl, rfl, id⟩
  have hrescored : Rooted l.grown (l.grown.rescored tasks) := by
    unfold rescored
    split
    · exact (prepared_rescoreFrontiers _ tasks).rooted (keeps_rescoreFrontiers _ tasks).2
    · exact ⟨rfl, rfl, id⟩
  exact (hgrown.trans hrescored).trans
    ((prepared_dropStale _ tasks).rooted (keeps_dropStale _ tasks).2)

theorem rooted_adoptAll (l : Learner α) (entries : List (String × Frontier α)) :
    Rooted l (l.adoptAll entries).value.2 := by
  induction entries generalizing l with
  | nil => exact ⟨rfl, rfl, id⟩
  | cons entry entries ih =>
    have hadopt : Rooted l (l.adopt entry.1 entry.2).value.2 := by
      rcases l.adopt_cases entry.1 entry.2 with h | ⟨i, s, best, -, -, -, h⟩ <;> rw [h] <;>
        exact ⟨rfl, rfl, id⟩
    exact hadopt.trans (ih _)

theorem rooted_learn (l : Learner α) (source : DrawSource) (data : List (List Example))
    (oracle : Oracle α) : Rooted l (l.learn source data oracle).value.2 := by
  have hobserve : Rooted l (l.observe source data).value.2 := ⟨rfl, rfl, id⟩
  have hstart : Rooted l (l.start source data).value.2 := by
    rcases l.start_cases source data with h | h
    · rw [h]
      exact hobserve
    · rw [h]
      exact hobserve.trans (rooted_readyFor _ _)
  rcases l.learn_cases source data oracle with ⟨-, h⟩ | ⟨q, -, ⟨e, -, h⟩ | ⟨found, -, h⟩⟩
  · exact h ▸ hstart
  · exact h ▸ hstart
  · rw [h]
    exact (hstart.trans (rooted_adoptAll _ found.solutions.entries)).trans ⟨rfl, rfl, id⟩

omit [Scalar α] in
theorem rooted_load (l : Learner α) (model : Option (List (SavedSymbol α))) :
    Rooted l (l.load model).2 := by
  cases model with
  | none => exact ⟨rfl, rfl, id⟩
  | some model =>
    unfold load
    dsimp only
    split <;> exact ⟨rfl, rfl, id⟩

/-- Only new symbols add to the terms with which grammars start. -/
def Operation.extends : Operation α → Bool
  | .extend _ => true
  | _ => false

theorem rooted_perform (l : Learner α) {op : Operation α} (h : op.extends = false) :
    Rooted l (l.perform op) := by
  cases op with
  | learn source data oracle => exact l.rooted_learn source data oracle
  | updateGrammar => exact l.rooted_updateGrammar
  | rescoreFrontiers tasks =>
    exact (l.prepared_rescoreFrontiers tasks).rooted (keeps_rescoreFrontiers l tasks).2
  | merge => exact ⟨rfl, rfl, id⟩
  | extend arity => cases h
  | load model => exact l.rooted_load model

/-- A new symbol brings base terms, and all else is as it is with other operations. -/
theorem extend_spec (l : Learner α) (arity : Nat) :
    let l' := (l.extend arity).value.2
    l'.options = l.options ∧
      l'.baseTerms = l.baseTerms ++ (l.symbols.map Symbol.freeze).filterMap component? ∧
      (l.Distinct → l'.Distinct) := by
  intro l'
  let baseTerms := l.baseTerms ++ (l.symbols.map Symbol.freeze).filterMap component?
  -- the learner whose grammar is built anew has the old one still
  obtain ⟨l₀, hl', hgrammar, hoptions, hbaseTerms⟩ : ∃ l₀ : Learner α,
      l' = (l₀.renew baseTerms).value.2 ∧ l₀.grammar = l.grammar ∧ l₀.options = l.options ∧
        l₀.baseTerms = baseTerms :=
    ⟨_, rfl, rfl, rfl, rfl⟩
  obtain ⟨hoptions', hbaseTerms', hdistinct⟩ := l₀.rooted_renew baseTerms
  rw [hl']
  refine ⟨hoptions'.trans hoptions, hbaseTerms'.trans hbaseTerms, fun h => hdistinct ?_⟩
  rwa [Distinct, hgrammar]

theorem perform_spec (l : Learner α) (op : Operation α) :
    (l.perform op).options = l.options ∧ (l.Distinct → (l.perform op).Distinct) := by
  cases hop : op.extends with
  | false => exact ⟨(l.rooted_perform hop).options, (l.rooted_perform hop).distinct⟩
  | true =>
    cases op with
    | extend arity => exact ⟨(l.extend_spec arity).1, (l.extend_spec arity).2.2⟩
    | _ => cases hop

theorem options_after (l : Learner α) (operations : List (Operation α)) :
    (l.after operations).options = l.options := by
  induction operations generalizing l with
  | nil => rfl
  | cons op operations ih => exact (ih (l.perform op)).trans (l.perform_spec op).1

/-- No grammar of a learner holds a term twice. -/
theorem distinct_after (vocabulary : Vocabulary) (options : Options α)
    (operations : List (Operation α)) :
    ((new vocabulary options).after operations).Distinct := by
  induction operations using List.reverseRecOn with
  | nil => exact Grammar.nodup_terms_ofTerms _ _
  | append_singleton operations op ih =>
    rw [after_concat]
    exact (perform_spec _ op).2 ih

/-! ## The symbols that were there -/

/-- The symbols that were there when a learner was last given a new one, in the course of
several operations; `before` are those of an earlier time. -/
def lastExtended (before : List (Symbol α)) (l : Learner α) : List (Operation α) → List (Symbol α)
  | [] => before
  | op :: operations => lastExtended (if op.extends then l.symbols else before) (l.perform op) operations

theorem lastExtended_concat (before : List (Symbol α)) (l : Learner α)
    (operations : List (Operation α)) (op : Operation α) :
    lastExtended before l (operations ++ [op]) =
      if op.extends then (l.after operations).symbols else lastExtended before l operations := by
  induction operations generalizing before l with
  | nil => rfl
  | cons op' operations ih => exact ih _ (l.perform op')

/-- A symbol that was there is not learned any more, and has the program that it had. -/
theorem frozen_of_lastExtended (l : Learner α) (operations : List (Operation α)) {s : Symbol α}
    (hs : s ∈ lastExtended [] l operations) :
    ∃ s' ∈ (l.after operations).symbols, s'.learnable = false ∧ Same s.explanation s'.explanation := by
  induction operations using List.reverseRecOn with
  | nil => cases hs
  | append_singleton operations op ih =>
    rw [lastExtended_concat] at hs
    rw [after_concat]
    split at hs
    · rename_i hextends
      cases op with
      | extend arity =>
        obtain ⟨new, -, hsymbols⟩ := (l.after operations).symbols_extend arity
        refine ⟨s.freeze, ?_, rfl, rfl⟩
        change s.freeze ∈ ((l.after operations).extend arity).value.2.symbols
        rw [hsymbols]
        exact List.mem_append_left _ (List.mem_map_of_mem hs)
      | _ => cases hextends
    · obtain ⟨s', hs', hlearnable, hsame⟩ := ih hs
      obtain ⟨i, hi⟩ := List.mem_iff_getElem?.1 hs'
      obtain ⟨s'', hs'', hfrozen⟩ := (l.after operations).frozen_perform op hi hlearnable
      exact ⟨s'', List.mem_of_getElem? hs'', hfrozen.after, hsame.trans hfrozen.explanation⟩

omit [Scalar α] in
theorem component?_eq_some_iff {s : Symbol α} {t : Term} :
    component? s = some t ↔
      ∃ p e, s.explanation = some p ∧ p.term? = some e ∧ 0 < e.arity ∧ t = .promoted e := by
  unfold component?
  simp only [Option.bind_eq_some_iff]
  constructor
  · rintro ⟨e, ⟨p, hp, he⟩, ht⟩
    split at ht
    · cases ht
    · rename_i harity
      cases ht
      exact ⟨p, e, hp, he, Nat.pos_of_ne_zero harity, rfl⟩
  · rintro ⟨p, e, hp, he, harity, rfl⟩
    exact ⟨e, ⟨p, hp, he⟩, if_neg harity.ne'⟩

omit [Scalar α] in
/-- What a symbol's program becomes depends on what the program is made of. -/
theorem component?_of_same {s s' : Symbol α} (h : Same s.explanation s'.explanation) :
    component? s' = component? s := by
  unfold component?
  rcases h.cases with ⟨hs, hs'⟩ | ⟨p, q, hs, hs', hbody⟩
  · rw [hs, hs']
  · rw [hs, hs', Option.bind_some, Option.bind_some, Program.term?, Program.term?, hbody]

theorem mem_baseTerms_extend {l : Learner α} {arity : Nat} {t : Term} :
    t ∈ (l.extend arity).value.2.baseTerms ↔
      t ∈ l.baseTerms ∨ ∃ s ∈ l.symbols, component? s = some t := by
  rw [(l.extend_spec arity).2.1]
  simp only [List.mem_append, List.mem_filterMap, List.mem_map, exists_exists_and_eq_and]
  rfl

/-- The terms with which grammars start are those that were there at first, and the
programs of the symbols that were there when the learner was last given a new one. Those
that earlier symbols have left are among them, for these symbols have kept their
programs. -/
theorem mem_baseTerms_after {l : Learner α} {operations : List (Operation α)} {t : Term} :
    t ∈ (l.after operations).baseTerms ↔
      t ∈ l.baseTerms ∨ ∃ s ∈ lastExtended [] l operations, component? s = some t := by
  induction operations using List.reverseRecOn with
  | nil => exact ⟨Or.inl, fun h => h.resolve_right fun ⟨_, hs, _⟩ => List.not_mem_nil hs⟩
  | append_singleton operations op ih =>
    rw [after_concat, lastExtended_concat]
    cases hop : op.extends with
    | false => rw [(rooted_perform _ hop).baseTerms, ih]; rfl
    | true =>
      cases op with
      | extend arity =>
        change t ∈ ((l.after operations).extend arity).value.2.baseTerms ↔ _
        rw [mem_baseTerms_extend, ih, if_pos rfl, or_assoc]
        refine or_congr_right (or_iff_right_of_imp ?_)
        rintro ⟨s, hs, ht⟩
        obtain ⟨s', hs', -, hsame⟩ := l.frozen_of_lastExtended operations hs
        exact ⟨s', hs', (component?_of_same hsame).trans ht⟩
      | _ => cases hop

/-! ## Grammars that are built anew -/

omit [Scalar α] in
/-- A learner that has just built its grammar anew would build the same again, and change
nothing by that. -/
theorem updateGrammar_again (l : Learner α) :
    l.updateGrammar.value.2.updateGrammar.value = (false, l.updateGrammar.value.2) := by
  let l₀ : Learner α := { l with symbols := (l.promotions l.canon l.symbols).value.2 }
  have hvalue : l.updateGrammar.value = (l₀.renew l.promotedTerms).value := l.value_updateGrammar
  generalize hl' : l.updateGrammar.value.2 = l'
  have hprepared : Prepared l₀ l' := by
    rw [← hl', hvalue]
    exact l₀.prepared_renew _
  have hoptions : l'.options = l.options := hprepared.options
  have hcanon : l'.canon.For l.options := hoptions ▸ l'.for_canon
  -- the symbols have been compared before, and the same terms are promoted
  obtain ⟨hagain, hpromoted⟩ := promotions_again l.for_canon hcanon l.symbols
  have hsymbols : (l'.promotions l'.canon l'.symbols).value.2 = l'.symbols := by
    rw [promotions_congr hoptions, hprepared.symbols]
    exact hagain
  have hterms : l'.promotedTerms = l.promotedTerms := by
    unfold promotedTerms
    rw [hprepared.baseTerms, hprepared.symbols, funext (promotion?_congr hoptions), hpromoted]
  rw [value_updateGrammar, hsymbols, hterms]
  rcases l'.renew_cases l.promotedTerms with ⟨-, hkept⟩ | ⟨hother, -, -⟩
  · exact hkept
  · refine absurd (fun t => ?_) hother
    rw [← hl', hvalue]
    exact mem_terms_renew.symm

omit [Scalar α] in
/-- A learner says that its grammar has changed where its terms have, and the version is
then one higher. -/
theorem updateGrammar_changes (l : Learner α) :
    let out := l.updateGrammar.value
    (out.1 = true ↔ ¬ ∀ t, t ∈ out.2.grammar.terms ↔ t ∈ l.grammar.terms) ∧
      out.2.grammar.version = l.grammar.version + (if out.1 then 1 else 0) ∧
      (out.1 = false → out.2.grammar = l.grammar) := by
  intro out
  let l' : Learner α := { l with symbols := (l.promotions l.canon l.symbols).value.2 }
  have hout : out = (l'.renew l.promotedTerms).value := l.value_updateGrammar
  rcases l'.renew_cases l.promotedTerms with ⟨-, hkept⟩ | ⟨hother, hsaid, hnew⟩
  · have hgrammar : out.2.grammar = l.grammar := by rw [hout, hkept]
    have hsaid : out.1 = false := by rw [hout, hkept]
    rw [hgrammar, hsaid]
    exact ⟨iff_of_false Bool.false_ne_true fun h => h fun _ => Iff.rfl, rfl, fun _ => rfl⟩
  · rw [← hout] at hsaid hnew
    rw [hsaid, hnew]
    refine ⟨iff_of_true rfl ?_, rfl, fun h => nomatch h⟩
    simpa only [Grammar.mem_terms_ofTerms] using hother

/-- Whatever a new learner has been through, once its grammar is built anew the
components are different terms: those with which it started, the programs with arguments
of the symbols that were there when it was last given a new one, and the terms that are
promoted for its present symbols, and no others. The version is one higher where the
components are others than before, and there alone, and the learner says so. Where it is
done again right away, nothing changes. -/
theorem the_grammar_is_what_the_symbols_give (vocabulary : Vocabulary) (options : Options α)
    (operations : List (Operation α)) :
    let l := (new vocabulary options).after operations
    let earlier := lastExtended [] (new vocabulary options) operations
    let out := l.updateGrammar.value
    out.2.grammar.terms.Nodup ∧
      (∀ t, t ∈ out.2.grammar.terms ↔
        t ∈ Grammar.baseTerms options.recursion ∨
          (∃ s ∈ earlier, ∃ p e, s.explanation = some p ∧ p.term? = some e ∧ 0 < e.arity ∧
            t = .promoted e) ∨
          ∃ s ∈ l.symbols, ∃ p e, s.learnable = true ∧ s.solved = true ∧ s.arity = 2 ∧
            s.explanation = some p ∧ p.term? = some e ∧ options.guard p.description = true ∧
            t = .promoted (chosenFor options p e s.examples)) ∧
      (out.1 = true ↔ ¬ ∀ t, t ∈ out.2.grammar.terms ↔ t ∈ l.grammar.terms) ∧
      out.2.grammar.version = l.grammar.version + (if out.1 then 1 else 0) ∧
      (out.1 = false → out.2.grammar = l.grammar) ∧
      out.2.updateGrammar.value = (false, out.2) := by
  intro l earlier out
  have hoptions : l.options = options := options_after _ operations
  obtain ⟨hsaid, hversion, hkept⟩ := l.updateGrammar_changes
  have hdistinct := l.rooted_updateGrammar.distinct (distinct_after vocabulary options operations)
  refine ⟨hdistinct, fun t => ?_, hsaid, hversion, hkept, l.updateGrammar_again⟩
  rw [mem_terms_updateGrammar, mem_baseTerms_after, or_assoc]
  refine or_congr_right (or_congr ?_ ?_)
  · simp only [component?_eq_some_iff]
    rfl
  · simp only [promotion?_eq_some_iff, hoptions]
    constructor
    · rintro ⟨s, hs, _, ⟨p, e, hlearnable, hsolved, harity, hp, he, hguard, rfl⟩, rfl⟩
      exact ⟨s, hs, p, e, hlearnable, hsolved, harity, hp, he, hguard, rfl⟩
    · rintro ⟨s, hs, p, e, hlearnable, hsolved, harity, hp, he, hguard, rfl⟩
      exact ⟨s, hs, _, ⟨p, e, hlearnable, hsolved, harity, hp, he, hguard, rfl⟩, rfl⟩

end SymbolInduction.Learner
