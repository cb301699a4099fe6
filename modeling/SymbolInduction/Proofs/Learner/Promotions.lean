-- Which terms are promoted. A program is compared with the two canonical ones on the
-- examples of its symbol, by outputs alone: what the programs remember makes no
-- difference. An example counts against a canonical term where the program has another
-- output, and for it where both have the same one; one on which the program has no
-- output counts neither way. A canonical term is promoted where nothing counts against
-- it, which can be because nothing is left to count.
import SymbolInduction.Proofs.Grammar
import SymbolInduction.Proofs.Learner.Checkpoints
import SymbolInduction.Proofs.Program.Memory

namespace SymbolInduction

/-! ## For and against -/

namespace Example

/-- Both programs have the same output on the example. -/
def Supports (p q : Program) (e : Example) : Prop :=
  p.output e.inputs ≠ .missing ∧ p.output e.inputs = q.output e.inputs

/-- The first program has an output on the example, and it is not that of the second. -/
def Contradicts (p q : Program) (e : Example) : Prop :=
  p.output e.inputs ≠ .missing ∧ p.output e.inputs ≠ q.output e.inputs

variable {p q : Program} {e : Example}

instance : Decidable (Supports p q e) := inferInstanceAs (Decidable (_ ∧ _))

instance : Decidable (Contradicts p q e) := inferInstanceAs (Decidable (_ ∧ _))

theorem supports_of_not_contradicts (h : ¬ Contradicts p q e) (he : p.output e.inputs ≠ .missing) :
    Supports p q e :=
  ⟨he, by_contra fun hne => h ⟨he, hne⟩⟩

/-- What programs remember does not count. -/
theorem contradicts_congr {p' q' : Program} (hp : p'.body = p.body) (hq : q'.body = q.body) :
    Contradicts p' q' e ↔ Contradicts p q e := by
  unfold Contradicts Program.output
  rw [hp, hq]

end Example

open Example (Supports Contradicts)

namespace Learner

/-! ## One program -/

section

variable {α : Type}

/-- The comparison ends with the first example on which the programs differ. -/
theorem value_agreement_cons (p q : Program) (e : Example) (examples : List Example) :
    (agreement (α := α) p q (e :: examples)).value =
      let p' := (p.evaluate (α := α) e.inputs).value.2
      let q' := (q.evaluate (α := α) e.inputs).value.2
      if Contradicts p q e then (false, p', q') else (agreement (α := α) p' q' examples).value := by
  dsimp only
  conv_lhs => unfold agreement
  simp only [Logged.value_bind, Program.evaluate_output]
  by_cases h : Contradicts p q e
  · rw [if_pos h, if_neg (by simpa [Contradicts] using h)]
    rfl
  · rw [if_neg h, if_pos (by simpa [Contradicts, imp_iff_not_or] using h)]

theorem agreement_spec (p q : Program) (examples : List Example) :
    (agreement (α := α) p q examples).value.2.2.body = q.body ∧
      ((agreement (α := α) p q examples).value.1 = true ↔ ∀ e ∈ examples, ¬ Contradicts p q e) := by
  induction examples generalizing p q with
  | nil => exact ⟨rfl, fun _ _ h => absurd h List.not_mem_nil, fun _ => rfl⟩
  | cons e examples ih =>
    have hp := Program.evaluate_body (α := α) p e.inputs
    have hq := Program.evaluate_body (α := α) q e.inputs
    rw [value_agreement_cons, List.forall_mem_cons]
    dsimp only
    split
    · rename_i h
      exact ⟨hq, iff_of_false Bool.false_ne_true fun hnone => hnone.1 h⟩
    · rename_i h
      obtain ⟨hbody, hagree⟩ := ih (p.evaluate (α := α) e.inputs).value.2 _
      refine ⟨hbody.trans hq, ?_⟩
      simp only [hagree, Example.contradicts_congr hp hq, h, not_false_eq_true, true_and]

/-- The term that is promoted for a program with the term `own`, by the examples that
count against the canonical ones. -/
def chosenFor (options : Options α) (p : Program) (own : Term) (examples : List Example) : Term :=
  if ∀ e ∈ examples, ¬ Contradicts p (.ofTerm options.add) e then options.add
  else if ∀ e ∈ examples, ¬ Contradicts p (.ofTerm options.monus) e then options.monus
  else own

theorem chosenFor_congr {options : Options α} {p p' : Program} (h : p'.body = p.body) (own : Term)
    (examples : List Example) : chosenFor options p' own examples = chosenFor options p own examples := by
  unfold chosenFor
  simp only [Example.contradicts_congr h rfl]

/-- The canonical programs are those of the learner's options, whatever they remember. -/
structure Canon.For (c : Canon) (options : Options α) : Prop where
  add : c.add.body = .term options.add
  monus : c.monus.body = .term options.monus

theorem promotedFor_spec {options : Options α} {c : Canon} (hc : c.For options) (p : Program)
    (own : Term) (examples : List Example) :
    (promotedFor options c p own examples).value.1 = chosenFor options p own examples ∧
      (promotedFor options c p own examples).value.2.2.For options := by
  obtain ⟨hadd, hlikeAdd⟩ := agreement_spec (α := α) p c.add examples
  have hp := body_agreement (α := α) p c.add examples
  obtain ⟨hmonus, hlikeMonus⟩ :=
    agreement_spec (α := α) (agreement (α := α) p c.add examples).value.2.1 c.monus examples
  simp only [Example.contradicts_congr (p := p) (q := .ofTerm options.add) rfl hc.add] at hlikeAdd
  simp only [Example.contradicts_congr (p := p) (q := .ofTerm options.monus) hp hc.monus] at hlikeMonus
  unfold promotedFor chosenFor
  simp only [Logged.value_bind]
  split
  · rename_i hlike
    rw [if_pos (hlikeAdd.1 hlike)]
    exact ⟨rfl, hadd.trans hc.add, hc.monus⟩
  · rename_i hunlike
    rw [if_neg fun h => hunlike (hlikeAdd.2 h)]
    refine ⟨?_, hadd.trans hc.add, hmonus.trans hc.monus⟩
    simp only [Logged.value_bind, Logged.value_pure, hlikeMonus]

/-! ### What was compared is remembered -/

/-- The examples on which two programs are compared: those up to the first one that
counts against the second program. -/
def compared (p q : Program) : List Example → List Example
  | [] => []
  | e :: examples => e :: if Contradicts p q e then [] else compared p q examples

theorem compared_congr {p q p' q' : Program} (hp : p'.body = p.body) (hq : q'.body = q.body)
    (examples : List Example) : compared p' q' examples = compared p q examples := by
  induction examples with
  | nil => rfl
  | cons e examples ih =>
    unfold compared
    simp only [Example.contradicts_congr hp hq, ih]

theorem compared_subset (p q : Program) (examples : List Example) :
    compared p q examples ⊆ examples := by
  induction examples with
  | nil => exact List.Subset.refl _
  | cons e examples ih =>
    unfold compared
    refine List.cons_subset_cons e ?_
    split
    · exact List.nil_subset _
    · exact ih

theorem remembers_agreement {p q : Program} {examples : List Example} {xs : Inputs}
    (h : (∃ e ∈ compared p q examples, e.inputs = xs) ∨ p.Remembers xs) :
    (agreement (α := α) p q examples).value.2.1.Remembers xs := by
  induction examples generalizing p q with
  | nil => exact h.resolve_left (by simp [compared])
  | cons e examples ih =>
    rw [value_agreement_cons]
    dsimp only
    have hremembers : xs = e.inputs ∨ p.Remembers xs →
        (p.evaluate (α := α) e.inputs).value.2.Remembers xs := Program.remembers_evaluate
    unfold compared at h
    split at h <;> rename_i hcontradicts
    · rw [if_pos hcontradicts]
      refine hremembers (h.imp_left ?_)
      rintro ⟨e', hmem, rfl⟩
      rw [List.mem_singleton.1 hmem]
    · rw [if_neg hcontradicts]
      refine ih ?_
      rw [compared_congr (Program.evaluate_body p e.inputs) (Program.evaluate_body q e.inputs)]
      rcases h with ⟨e', hmem, rfl⟩ | h
      · rcases List.mem_cons.1 hmem with rfl | hmem
        · exact Or.inr (hremembers (Or.inl rfl))
        · exact Or.inl ⟨e', hmem, rfl⟩
      · exact Or.inr (hremembers (Or.inr h))

/-- Comparing a program leaves it as it is where it remembers all that is compared. -/
theorem agreement_of_compared {p q : Program} {examples : List Example}
    (h : ∀ e ∈ compared p q examples, p.Remembers e.inputs) :
    (agreement (α := α) p q examples).value.2.1 = p := by
  induction examples generalizing q with
  | nil => rfl
  | cons e examples ih =>
    unfold compared at h
    have hp := Program.evaluate_of_remembers (α := α) (h e List.mem_cons_self)
    rw [value_agreement_cons]
    dsimp only
    split
    · exact hp
    · rename_i hcontradicts
      rw [if_neg hcontradicts] at h
      rw [hp]
      refine ih fun e' he' => h e' (List.mem_cons_of_mem _ ?_)
      rwa [compared_congr rfl (Program.evaluate_body q e.inputs)] at he'

/-- A program that remembers an earlier comparison is compared again with the same
outcome, and stays as it is. -/
theorem agreement_again {p q p' q' : Program} {examples : List Example} (hp : p'.body = p.body)
    (hq : q'.body = q.body) (h : ∀ e ∈ compared p q examples, p'.Remembers e.inputs) :
    (agreement (α := α) p' q' examples).value.1 = (agreement (α := α) p q examples).value.1 ∧
      (agreement (α := α) p' q' examples).value.2.1 = p' := by
  refine ⟨?_, agreement_of_compared (by rwa [compared_congr hp hq])⟩
  rw [Bool.eq_iff_iff, (agreement_spec p' q' examples).2, (agreement_spec p q examples).2]
  simp only [Example.contradicts_congr hp hq]

/-- A program that was compared with the canonical ones is not changed where that is
done again. -/
theorem promotedFor_again {options : Options α} {c c' : Canon} (hc : c.For options)
    (hc' : c'.For options) (p : Program) (own : Term) (examples : List Example) :
    let p' := (promotedFor options c p own examples).value.2.1
    (promotedFor options c' p' own examples).value.2.1 = p' := by
  have hadd : c'.add.body = c.add.body := hc'.add.trans hc.add.symm
  have hmonus : c'.monus.body = c.monus.body := hc'.monus.trans hc.monus.symm
  intro p'
  have hbody : p'.body = p.body := body_promotedFor options c p own examples
  let p₁ := (agreement (α := α) p c.add examples).value.2.1
  have hbody₁ : p₁.body = p.body := body_agreement p c.add examples
  have hremembers₁ : ∀ e ∈ compared p c.add examples, p₁.Remembers e.inputs :=
    fun e he => remembers_agreement (Or.inl ⟨e, he, rfl⟩)
  by_cases hlike : (agreement (α := α) p c.add examples).value.1 = true
  · have hp' : p' = p₁ := by
      change (promotedFor options c p own examples).value.2.1 = p₁
      unfold promotedFor
      simp only [Logged.value_bind, hlike, if_true]
      rfl
    obtain ⟨hvalue, hsame⟩ := agreement_again (α := α) hbody hadd (by rwa [hp'])
    unfold promotedFor
    simp only [Logged.value_bind, hvalue, hlike, if_true]
    exact hsame
  · have hp' : p' = (agreement (α := α) p₁ c.monus examples).value.2.1 := by
      change (promotedFor options c p own examples).value.2.1 = _
      unfold promotedFor
      simp only [Logged.value_bind, hlike]
      rfl
    have hfromAdd : ∀ e ∈ compared p c.add examples, p'.Remembers e.inputs := fun e he =>
      hp' ▸ remembers_agreement (Or.inr (hremembers₁ e he))
    have hfromMonus : ∀ e ∈ compared p₁ c.monus examples, p'.Remembers e.inputs := fun e he =>
      hp' ▸ remembers_agreement (Or.inl ⟨e, he, rfl⟩)
    obtain ⟨hvalue, hsame⟩ := agreement_again (α := α) hbody hadd hfromAdd
    obtain ⟨-, hsame'⟩ :=
      agreement_again (α := α) (hbody.trans hbody₁.symm) hmonus hfromMonus
    unfold promotedFor
    simp only [Logged.value_bind, hvalue, hlike, hsame]
    exact hsame'

/-- Nothing counts against the sum: it is promoted. Either something counts for it, or
the program has no output on any example. -/
theorem chosenFor_of_like_add {options : Options α} {p : Program} {own : Term}
    {examples : List Example} (h : ∀ e ∈ examples, ¬ Contradicts p (.ofTerm options.add) e) :
    chosenFor options p own examples = options.add ∧
      ((∃ e ∈ examples, Supports p (.ofTerm options.add) e) ∨
        ∀ e ∈ examples, p.output e.inputs = .missing) := by
  refine ⟨if_pos h, ?_⟩
  by_cases hmissing : ∀ e ∈ examples, p.output e.inputs = .missing
  · exact Or.inr hmissing
  · push Not at hmissing
    obtain ⟨e, he, houtput⟩ := hmissing
    exact Or.inl ⟨e, he, Example.supports_of_not_contradicts (h e he) houtput⟩

/-- Something counts against the sum, and nothing against the difference: that is
promoted, and what counts against the sum counts for it. -/
theorem chosenFor_of_like_monus {options : Options α} {p : Program} {own : Term}
    {examples : List Example} (hadd : ∃ e ∈ examples, Contradicts p (.ofTerm options.add) e)
    (h : ∀ e ∈ examples, ¬ Contradicts p (.ofTerm options.monus) e) :
    chosenFor options p own examples = options.monus ∧
      ∃ e ∈ examples, Supports p (.ofTerm options.monus) e := by
  obtain ⟨e, he, hcontradicts⟩ := hadd
  refine ⟨?_, e, he, Example.supports_of_not_contradicts (h e he) hcontradicts.1⟩
  unfold chosenFor
  rw [if_neg fun hnone => hnone e he hcontradicts, if_pos h]

theorem chosenFor_of_unlike {options : Options α} {p : Program} {own : Term}
    {examples : List Example} (hadd : ∃ e ∈ examples, Contradicts p (.ofTerm options.add) e)
    (hmonus : ∃ e ∈ examples, Contradicts p (.ofTerm options.monus) e) :
    chosenFor options p own examples = own := by
  obtain ⟨e, he, hcontradicts⟩ := hadd
  obtain ⟨e', he', hcontradicts'⟩ := hmonus
  unfold chosenFor
  rw [if_neg fun hnone => hnone e he hcontradicts, if_neg fun hnone => hnone e' he' hcontradicts']

end

/-! ## All symbols -/

section

variable {α : Type}

theorem promotable?_eq_some_iff {l : Learner α} {s : Symbol α} {p : Program} {own : Term} :
    l.promotable? s = some (p, own) ↔ s.learnable = true ∧ s.solved = true ∧ s.arity = 2 ∧
      s.explanation = some p ∧ p.term? = some own ∧ l.options.guard p.description = true := by
  unfold promotable?
  simp only [Bool.and_eq_true, beq_iff_eq]
  constructor
  · intro h
    split at h
    · rename_i hready
      obtain ⟨q, hq, hbound⟩ := Option.bind_eq_some_iff.1 h
      obtain ⟨t, ht, hguard⟩ := Option.bind_eq_some_iff.1 hbound
      split at hguard
      · rename_i hpermits
        cases hguard
        exact ⟨hready.1.1, hready.1.2, hready.2, hq, ht, hpermits⟩
      · cases hguard
    · cases h
  · rintro ⟨hlearnable, hsolved, harity, hp, ht, hguard⟩
    rw [if_pos ⟨⟨hlearnable, hsolved⟩, harity⟩, hp, Option.bind_some, ht, Option.bind_some,
      if_pos hguard]

/-- The term that is promoted for a symbol, where one is. -/
def promotion? (l : Learner α) (s : Symbol α) : Option Term :=
  (l.promotable? s).map fun (p, own) => chosenFor l.options p own s.examples

theorem promotion?_eq_some_iff {l : Learner α} {s : Symbol α} {u : Term} :
    l.promotion? s = some u ↔ ∃ p own, s.learnable = true ∧ s.solved = true ∧ s.arity = 2 ∧
      s.explanation = some p ∧ p.term? = some own ∧ l.options.guard p.description = true ∧
      u = chosenFor l.options p own s.examples := by
  unfold promotion?
  rw [Option.map_eq_some_iff]
  constructor
  · rintro ⟨⟨p, own⟩, hpromotable, rfl⟩
    obtain ⟨hlearnable, hsolved, harity, hp, hown, hguard⟩ := promotable?_eq_some_iff.1 hpromotable
    exact ⟨p, own, hlearnable, hsolved, harity, hp, hown, hguard, rfl⟩
  · rintro ⟨p, own, hlearnable, hsolved, harity, hp, hown, hguard, rfl⟩
    exact ⟨(p, own), promotable?_eq_some_iff.2 ⟨hlearnable, hsolved, harity, hp, hown, hguard⟩, rfl⟩

theorem value_promotions_cons_none {l : Learner α} {s : Symbol α} (h : l.promotable? s = none)
    (c : Canon) (symbols : List (Symbol α)) :
    (l.promotions c (s :: symbols)).value =
      ((l.promotions c symbols).value.1, s :: (l.promotions c symbols).value.2) := by
  conv_lhs => unfold promotions
  rw [h]
  rfl

theorem value_promotions_cons_some {l : Learner α} {s : Symbol α} {p : Program} {own : Term}
    (h : l.promotable? s = some (p, own)) (c : Canon) (symbols : List (Symbol α)) :
    (l.promotions c (s :: symbols)).value =
      let out := (promotedFor l.options c p own s.examples).value
      (.promoted out.1 :: (l.promotions out.2.2 symbols).value.1,
        { s with explanation := some out.2.1 } :: (l.promotions out.2.2 symbols).value.2) := by
  conv_lhs => unfold promotions
  rw [h]
  rfl

/-- The symbols are gone through one by one; what the canonical programs remember from
the symbols before makes no difference. -/
theorem terms_promotions {l : Learner α} {c : Canon} (hc : c.For l.options)
    (symbols : List (Symbol α)) :
    (l.promotions c symbols).value.1 = (symbols.filterMap l.promotion?).map .promoted := by
  induction symbols generalizing c with
  | nil => rfl
  | cons s symbols ih =>
    cases hs : l.promotable? s with
    | none =>
      have hpromotion : l.promotion? s = none := congrArg (Option.map _) hs
      rw [value_promotions_cons_none hs, List.filterMap_cons_none hpromotion]
      exact ih hc
    | some found =>
      obtain ⟨p, own⟩ := found
      obtain ⟨hchosen, hc'⟩ := promotedFor_spec hc p own s.examples
      have hpromotion : l.promotion? s = some (chosenFor l.options p own s.examples) :=
        congrArg (Option.map _) hs
      rw [value_promotions_cons_some hs, List.filterMap_cons_some hpromotion, List.map_cons,
        ← ih hc', ← hchosen]

theorem promotable?_congr {l l' : Learner α} (h : l'.options = l.options) (s : Symbol α) :
    l'.promotable? s = l.promotable? s := by
  unfold promotable?
  rw [h]

theorem promotion?_congr {l l' : Learner α} (h : l'.options = l.options) (s : Symbol α) :
    l'.promotion? s = l.promotion? s := by
  unfold promotion?
  rw [promotable?_congr h, h]

theorem promotions_congr {l l' : Learner α} (h : l'.options = l.options) (c : Canon)
    (symbols : List (Symbol α)) : l'.promotions c symbols = l.promotions c symbols := by
  induction symbols generalizing c with
  | nil => rfl
  | cons s symbols ih =>
    unfold promotions
    simp only [promotable?_congr h, h, ih]

/-- Symbols from which terms were promoted are not changed where that is done again, and
the same terms are promoted. -/
theorem promotions_again {l : Learner α} {c c' : Canon} (hc : c.For l.options)
    (hc' : c'.For l.options) (symbols : List (Symbol α)) :
    let symbols' := (l.promotions c symbols).value.2
    (l.promotions c' symbols').value.2 = symbols' ∧
      symbols'.filterMap l.promotion? = symbols.filterMap l.promotion? := by
  induction symbols generalizing c c' with
  | nil => exact ⟨rfl, rfl⟩
  | cons s symbols ih =>
    cases hs : l.promotable? s with
    | none =>
      obtain ⟨hsymbols, hterms⟩ := ih hc hc'
      rw [value_promotions_cons_none hs]
      dsimp only
      rw [value_promotions_cons_none hs, hsymbols, List.filterMap_cons, List.filterMap_cons, hterms]
      exact ⟨rfl, rfl⟩
    | some found =>
      obtain ⟨p, own⟩ := found
      let p' := (promotedFor l.options c p own s.examples).value.2.1
      let s' : Symbol α := { s with explanation := some p' }
      have hbody : p'.body = p.body := body_promotedFor l.options c p own s.examples
      have hs' : l.promotable? s' = some (p', own) := by
        obtain ⟨hlearnable, hsolved, harity, -, hterm, hguard⟩ := promotable?_eq_some_iff.1 hs
        refine promotable?_eq_some_iff.2 ⟨hlearnable, hsolved, harity, rfl, ?_, ?_⟩
        · rwa [Program.term?, hbody]
        · rwa [Program.description, hbody]
      have hpromotion : l.promotion? s' = l.promotion? s := by
        unfold promotion?
        rw [hs, hs']
        exact congrArg some (chosenFor_congr hbody own s.examples)
      have hagain := promotedFor_again hc hc' p own s.examples
      obtain ⟨hsymbols, hterms⟩ := ih (promotedFor_spec hc p own s.examples).2
        (promotedFor_spec hc' p' own s.examples).2
      rw [value_promotions_cons_some hs]
      change (l.promotions c' (s' :: _)).value.2 = s' :: _ ∧ (s' :: _).filterMap l.promotion? = _
      rw [value_promotions_cons_some hs', List.filterMap_cons, List.filterMap_cons, hpromotion,
        hterms]
      dsimp only
      refine ⟨?_, rfl⟩
      change { s' with explanation := some (promotedFor l.options c' p' own s.examples).value.2.1 } ::
        (l.promotions (promotedFor l.options c' p' own s.examples).value.2.2 _).value.2 = _
      rw [hsymbols, hagain]

/-! ## The new grammar -/

/-- A learner keeps its grammar where that has the terms that are asked for, and puts a
new one to use where it has not. -/
theorem renew_cases (l : Learner α) (terms : List Term) :
    ((∀ t, t ∈ terms ↔ t ∈ l.grammar.terms) ∧ (l.renew terms).value = (false, l)) ∨
      ¬ (∀ t, t ∈ terms ↔ t ∈ l.grammar.terms) ∧ (l.renew terms).value.1 = true ∧
        (l.renew terms).value.2.grammar = .ofTerms terms (l.grammar.version + 1) := by
  have hsame : (Grammar.ofTerms terms (l.grammar.version + 1)).sameComponents l.grammar = true ↔
      ∀ t, t ∈ terms ↔ t ∈ l.grammar.terms := by
    simp only [Grammar.sameComponents_iff, Grammar.mem_terms_ofTerms]
  unfold renew
  dsimp only
  rw [← hsame]
  split
  · rename_i h
    exact Or.inl ⟨h, rfl⟩
  · rename_i h
    exact Or.inr ⟨h, rfl, rfl⟩

/-- In either case the learner has the terms that are asked for. -/
theorem mem_terms_renew {l : Learner α} {terms : List Term} {t : Term} :
    t ∈ (l.renew terms).value.2.grammar.terms ↔ t ∈ terms := by
  rcases l.renew_cases terms with ⟨hsame, h⟩ | ⟨-, -, h⟩
  · rw [h]
    exact (hsame t).symm
  · rw [h]
    exact Grammar.mem_terms_ofTerms

/-- The canonical programs of a learner, before they remember anything. -/
def canon (l : Learner α) : Canon := { add := .ofTerm l.options.add, monus := .ofTerm l.options.monus }

theorem for_canon (l : Learner α) : l.canon.For l.options := ⟨rfl, rfl⟩

/-- The terms from which the grammar is built anew. -/
def promotedTerms (l : Learner α) : List Term :=
  l.baseTerms ++ (l.symbols.filterMap l.promotion?).map .promoted

theorem value_updateGrammar (l : Learner α) :
    l.updateGrammar.value =
      ({ l with symbols := (l.promotions l.canon l.symbols).value.2 }.renew l.promotedTerms).value := by
  unfold promotedTerms
  rw [← terms_promotions l.for_canon]
  rfl

theorem mem_terms_updateGrammar {l : Learner α} {t : Term} :
    t ∈ l.updateGrammar.value.2.grammar.terms ↔
      t ∈ l.baseTerms ∨ ∃ s ∈ l.symbols, ∃ u, l.promotion? s = some u ∧ t = .promoted u := by
  rw [value_updateGrammar, mem_terms_renew]
  unfold promotedTerms
  simp only [List.mem_append, List.mem_map, List.mem_filterMap]
  refine or_congr_right ⟨?_, ?_⟩
  · rintro ⟨u, ⟨s, hs, hu⟩, rfl⟩
    exact ⟨s, hs, u, hu, rfl⟩
  · rintro ⟨s, hs, u, hu, rfl⟩
    exact ⟨u, ⟨s, hs, hu⟩, rfl⟩

/-- Whatever the learner, a new grammar is made of the base terms and of one term for
each symbol that may be promoted. That term is the sum where no example counts against
it, which is for want of any output where none counts for it. It is the difference where
only the sum has examples against it, and then some example counts for the difference.
It is the program's own term where both have examples against them. -/
theorem what_is_promoted_is_not_contradicted (l : Learner α) :
    (∀ t, t ∈ l.updateGrammar.value.2.grammar.terms ↔
        t ∈ l.baseTerms ∨ ∃ s ∈ l.symbols, ∃ u, l.promotion? s = some u ∧ t = .promoted u) ∧
      ∀ s ∈ l.symbols, ∀ p own, l.promotable? s = some (p, own) →
        let forAdd := Supports p (.ofTerm l.options.add)
        let againstAdd := Contradicts p (.ofTerm l.options.add)
        let forMonus := Supports p (.ofTerm l.options.monus)
        let againstMonus := Contradicts p (.ofTerm l.options.monus)
        ((∀ e ∈ s.examples, ¬ againstAdd e) → l.promotion? s = some l.options.add ∧
            ((∃ e ∈ s.examples, forAdd e) ∨ ∀ e ∈ s.examples, p.output e.inputs = .missing)) ∧
          ((∃ e ∈ s.examples, againstAdd e) → (∀ e ∈ s.examples, ¬ againstMonus e) →
            l.promotion? s = some l.options.monus ∧ ∃ e ∈ s.examples, forMonus e) ∧
          ((∃ e ∈ s.examples, againstAdd e) → (∃ e ∈ s.examples, againstMonus e) →
            l.promotion? s = some own) := by
  refine ⟨fun t => l.mem_terms_updateGrammar, fun s _ p own hpromotable => ?_⟩
  have hchosen : l.promotion? s = some (chosenFor l.options p own s.examples) := by
    unfold promotion?
    rw [hpromotable]
    rfl
  rw [hchosen, Option.some_inj, Option.some_inj, Option.some_inj]
  exact ⟨chosenFor_of_like_add, chosenFor_of_like_monus, chosenFor_of_unlike⟩

end

/-! ### A product that is learned, and forgotten -/

/-- A symbol with two arguments. -/
def twoPlaced : Vocabulary := [{ name := "times", arity := 2 }]

/-- New programs are asked for in every round, and few examples are enough. -/
def withoutPenalty : Options Float :=
  { inEveryRound with settings := { Settings.default with arityPenalty := Scalar.one } }

/-- An oracle that knows the product. -/
def productOracle : Oracle Float := fun _ => pure <| .ok
  { solutions := .ofList [("0",
      { task := "0", request := .ofComponents [.int, .int, .int]
        candidates := [{ program := .lambdas 2 (.applied (.prim .mul) [.var 1, .var 0])
                         logPrior := Scalar.zero, logLikelihood := Scalar.zero }] })]
    frontiers := .empty }

/-- A round with two products. -/
def productLesson : Operation Float :=
  .learn (fun _ _ _ => .first) [[⟨[.int 2, .int 3], .int 6⟩, ⟨[.int 1, .int 4], .int 4⟩]]
    productOracle

/-- A round without observations. -/
def silence : Operation Float := .learn (fun _ _ _ => .first) [] productOracle

/-- While its examples last, the product is promoted as it is. -/
theorem a_product_with_examples_is_promoted :
    let l := (new twoPlaced withoutPenalty).after [productLesson]
    ∃ s ∈ l.symbols, ∃ p own, l.promotable? s = some (p, own) ∧
      (∃ e ∈ s.examples, Contradicts p (.ofTerm l.options.add) e) ∧
      (∃ e ∈ s.examples, Contradicts p (.ofTerm l.options.monus) e) ∧
      own.text = "(lambda (lambda (* $1 $0)))" ∧ l.promotion? s = some own := by
  intro l
  have hmarks : l.symbols.map (fun s => (l.promotable? s).map fun (p, own) =>
      (own.text, decide (∃ e ∈ s.examples, Contradicts p (.ofTerm l.options.add) e),
        decide (∃ e ∈ s.examples, Contradicts p (.ofTerm l.options.monus) e))) =
      [some ("(lambda (lambda (* $1 $0)))", true, true)] := by decide +kernel
  obtain ⟨s, hsymbols, hs⟩ := List.map_eq_singleton_iff.1 hmarks
  obtain ⟨⟨p, own⟩, hpromotable, heq⟩ := Option.map_eq_some_iff.1 hs
  obtain ⟨htext, hagainst⟩ := Prod.mk.inj heq
  obtain ⟨hadd, hmonus⟩ := Prod.mk.inj hagainst
  have hmem : s ∈ l.symbols := hsymbols ▸ List.mem_singleton_self s
  have hadd := of_decide_eq_true hadd
  have hmonus := of_decide_eq_true hmonus
  obtain ⟨-, -, hown⟩ := (what_is_promoted_is_not_contradicted l).2 s hmem p own hpromotable
  exact ⟨s, hmem, p, own, hpromotable, hadd, hmonus, htext, hown hadd hmonus⟩

/-- Once its examples have faded, nothing counts against the sum, and a product that is
still solved is promoted as the sum. -/
theorem a_product_without_examples_is_promoted_as_the_sum :
    let l := (new twoPlaced withoutPenalty).after [productLesson, silence]
    l.symbols.map (fun s => (s.explanation.text, s.solved, s.examples)) =
        [("fn (lambda (lambda (* $1 $0)))", true, [])] ∧
      (∀ s ∈ l.symbols, l.promotion? s = some canonicalAdd) ∧
      l.updateGrammar.value.2.grammar.promoted = [⟨.promoted canonicalAdd⟩] ∧
      ¬ ∀ s ∈ l.symbols, l.promotion? s = some canonicalAdd →
        ∃ e ∈ s.examples, ∃ p ∈ s.explanation, Supports p (.ofTerm canonicalAdd) e := by
  intro l
  have hstate : l.symbols.map (fun s => (s.explanation.text, s.solved, s.examples)) =
      [("fn (lambda (lambda (* $1 $0)))", true, [])] := by decide +kernel
  have hsum : ∀ s ∈ l.symbols, l.promotion? s = some canonicalAdd := by decide +kernel
  refine ⟨hstate, hsum, by decide +kernel, fun hclaim => ?_⟩
  obtain ⟨s, hsymbols, hs⟩ := List.map_eq_singleton_iff.1 hstate
  have hmem : s ∈ l.symbols := hsymbols ▸ List.mem_singleton_self s
  obtain ⟨e, he, -⟩ := hclaim s hmem (hsum s hmem)
  have hnone : s.examples = [] := congrArg (·.2.2) hs
  rw [hnone] at he
  cases he

end Learner

end SymbolInduction
