-- What a bank is after any offers within its greatest cost: the stored terms with
-- different observations, a set of these observations, and the numbers of the terms
-- by cost. An offer that is turned down changes nothing, and it is turned down for
-- one of three reasons. So the candidates of a search are those of its stored terms.
import SymbolInduction.Proofs.Enumeration.Indices

namespace SymbolInduction.Enumeration

open Evaluation

/-! ## Observations -/

theorem ofOutcome?_eq_none_iff (r : Except EvalError Datum) :
    Observation.ofOutcome? r = none ↔ ∃ d, r = .ok d ∧ d.isFunction = true := by
  cases r with
  | error e => simp [Observation.ofOutcome?]
  | ok d => cases d <;> simp [Observation.ofOutcome?, Datum.isFunction]

theorem ofOutcome?_eq_failure_iff (r : Except EvalError Datum) :
    Observation.ofOutcome? r = some .failure ↔ ∀ d, r = .ok d → d = .empty := by
  cases r with
  | error e => simp [Observation.ofOutcome?]
  | ok d => cases d <;> simp [Observation.ofOutcome?]

theorem mapM_eq_none_iff {β γ : Type} (f : β → Option γ) (xs : List β) :
    xs.mapM f = none ↔ ∃ x ∈ xs, f x = none := by
  induction xs with
  | nil => simp
  | cons x xs ih =>
    rw [List.mapM_cons, List.exists_mem_cons_iff, ← ih]
    cases f x with
    | none => simp
    | some y => cases xs.mapM f <;> simp

namespace Bank

/-! ## What a bank is -/

/-- The outcome of a term in an environment of the bank. -/
def outcomeIn (b : Bank) (t : Term) (env : List Datum) : Except EvalError Datum :=
  outcome (eval b.limits t env)

/-- Why a bank turns a term down: it is a function on some example, it gives
nothing on any example, or a stored term has its observations. -/
inductive TurnsDown (b : Bank) (t : Term) : Prop
  | function {env : List Datum} (henv : env ∈ b.environments) {d : Datum}
      (h : b.outcomeIn t env = .ok d) (hd : d.isFunction = true)
  | failure (h : ∀ env ∈ b.environments, ∀ d, b.outcomeIn t env = .ok d → d = .empty)
  | known {s : Stored} (hs : s ∈ b.stored.toList) (h : b.signature? t = some s.signature)

/-- A bank for some examples whose set and index say what its stored terms say. -/
structure Consistent (examples : List Example) (maxCost : Nat) (limits : Limits) (b : Bank) :
    Prop where
  environments : b.environments = examples.map fun e => environment e.inputs
  limits : b.limits = limits
  /-- No two stored terms have the same observations. -/
  distinct : (b.stored.toList.map (·.signature)).Nodup
  shows : ∀ s ∈ b.stored.toList, ¬AllFail s.signature
  /-- What is stored with a term is what is observed of it anew. -/
  observed : ∀ s ∈ b.stored.toList, b.signature? s.term = some s.signature
  seen : ∀ signature, b.seen.contains signature = true ↔
    ∃ s ∈ b.stored.toList, s.signature = signature
  size : b.byCost.size = maxCost + 1
  /-- The index has the numbers of the terms of each cost, in increasing order. -/
  byCost : ∀ cost ≤ maxCost, ∃ ids, b.byCost[cost]? = some ids ∧ ids.toList.Pairwise (· < ·) ∧
    ∀ i, i ∈ ids.toList ↔ ∃ s, b.stored[i]? = some s ∧ s.cost = cost

/-- The bank after several offers, each of a term at a cost. -/
def offerAll (b : Bank) (offers : List (Term × Nat)) : Except Panic Bank :=
  offers.foldlM (fun b o => Prod.snd <$> b.offer o.1 o.2) b

/-! ## One offer -/

/-- A term is without a signature where it is a function on some example. -/
theorem signature?_eq_none_iff (b : Bank) (t : Term) :
    b.signature? t = none ↔
      ∃ env ∈ b.environments, ∃ d, b.outcomeIn t env = .ok d ∧ d.isFunction = true := by
  simp only [← ofOutcome?_eq_none_iff]
  exact mapM_eq_none_iff _ _

/-- A signature shows nothing where the term gives nothing on any example. -/
theorem allFail_iff {b : Bank} {t : Term} {signature : List Observation}
    (h : b.signature? t = some signature) :
    AllFail signature ↔
      ∀ env ∈ b.environments, ∀ d, b.outcomeIn t env = .ok d → d = .empty := by
  simp only [← ofOutcome?_eq_failure_iff]
  have hmap := (mapM_eq_some_iff _ _ _).1 h
  calc AllFail signature ↔ ∀ o ∈ signature.map some, o = some .failure := by simp [AllFail]
    _ ↔ ∀ env ∈ b.environments, Observation.ofOutcome? (b.outcomeIn t env) = some .failure := by
      rw [← hmap, List.forall_mem_map]
      rfl

theorem turnsDown_iff {b : Bank} (h : b.Sound) (t : Term) :
    b.TurnsDown t ↔ ∀ signature, b.signature? t = some signature → b.refuses signature = true := by
  constructor
  · rintro hdown signature hsig
    rw [refuses_iff h]
    cases hdown with
    | function henv hd hfunction =>
      have hnone := (signature?_eq_none_iff b t).2 ⟨_, henv, _, hd, hfunction⟩
      rw [hnone] at hsig
      cases hsig
    | failure hfail => exact Or.inl ((allFail_iff hsig).2 hfail)
    | known hs hsame =>
      rw [hsame] at hsig
      exact Or.inr ⟨_, hs, Option.some.inj hsig⟩
  · intro hrefused
    cases hsig : b.signature? t with
    | none =>
      obtain ⟨env, henv, d, hd, hfunction⟩ := (signature?_eq_none_iff b t).1 hsig
      exact .function henv hd hfunction
    | some signature =>
      rcases (refuses_iff h signature).1 (hrefused signature hsig) with hfail | ⟨s, hs, rfl⟩
      · exact .failure ((allFail_iff hsig).1 hfail)
      · exact .known hs hsig

/-- An offer that returns leaves the bank as it is exactly where the term is turned down;
any other term is stored. -/
theorem offer_spec {b : Bank} (h : b.Sound) {t : Term} {cost : Nat}
    (hroom : cost < b.byCost.size) {r : Option Nat × Bank} (hoffer : b.offer t cost = .ok r) :
    (r = (none, b) ↔ b.TurnsDown t) ∧
      (¬b.TurnsDown t → ∃ signature, b.signature? t = some signature ∧
        r = (some b.stored.size, b.store { term := t, cost, signature })) := by
  rw [turnsDown_iff h]
  rcases b.offer_eq t hroom with ⟨heq, hrefused⟩ | ⟨signature, hsig, hnew, heq⟩ | ⟨heq, -⟩
  · cases heq.symm.trans hoffer
    exact ⟨iff_of_true rfl hrefused, fun hstored => absurd hrefused hstored⟩
  · cases heq.symm.trans hoffer
    refine ⟨iff_of_false (by simp) fun hall => ?_, fun _ => ⟨signature, hsig, rfl⟩⟩
    rw [hall signature hsig] at hnew
    cases hnew
  · cases heq.symm.trans hoffer

/-- Where no counter can stop the program, an offer returns. -/
theorem exists_offer {b : Bank} (hfits : b.limits.Fits) (t : Term) {cost : Nat}
    (hroom : cost < b.byCost.size) : ∃ r, b.offer t cost = .ok r := by
  rcases b.offer_eq t hroom with ⟨heq, -⟩ | ⟨signature, -, -, heq⟩ | ⟨-, hstops⟩
  · exact ⟨_, heq⟩
  · exact ⟨_, heq⟩
  · exact absurd hstops (not_overflows hfits t)

/-! ## Any offers -/

/-- What one offer keeps: the bank is sound, and for the same examples, limits and
costs as before. -/
structure Stays (b later : Bank) : Prop where
  sound : later.Sound
  environments : later.environments = b.environments
  limits : later.limits = b.limits
  size : later.byCost.size = b.byCost.size

theorem Stays.trans {b later last : Bank} (h : Stays b later) (h' : Stays later last) :
    Stays b last where
  sound := h'.sound
  environments := h'.environments.trans h.environments
  limits := h'.limits.trans h.limits
  size := h'.size.trans h.size

theorem stays_offer {b later : Bank} (h : b.Sound) {t : Term} {cost : Nat} {number? : Option Nat}
    (hroom : cost < b.byCost.size) (hoffer : b.offer t cost = .ok (number?, later)) :
    Stays b later := by
  rcases b.offer_eq t hroom with ⟨heq, -⟩ | ⟨signature, hsig, hnew, heq⟩ | ⟨heq, -⟩
  · cases heq.symm.trans hoffer
    exact ⟨h, rfl, rfl, rfl⟩
  · cases heq.symm.trans hoffer
    exact ⟨sound_store h hsig hnew hroom, rfl, rfl, size_byCost_store _ _⟩
  · cases heq.symm.trans hoffer

theorem offerAll_cons (b : Bank) (o : Term × Nat) (offers : List (Term × Nat)) :
    b.offerAll (o :: offers) =
      match b.offer o.1 o.2 with
      | .ok (_, next) => next.offerAll offers
      | .error p => .error p := by
  unfold offerAll
  rw [List.foldlM_cons]
  cases b.offer o.1 o.2 <;> rfl

/-- All that several offers keep, where they return. -/
theorem stays_offerAll {b later : Bank} (h : b.Sound) {offers : List (Term × Nat)}
    (hroom : ∀ o ∈ offers, o.2 < b.byCost.size) (hall : b.offerAll offers = .ok later) :
    Stays b later := by
  induction offers generalizing b with
  | nil =>
    cases hall
    exact ⟨h, rfl, rfl, rfl⟩
  | cons o offers ih =>
    rw [offerAll_cons] at hall
    cases hoffer : b.offer o.1 o.2 with
    | error p =>
      rw [hoffer] at hall
      cases hall
    | ok r =>
      rw [hoffer] at hall
      have hnext := stays_offer h (hroom o (by simp)) hoffer
      exact hnext.trans (ih hnext.sound (fun u hu => hnext.size ▸ hroom u (by simp [hu])) hall)

/-- They return where no counter can stop the program. -/
theorem exists_offerAll {b : Bank} (h : b.Sound) (hfits : b.limits.Fits)
    {offers : List (Term × Nat)} (hroom : ∀ o ∈ offers, o.2 < b.byCost.size) :
    ∃ later, b.offerAll offers = .ok later := by
  induction offers generalizing b with
  | nil => exact ⟨b, rfl⟩
  | cons o offers ih =>
    obtain ⟨⟨number?, next⟩, hoffer⟩ := exists_offer hfits o.1 (hroom o (by simp))
    have hnext := stays_offer h (hroom o (by simp)) hoffer
    rw [offerAll_cons, hoffer]
    exact ih hnext.sound (hnext.limits ▸ hfits) fun u hu => hnext.size ▸ hroom u (by simp [hu])

theorem consistent_of_sound {examples : List Example} {maxCost : Nat} {limits : Limits} {b : Bank}
    (h : b.Sound) (henvironments : b.environments = examples.map fun e => environment e.inputs)
    (hlimits : b.limits = limits) (hsize : b.byCost.size = maxCost + 1) :
    b.Consistent examples maxCost limits where
  environments := henvironments
  limits := hlimits
  distinct := h.distinct
  shows := h.shows
  observed := h.observed
  seen := h.seen
  size := hsize
  byCost cost hcost := by
    have hroom : cost < b.byCost.size := by omega
    have hids := h.numbered cost _ (Array.getElem?_eq_getElem hroom)
    refine ⟨_, Array.getElem?_eq_getElem hroom, ?_, fun i => ?_⟩
    · rw [hids]
      exact List.pairwise_lt_range.filter _
    · rw [hids, mem_numbersOf]

/-- Stored terms are as different as their observations. -/
theorem Consistent.nodup_terms {examples : List Example} {maxCost : Nat} {limits : Limits}
    {b : Bank} (h : b.Consistent examples maxCost limits) : (b.stored.toList.map (·.term)).Nodup := by
  refine List.Nodup.map_on ?_ (List.Nodup.of_map _ h.distinct)
  intro s hs u hu hterm
  have hsame : some s.signature = some u.signature := by
    rw [← h.observed s hs, ← h.observed u hu, hterm]
  exact List.inj_on_of_nodup_map h.distinct hs hu (Option.some.inj hsame)

end Bank

/-! ## The candidates of a search -/

section

variable {α : Type} [Scalar α] {scope : Scope} {g : Grammar} {seeds : List Term} {readings : Nat}
  {run : Run α}

/-- All is as it should be in a run that a search ends with, whatever a term may
cost: where it may not cost anything, the search stores none. -/
theorem sound_of_solveTask (h : solveTask scope g seeds readings = .ok run) : run.Sound scope := by
  rcases Nat.eq_zero_or_pos scope.bounds.maxCost with hroom | hcost
  · have hstart : (Run.start scope readings : Run α).Sound scope :=
      (Run.within_start scope readings 0).sound
    obtain ⟨-, hend⟩ := solveTask_eq_ok_iff.1 h
    rw [steps_without_room hroom] at hend
    rcases foldlM_offer_without_room hstart hroom (startingTerms g scope.task.arity seeds) with
      ⟨hall, -⟩ | ⟨hall, -⟩ | ⟨hall, -⟩ <;> rw [hall] at hend <;> simp at hend
    exact hend ▸ hstart
  · exact sound_of_solveTask_of_place hcost h

theorem consistent_of_run (h : run.Sound scope) :
    run.bank.Consistent scope.task.examples scope.bounds.maxCost scope.bounds.limits :=
  Bank.consistent_of_sound h.bank h.environments h.limits h.size

theorem candidates_eq (h : run.Sound scope) :
    run.candidates.toList =
      (run.bank.stored.toList.filter fun s => Bank.hits scope.task.examples s != 0).map
        fun s => Run.candidate scope.task s (Bank.hits scope.task.examples s) := by
  rw [h.candidates]
  induction run.bank.stored.toList with
  | nil => rfl
  | cons s stored ih =>
    by_cases hnone : Bank.hits scope.task.examples s = 0 <;>
      simp [Run.candidate?, hnone, ih]

theorem lambdas_injective (n : Nat) : Function.Injective (Term.lambdas n) := by
  induction n with
  | zero => exact fun _ _ h => h
  | succ n ih => exact fun t u h => ih (Term.lam.inj h)

theorem nodup_programs (h : run.Sound scope) : (run.candidates.toList.map (·.program)).Nodup := by
  rw [candidates_eq h, List.map_map]
  have hterms := (consistent_of_run h).nodup_terms.map (lambdas_injective scope.task.arity)
  rw [List.map_map] at hterms
  exact hterms.sublist (List.filter_sublist.map _)

end

/-! ## All tables say the same -/

/-- A bank that was empty, after any offers within its greatest cost, has tables that
say what its stored terms say. An offer to it that returns turns the term down, and
leaves the bank as it is, exactly where the term is a function on some example, gives
nothing on any, or is observed like a stored term; and stores it otherwise. All offers
return where no counter of an evaluation can stop the program. So is the bank that a
search ends with, and a search with room for a term, for its table and for its counters
ends with one. The candidates of the search, before they are cut down to the best, are
those of its stored terms with a hit, one for each of them in their order, and no two of
one program. -/
theorem a_bank_says_what_its_terms_say :
    (∀ (examples : List Example) (maxCost : Nat) (limits : Limits) (offers : List (Term × Nat)),
      (∀ o ∈ offers, o.2 ≤ maxCost) →
        (limits.Fits → ∃ b, (Bank.empty examples maxCost limits).offerAll offers = .ok b) ∧
        ∀ b, (Bank.empty examples maxCost limits).offerAll offers = .ok b →
          b.Consistent examples maxCost limits ∧
          ∀ t, ∀ cost ≤ maxCost, (limits.Fits → ∃ r, b.offer t cost = .ok r) ∧
            ∀ r, b.offer t cost = .ok r → (r = (none, b) ↔ b.TurnsDown t) ∧
              (¬b.TurnsDown t → ∃ signature, b.signature? t = some signature ∧
                r = (some b.stored.size, b.store { term := t, cost, signature }))) ∧
    ∀ {α : Type} [Scalar α] (scope : Scope) (g : Grammar) (seeds : List Term) (readings : Nat),
      (1 ≤ scope.bounds.maxCost → scope.bounds.Roomy →
        ∃ run : Run α, solveTask scope g seeds readings = .ok run) ∧
      ∀ run : Run α, solveTask scope g seeds readings = .ok run →
        run.bank.Consistent scope.task.examples scope.bounds.maxCost scope.bounds.limits ∧
        run.candidates.toList =
          (run.bank.stored.toList.filter fun s => Bank.hits scope.task.examples s != 0).map
            (fun s => Run.candidate scope.task s (Bank.hits scope.task.examples s)) ∧
        (run.candidates.toList.map (·.program)).Nodup := by
  refine ⟨fun examples maxCost limits offers hcosts => ?_, @fun α _ scope g seeds readings => ?_⟩
  · have hsize : (Bank.empty examples maxCost limits).byCost.size = maxCost + 1 :=
      Array.size_replicate
    have hsound := Bank.sound_empty examples maxCost limits
    have hplaces : ∀ o ∈ offers, o.2 < (Bank.empty examples maxCost limits).byCost.size := by
      intro o ho
      have := hcosts o ho
      omega
    refine ⟨fun hfits => Bank.exists_offerAll hsound hfits hplaces, fun b hb => ?_⟩
    have hstays := Bank.stays_offerAll hsound hplaces hb
    have hroom := hstays.size.trans hsize
    refine ⟨Bank.consistent_of_sound hstays.sound hstays.environments hstays.limits hroom,
      fun t cost hcost => ?_⟩
    have hplace : cost < b.byCost.size := by omega
    exact ⟨fun hfits => Bank.exists_offer (hstays.limits ▸ hfits) t hplace,
      fun r => Bank.offer_spec hstays.sound hplace⟩
  · refine ⟨exists_solveTask, fun run hrun => ?_⟩
    have hsound := sound_of_solveTask hrun
    exact ⟨consistent_of_run hsound, candidates_eq hsound, nodup_programs hsound⟩

/-- A variable, a number that shows the same where the variable is one, and the
successor of the variable. -/
def threeOffers : List (Term × Nat) :=
  [(.var 0, 1), (.literal 1, 1), (.app (.prim .incr) (.var 0), 2)]

/-- The number is turned down, and the search for the successor has one candidate. -/
theorem a_number_that_shows_nothing_new_is_turned_down :
    (∀ o ∈ threeOffers, o.2 ≤ 2) ∧
    (∃ b, (Bank.empty successorScope.task.examples 2 successorScope.limits).offerAll threeOffers =
        .ok b ∧
      b.Consistent successorScope.task.examples 2 successorScope.limits ∧
      b.stored.toList =
        [⟨.var 0, 1, [.int 1]⟩, ⟨.app (.prim .incr) (.var 0), 2, [.int 2]⟩] ∧
      b.offer (.literal 1) 2 = .ok (none, b)) ∧
    ∃ run : Run Float, solveTask successorScope successorGrammar [] 0 = .ok run ∧
      run.candidates.toList =
        [Run.candidate successorScope.task ⟨.app (.prim .incr) (.var 0), 2, [.int 2]⟩ 1] := by
  have hcosts : ∀ o ∈ threeOffers, o.2 ≤ 2 := by decide
  have hfits : successorScope.limits.Fits := successor_roomy.counters
  obtain ⟨hbank, hsearch⟩ := a_bank_says_what_its_terms_say
  obtain ⟨hall, htables⟩ := hbank successorScope.task.examples 2 successorScope.limits _ hcosts
  obtain ⟨b, hb⟩ := hall hfits
  obtain ⟨hconsistent, hoffer⟩ := htables b hb
  have hstored : b.stored.toList =
      [⟨.var 0, 1, [.int 1]⟩, ⟨.app (.prim .incr) (.var 0), 2, [.int 2]⟩] := by
    have hrun : ((Bank.empty successorScope.task.examples 2 successorScope.limits).offerAll
        threeOffers).toOption.map (fun b => b.stored.toList) =
          some [⟨.var 0, 1, [.int 1]⟩, ⟨.app (.prim .incr) (.var 0), 2, [.int 2]⟩] := by
      decide
    rw [hb] at hrun
    exact Option.some.inj hrun
  have hsame : b.signature? (.literal 1) = some [.int 1] := by
    unfold Bank.signature?
    rw [hconsistent.environments, hconsistent.limits]
    rfl
  have hdown : b.TurnsDown (.literal 1) :=
    .known (s := ⟨.var 0, 1, [.int 1]⟩) (by simp [hstored]) hsame
  obtain ⟨hreturns, hspec⟩ := hoffer (.literal 1) 2 (Nat.le_refl 2)
  obtain ⟨r, hr⟩ := hreturns hfits
  refine ⟨hcosts, ⟨b, hb, hconsistent, hstored, (hspec r hr).1.2 hdown ▸ hr⟩, ?_⟩
  obtain ⟨hends, hcandidates⟩ := hsearch (α := Float) successorScope successorGrammar [] 0
  obtain ⟨run, hrun⟩ := hends (by decide) successor_roomy
  refine ⟨run, hrun, ?_⟩
  rw [(hcandidates run hrun).2.1, stored_of_successor hrun]
  rfl

end SymbolInduction.Enumeration
