-- The laws of a search for one task. A run goes wrong only where an evaluation
-- stops the program, its candidates are those of the stored terms, and a run
-- that is not cut short is filled: what it could still offer has the
-- observations of a stored term that costs no more.
import SymbolInduction.Enumeration.Search
import SymbolInduction.Proofs.Enumeration.Bank
import SymbolInduction.Proofs.Enumeration.Choices

namespace SymbolInduction.Enumeration

/-! ## Lists of results -/

theorem mapM_eq_ok_iff {β γ ε : Type} (f : β → Except ε γ) (xs : List β) (ys : List γ) :
    xs.mapM f = .ok ys ↔ List.Forall₂ (fun x y => f x = .ok y) xs ys := by
  induction xs generalizing ys with
  | nil =>
    rw [List.mapM_nil, List.forall₂_nil_left_iff]
    constructor
    · intro h
      cases h
      rfl
    · rintro rfl
      rfl
  | cons x xs ih =>
    rw [List.mapM_cons, List.forall₂_cons_left_iff]
    constructor
    · intro h
      cases hx : f x with
      | error e =>
        rw [hx] at h
        cases h
      | ok y =>
        cases hxs : xs.mapM f with
        | error e =>
          rw [hx, hxs] at h
          cases h
        | ok ys' =>
          rw [hx, hxs] at h
          cases h
          exact ⟨y, ys', rfl, (ih ys').1 hxs, rfl⟩
    · rintro ⟨y, ys', hy, hys, rfl⟩
      rw [hy, (ih ys').2 hys]
      rfl

theorem exists_mapM_eq_ok {β γ ε : Type} {f : β → Except ε γ} {xs : List β}
    (h : ∀ x ∈ xs, ∃ y, f x = .ok y) : ∃ ys, xs.mapM f = .ok ys := by
  obtain ⟨ys, hys⟩ := exists_forall₂ h
  exact ⟨ys, (mapM_eq_ok_iff f xs ys).2 hys⟩

theorem of_bind_eq_ok {β γ ε : Type} {x : Except ε β} {f : β → Except ε γ} {c : γ}
    (h : x >>= f = .ok c) : ∃ b, x = .ok b ∧ f b = .ok c := by
  cases x with
  | ok b => exact ⟨b, rfl, h⟩
  | error e => cases h

/-- The terms that a choice takes from some pools are those that the bank stored under the
numbers in its places. -/
theorem Bank.termsAt_eq_ok_iff (b : Bank) (pools : List (Array Nat)) (choice : List Nat)
    (terms : List Term) :
    b.termsAt pools choice = .ok terms ↔
      List.Forall₂ (fun place t => ∃ n s, place.1[place.2]? = some n ∧ b.stored[n]? = some s ∧
        s.term = t) (pools.zip choice) terms := by
  unfold termsAt
  rw [mapM_eq_ok_iff]
  constructor
  · refine fun h => h.imp ?_
    rintro ⟨pool, i⟩ t ht
    obtain ⟨n, hn, ht⟩ := of_bind_eq_ok ht
    obtain ⟨s, hs, ht⟩ := of_bind_eq_ok ht
    exact ⟨n, s, (entry_eq_ok_iff _ _ _).1 hn, (entry_eq_ok_iff _ _ _).1 hs, Except.ok.inj ht⟩
  · refine fun h => h.imp ?_
    rintro ⟨pool, i⟩ _ ⟨n, s, hn, hs, rfl⟩
    dsimp only at hn ⊢
    rw [(entry_eq_ok_iff _ _ _).2 hn]
    dsimp only [bind, Except.bind]
    rw [(entry_eq_ok_iff _ _ _).2 hs]
    rfl

/-! ## Stages of a search -/

section

variable {α β : Type}

/-- A stage of a search: where it goes on, the run has the first property, and
where the run is over, it has the second. It goes wrong only in an evaluation,
under limits that leave a counter no word to go on. -/
def Lands (limits : Limits) (P O : Run α → Prop) : Except (Stop α) (Run α) → Prop
  | .ok run => P run
  | .error (.over run) => O run
  | .error (.failed p) => p = .countOverflow ∧ ¬limits.Fits

variable {limits : Limits} {P P' O : Run α → Prop}

theorem Lands.imp {x : Except (Stop α) (Run α)} (h : Lands limits P O x)
    (hP : ∀ run, P run → P' run) : Lands limits P' O x := by
  unfold Lands at h ⊢
  split at h
  · exact hP _ h
  · exact h
  · exact h

theorem Lands.bind {x : Except (Stop α) (Run α)} {f : Run α → Except (Stop α) (Run α)}
    (h : Lands limits P O x) (hf : ∀ run, P run → Lands limits P' O (f run)) :
    Lands limits P' O (x >>= f) := by
  match x, h with
  | .ok run, h => exact hf run h
  | .error (.over run), h => exact h
  | .error (.failed p), h => exact h

/-- A loop through a list: `I` holds all the way, `G` relates each run to the
later ones, and what a visit reaches for its item, it keeps. -/
theorem lands_foldlM {I : Run α → Prop} {G : Run α → Run α → Prop} {C : β → Run α → Prop}
    {visit : Run α → β → Except (Stop α) (Run α)} {items : List β} (hrefl : ∀ r, G r r)
    (htrans : ∀ r s t, G r s → G s t → G r t)
    (hkeep : ∀ b ∈ items, ∀ r s, I s → G r s → C b r → C b s)
    (hvisit : ∀ b ∈ items, ∀ r, I r → Lands limits (fun s => I s ∧ G r s ∧ C b s) O (visit r b))
    (run : Run α) (hrun : I run) :
    Lands limits (fun s => I s ∧ G run s ∧ ∀ b ∈ items, C b s) O (items.foldlM visit run) := by
  induction items generalizing run with
  | nil => exact ⟨hrun, hrefl run, by simp⟩
  | cons b items ih =>
    rw [List.foldlM_cons]
    refine (hvisit b (by simp) run hrun).bind ?_
    rintro r ⟨hr, hgrow, hb⟩
    refine (ih (fun c hc => hkeep c (by simp [hc])) (fun c hc => hvisit c (by simp [hc])) r hr).imp ?_
    rintro s ⟨hs, hgrow', hrest⟩
    refine ⟨hs, htrans _ _ _ hgrow hgrow', ?_⟩
    intro c hc
    rcases List.mem_cons.1 hc with rfl | hc
    · exact hkeep c (by simp) r s hs hgrow' hb
    · exact hrest c hc

end

variable {α : Type} [Scalar α]

/-! ## What holds of a run -/

/-- What a search for a task observes of a term. -/
def Scope.signature? (scope : Scope) (t : Term) : Option (List Observation) :=
  (Bank.empty scope.task.examples scope.bounds.maxCost scope.bounds.limits).signature? t

namespace Run

/-- The candidate for a stored term, where it reproduces an example. -/
def candidate? (task : Task) (s : Stored) : Option (Candidate α) :=
  if Bank.hits task.examples s = 0 then none
  else some (candidate task s (Bank.hits task.examples s))

/-- What holds of a run at every stage. -/
structure Sound (scope : Scope) (run : Run α) : Prop where
  bank : run.bank.Sound
  environments : run.bank.environments =
    scope.task.examples.map fun e => Bank.environment e.inputs
  limits : run.bank.limits = scope.bounds.limits
  size : run.bank.byCost.size = scope.bounds.maxCost + 1
  positive : ∀ s ∈ run.bank.stored.toList, 0 < s.cost
  candidates : run.candidates.toList = run.bank.stored.toList.filterMap (candidate? scope.task)

/-- The run is sound, and stored no term above a cost. -/
structure Within (scope : Scope) (cost : Nat) (run : Run α) : Prop where
  sound : run.Sound scope
  below : ∀ s ∈ run.bank.stored.toList, s.cost ≤ cost

/-- What a run stored stays, and what came after has one cost. -/
def Grows (cost : Nat) (run later : Run α) : Prop :=
  ∃ new : List Stored, later.bank.stored.toList = run.bank.stored.toList ++ new ∧
    ∀ s ∈ new, s.cost = cost

/-- Where a term shows anything, a stored term of no greater cost shows it. -/
def Covers (scope : Scope) (cost : Nat) (t : Term) (run : Run α) : Prop :=
  ∀ signature, scope.signature? t = some signature → ¬AllFail signature →
    ∃ s ∈ run.bank.stored.toList, s.signature = signature ∧ s.cost ≤ cost

omit [Scalar α] in
theorem grows_refl (cost : Nat) (run : Run α) : Grows cost run run := ⟨[], by simp, by simp⟩

omit [Scalar α] in
theorem grows_trans {cost : Nat} {r s t : Run α} (hrs : Grows cost r s) (hst : Grows cost s t) :
    Grows cost r t := by
  obtain ⟨new, hnew, hcost⟩ := hrs
  obtain ⟨new', hnew', hcost'⟩ := hst
  refine ⟨new ++ new', by rw [hnew', hnew, List.append_assoc], ?_⟩
  intro u hu
  rcases List.mem_append.1 hu with hu | hu
  · exact hcost u hu
  · exact hcost' u hu

omit [Scalar α] in
theorem Grows.mem {cost : Nat} {r s : Run α} (h : Grows cost r s) {u : Stored}
    (hu : u ∈ r.bank.stored.toList) : u ∈ s.bank.stored.toList := by
  obtain ⟨new, hnew, -⟩ := h
  rw [hnew]
  exact List.mem_append_left new hu

omit [Scalar α] in
/-- A stored term of another cost was there before. -/
theorem Grows.mem_of_ne {cost : Nat} {r s : Run α} (h : Grows cost r s) {u : Stored}
    (hu : u ∈ s.bank.stored.toList) (hne : u.cost ≠ cost) : u ∈ r.bank.stored.toList := by
  obtain ⟨new, hnew, hcost⟩ := h
  rw [hnew] at hu
  rcases List.mem_append.1 hu with hu | hu
  · exact hu
  · exact absurd (hcost u hu) hne

omit [Scalar α] in
theorem Grows.getElem? {cost : Nat} {r s : Run α} (h : Grows cost r s) {i : Nat} {u : Stored}
    (hu : r.bank.stored[i]? = some u) : s.bank.stored[i]? = some u := by
  obtain ⟨new, hnew, -⟩ := h
  rw [← Array.getElem?_toList] at hu ⊢
  rw [hnew, List.getElem?_append_left]
  · exact hu
  · exact (List.getElem?_eq_some_iff.1 hu).1

omit [Scalar α] in
theorem Covers.grows {scope : Scope} {cost later : Nat} {t : Term} {r s : Run α}
    (h : Covers scope cost t r) (hgrow : Grows later r s) : Covers scope cost t s := by
  intro signature hsig hshow
  obtain ⟨u, hu, heq⟩ := h signature hsig hshow
  exact ⟨u, hgrow.mem hu, heq⟩

theorem Sound.signature?_eq {scope : Scope} {run : Run α} (h : run.Sound scope) (t : Term) :
    run.bank.signature? t = scope.signature? t := by
  unfold Scope.signature? Bank.signature?
  rw [h.environments, h.limits]
  rfl

/-- Nothing but the clock moves when a run goes on. -/
theorem Sound.of_bank {scope : Scope} {run later : Run α} (h : run.Sound scope)
    (hbank : later.bank = run.bank) (hcandidates : later.candidates = run.candidates) :
    later.Sound scope := by
  refine ⟨?_, ?_, ?_, ?_, ?_, ?_⟩
  · rw [hbank]; exact h.bank
  · rw [hbank]; exact h.environments
  · rw [hbank]; exact h.limits
  · rw [hbank]; exact h.size
  · rw [hbank]; exact h.positive
  · rw [hbank, hcandidates]; exact h.candidates

/-! ## One offer -/

theorem toList_record (task : Task) (s : Stored) (candidates : Array (Candidate α)) :
    (record task s candidates).toList = candidates.toList ++ (candidate? task s).toList := by
  unfold record candidate?
  dsimp only
  split <;> simp

/-- The run after a term was kept. -/
def keep (scope : Scope) (run : Run α) (s : Stored) : Run α :=
  { run with
    bank := run.bank.store s
    candidates := record scope.task s run.candidates }

theorem within_keep {scope : Scope} {cost : Nat} {run : Run α} (h : run.Within scope cost)
    {s : Stored} (hcost : s.cost = cost) (hpos : 0 < cost)
    (hsig : run.bank.signature? s.term = some s.signature)
    (hnew : run.bank.refuses s.signature = false) (hroom : cost < run.bank.byCost.size) :
    (run.keep scope s).Within scope cost where
  sound := {
    bank := Bank.sound_store h.sound.bank hsig hnew (by omega)
    environments := h.sound.environments
    limits := h.sound.limits
    size := (Bank.size_byCost_store run.bank s).trans h.sound.size
    positive := Bank.forall_mem_store h.sound.positive (by omega)
    candidates := by
      unfold keep
      rw [toList_record, Bank.toList_store, List.filterMap_append, h.sound.candidates]
      cases hc : (candidate? scope.task s : Option (Candidate α)) <;> simp [hc] }
  below := Bank.forall_mem_store h.below (by omega)

/-- What comes of an offer: what comes of it for the bank, and a term that is stored is put
on record. -/
inductive Offered (scope : Scope) (cost : Nat) (run : Run α) (t : Term) :
    Except (Stop α) (Run α) → Prop
  | refused (h : ∀ signature, run.bank.signature? t = some signature →
      run.bank.refuses signature = true) : Offered scope cost run t (.ok run)
  | stored {signature : List Observation} (hsig : run.bank.signature? t = some signature)
      (hnew : run.bank.refuses signature = false) (hroom : cost < run.bank.byCost.size) :
      Offered scope cost run t (.ok (run.keep scope { term := t, cost, signature }))
  | lost {signature : List Observation} (hsig : run.bank.signature? t = some signature)
      (hnew : run.bank.refuses signature = false) (hroom : run.bank.byCost.size ≤ cost) :
      Offered scope cost run t (.error (.failed (.indexOutOfRange run.bank.byCost.size cost)))
  | stopped (h : run.bank.Overflows t) :
      Offered scope cost run t (.error (.failed .countOverflow))

theorem offered (scope : Scope) (cost : Nat) (run : Run α) (t : Term) :
    Offered scope cost run t (offer scope cost run t) := by
  unfold offer
  dsimp only
  have hoffered := run.bank.offered t cost
  generalize run.bank.offer t cost = result at hoffered ⊢
  cases hoffered with
  | refused h => exact .refused h
  | @stored signature hsig hnew hroom =>
    have hentry : entry (run.bank.store ⟨t, cost, signature⟩).stored run.bank.stored.size =
        .ok ⟨t, cost, signature⟩ := (entry_eq_ok_iff _ _ _).2 Array.getElem?_push_size
    simp only [hentry]
    exact .stored hsig hnew hroom
  | lost hsig hnew hroom => exact .lost hsig hnew hroom
  | stopped h => exact .stopped h

/-- A term that is offered is covered from then on. -/
theorem lands_offer {scope : Scope} {cost : Nat} {run : Run α} (h : run.Within scope cost)
    (hpos : 0 < cost) (hmax : cost ≤ scope.bounds.maxCost) (t : Term) :
    Lands scope.bounds.limits
      (fun r => Within scope cost r ∧ Grows cost run r ∧ Covers scope cost t r) (Sound scope)
      (offer scope cost run t) := by
  have hplace : cost < run.bank.byCost.size := by
    rw [h.sound.size]
    omega
  have hoffered := offered scope cost run t
  generalize offer scope cost run t = result at hoffered ⊢
  cases hoffered with
  | refused hrefused =>
    refine ⟨h, grows_refl cost run, ?_⟩
    intro signature hsig hshow
    rw [← h.sound.signature?_eq] at hsig
    rcases (Bank.refuses_iff h.sound.bank signature).1 (hrefused signature hsig) with hfail | hseen
    · exact absurd hfail hshow
    · obtain ⟨s, hs, heq⟩ := hseen
      exact ⟨s, hs, heq, h.below s hs⟩
  | @stored signature hsig hnew _ =>
    refine ⟨within_keep h rfl hpos hsig hnew hplace, ⟨[_], Bank.toList_store _ _, by simp⟩, ?_⟩
    intro signature' hsig' _
    rw [← h.sound.signature?_eq, hsig] at hsig'
    cases hsig'
    exact ⟨⟨t, cost, signature⟩, Bank.mem_store.2 (Or.inr rfl), rfl, Nat.le_refl _⟩
  | lost _ _ hfull => omega
  | stopped hstop => exact ⟨rfl, fun hfits => Bank.not_overflows (h.sound.limits ▸ hfits) t hstop⟩

theorem lands_goOn {scope : Scope} {cost : Nat} {run : Run α} (h : run.Within scope cost) :
    Lands scope.bounds.limits (fun r => Within scope cost r ∧ Grows cost run r) (Sound scope)
      (goOn scope run) := by
  unfold goOn
  dsimp only
  split
  · exact h.sound.of_bank rfl rfl
  · exact ⟨⟨h.sound.of_bank rfl rfl, h.below⟩, [], by simp, by simp⟩

/-! ## All choices from some pools -/

/-- The pools hold numbers of stored terms. -/
def PoolsOf (run : Run α) (pools : List (Array Nat)) : Prop :=
  ∀ pool ∈ pools, ∀ i ∈ pool.toList, i < run.bank.stored.size

omit [Scalar α] in
theorem termsAt_grows {cost : Nat} {r s : Run α} (hgrow : Grows cost r s) {pools : List (Array Nat)}
    {choice : List Nat} {terms : List Term} (h : r.bank.termsAt pools choice = .ok terms) :
    s.bank.termsAt pools choice = .ok terms := by
  rw [Bank.termsAt_eq_ok_iff] at h ⊢
  refine h.imp ?_
  rintro ⟨pool, i⟩ _ ⟨n, u, hn, hu, rfl⟩
  exact ⟨n, u, hn, hgrow.getElem? hu, rfl⟩

omit [Scalar α] in
theorem exists_termsAt {run : Run α} {pools : List (Array Nat)} (hpools : PoolsOf run pools)
    {choice : List Nat} (hchoice : IsChoice (pools.map (·.size)) choice) :
    ∃ terms, run.bank.termsAt pools choice = .ok terms := by
  simp only [Bank.termsAt_eq_ok_iff]
  refine exists_forall₂ ?_
  rintro ⟨pool, i⟩ hmem
  have hi : i < pool.size := by
    have h := List.forall₂_map_right_iff.1 hchoice
    exact (List.forall₂_iff_zip.1 h.flip).2 hmem
  have hlt : pool[i] < run.bank.stored.size :=
    hpools pool (List.of_mem_zip hmem).1 _ (Array.mem_toList_iff.2 (Array.getElem_mem hi))
  exact ⟨_, _, _, Array.getElem?_eq_getElem hi, Array.getElem?_eq_getElem hlt, rfl⟩

/-- After all choices from some pools the operation is covered on the terms of
each of them. -/
theorem lands_visitChoices {scope : Scope} {cost : Nat} {run : Run α} (h : run.Within scope cost)
    (hpos : 0 < cost) (hmax : cost ≤ scope.bounds.maxCost) (op : Component)
    {pools : List (Array Nat)} (hpools : PoolsOf run pools) :
    Lands scope.bounds.limits (fun r => Within scope cost r ∧ Grows cost run r ∧
        ∀ choice terms, IsChoice (pools.map (·.size)) choice →
          run.bank.termsAt pools choice = .ok terms →
            Covers scope cost (op.term.applied terms) r)
      (Sound scope)
      (visitChoices (pools.map (·.size)) (offerChoice scope op cost pools) run) := by
  rw [visitChoices_eq]
  refine (lands_foldlM (I := fun r => Within scope cost r ∧ Grows cost run r) (G := Grows cost)
    (C := fun choice r => ∀ terms, run.bank.termsAt pools choice = .ok terms →
      Covers scope cost (op.term.applied terms) r)
    (grows_refl cost) (fun _ _ _ => grows_trans) ?_ ?_ run ⟨h, grows_refl cost run⟩).imp ?_
  · intro choice _ r s _ hgrow hcovers terms hterms
    exact (hcovers terms hterms).grows hgrow
  · rintro choice hchoice r ⟨hr, hrun⟩
    unfold offerChoice
    refine (lands_goOn hr).bind ?_
    rintro r' ⟨hr', hgrow⟩
    obtain ⟨terms, hterms⟩ := exists_termsAt hpools ((mem_choices _ _).1 hchoice)
    have hgrow' := grows_trans hrun hgrow
    rw [termsAt_grows hgrow' hterms]
    refine (lands_offer hr' hpos hmax _).imp ?_
    rintro s ⟨hs, hlast, hcovers⟩
    refine ⟨⟨hs, grows_trans hgrow' hlast⟩, grows_trans hgrow hlast, ?_⟩
    intro terms' hterms'
    rw [hterms] at hterms'
    cases hterms'
    exact hcovers
  · rintro s ⟨⟨hs, hgrow⟩, -, hcovers⟩
    refine ⟨hs, hgrow, ?_⟩
    intro choice terms hchoice hterms
    exact hcovers choice ((mem_choices _ _).2 hchoice) terms hterms

/-! ## All terms of one cost -/

/-- The operation is covered on stored terms with the given costs. -/
def CoversCosts (scope : Scope) (op : Component) (cost : Nat) (costs : List Nat) (run : Run α) : Prop :=
  ∀ args : List Stored, (∀ s ∈ args, s ∈ run.bank.stored.toList) → args.map (·.cost) = costs →
    Covers scope cost (op.term.applied (args.map (·.term))) run

omit [Scalar α] in
/-- Stored terms are a choice from the pools of their costs. -/
theorem exists_choice {run : Run α} (h : run.bank.Sound) {args : List Stored}
    {pools : List (Array Nat)} (hargs : ∀ s ∈ args, s ∈ run.bank.stored.toList)
    (hpools : List.Forall₂ (fun s pool => run.bank.byCost[s.cost]? = some pool) args pools) :
    ∃ choice, IsChoice (pools.map (·.size)) choice ∧
      run.bank.termsAt pools choice = .ok (args.map (·.term)) := by
  induction hpools with
  | nil => exact ⟨[], .nil, rfl⟩
  | @cons s pool args pools hpool _ ih =>
    obtain ⟨choice, hchoice, hterms⟩ := ih fun u hu => hargs u (by simp [hu])
    obtain ⟨n, hn⟩ := List.getElem?_of_mem (hargs s (by simp))
    rw [Array.getElem?_toList] at hn
    have hmem : n ∈ pool.toList := by
      rw [h.numbered _ _ hpool, Bank.mem_numbersOf]
      exact ⟨s, hn, rfl⟩
    obtain ⟨i, hi⟩ := List.getElem?_of_mem hmem
    rw [Array.getElem?_toList] at hi
    refine ⟨i :: choice, .cons (Array.getElem?_eq_some_iff.1 hi).1 hchoice, ?_⟩
    rw [Bank.termsAt_eq_ok_iff] at hterms ⊢
    exact .cons ⟨n, s, hi, hn, rfl⟩ hterms

omit [Scalar α] in
/-- The pools of a bank hold the numbers of stored terms. -/
theorem poolsOf_of_entries {run : Run α} (h : run.bank.Sound) {costs : List Nat}
    {pools : List (Array Nat)}
    (hentries : List.Forall₂ (fun c pool => entry run.bank.byCost c = .ok pool) costs pools) :
    PoolsOf run pools := by
  intro pool hpool i hi
  obtain ⟨c, -, hc⟩ := exists_of_mem_right hentries hpool
  rw [h.numbered c pool ((entry_eq_ok_iff _ _ _).1 hc), Bank.mem_numbersOf] at hi
  obtain ⟨s, hs, -⟩ := hi
  exact (Array.getElem?_eq_some_iff.1 hs).1

theorem lands_offerCosts {scope : Scope} {cost : Nat} {run : Run α} (h : run.Within scope cost)
    (hpos : 0 < cost) (hmax : cost ≤ scope.bounds.maxCost) (op : Component) {costs : List Nat}
    (hcosts : ∀ c ∈ costs, c < cost) :
    Lands scope.bounds.limits
      (fun r => Within scope cost r ∧ Grows cost run r ∧ CoversCosts scope op cost costs r)
      (Sound scope) (offerCosts scope op cost run costs) := by
  have hbank := h.sound.bank
  obtain ⟨pools, hpools⟩ : ∃ pools, costs.mapM (entry run.bank.byCost) = .ok pools := by
    refine exists_mapM_eq_ok fun c hc => ?_
    have hlt : c < run.bank.byCost.size := by
      have := hcosts c hc
      rw [h.sound.size]
      omega
    exact ⟨_, (entry_eq_ok_iff _ _ _).2 (Array.getElem?_eq_getElem hlt)⟩
  have hentries := (mapM_eq_ok_iff _ _ _).1 hpools
  unfold offerCosts
  simp only [hpools]
  -- what is stored when the level ends is, at these costs, what is stored now
  have hchoice : ∀ (r : Run α) (args : List Stored), Grows cost run r →
      (∀ s ∈ args, s ∈ r.bank.stored.toList) → args.map (·.cost) = costs →
        ∃ choice, IsChoice (pools.map (·.size)) choice ∧
          run.bank.termsAt pools choice = .ok (args.map (·.term)) := by
    intro r args hgrow hargs hmap
    refine exists_choice hbank (fun s hs => hgrow.mem_of_ne (hargs s hs) ?_) ?_
    · have := hcosts s.cost (hmap ▸ List.mem_map_of_mem hs)
      omega
    · rw [← hmap] at hentries
      refine (List.forall₂_map_left_iff.1 hentries).imp ?_
      intro s pool hs
      exact (entry_eq_ok_iff _ _ _).1 hs
  split
  · rename_i hempty
    refine ⟨h, grows_refl cost run, ?_⟩
    intro args hargs hmap
    obtain ⟨choice, hisChoice, -⟩ := hchoice run args (grows_refl cost run) hargs hmap
    obtain ⟨pool, hpool, hnone⟩ := List.any_eq_true.1 hempty
    obtain ⟨i, -, hi⟩ := exists_of_mem_right hisChoice (List.mem_map_of_mem hpool)
    rw [Array.isEmpty_iff.1 hnone] at hi
    cases hi
  · have hvalid := poolsOf_of_entries hbank hentries
    refine (lands_visitChoices h hpos hmax op hvalid).imp ?_
    rintro r ⟨hr, hgrow, hcovers⟩
    refine ⟨hr, hgrow, ?_⟩
    intro args hargs hmap
    obtain ⟨choice, hisChoice, hterms⟩ := hchoice r args hgrow hargs hmap
    exact hcovers choice _ hisChoice hterms

/-- The operation is covered on all stored terms that share out a cost. -/
def CoversOperation (scope : Scope) (cost : Nat) (op : Component) (run : Run α) : Prop :=
  ∀ args : List Stored, (∀ s ∈ args, s ∈ run.bank.stored.toList) → args.length = op.arity →
    1 + (args.map (·.cost)).sum = cost → Covers scope cost (op.term.applied (args.map (·.term))) run

theorem le_sum_of_mem {costs : List Nat} {c : Nat} (h : c ∈ costs) : c ≤ costs.sum := by
  obtain ⟨before, after, rfl⟩ := List.append_of_mem h
  simp only [List.sum_append, List.sum_cons]
  omega

omit [Scalar α] in
theorem CoversCosts.grows {scope : Scope} {op : Component} {cost : Nat} {costs : List Nat}
    {r s : Run α} (h : CoversCosts scope op cost costs r) (hcosts : ∀ c ∈ costs, c < cost)
    (hgrow : Grows cost r s) : CoversCosts scope op cost costs s := by
  intro args hargs hmap
  refine (h args (fun u hu => hgrow.mem_of_ne (hargs u hu) ?_) hmap).grows hgrow
  have := hcosts u.cost (hmap ▸ List.mem_map_of_mem hu)
  omega

omit [Scalar α] in
theorem CoversOperation.grows {scope : Scope} {op : Component} {cost : Nat} {r s : Run α}
    (h : CoversOperation scope cost op r) (hgrow : Grows cost r s) :
    CoversOperation scope cost op s := by
  intro args hargs hlen hsum
  refine (h args (fun u hu => hgrow.mem_of_ne (hargs u hu) ?_) hlen hsum).grows hgrow
  have := le_sum_of_mem (List.mem_map_of_mem (f := (·.cost)) hu)
  omega

/-- After the level of a cost every operation is covered on all stored terms
that share it out. -/
theorem lands_offerLevel {scope : Scope} {cost : Nat} {run : Run α} (h : run.Within scope cost)
    (hpos : 0 < cost) (hmax : cost ≤ scope.bounds.maxCost) (ops : List Component) :
    Lands scope.bounds.limits (fun r => Within scope cost r ∧ Grows cost run r ∧
        ∀ op ∈ ops, CoversOperation scope cost op r)
      (Sound scope) (offerLevel scope ops run cost) := by
  unfold offerLevel
  refine lands_foldlM (grows_refl cost) (fun _ _ _ => grows_trans)
    (fun op _ r s _ hgrow hcovers => hcovers.grows hgrow) ?_ run h
  intro op _ r hr
  have hbelow : ∀ costs ∈ compositions (cost - 1) op.arity, ∀ c ∈ costs, c < cost := by
    intro costs hcosts c hc
    obtain ⟨-, hsum, -⟩ := (mem_compositions _ _ _).1 hcosts
    have := le_sum_of_mem hc
    omega
  refine (lands_foldlM (C := CoversCosts scope op cost) (grows_refl cost)
    (fun _ _ _ => grows_trans)
    (fun costs hcosts r s _ hgrow hcovers => hcovers.grows (hbelow costs hcosts) hgrow)
    (fun costs hcosts r hr => lands_offerCosts hr hpos hmax op (hbelow costs hcosts)) r hr).imp ?_
  rintro s ⟨hs, hgrow, hcovers⟩
  refine ⟨hs, hgrow, ?_⟩
  intro args hargs hlen hsum
  refine hcovers (args.map (·.cost)) ?_ args hargs rfl
  rw [mem_compositions]
  refine ⟨by rw [List.length_map, hlen], by omega, ?_⟩
  intro c hc
  obtain ⟨u, hu, rfl⟩ := List.mem_map.1 hc
  exact hs.sound.positive u (hargs u hu)

/-! ## The whole search -/

/-- A run that stored all it could, up to a cost. -/
structure Filled (scope : Scope) (g : Grammar) (seeds : List Term) (cost : Nat) (run : Run α) :
    Prop where
  within : run.Within scope cost
  starting : ∀ t ∈ startingTerms g scope.task.arity seeds, Covers scope 1 t run
  operations : ∀ op ∈ operations g, ∀ c ≤ cost, CoversOperation scope c op run

theorem Within.mono {scope : Scope} {cost cost' : Nat} {run : Run α}
    (h : run.Within scope cost) (hle : cost ≤ cost') : run.Within scope cost' :=
  ⟨h.sound, fun s hs => Nat.le_trans (h.below s hs) hle⟩

theorem lands_level {scope : Scope} {g : Grammar} {seeds : List Term} {cost : Nat} {run : Run α}
    (h : run.Filled scope g seeds cost) (hmax : cost + 1 ≤ scope.bounds.maxCost) :
    Lands scope.bounds.limits (Filled scope g seeds (cost + 1)) (Sound scope)
      (offerLevel scope (Enumeration.operations g) run (cost + 1)) := by
  refine (lands_offerLevel (h.within.mono (Nat.le_succ cost)) (Nat.succ_pos cost) hmax _).imp ?_
  rintro r ⟨hr, hgrow, hcovers⟩
  refine ⟨hr, fun t ht => (h.starting t ht).grows hgrow, ?_⟩
  intro op hop c hc
  by_cases hlast : c = cost + 1
  · subst hlast
    exact hcovers op hop
  · intro args hargs hlen hsum
    refine (h.operations op hop c (by omega) args ?_ hlen hsum).grows hgrow
    intro u hu
    refine hgrow.mem_of_ne (hargs u hu) ?_
    have := le_sum_of_mem (List.mem_map_of_mem (f := (·.cost)) hu)
    omega

theorem lands_levels {scope : Scope} {g : Grammar} {seeds : List Term} {run : Run α}
    (h : run.Filled scope g seeds 1) (n : Nat) (hmax : n + 1 ≤ scope.bounds.maxCost) :
    Lands scope.bounds.limits (Filled scope g seeds (n + 1)) (Sound scope)
      (((List.range n).map (· + 2)).foldlM (offerLevel scope (Enumeration.operations g)) run) := by
  induction n with
  | zero => exact h
  | succ n ih =>
    rw [List.range_succ, List.map_append, List.foldlM_append]
    refine (ih (by omega)).bind fun r hr => ?_
    refine Lands.bind (lands_level hr hmax) fun s hs => hs

theorem lands_starting {scope : Scope} {run : Run α} (h : run.Within scope 1)
    (hmax : 1 ≤ scope.bounds.maxCost) (ts : List Term) :
    Lands scope.bounds.limits (fun r => Within scope 1 r ∧ ∀ t ∈ ts, Covers scope 1 t r)
      (Sound scope) (ts.foldlM (offer scope 1) run) := by
  refine (lands_foldlM (grows_refl 1) (fun _ _ _ => grows_trans)
    (fun t _ r s _ hgrow hcovers => hcovers.grows hgrow)
    (fun t _ r hr => lands_offer hr Nat.one_pos hmax t) run h).imp ?_
  rintro r ⟨hr, -, hcovers⟩
  exact ⟨hr, hcovers⟩

/-- The run with which a search starts. -/
def start (scope : Scope) (readings : Nat) : Run α :=
  { bank := .empty scope.task.examples scope.bounds.maxCost scope.bounds.limits, readings }

theorem within_start (scope : Scope) (readings cost : Nat) :
    (start scope readings : Run α).Within scope cost := by
  refine ⟨⟨Bank.sound_empty _ _ _, rfl, rfl, by simp [start, Bank.empty], ?_, rfl⟩, ?_⟩
  · simp [start, Bank.empty]
  · simp [start, Bank.empty]

/-- A search with room for a term goes wrong only in an evaluation. Where it is
not cut short it stores all it can. -/
theorem lands_steps {scope : Scope} {g : Grammar} {seeds : List Term} {readings : Nat}
    (hmax : 1 ≤ scope.bounds.maxCost) :
    Lands scope.bounds.limits (Filled scope g seeds scope.bounds.maxCost) (Sound (α := α) scope)
      (steps scope g seeds (start scope readings)) := by
  unfold steps
  refine (lands_starting (within_start scope readings 1) hmax _).bind ?_
  rintro r ⟨hr, hcovers⟩
  have hfilled : r.Filled scope g seeds 1 := by
    refine ⟨hr, hcovers, ?_⟩
    intro op hop c hc args hargs hlen hsum
    -- an operation has arguments, and each of them costs something
    have harity : op.arity ≠ 0 := by
      have := (List.mem_filter.1 hop).2
      simp only [Bool.and_eq_true, bne_iff_ne] at this
      exact this.2
    have hroom : (args.map (·.cost)).length ≤ (args.map (·.cost)).sum := by
      refine length_le_sum fun c hc => ?_
      obtain ⟨u, hu, rfl⟩ := List.mem_map.1 hc
      exact hr.sound.positive u (hargs u hu)
    rw [List.length_map] at hroom
    omega
  have := lands_levels hfilled (scope.bounds.maxCost - 1) (by omega)
  rwa [Nat.sub_add_cancel hmax] at this

end Run

/-! ## Searches that return -/

/-- The bounds leave room for the table of a bank, and a word for a step and a
level that are too many. -/
structure Bounds.Roomy (bounds : Bounds) : Prop where
  table : bounds.maxCost + 1 ≤ Bank.capacity
  counters : bounds.limits.Fits

theorem capacity_lt : Bank.capacity < UInt64.size := by decide

/-- A table is set up, or its size is no word, or it has too many entries to be
addressed. -/
theorem create_cases (examples : List Example) (maxCost : Nat) (limits : Limits) :
    (UInt64.size ≤ maxCost + 1 ∧ Bank.create examples maxCost limits = .error .countOverflow) ∨
    ((Bank.capacity < maxCost + 1 ∧ maxCost + 1 < UInt64.size) ∧
      Bank.create examples maxCost limits = .error .capacityOverflow) ∨
    (maxCost + 1 ≤ Bank.capacity ∧
      Bank.create examples maxCost limits = .ok (.empty examples maxCost limits)) := by
  have hcapacity := capacity_lt
  unfold Bank.create
  by_cases hsize : UInt64.size ≤ maxCost + 1
  · exact Or.inl ⟨hsize, if_pos hsize⟩
  · rw [if_neg hsize]
    by_cases htable : Bank.capacity < maxCost + 1
    · exact Or.inr (Or.inl ⟨⟨htable, by omega⟩, if_pos htable⟩)
    · exact Or.inr (Or.inr ⟨by omega, if_neg htable⟩)

section

variable {scope : Scope} {g : Grammar} {seeds : List Term} {readings : Nat} {run : Run α}

/-- A search returns where its table has room and its steps go on to the end,
or are cut short. -/
theorem solveTask_eq_ok_iff :
    solveTask scope g seeds readings = .ok run ↔
      scope.bounds.maxCost + 1 ≤ Bank.capacity ∧
        (steps scope g seeds (Run.start scope readings) = .ok run ∨
          steps scope g seeds (Run.start scope readings) = .error (.over run)) := by
  have hcapacity := capacity_lt
  unfold solveTask Run.start
  rcases create_cases scope.task.examples scope.bounds.maxCost scope.bounds.limits with
    ⟨hsize, hcreate⟩ | ⟨⟨htable, -⟩, hcreate⟩ | ⟨htable, hcreate⟩
  · simp [hcreate, bind, Except.bind]
    omega
  · simp [hcreate, bind, Except.bind]
    omega
  · simp only [hcreate, bind, Except.bind, htable, true_and]
    split <;> simp_all

/-- A search with room for a term, and for all that it counts, returns. -/
theorem exists_solveTask (hplace : 1 ≤ scope.bounds.maxCost) (hroomy : scope.bounds.Roomy) :
    ∃ run : Run α, solveTask scope g seeds readings = .ok run := by
  have hlands := @Run.lands_steps α _ scope g seeds readings hplace
  cases hsteps : steps scope g seeds (Run.start scope readings : Run α) with
  | ok run => exact ⟨run, solveTask_eq_ok_iff.2 ⟨hroomy.table, Or.inl hsteps⟩⟩
  | error stop =>
    obtain run | p := stop
    · exact ⟨run, solveTask_eq_ok_iff.2 ⟨hroomy.table, Or.inr hsteps⟩⟩
    · rw [hsteps] at hlands
      exact absurd hroomy.counters hlands.2

/-- A search that returns ends with a run in which all is as it should be. -/
theorem sound_of_solveTask_of_place (hplace : 1 ≤ scope.bounds.maxCost)
    (h : solveTask scope g seeds readings = .ok run) : run.Sound scope := by
  have hlands := @Run.lands_steps α _ scope g seeds readings hplace
  obtain ⟨-, hsteps | hover⟩ := solveTask_eq_ok_iff.1 h
  · rw [hsteps] at hlands
    exact hlands.within.sound
  · rw [hover] at hlands
    exact hlands

/-- A search that returns, and is not cut short, stored all it could. -/
theorem filled_of_solveTask (hplace : 1 ≤ scope.bounds.maxCost)
    (huncut : ∀ r : Run α, steps scope g seeds (Run.start scope readings) ≠ .error (.over r))
    (h : solveTask scope g seeds readings = .ok run) :
    run.Filled scope g seeds scope.bounds.maxCost := by
  obtain ⟨-, hsteps | hover⟩ := solveTask_eq_ok_iff.1 h
  · have hlands := @Run.lands_steps α _ scope g seeds readings hplace
    rw [hsteps] at hlands
    exact hlands
  · exact absurd hover (huncut run)

end

end SymbolInduction.Enumeration
