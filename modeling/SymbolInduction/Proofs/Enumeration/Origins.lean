-- Where the stored terms of a search come from. Wherever a run ends, each of its stored
-- terms is one of those with which the search starts, at cost one, or an operation on
-- stored terms, at one more than they cost together.
import SymbolInduction.Proofs.Enumeration.Runs

namespace SymbolInduction.Enumeration

variable {α β : Type}

/-! ## What holds wherever a run ends -/

/-- Where the stage does not go wrong, the run that it leaves has the property, whether it
goes on or is over. -/
def Keeps (P : Run α → Prop) : Except (Stop α) (Run α) → Prop
  | .ok run => P run
  | .error (.over run) => P run
  | .error (.failed _) => True

theorem Keeps.imp {P Q : Run α → Prop} {x : Except (Stop α) (Run α)} (h : Keeps P x)
    (hPQ : ∀ run, P run → Q run) : Keeps Q x := by
  unfold Keeps at h ⊢
  split at h
  · exact hPQ _ h
  · exact hPQ _ h
  · trivial

variable {P : Run α → Prop}

theorem Keeps.bind {x : Except (Stop α) (Run α)} {f : Run α → Except (Stop α) (Run α)}
    (h : Keeps P x) (hf : ∀ run, P run → Keeps P (f run)) : Keeps P (x >>= f) := by
  match x, h with
  | .ok run, h => exact hf run h
  | .error (.over run), h => exact h
  | .error (.failed _), _ => trivial

theorem keeps_foldlM {visit : Run α → β → Except (Stop α) (Run α)} {items : List β}
    (hvisit : ∀ b ∈ items, ∀ r, P r → Keeps P (visit r b)) {run : Run α} (h : P run) :
    Keeps P (items.foldlM visit run) := by
  induction items generalizing run with
  | nil => exact h
  | cons b items ih =>
    rw [List.foldlM_cons]
    exact (hvisit b (by simp) run h).bind fun r hr => ih (fun c hc => hvisit c (by simp [hc])) hr

/-! ## Origins -/

/-- How a run comes by a term at a cost. -/
inductive Origin (g : Grammar) (arity : Nat) (seeds : List Term) (run : Run α) : Term → Nat → Prop
  | starting {t : Term} (h : t ∈ startingTerms g arity seeds) : Origin g arity seeds run t 1
  | operation {op : Component} {args : List Stored} (hop : op ∈ operations g)
      (hargs : ∀ s ∈ args, s ∈ run.bank.stored.toList) (hlen : args.length = op.arity) :
      Origin g arity seeds run (op.term.applied (args.map (·.term))) (1 + (args.map (·.cost)).sum)

namespace Run

/-- The pools hold the numbers of stored terms, those of each pool with one cost. -/
def Priced (run : Run α) (costs : List Nat) (pools : List (Array Nat)) : Prop :=
  List.Forall₂ (fun cost pool => ∀ i ∈ pool.toList,
    ∃ s : Stored, run.bank.stored[i]? = some s ∧ s.cost = cost) costs pools

/-- Each stored term has an origin, and the index has it at its cost. -/
structure Founded (g : Grammar) (arity : Nat) (seeds : List Term) (run : Run α) : Prop where
  origin : ∀ s ∈ run.bank.stored.toList, Origin g arity seeds run s.term s.cost
  indexed : ∀ (cost : Nat) (ids : Array Nat), run.bank.byCost[cost]? = some ids →
    Priced run [cost] [ids]

/-- What the one run stored, the other one has stored under the same number. -/
def Extends (run later : Run α) : Prop := run.bank.stored.toList <+: later.bank.stored.toList

variable {g : Grammar} {arity : Nat} {seeds : List Term} {run later : Run α}

theorem Extends.trans {last : Run α} (h : Extends run later) (h' : Extends later last) :
    Extends run last := List.IsPrefix.trans h h'

theorem Extends.getElem? (h : Extends run later) {i : Nat} {s : Stored}
    (hs : run.bank.stored[i]? = some s) : later.bank.stored[i]? = some s := by
  rw [← Array.getElem?_toList] at hs ⊢
  obtain ⟨new, hnew⟩ := h
  rw [← hnew, List.getElem?_append_left (List.getElem?_eq_some_iff.1 hs).1]
  exact hs

theorem Extends.priced (h : Extends run later) {costs : List Nat} {pools : List (Array Nat)}
    (hpools : Priced run costs pools) : Priced later costs pools := by
  refine hpools.imp fun cost pool hpool i hi => ?_
  obtain ⟨s, hs, hcost⟩ := hpool i hi
  exact ⟨s, h.getElem? hs, hcost⟩

theorem Extends.origin (h : Extends run later) {t : Term} {cost : Nat}
    (ht : Origin g arity seeds run t cost) : Origin g arity seeds later t cost := by
  cases ht with
  | starting ht => exact .starting ht
  | operation hop hargs hlen => exact .operation hop (fun s hs => h.subset (hargs s hs)) hlen

theorem Founded.of_bank (h : run.Founded g arity seeds) (hbank : later.bank = run.bank) :
    later.Founded g arity seeds := by
  have hextends : Extends run later := by
    unfold Extends
    exact hbank ▸ List.prefix_refl _
  refine ⟨fun s hs => hextends.origin (h.origin s ?_), fun cost ids hids =>
    hextends.priced (h.indexed cost ids ?_)⟩
  · rwa [hbank] at hs
  · rwa [hbank] at hids

theorem founded_start (scope : Scope) (readings : Nat) :
    (start scope readings : Run α).Founded g arity seeds := by
  refine ⟨by simp [start, Bank.empty], fun cost ids hids => ?_⟩
  obtain ⟨-, rfl⟩ : cost < scope.bounds.maxCost + 1 ∧ #[] = ids := by
    simpa [start, Bank.empty, Array.getElem?_replicate] using hids
  exact .cons (by simp) .nil

/-! ## One offer -/

variable [Scalar α] {scope : Scope}

theorem extends_keep (scope : Scope) (run : Run α) (s : Stored) : Extends run (run.keep scope s) :=
  ⟨[s], (Bank.toList_store run.bank s).symm⟩

theorem getElem?_keep (run : Run α) (s : Stored) :
    (run.keep scope s).bank.stored[run.bank.stored.size]? = some s := Array.getElem?_push_size

theorem founded_keep (h : run.Founded g arity seeds) {s : Stored}
    (hs : Origin g arity seeds run s.term s.cost) : (run.keep scope s).Founded g arity seeds := by
  have hextends := extends_keep scope run s
  refine ⟨Bank.forall_mem_store (fun u hu => hextends.origin (h.origin u hu)) (hextends.origin hs), ?_⟩
  intro cost ids hids
  change (run.bank.byCost.modify s.cost (·.push run.bank.stored.size))[cost]? = some ids at hids
  rw [Array.getElem?_modify] at hids
  split at hids
  · rename_i hcost
    obtain ⟨old, hold, rfl⟩ := Option.map_eq_some_iff.1 hids
    have hpriced := hextends.priced (h.indexed cost old hold)
    refine .cons (fun i hi => ?_) .nil
    rw [Array.toList_push, List.mem_append, List.mem_singleton] at hi
    rcases hi with hi | rfl
    · exact (List.forall₂_cons.1 hpriced).1 i hi
    · exact ⟨s, getElem?_keep run s, hcost⟩
  · exact hextends.priced (h.indexed cost ids hids)

/-- The run has come out of another one, and is founded. -/
def FoundedOn (g : Grammar) (arity : Nat) (seeds : List Term) (run later : Run α) : Prop :=
  later.Founded g arity seeds ∧ Extends run later

theorem keeps_offer {cost : Nat} {t : Term} (h : FoundedOn g arity seeds run later)
    (ht : Origin g arity seeds later t cost) :
    Keeps (FoundedOn g arity seeds run) (offer scope cost later t) := by
  obtain ⟨hfounded, hextends⟩ := h
  have hoffered := offered scope cost later t
  generalize offer scope cost later t = result at hoffered ⊢
  cases hoffered with
  | refused => exact ⟨hfounded, hextends⟩
  | stored => exact ⟨founded_keep hfounded ht, hextends.trans (extends_keep scope later _)⟩
  | lost => trivial
  | stopped => trivial

omit [Scalar α] in
theorem keeps_goOn (h : FoundedOn g arity seeds run later) :
    Keeps (FoundedOn g arity seeds run) (goOn scope later) := by
  obtain ⟨hfounded, hextends⟩ := h
  unfold goOn
  dsimp only
  split <;> exact ⟨hfounded.of_bank rfl, hextends⟩

/-! ## All terms of one cost -/

omit [Scalar α] in
/-- A choice from pools takes stored terms of the costs of these pools. -/
theorem exists_args {costs : List Nat} {pools : List (Array Nat)} {choice : List Nat}
    {terms : List Term} (hpools : Priced run costs pools)
    (hchoice : IsChoice (pools.map (·.size)) choice)
    (hterms : run.bank.termsAt pools choice = .ok terms) :
    ∃ args : List Stored, (∀ s ∈ args, s ∈ run.bank.stored.toList) ∧
      args.map (·.cost) = costs ∧ args.map (·.term) = terms := by
  rw [Bank.termsAt_eq_ok_iff] at hterms
  induction hpools generalizing choice terms with
  | nil =>
    cases hchoice
    cases hterms
    exact ⟨[], by simp, rfl, rfl⟩
  | @cons cost pool costs pools hpool _ ih =>
    cases hchoice with
    | @cons i _ choice _ hi hchoice =>
      rw [List.zip_cons_cons] at hterms
      cases hterms with
      | @cons _ t _ terms ht hterms =>
        obtain ⟨args, hmem, rfl, rfl⟩ := ih hchoice hterms
        obtain ⟨n, s, hn, hs, rfl⟩ := ht
        obtain ⟨s', hs', rfl⟩ := hpool n (Array.mem_toList_iff.2 (Array.mem_of_getElem? hn))
        obtain rfl := Option.some.inj (hs.symm.trans hs')
        refine ⟨s :: args, List.forall_mem_cons.2 ⟨?_, hmem⟩, rfl, rfl⟩
        rw [← Array.getElem?_toList] at hs
        exact List.mem_of_getElem? hs

/-- Whatever is chosen from priced pools, the operation on it has an origin. -/
theorem keeps_offerChoice {op : Component} (hop : op ∈ operations g) {cost : Nat} (hpos : 0 < cost)
    {costs : List Nat} (hcosts : costs ∈ compositions (cost - 1) op.arity)
    {pools : List (Array Nat)} (hpools : Priced run costs pools) {choice : List Nat}
    (hchoice : IsChoice (pools.map (·.size)) choice) (h : FoundedOn g arity seeds run later) :
    Keeps (FoundedOn g arity seeds run) (offerChoice scope op cost pools choice later) := by
  obtain ⟨hlen, hsum, -⟩ := (mem_compositions _ _ _).1 hcosts
  unfold offerChoice
  refine (keeps_goOn h).bind fun r hr => ?_
  cases hterms : r.bank.termsAt pools choice with
  | error e => trivial
  | ok terms =>
    obtain ⟨args, hargs, rfl, rfl⟩ := exists_args (hr.2.priced hpools) hchoice hterms
    have hcost : 1 + (args.map (·.cost)).sum = cost := by omega
    refine keeps_offer hr (hcost ▸ .operation hop hargs ?_)
    rw [← hlen, List.length_map]

theorem keeps_offerCosts {op : Component} (hop : op ∈ operations g) {cost : Nat} (hpos : 0 < cost)
    {costs : List Nat} (hcosts : costs ∈ compositions (cost - 1) op.arity)
    (h : FoundedOn g arity seeds run later) :
    Keeps (FoundedOn g arity seeds run) (offerCosts scope op cost later costs) := by
  unfold offerCosts
  cases hentries : costs.mapM (entry later.bank.byCost) with
  | error e => trivial
  | ok pools =>
    have hpools : Priced later costs pools := by
      refine ((mapM_eq_ok_iff _ _ _).1 hentries).imp fun c pool hpool => ?_
      exact (List.forall₂_cons.1 (h.1.indexed c pool ((entry_eq_ok_iff _ _ _).1 hpool))).1
    dsimp only
    split
    · exact h
    · rw [visitChoices_eq]
      -- the pools stay those of the run with which the loop begins
      refine Keeps.imp (P := FoundedOn g arity seeds later) ?_ fun r hr => ⟨hr.1, h.2.trans hr.2⟩
      refine keeps_foldlM (fun choice hchoice r hr => ?_) ⟨h.1, List.prefix_refl _⟩
      exact keeps_offerChoice hop hpos hcosts hpools ((mem_choices _ _).1 hchoice) hr

theorem keeps_offerLevel {cost : Nat} (hpos : 0 < cost) (h : run.Founded g arity seeds) :
    Keeps (FoundedOn g arity seeds run) (offerLevel scope (operations g) run cost) := by
  unfold offerLevel
  refine keeps_foldlM (fun op hop r hr => ?_) ⟨h, List.prefix_refl _⟩
  exact keeps_foldlM (fun costs hcosts s hs => keeps_offerCosts hop hpos hcosts hs) hr

/-! ## The whole search -/

/-- Wherever a search ends, its stored terms have origins. -/
theorem founded_of_solveTask {readings : Nat}
    (h : solveTask scope g seeds readings = .ok run) : run.Founded g scope.task.arity seeds := by
  have hsteps : Keeps (Founded g scope.task.arity seeds)
      (steps scope g seeds (start scope readings : Run α)) := by
    unfold steps
    refine Keeps.bind ?_ fun r hr => ?_
    · refine keeps_foldlM (fun t ht r hr => ?_) (founded_start scope readings)
      exact (keeps_offer ⟨hr, List.prefix_refl _⟩ (.starting ht)).imp fun s hs => hs.1
    · refine keeps_foldlM (fun cost hcost s hs => ?_) hr
      obtain ⟨n, -, rfl⟩ := List.mem_map.1 hcost
      exact (keeps_offerLevel (Nat.succ_pos _) hs).imp fun s hs => hs.1
  obtain ⟨-, hend | hend⟩ := solveTask_eq_ok_iff.1 h
  · rwa [hend] at hsteps
  · rwa [hend] at hsteps

end Run

end SymbolInduction.Enumeration
