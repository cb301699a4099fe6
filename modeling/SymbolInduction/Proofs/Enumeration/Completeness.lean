-- Leaving out terms with known observations loses nothing. In a run that is
-- not cut short every term that could be built has a stored term that shows
-- the same on all examples and costs no more, so a task that can be solved
-- within the greatest cost is solved.
import SymbolInduction.Proofs.Enumeration.Posteriors
import SymbolInduction.Proofs.Enumeration.Runs
import SymbolInduction.Proofs.Evaluation.Marks

namespace SymbolInduction.Enumeration

open Evaluation

/-! ## Observations and values -/

theorem ofOutcome?_congr {r r' : Except EvalError Datum} (h : r.toOption = r'.toOption) :
    Observation.ofOutcome? r = Observation.ofOutcome? r' := by
  cases r <;> cases r' <;> cases h <;> rfl

/-- Results that are observed alike are alike, except that a mark is observed
as a failure. -/
theorem toOption_eq_of_ofOutcome? {r r' : Except EvalError Datum}
    (h : Observation.ofOutcome? r = Observation.ofOutcome? r')
    (hsome : Observation.ofOutcome? r ≠ none) (hmark : r.toOption ≠ some .empty)
    (hmark' : r'.toOption ≠ some .empty) : r.toOption = r'.toOption := by
  cases r with
  | error e =>
    cases r' with
    | error e' => rfl
    | ok d => cases d <;> simp_all [Observation.ofOutcome?, Except.toOption]
  | ok d =>
    cases r' with
    | error e' => cases d <;> simp_all [Observation.ofOutcome?, Except.toOption]
    | ok d' => cases d <;> cases d' <;> simp_all [Observation.ofOutcome?, Except.toOption]

theorem mapM_eq_some_iff {β γ : Type} (f : β → Option γ) (xs : List β) (ys : List γ) :
    xs.mapM f = some ys ↔ xs.map f = ys.map some := by
  induction xs generalizing ys with
  | nil => cases ys <;> simp
  | cons x xs ih =>
    rw [List.mapM_cons]
    constructor
    · intro h
      obtain ⟨y, hy, h⟩ := Option.bind_eq_some_iff.1 h
      obtain ⟨ys', hys, h⟩ := Option.bind_eq_some_iff.1 h
      cases h
      rw [List.map_cons, List.map_cons, hy, (ih ys').1 hys]
    · intro h
      cases ys with
      | nil => cases h
      | cons y ys =>
        rw [List.map_cons, List.map_cons, List.cons.injEq] at h
        rw [h.1, (ih ys).2 h.2]
        rfl

/-- The limits of the evaluations of a search. -/
def Scope.limits (scope : Scope) : Limits := scope.bounds.limits

/-- The values of the variables on an example. -/
def environmentOf (e : Example) : List Datum := Bank.environment e.inputs

/-- What is observed of a term on an example. -/
def observed? (scope : Scope) (t : Term) (e : Example) : Option Observation :=
  Observation.ofOutcome? (outcome (eval scope.limits t (environmentOf e)))

theorem signature?_eq_some_iff (scope : Scope) (t : Term) (signature : List Observation) :
    scope.signature? t = some signature ↔
      scope.task.examples.map (observed? scope t) = signature.map some := by
  rw [← mapM_eq_some_iff]
  unfold Scope.signature? Bank.signature? Bank.empty
  dsimp only
  rw [mapM_eq_some_iff, mapM_eq_some_iff, List.map_map]
  rfl

/-- No example of the task has an argument that is absent or missing. -/
def FullInputs (task : Task) : Prop :=
  ∀ e ∈ task.examples, Value.empty ∉ e.inputs ∧ Value.missing ∉ e.inputs

theorem unmarked_environmentOf {task : Task} (h : FullInputs task) {e : Example}
    (he : e ∈ task.examples) : ∀ d ∈ environmentOf e, d.Unmarked := by
  obtain ⟨hempty, hmissing⟩ := h e he
  intro d hd
  unfold environmentOf Bank.environment at hd
  rw [List.mem_reverse, List.mem_map] at hd
  obtain ⟨v, hv, rfl⟩ := hd
  cases v with
  | int n => exact .int n
  | tuple ns => exact .list ns
  | empty => exact absurd hv hempty
  | missing => exact absurd hv hmissing

theorem value?_ne_empty {limits : Limits} {task : Task} (h : FullInputs task) {e : Example}
    (he : e ∈ task.examples) (t : Term) : value? limits (environmentOf e) t ≠ some .empty := by
  intro hvalue
  cases unmarked_of_value? (unmarked_environmentOf h he) hvalue

/-- Two terms that show the same have the same values. -/
theorem value?_eq_of_signature? {scope : Scope} (h : FullInputs scope.task) {t u : Term}
    {signature : List Observation} (ht : scope.signature? t = some signature)
    (hu : scope.signature? u = some signature) {e : Example} (he : e ∈ scope.task.examples) :
    value? scope.limits (environmentOf e) t = value? scope.limits (environmentOf e) u := by
  rw [signature?_eq_some_iff] at ht hu
  have hsame : observed? scope t e = observed? scope u e :=
    List.map_inj_left.1 (ht.trans hu.symm) e he
  have hsome : observed? scope t e ≠ none := by
    intro hnone
    have hmem : observed? scope t e ∈ signature.map some := by
      rw [← ht]
      exact List.mem_map_of_mem he
    rw [hnone] at hmem
    obtain ⟨o, -, ho⟩ := List.mem_map.1 hmem
    cases ho
  exact toOption_eq_of_ofOutcome? hsame hsome (value?_ne_empty h he t) (value?_ne_empty h he u)

/-- Two terms with the same values show the same. -/
theorem signature?_congr {scope : Scope} {t u : Term}
    (h : ∀ e ∈ scope.task.examples,
      value? scope.limits (environmentOf e) t = value? scope.limits (environmentOf e) u) :
    scope.signature? t = scope.signature? u := by
  have hmap : scope.task.examples.map (observed? scope t) =
      scope.task.examples.map (observed? scope u) :=
    List.map_congr_left fun e he => ofOutcome?_congr (h e he)
  refine Option.ext fun signature => ?_
  rw [signature?_eq_some_iff, signature?_eq_some_iff, hmap]

/-! ## Terms that could be built -/

/-- What makes a term worth keeping: its evaluations come to an end, none of
them gives a function, and some give a value. -/
structure Shows (scope : Scope) (t : Term) : Prop where
  completes : ∀ e ∈ scope.task.examples, Completes scope.limits (environmentOf e) t
  data : ∀ e ∈ scope.task.examples, ∀ d,
    value? scope.limits (environmentOf e) t = some d → d.isFunction = false
  value : ∃ e ∈ scope.task.examples, ∃ d, value? scope.limits (environmentOf e) t = some d

/-- The terms that can be built from the variables, the components without
arguments and the first-order components with all their arguments, where the
term and all the arguments in it are worth keeping; with the number of
variables and components in them. -/
inductive Enumerable (scope : Scope) (g : Grammar) : Term → Nat → Prop
  | var {i : Nat} (hi : i < scope.task.arity) (h : Shows scope (.var (UInt64.ofNat i))) :
      Enumerable scope g (.var (UInt64.ofNat i)) 1
  | leaf {c : Component} (hc : c ∈ g.components) (harity : c.arity = 0) (h : Shows scope c.term) :
      Enumerable scope g c.term 1
  | applied {c : Component} {args : List (Term × Nat)} (hc : c ∈ g.components)
      (hfirst : c.isFirstOrder = true) (harity : c.arity ≠ 0) (hlen : args.length = c.arity)
      (hargs : ∀ a ∈ args, Enumerable scope g a.1 a.2)
      (h : Shows scope (c.term.applied (args.map (·.1)))) :
      Enumerable scope g (c.term.applied (args.map (·.1))) (1 + (args.map (·.2)).sum)

/-- The terms that a run evaluates: those it starts from, those it stored, and
its operations on stored terms, up to the greatest cost. -/
inductive Evaluated {α : Type} (scope : Scope) (g : Grammar) (seeds : List Term) (run : Run α) :
    Term → Prop
  | starting {t : Term} (h : t ∈ startingTerms g scope.task.arity seeds) :
      Evaluated scope g seeds run t
  | stored {s : Stored} (h : s ∈ run.bank.stored.toList) : Evaluated scope g seeds run s.term
  | operation {op : Component} {args : List Stored} (hop : op ∈ operations g)
      (hargs : ∀ s ∈ args, s ∈ run.bank.stored.toList) (hlen : args.length = op.arity)
      (hcost : 1 + (args.map (·.cost)).sum ≤ scope.bounds.maxCost) :
      Evaluated scope g seeds run (op.term.applied (args.map (·.term)))

/-- No evaluation of the run stops at a limit. -/
def Run.Completes {α : Type} (scope : Scope) (g : Grammar) (seeds : List Term) (run : Run α) : Prop :=
  ∀ t, Evaluated scope g seeds run t →
    ∀ e ∈ scope.task.examples, Evaluation.Completes scope.limits (environmentOf e) t

theorem Enumerable.shows {scope : Scope} {g : Grammar} {t : Term} {cost : Nat}
    (h : Enumerable scope g t cost) : Shows scope t := by
  cases h with
  | var _ h => exact h
  | leaf _ _ h => exact h
  | applied _ _ _ _ _ h => exact h

theorem Enumerable.pos {scope : Scope} {g : Grammar} {t : Term} {cost : Nat}
    (h : Enumerable scope g t cost) : 0 < cost := by
  cases h with
  | var => exact Nat.one_pos
  | leaf => exact Nat.one_pos
  | applied => omega

/-! ## What is worth keeping is kept -/

theorem observed?_of_value? {scope : Scope} {t : Term} {e : Example} {d : Datum}
    (h : value? scope.limits (environmentOf e) t = some d) (hdata : d.isFunction = false)
    (hmark : d ≠ .empty) : ∃ o, observed? scope t e = some o ∧ o ≠ .failure := by
  have hd : observed? scope t e = Observation.ofOutcome? (.ok d) := ofOutcome?_congr h
  rw [hd]
  cases d with
  | int n => exact ⟨.int n, rfl, by simp⟩
  | bool b => exact ⟨.bool b, rfl, by simp⟩
  | list ns => exact ⟨.list ns, rfl, by simp⟩
  | empty => exact absurd rfl hmark
  | _ => cases hdata

theorem observed?_of_none {scope : Scope} {t : Term} {e : Example}
    (h : value? scope.limits (environmentOf e) t = none) :
    observed? scope t e = some .failure := by
  have hfail : (outcome (eval scope.limits t (environmentOf e))).toOption =
      (Except.error EvalError.missingInput : Except EvalError Datum).toOption := h
  exact ofOutcome?_congr hfail

/-- A term that is worth keeping has a signature, and not one of failures. -/
theorem Shows.exists_signature {scope : Scope} (hinputs : FullInputs scope.task) {t : Term}
    (h : Shows scope t) : ∃ signature, scope.signature? t = some signature ∧ ¬AllFail signature := by
  have hsome : ∀ e ∈ scope.task.examples, ∃ o, observed? scope t e = some o := by
    intro e he
    cases hv : value? scope.limits (environmentOf e) t with
    | none => exact ⟨.failure, observed?_of_none hv⟩
    | some d =>
      obtain ⟨o, ho, -⟩ := observed?_of_value? hv (h.data e he d hv) fun hmark =>
        value?_ne_empty hinputs he t (hmark ▸ hv)
      exact ⟨o, ho⟩
  obtain ⟨signature, hsig⟩ := exists_forall₂ hsome
  have hmap : scope.task.examples.map (observed? scope t) = signature.map some := by
    rw [← List.forall₂_eq_eq_eq, List.forall₂_map_left_iff, List.forall₂_map_right_iff]
    exact hsig
  refine ⟨signature, (signature?_eq_some_iff scope t signature).2 hmap, ?_⟩
  intro hfail
  obtain ⟨e, he, d, hd⟩ := h.value
  obtain ⟨o, ho, hshow⟩ := observed?_of_value? hd (h.data e he d hd) fun hmark =>
    value?_ne_empty hinputs he t (hmark ▸ hd)
  have hmem : observed? scope t e ∈ signature.map some := by
    rw [← hmap]
    exact List.mem_map_of_mem he
  rw [ho, List.mem_map] at hmem
  obtain ⟨o', ho', heq⟩ := hmem
  cases heq
  exact hshow (hfail o ho')

theorem mem_leaves {g : Grammar} {c : Component} (hc : c ∈ g.components) (harity : c.arity = 0) :
    c ∈ leaves g := by
  have hfirst : c.isFirstOrder = true := by
    obtain ⟨t⟩ := c
    unfold Component.isFirstOrder
    cases t with
    | prim p => cases p <;> first | rfl | cases harity
    | _ => rfl
  unfold leaves
  rw [List.mem_filter]
  exact ⟨hc, by simp [hfirst, harity]⟩

theorem mem_operations {g : Grammar} {c : Component} (hc : c ∈ g.components)
    (hfirst : c.isFirstOrder = true) (harity : c.arity ≠ 0) : c ∈ operations g := by
  unfold operations
  rw [List.mem_filter]
  exact ⟨hc, by simp [hfirst, harity]⟩

theorem sum_le_of_forall₂ {β γ : Type} {f : β → Nat} {g : γ → Nat} {xs : List β} {ys : List γ}
    (h : List.Forall₂ (fun x y => g y ≤ f x) xs ys) : (ys.map g).sum ≤ (xs.map f).sum := by
  induction h with
  | nil => exact Nat.le_refl _
  | cons hxy _ ih =>
    rw [List.map_cons, List.map_cons, List.sum_cons, List.sum_cons]
    omega

section

variable {α : Type} [Scalar α] {scope : Scope} {g : Grammar} {seeds : List Term} {run : Run α}

theorem Run.Sound.signature?_stored (h : run.Sound scope) {s : Stored}
    (hs : s ∈ run.bank.stored.toList) : scope.signature? s.term = some s.signature := by
  rw [← h.signature?_eq]
  exact h.bank.observed s hs

/-- Where arguments show the same as stored terms, an operation on them shows
the same as the operation on the stored terms. -/
theorem signature?_applied (hinputs : FullInputs scope.task)
    (hsound : run.Sound scope) (hcomplete : run.Completes scope g seeds) {op : Component}
    {args : List Term} {reps : List Stored} (hne : args ≠ [])
    (hargs : List.Forall₂ (fun t s => s ∈ run.bank.stored.toList ∧ Shows scope t ∧
      scope.signature? t = some s.signature) args reps)
    (happlied : ∀ e ∈ scope.task.examples,
      Completes scope.limits (environmentOf e) (op.term.applied args))
    (hreps : ∀ e ∈ scope.task.examples,
      Completes scope.limits (environmentOf e) (op.term.applied (reps.map (·.term)))) :
    scope.signature? (op.term.applied args) = scope.signature? (op.term.applied (reps.map (·.term))) := by
  refine signature?_congr fun e he => ?_
  rw [← interchangeable_iff (happlied e he) (hreps e he)]
  refine interchangeable_applied op.term hne ?_
  rw [List.forall₂_map_right_iff]
  refine hargs.imp ?_
  rintro t s ⟨hs, hshows, hsig⟩
  rw [interchangeable_iff (hshows.completes e he) (hcomplete s.term (.stored hs) e he)]
  exact value?_eq_of_signature? hinputs hsig (hsound.signature?_stored hs) he

omit [Scalar α] in
/-- What is worth keeping has a stored term in its place, once a term that
shows the same is covered. -/
theorem exists_stored (hinputs : FullInputs scope.task) {t u : Term} {cost : Nat}
    (ht : Shows scope t) (hu : Run.Covers scope cost u run)
    (hsame : scope.signature? t = scope.signature? u) :
    ∃ s ∈ run.bank.stored.toList, scope.signature? t = some s.signature ∧ s.cost ≤ cost := by
  obtain ⟨signature, hsig, hshow⟩ := ht.exists_signature hinputs
  obtain ⟨s, hs, rfl, hle⟩ := hu signature (hsame ▸ hsig) hshow
  exact ⟨s, hs, hsig, hle⟩

/-- Every term that could be built shows the same as a stored term that costs
no more. -/
theorem exists_representative (hinputs : FullInputs scope.task)
    (hfilled : run.Filled scope g seeds scope.bounds.maxCost)
    (hcomplete : run.Completes scope g seeds) {t : Term} {cost : Nat}
    (ht : Enumerable scope g t cost) (hcost : cost ≤ scope.bounds.maxCost) :
    ∃ s ∈ run.bank.stored.toList, scope.signature? t = some s.signature ∧ s.cost ≤ cost := by
  have hsound := hfilled.within.sound
  induction ht with
  | @var i hi h =>
    refine exists_stored hinputs h (hfilled.starting _ ?_) rfl
    unfold startingTerms
    simp only [List.mem_append, List.mem_map, List.mem_range]
    exact Or.inl (Or.inr ⟨i, hi, rfl⟩)
  | @leaf c hc harity h =>
    refine exists_stored hinputs h (hfilled.starting _ ?_) rfl
    unfold startingTerms
    simp only [List.mem_append]
    exact Or.inr (List.mem_map_of_mem (mem_leaves hc harity))
  | @applied c args hc hfirst harity hlen hargs h ih =>
    have hroom : ∀ a ∈ args, a.2 ≤ scope.bounds.maxCost := by
      intro a ha
      have := Run.le_sum_of_mem (List.mem_map_of_mem (f := (·.2)) ha)
      omega
    have hrep : ∀ a ∈ args, ∃ s ∈ run.bank.stored.toList, Shows scope a.1 ∧
        scope.signature? a.1 = some s.signature ∧ s.cost ≤ a.2 := by
      intro a ha
      obtain ⟨s, hs, hsig, hle⟩ := ih a ha (hroom a ha)
      exact ⟨s, hs, (hargs a ha).shows, hsig, hle⟩
    obtain ⟨reps, hreps⟩ := exists_forall₂ hrep
    have hmem : ∀ s ∈ reps, s ∈ run.bank.stored.toList := by
      intro s hs
      obtain ⟨a, -, hs, -⟩ := exists_of_mem_right hreps hs
      exact hs
    have hlen' : reps.length = c.arity := by rw [← hreps.length_eq, hlen]
    have hle : (reps.map (·.cost)).sum ≤ (args.map (·.2)).sum :=
      sum_le_of_forall₂ (hreps.imp fun a s h => h.2.2.2)
    have hop := mem_operations hc hfirst harity
    have heval : Evaluated scope g seeds run (c.term.applied (reps.map (·.term))) :=
      .operation hop hmem hlen' (by omega)
    have hne : args.map (·.1) ≠ [] := by
      intro hnil
      rw [List.map_eq_nil_iff] at hnil
      rw [hnil] at hlen
      exact harity hlen.symm
    have hsame := signature?_applied hinputs hsound hcomplete hne
      (List.forall₂_map_left_iff.2 (hreps.imp fun a s h => ⟨h.1, h.2.1, h.2.2.1⟩)) h.completes
      (hcomplete _ heval)
    have hcovers := hfilled.operations c hop _ (by omega) reps hmem hlen' rfl
    obtain ⟨s, hs, hsig, hcheap⟩ := exists_stored hinputs h hcovers hsame
    exact ⟨s, hs, hsig, by omega⟩

/-! ## The frontier of a task that can be solved -/

/-- The term gives the output of every example. -/
def Reproduces (scope : Scope) (t : Term) : Prop :=
  ∀ e ∈ scope.task.examples, ∃ d,
    value? scope.limits (environmentOf e) t = some d ∧ d.toValue = .ok e.output

theorem forall₂_signature {t : Term} {signature : List Observation}
    (hsig : scope.signature? t = some signature) :
    List.Forall₂ (fun e o => observed? scope t e = some o) scope.task.examples signature := by
  rwa [signature?_eq_some_iff, ← List.forall₂_eq_eq_eq, List.forall₂_map_left_iff,
    List.forall₂_map_right_iff] at hsig

/-- What shows the same as a term that reproduces all examples hits them all. -/
theorem hits_eq (hinputs : FullInputs scope.task) {t : Term} (ht : Reproduces scope t) {s : Stored}
    (hsig : scope.signature? t = some s.signature) :
    Bank.hits scope.task.examples s = scope.task.examples.length := by
  have hsig := forall₂_signature hsig
  have hgives : ∀ p ∈ s.signature.zip scope.task.examples, p.1.gives p.2.output = true := by
    rintro ⟨o, e⟩ hp
    have ho : observed? scope t e = some o := (List.forall₂_iff_zip.1 hsig.flip).2 hp
    have he := (List.of_mem_zip hp).2
    obtain ⟨d, hd, hvalue⟩ := ht e he
    have hmark : value? scope.limits (environmentOf e) t ≠ some .empty :=
      value?_ne_empty hinputs he t
    have hobserved : observed? scope t e = Observation.ofOutcome? (.ok d) := ofOutcome?_congr hd
    rw [ho] at hobserved
    cases d with
    | int n =>
      have hout : e.output = .int n := (Except.ok.inj hvalue).symm
      cases hobserved
      simp [hout, Observation.gives]
    | list ns =>
      have hout : e.output = .tuple ns := (Except.ok.inj hvalue).symm
      cases hobserved
      simp [hout, Observation.gives]
    | empty => exact absurd hd hmark
    | _ => cases hvalue
  unfold Bank.hits
  rw [List.countP_eq_length.2 hgives, List.length_zip, hsig.length_eq, Nat.min_self]

theorem mem_candidates_iff (hsound : run.Sound scope) (c : Candidate α) :
    c ∈ run.candidates.toList ↔ ∃ s ∈ run.bank.stored.toList,
      Bank.hits scope.task.examples s ≠ 0 ∧
        c = Run.candidate scope.task s (Bank.hits scope.task.examples s) := by
  rw [hsound.candidates, List.mem_filterMap]
  unfold Run.candidate?
  constructor
  · rintro ⟨s, hs, hc⟩
    split at hc
    · cases hc
    · rename_i hhits
      exact ⟨s, hs, hhits, (Option.some.inj hc).symm⟩
  · rintro ⟨s, hs, hhits, rfl⟩
    exact ⟨s, hs, by rw [if_neg hhits]⟩

end

section

variable {scope : Scope} {run : Run Float}

/-- Where a stored term hits all examples, the best candidate that is kept is
that of a stored term that hits them all, too, and costs no more. -/
theorem exists_best {cost maximum : Nat} (hwithin : run.Within scope cost) (hcost : cost ≤ 100)
    (hmaximum : 1 ≤ maximum) {s : Stored} (hs : s ∈ run.bank.stored.toList)
    (hexamples : scope.task.examples ≠ [])
    (hhits : Bank.hits scope.task.examples s = scope.task.examples.length) :
    ∃ u ∈ run.bank.stored.toList,
      (run.frontier scope.task maximum).best? =
          some (Run.candidate scope.task u (Bank.hits scope.task.examples u)) ∧
        scope.task.examples.length - Bank.hits scope.task.examples u = 0 ∧ u.cost ≤ s.cost := by
  have hsound := hwithin.sound
  have hpos := hsound.positive s hs
  have hsome : Bank.hits scope.task.examples s ≠ 0 := by
    rw [hhits]
    exact fun h => hexamples (List.length_eq_zero_iff.1 h)
  have hmem : Run.candidate scope.task s (Bank.hits scope.task.examples s) ∈ run.candidates.toList :=
    (mem_candidates_iff hsound _).2 ⟨s, hs, hsome, rfl⟩
  have hsmall : s.cost ≤ 100 := Nat.le_trans (hwithin.below s hs) hcost
  let f : Frontier Float :=
    { (Frontier.unexplored scope.task : Frontier Float) with candidates := run.candidates.toList }
  obtain ⟨b, hbest, hb, hmost⟩ := f.best?_keepBest hmaximum hmem
  obtain ⟨u, hu, -, rfl⟩ := (mem_candidates_iff hsound b).1 hb
  have hucost : u.cost ≤ 100 := Nat.le_trans (hwithin.below u hu) hcost
  obtain ⟨hnone, hcheap⟩ := of_standing_le scope.task hpos hsmall (hsound.positive u hu) hucost
    (by rw [hhits, Nat.sub_self]) (hmost _ hmem)
  exact ⟨u, hu, hbest, hnone, hcheap⟩

/-- Where a stored term hits all examples, the best candidate that is kept
misses none, and costs no more than the term. -/
theorem best_of_all_hits {cost bound maximum : Nat} (hwithin : run.Within scope cost)
    (hcost : cost ≤ 100) (hmaximum : 1 ≤ maximum) {s : Stored}
    (hs : s ∈ run.bank.stored.toList) (hle : s.cost ≤ bound) (hbound : bound ≤ 100)
    (hexamples : scope.task.examples ≠ [])
    (hhits : Bank.hits scope.task.examples s = scope.task.examples.length) :
    ∃ c, (run.frontier scope.task maximum).best? = some c ∧
      Scalar.eq c.logLikelihood Scalar.zero = true ∧
        Scalar.le (-Scalar.ofNat bound) c.logPrior = true := by
  obtain ⟨u, hu, hbest, hnone, hcheap⟩ := exists_best hwithin hcost hmaximum hs hexamples hhits
  refine ⟨_, hbest, ?_, ?_⟩
  · unfold Run.candidate
    rw [hnone]
    exact logLikelihood_of_no_miss
  · exact prior_le (hwithin.sound.positive u hu) (Nat.le_trans hcheap hle) hbound

end

/-- Leaving out terms with known observations loses nothing: a search that is not
cut short returns, with room for its table and its counters; and where no
evaluation stops at a limit, every term that could be built has a stored term
that shows the same and costs no more. If the term reproduces all examples, the
best candidate does too, and ranks no lower. -/
theorem pruning_loses_no_behaviour (scope : Scope) (g : Grammar) (seeds : List Term)
    (readings : Nat) (hinputs : FullInputs scope.task)
    (huncut : ∀ r, steps scope g seeds (Run.start scope readings) ≠ .error (.over (r : Run Float)))
    {t : Term} {cost : Nat} (ht : Enumerable scope g t cost) (hcost : cost ≤ scope.bounds.maxCost) :
    (scope.bounds.Roomy → ∃ run : Run Float, solveTask scope g seeds readings = .ok run) ∧
      ∀ run : Run Float, solveTask scope g seeds readings = .ok run →
        run.Completes scope g seeds →
        (∃ s ∈ run.bank.stored.toList, s.cost ≤ cost ∧
          run.bank.signature? s.term = some s.signature ∧
            run.bank.signature? t = some s.signature) ∧
        (Reproduces scope t → scope.bounds.maxCost ≤ 100 → ∀ maximum, 1 ≤ maximum →
          ∃ c, (run.frontier scope.task maximum).best? = some c ∧
            Scalar.eq c.logLikelihood Scalar.zero = true ∧
              Scalar.le (-Scalar.ofNat cost) c.logPrior = true) := by
  have hplace : 1 ≤ scope.bounds.maxCost := Nat.le_trans ht.pos hcost
  refine ⟨exists_solveTask hplace, fun run hsolve hcomplete => ?_⟩
  have hfilled := filled_of_solveTask hplace huncut hsolve
  have hsound := hfilled.within.sound
  obtain ⟨s, hs, hsig, hle⟩ := exists_representative hinputs hfilled hcomplete ht hcost
  refine ⟨⟨s, hs, hle, hsound.bank.observed s hs, ?_⟩, ?_⟩
  · rw [hsound.signature?_eq]
    exact hsig
  · intro hreproduces hmax maximum hmaximum
    have hexamples : scope.task.examples ≠ [] := by
      obtain ⟨e, he, -⟩ := ht.shows.value
      exact List.ne_nil_of_mem he
    exact best_of_all_hits hfilled.within hmax hmaximum hs hle (Nat.le_trans hcost hmax)
      hexamples (hits_eq hinputs hreproduces hsig)

/-! ### A task that is solved by one component -/

/-- A search, up to cost two, for what takes one to two. -/
def successorScope : Scope where
  bounds := .ofWords 2 10 20
  clock := .still
  deadline := 1
  task := { name := "0", request := .arrow .int .int, examples := [⟨[.int 1], .int 2⟩] }

/-- A grammar whose one component adds one. -/
def successorGrammar : Grammar := { components := [⟨.prim .incr⟩], version := 0 }

theorem successor_roomy : successorScope.bounds.Roomy := ⟨by decide, ⟨by decide, by decide⟩⟩

theorem shows_of_value? {t : Term} {n : Int64}
    (h : outcome (eval successorScope.limits t [.int 1]) = .ok (.int n)) :
    Shows successorScope t := by
  have hvalue : value? successorScope.limits [.int 1] t = some (.int n) := by
    unfold value?
    rw [h]
    rfl
  refine ⟨?_, ?_, ⟨_, List.mem_singleton.2 rfl, .int n, hvalue⟩⟩
  · intro e he x hx
    rw [List.mem_singleton.1 he] at hx
    cases h.symm.trans hx
  · intro e he d hd
    rw [List.mem_singleton.1 he] at hd
    cases hvalue.symm.trans hd
    rfl

theorem stored_of_successor {run : Run Float}
    (h : solveTask successorScope successorGrammar [] 0 = .ok run) :
    run.bank.stored.toList =
      [⟨.var 0, 1, [.int 1]⟩, ⟨.app (.prim .incr) (.var 0), 2, [.int 2]⟩] := by
  have hrun : (solveTask (α := Float) successorScope successorGrammar [] 0).toOption.map
      (fun run => run.bank.stored.toList) =
        some [⟨.var 0, 1, [.int 1]⟩, ⟨.app (.prim .incr) (.var 0), 2, [.int 2]⟩] := by
    decide
  rw [h] at hrun
  exact Option.some.inj hrun

theorem successor_completes {run : Run Float}
    (h : solveTask successorScope successorGrammar [] 0 = .ok run) :
    run.Completes successorScope successorGrammar [] := by
  have hstored := stored_of_successor h
  have hvar : Shows successorScope (.var 0) := shows_of_value? (n := 1) rfl
  have hincr : Shows successorScope (.app (.prim .incr) (.var 0)) := shows_of_value? (n := 2) rfl
  intro t ht
  cases ht with
  | starting ht =>
    obtain rfl : t = .var 0 := List.mem_singleton.1 ht
    exact hvar.completes
  | stored hs =>
    rw [hstored] at hs
    simp only [List.mem_cons, List.not_mem_nil, or_false] at hs
    rcases hs with rfl | rfl
    · exact hvar.completes
    · exact hincr.completes
  | @operation op args hop hargs hlen hcost =>
    obtain rfl : op = ⟨.prim .incr⟩ := List.mem_singleton.1 hop
    obtain ⟨s, rfl⟩ := List.length_eq_one_iff.1 hlen
    have hs := hargs s (List.mem_singleton.2 rfl)
    rw [hstored] at hs
    simp only [List.mem_cons, List.not_mem_nil, or_false] at hs
    rcases hs with rfl | rfl
    · exact hincr.completes
    · exact absurd hcost (by decide)

/-- The search finds the successor at cost two. -/
theorem pruning_keeps_the_successor :
    ∃ run : Run Float, solveTask successorScope successorGrammar [] 0 = .ok run ∧
      (∃ s ∈ run.bank.stored.toList, s.cost ≤ 2 ∧
        run.bank.signature? s.term = some s.signature ∧
          run.bank.signature? (.app (.prim .incr) (.var 0)) = some s.signature) ∧
      ∃ c, (run.frontier successorScope.task 5).best? = some c ∧
        Scalar.eq c.logLikelihood Scalar.zero = true ∧
          Scalar.le (-Scalar.ofNat 2) c.logPrior = true := by
  have hinputs : FullInputs successorScope.task := by
    intro e he
    rw [List.mem_singleton.1 he]
    decide
  have huncut : ∀ r, steps successorScope successorGrammar [] (Run.start successorScope 0) ≠
      .error (.over (r : Run Float)) := by
    have hends : (steps (α := Float) successorScope successorGrammar []
        (Run.start successorScope 0)).isOk = true := by decide +kernel
    intro r hr
    rw [hr] at hends
    cases hends
  have hvar : Enumerable successorScope successorGrammar (.var 0) 1 :=
    .var (i := 0) (by decide) (shows_of_value? (n := 1) rfl)
  have hincr : Enumerable successorScope successorGrammar (.app (.prim .incr) (.var 0)) 2 := by
    refine @Enumerable.applied _ _ ⟨.prim .incr⟩ [(.var 0, 1)] (List.mem_singleton.2 rfl) rfl
      (by decide) rfl ?_ (shows_of_value? (n := 2) rfl)
    intro a ha
    rw [List.mem_singleton.1 ha]
    exact hvar
  have hreproduces : Reproduces successorScope (.app (.prim .incr) (.var 0)) := by
    intro e he
    rw [List.mem_singleton.1 he]
    exact ⟨.int 2, rfl, rfl⟩
  obtain ⟨hreturns, hrepresented⟩ := pruning_loses_no_behaviour successorScope successorGrammar []
    0 hinputs huncut hincr (by decide)
  obtain ⟨run, hrun⟩ := hreturns successor_roomy
  obtain ⟨hstored, hbest⟩ := hrepresented run hrun (successor_completes hrun)
  exact ⟨run, hrun, hstored, hbest hreproduces (by decide) 5 (by decide)⟩

end SymbolInduction.Enumeration
