-- The laws of the bank: what it stores are terms with different observations,
-- and its index and its set of observations say the same as the stored terms.
import Std.Data.TreeSet.Lemmas
import SymbolInduction.Enumeration.Bank
import SymbolInduction.Proofs.Evaluation.Calls

namespace SymbolInduction.Enumeration

/-- An observation of every example on which nothing was seen. -/
def AllFail (signature : List Observation) : Prop := ∀ o ∈ signature, o = .failure

namespace Bank

open Evaluation

/-! ## Observations -/

/-- What is observed of a term on every example, where the program is not stopped. -/
def signature? (b : Bank) (t : Term) : Option (List Observation) :=
  b.environments.mapM fun env => Observation.ofOutcome? (outcome (eval b.limits t env))

/-- On some example the evaluation of a term stops the program. -/
def Overflows (b : Bank) (t : Term) : Prop :=
  ∃ env ∈ b.environments, outcome (eval b.limits t env) = .error .counterOverflow

theorem observe_eq (limits : Limits) (t : Term) (env : List Datum) :
    (outcome (eval limits t env) = .error .counterOverflow ∧
      observe limits t env = .error .countOverflow) ∨
    observe limits t env = .ok (Observation.ofOutcome? (outcome (eval limits t env))) := by
  unfold observe
  split
  · rename_i h
    exact Or.inl ⟨h, rfl⟩
  · exact Or.inr rfl

/-- A term is observed on every example, unless the program stops at one of them. -/
theorem signature_eq (b : Bank) (t : Term) :
    b.signature t = .ok (b.signature? t) ∨
      (b.signature t = .error .countOverflow ∧ b.Overflows t) := by
  unfold signature signature? Overflows
  induction b.environments with
  | nil => exact Or.inl rfl
  | cons env envs ih =>
    rw [observeAll, List.mapM_cons]
    rcases observe_eq b.limits t env with ⟨hstop, hobserve⟩ | hobserve
    · rw [hobserve]
      exact Or.inr ⟨rfl, env, by simp, hstop⟩
    · rw [hobserve]
      cases Observation.ofOutcome? (outcome (eval b.limits t env)) with
      | none => exact Or.inl rfl
      | some o =>
        rcases ih with hrest | ⟨hrest, env', henv', hstop⟩
        · generalize (envs.mapM fun env =>
            Observation.ofOutcome? (outcome (eval b.limits t env))) = rest at hrest ⊢
          simp only [hrest, bind, Except.bind]
          cases rest <;> exact Or.inl rfl
        · refine Or.inr ⟨?_, env', by simp [henv'], hstop⟩
          simp only [hrest, bind, Except.bind]

/-- With a word left for the step and the level that are too many, the program goes on. -/
theorem not_overflows {b : Bank} (h : b.limits.Fits) (t : Term) : ¬b.Overflows t := by
  rintro ⟨env, -, hstop⟩
  unfold outcome at hstop
  cases hrun : eval b.limits t env {} with
  | ok d m =>
    rw [hrun] at hstop
    cases hstop
  | error e m =>
    rw [hrun] at hstop
    cases hstop
    exact run_ne_overflow h (.eval t env) (Nat.zero_le _) (Nat.zero_le _) m hrun

/-! ## Soundness -/

/-- The numbers of the stored terms with a given cost, in increasing order. -/
def numbersOf (stored : Array Stored) (cost : Nat) : List Nat :=
  (List.range stored.size).filter fun i => stored[i]?.any (·.cost == cost)

/-- What holds of a bank after any number of offers. -/
structure Sound (b : Bank) : Prop where
  seen : ∀ signature, b.seen.contains signature = true ↔
    ∃ s ∈ b.stored.toList, s.signature = signature
  distinct : (b.stored.toList.map (·.signature)).Nodup
  shows : ∀ s ∈ b.stored.toList, ¬AllFail s.signature
  observed : ∀ s ∈ b.stored.toList, b.signature? s.term = some s.signature
  numbered : ∀ (cost : Nat) (ids : Array Nat),
    b.byCost[cost]? = some ids → ids.toList = numbersOf b.stored cost
  room : ∀ s ∈ b.stored.toList, s.cost < b.byCost.size

/-! ## The index -/

theorem mem_numbersOf (stored : Array Stored) (cost i : Nat) :
    i ∈ numbersOf stored cost ↔ ∃ s, stored[i]? = some s ∧ s.cost = cost := by
  unfold numbersOf
  rw [List.mem_filter, List.mem_range]
  constructor
  · rintro ⟨hi, hs⟩
    rw [Array.getElem?_eq_getElem hi] at hs
    exact ⟨stored[i], Array.getElem?_eq_getElem hi, by simpa using hs⟩
  · rintro ⟨s, hs, rfl⟩
    obtain ⟨hi, -⟩ := Array.getElem?_eq_some_iff.1 hs
    exact ⟨hi, by simp [hs]⟩

theorem numbersOf_push (stored : Array Stored) (s : Stored) (cost : Nat) :
    numbersOf (stored.push s) cost =
      numbersOf stored cost ++ if s.cost = cost then [stored.size] else [] := by
  unfold numbersOf
  rw [Array.size_push, List.range_succ, List.filter_append]
  congr 1
  · refine List.filter_congr fun i hi => ?_
    have hi := List.mem_range.1 hi
    rw [Array.getElem?_push, if_neg (by omega)]
  · by_cases hc : s.cost = cost <;> simp [hc]

/-! ## One offer -/

@[simp] theorem signature?_store (b : Bank) (s : Stored) (t : Term) :
    (b.store s).signature? t = b.signature? t := rfl

@[simp] theorem toList_store (b : Bank) (s : Stored) :
    (b.store s).stored.toList = b.stored.toList ++ [s] := Array.toList_push

@[simp] theorem size_byCost_store (b : Bank) (s : Stored) :
    (b.store s).byCost.size = b.byCost.size := Array.size_modify

theorem mem_store {b : Bank} {s u : Stored} :
    u ∈ (b.store s).stored.toList ↔ u ∈ b.stored.toList ∨ u = s := by
  rw [toList_store, List.mem_append, List.mem_singleton]

/-- What held of all stored terms still does, where it holds of the new one. -/
theorem forall_mem_store {P : Stored → Prop} {b : Bank} {s : Stored}
    (hold : ∀ u ∈ b.stored.toList, P u) (hs : P s) : ∀ u ∈ (b.store s).stored.toList, P u := by
  intro u hu
  rcases mem_store.1 hu with hu | rfl
  · exact hold u hu
  · exact hs

theorem refuses_iff {b : Bank} (h : b.Sound) (signature : List Observation) :
    b.refuses signature = true ↔
      AllFail signature ∨ ∃ s ∈ b.stored.toList, s.signature = signature := by
  unfold refuses
  rw [Bool.or_eq_true, h.seen]
  simp [AllFail]

/-- What comes of an offer. The term is refused, where it is a function on some example or
its observations are; it is stored; it finds no place; or its evaluation stops the program. -/
inductive Offered (b : Bank) (t : Term) (cost : Nat) : Except Panic (Option Nat × Bank) → Prop
  | refused (h : ∀ signature, b.signature? t = some signature → b.refuses signature = true) :
      Offered b t cost (.ok (none, b))
  | stored {signature : List Observation} (hsig : b.signature? t = some signature)
      (hnew : b.refuses signature = false) (hroom : cost < b.byCost.size) :
      Offered b t cost (.ok (some b.stored.size, b.store { term := t, cost, signature }))
  | lost {signature : List Observation} (hsig : b.signature? t = some signature)
      (hnew : b.refuses signature = false) (hroom : b.byCost.size ≤ cost) :
      Offered b t cost (.error (.indexOutOfRange b.byCost.size cost))
  | stopped (h : b.Overflows t) : Offered b t cost (.error .countOverflow)

theorem offered (b : Bank) (t : Term) (cost : Nat) : Offered b t cost (b.offer t cost) := by
  unfold offer
  rcases b.signature_eq t with hsignature | ⟨hsignature, hstop⟩
  · rw [hsignature]
    cases hsig : b.signature? t with
    | none => exact .refused (by simp [hsig])
    | some signature =>
      simp only [bind, Except.bind]
      cases hrefused : b.refuses signature with
      | true =>
        refine .refused fun signature' hsig' => ?_
        rw [← Option.some.inj (hsig.symm.trans hsig'), hrefused]
      | false =>
        by_cases hroom : cost < b.byCost.size
        · simp only [Bool.false_eq_true, if_false, if_pos hroom]
          exact .stored hsig hrefused hroom
        · simp only [Bool.false_eq_true, if_false, if_neg hroom]
          exact .lost hsig hrefused (Nat.le_of_not_lt hroom)
  · rw [hsignature]
    exact .stopped hstop

/-- An offer for which there is a place. -/
theorem offer_eq {b : Bank} (t : Term) {cost : Nat} (hroom : cost < b.byCost.size) :
    (b.offer t cost = .ok (none, b) ∧
        ∀ signature, b.signature? t = some signature → b.refuses signature = true) ∨
      (∃ signature, b.signature? t = some signature ∧ b.refuses signature = false ∧
        b.offer t cost = .ok (some b.stored.size, b.store { term := t, cost, signature })) ∨
      (b.offer t cost = .error .countOverflow ∧ b.Overflows t) := by
  have hoffered := b.offered t cost
  generalize b.offer t cost = r at hoffered ⊢
  cases hoffered with
  | refused h => exact Or.inl ⟨rfl, h⟩
  | stored hsig hnew _ => exact Or.inr (Or.inl ⟨_, hsig, hnew, rfl⟩)
  | lost _ _ hfull => omega
  | stopped h => exact Or.inr (Or.inr ⟨rfl, h⟩)

theorem seen_store {b : Bank} (h : b.Sound) (s : Stored) (signature : List Observation) :
    (b.store s).seen.contains signature = true ↔
      ∃ u ∈ (b.store s).stored.toList, u.signature = signature := by
  change (b.seen.insert s.signature).contains signature = true ↔ _
  rw [Std.TreeSet.contains_insert, Bool.or_eq_true, h.seen]
  simp only [beq_iff_eq, Std.LawfulEqCmp.compare_eq_iff_eq, mem_store]
  constructor
  · rintro (rfl | ⟨u, hu, rfl⟩)
    · exact ⟨s, Or.inr rfl, rfl⟩
    · exact ⟨u, Or.inl hu, rfl⟩
  · rintro ⟨u, hu | rfl, rfl⟩
    · exact Or.inr ⟨u, hu, rfl⟩
    · exact Or.inl rfl

theorem distinct_store {b : Bank} (h : b.Sound) {s : Stored}
    (hfresh : ¬∃ u ∈ b.stored.toList, u.signature = s.signature) :
    ((b.store s).stored.toList.map (·.signature)).Nodup := by
  rw [toList_store, List.map_append, List.nodup_append]
  refine ⟨h.distinct, by simp, ?_⟩
  intro x hx y hy
  obtain ⟨u, hu, rfl⟩ := List.mem_map.1 hx
  rw [List.mem_singleton.1 hy]
  exact fun heq => hfresh ⟨u, hu, heq⟩

theorem numbered_store {b : Bank} (h : b.Sound) (s : Stored) {cost : Nat} {ids : Array Nat}
    (hids : (b.store s).byCost[cost]? = some ids) :
    ids.toList = numbersOf (b.store s).stored cost := by
  change (b.byCost.modify s.cost (·.push b.stored.size))[cost]? = some ids at hids
  change ids.toList = numbersOf (b.stored.push s) cost
  rw [Array.getElem?_modify] at hids
  rw [numbersOf_push]
  by_cases hc : s.cost = cost
  · rw [if_pos hc] at hids ⊢
    obtain ⟨old, hold, rfl⟩ := Option.map_eq_some_iff.1 hids
    rw [Array.toList_push, h.numbered cost old hold]
  · rw [if_neg hc] at hids ⊢
    rw [List.append_nil]
    exact h.numbered cost ids hids

theorem sound_store {b : Bank} (h : b.Sound) {s : Stored}
    (hsig : b.signature? s.term = some s.signature) (hnew : b.refuses s.signature = false)
    (hroom : s.cost < b.byCost.size) : (b.store s).Sound := by
  have hnew : ¬(AllFail s.signature ∨ ∃ u ∈ b.stored.toList, u.signature = s.signature) := by
    rw [← refuses_iff h, hnew]
    exact Bool.false_ne_true
  obtain ⟨hshow, hfresh⟩ := not_or.1 hnew
  exact {
    seen := seen_store h s
    distinct := distinct_store h hfresh
    shows := forall_mem_store h.shows hshow
    observed := forall_mem_store h.observed hsig
    numbered := fun _ _ hids => numbered_store h s hids
    room := by
      rw [size_byCost_store]
      exact forall_mem_store h.room hroom }

theorem sound_empty (examples : List Example) (maxCost : Nat) (limits : Limits) :
    (empty examples maxCost limits).Sound := by
  refine ⟨?_, List.nodup_nil, by simp [empty], by simp [empty], ?_, by simp [empty]⟩
  · intro signature
    simp [empty]
  · intro cost ids hids
    obtain ⟨-, rfl⟩ : cost < maxCost + 1 ∧ #[] = ids := by
      simpa [empty, Array.getElem?_replicate] using hids
    rfl

end Bank

end SymbolInduction.Enumeration
