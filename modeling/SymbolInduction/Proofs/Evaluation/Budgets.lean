-- What a budget decides: whether an evaluation comes to an end, and nothing
-- else. A run that no limit stopped gives the same answer, after as many
-- steps and at the same depth, under larger limits and from smaller counters.
import SymbolInduction.Proofs.Evaluation.Agreement

namespace SymbolInduction

/-- The counters with some more steps, some levels further down. -/
def Meter.ahead (m : Meter) (steps depth : Nat) : Meter := ⟨m.steps + steps, m.depth + depth⟩

namespace Metered

variable {α β : Type}

/-- A run whose counters end so much further on. -/
def ahead (steps depth : Nat) :
    EStateM.Result EvalError Meter α → EStateM.Result EvalError Meter α
  | .ok v n => .ok v (n.ahead steps depth)
  | .error e n => .error e (n.ahead steps depth)

/-- Two runs with one answer, of which the first one ends so much further on
and the second one at a given depth. -/
inductive Shifted (R : α → β → Prop) (steps depth level : Nat) :
    EStateM.Result EvalError Meter α → EStateM.Result EvalError Meter β → Prop
  | value {v : α} {w : β} (h : R v w) {n : Meter} (hn : n.depth = level) :
      Shifted R steps depth level (.ok v (n.ahead steps depth)) (.ok w n)
  | failure (e : EvalError) {n : Meter} (hn : n.depth = level) :
      Shifted R steps depth level (.error e (n.ahead steps depth)) (.error e n)

/-- Where the first computation is not stopped at a limit, the second one gives
the same answer from counters further back. -/
def Unhurried (R : α → β → Prop) (x : Metered α) (x' : Metered β) : Prop :=
  ∀ steps depth m, Finishes (x (m.ahead steps depth)) →
    Shifted R steps depth m.depth (x (m.ahead steps depth)) (x' m)

theorem Shifted.eq_ahead {steps depth level : Nat} {r r' : EStateM.Result EvalError Meter α}
    (h : Shifted Eq steps depth level r r') : r = ahead steps depth r' := by
  cases h with
  | value hvw =>
    subst hvw
    rfl
  | failure => rfl

theorem not_finishes_refuseStep (limits : Limits) (m : Meter) :
    ¬Finishes ((refuseStep limits : Metered α) m) := by
  obtain ⟨e, n, hrefused, he⟩ := refuseStep_stops (α := α) limits m
  simp [hrefused, Finishes, he]

theorem not_finishes_refuseLevel (limits : Limits) (m : Meter) :
    ¬Finishes ((refuseLevel limits : Metered α) m) := by
  obtain ⟨e, n, hrefused, he⟩ := refuseLevel_stops (α := α) limits m
  simp [hrefused, Finishes, he]

theorem unhurried_bind {γ δ : Type} {R : α → β → Prop} {S : γ → δ → Prop} {x : Metered α}
    {x' : Metered β} {f : α → Metered γ} {f' : β → Metered δ} (hx : Unhurried R x x')
    (hf : ∀ a b, R a b → Unhurried S (f a) (f' b)) : Unhurried S (x >>= f) (x' >>= f') := by
  intro steps depth m h
  have hfirst := hx steps depth m
  simp only [bind, EStateM.bind] at h ⊢
  cases hr : x (m.ahead steps depth) with
  | ok a k =>
    rw [hr] at h hfirst
    cases hr' : x' m with
    | ok b n =>
      rw [hr'] at hfirst
      cases hfirst trivial with
      | value hab hn => exact hn ▸ hf a b hab steps depth n h
    | error e n =>
      rw [hr'] at hfirst
      cases hfirst trivial
  | error e k =>
    rw [hr] at h hfirst
    cases hr' : x' m with
    | ok b n =>
      rw [hr'] at hfirst
      cases hfirst h
    | error e' n =>
      rw [hr'] at hfirst
      cases hfirst h with
      | failure _ hn => exact .failure e hn

section

variable {limits limits' : Limits}

theorem unhurried_tick (hsteps : limits.steps ≤ limits'.steps) :
    Unhurried Eq (tick limits) (tick limits') := by
  intro steps depth m h
  rw [tick_meter] at h ⊢
  rw [tick_meter]
  split at h
  · rename_i hroom
    have hroom' : m.steps + steps < limits.steps := hroom
    rw [if_pos hroom, if_pos (by omega)]
    have hnext : (⟨m.steps + steps + 1, m.depth + depth⟩ : Meter) =
        Meter.ahead { m with steps := m.steps + 1 } steps depth := by
      rw [Meter.ahead, Nat.add_right_comm]
    exact hnext ▸ .value rfl rfl
  · exact absurd h (not_finishes_refuseStep limits _)

theorem unhurried_nested (hdepth : limits.depth ≤ limits'.depth) {R : α → β → Prop}
    {x : Metered α} {x' : Metered β} (h : Unhurried R x x') :
    Unhurried R (nested limits x) (nested limits' x') := by
  intro steps depth m hfinish
  have hinner := h steps depth { m with depth := m.depth + 1 }
  have hstart : Meter.ahead { m with depth := m.depth + 1 } steps depth =
      { m.ahead steps depth with depth := (m.ahead steps depth).depth + 1 } := by
    simp only [Meter.ahead, Nat.add_right_comm]
  -- on the way back both runs leave the level that they entered
  have hback : ∀ {n : Meter}, n.depth = m.depth + 1 →
      ({ n.ahead steps depth with depth := (n.ahead steps depth).depth - 1 } : Meter) =
        Meter.ahead { n with depth := n.depth - 1 } steps depth := by
    intro n hn
    simp only [Meter.ahead, hn, Meter.mk.injEq, true_and]
    omega
  rw [hstart] at hinner
  rw [nested_meter] at hfinish ⊢
  rw [nested_meter]
  split at hfinish
  · rename_i hroom
    have hroom' : m.depth + depth < limits.depth := hroom
    rw [if_pos hroom, if_pos (by omega : m.depth < limits'.depth)]
    cases hr : x { m.ahead steps depth with depth := (m.ahead steps depth).depth + 1 } with
    | ok a k =>
      rw [hr] at hinner
      cases hr' : x' { m with depth := m.depth + 1 } with
      | ok b n =>
        rw [hr'] at hinner
        cases hinner trivial with
        | value hab hn =>
          dsimp only
          rw [hback hn]
          exact .value hab (by simp [hn])
      | error e n =>
        rw [hr'] at hinner
        cases hinner trivial
    | error e k =>
      rw [hr] at hinner hfinish
      cases hr' : x' { m with depth := m.depth + 1 } with
      | ok b n =>
        rw [hr'] at hinner
        cases hinner hfinish
      | error e' n =>
        rw [hr'] at hinner
        cases hinner hfinish with
        | failure _ hn =>
          dsimp only
          rw [hback hn]
          exact .failure e (by simp [hn])
  · exact absurd hfinish (not_finishes_refuseLevel limits _)

/-- Larger budgets go through all that evaluations are made of. -/
theorem comparison_unhurried (hsteps : limits.steps ≤ limits'.steps)
    (hdepth : limits.depth ≤ limits'.depth) : Comparison limits limits' Unhurried where
  value h _ _ _ _ := .value h rfl
  failure _ e _ _ _ _ := .failure e rfl
  bind := unhurried_bind
  tick := unhurried_tick hsteps
  nested := unhurried_nested hdepth
  refused _ _ _ _ _ h := absurd h (not_finishes_refuseStep limits _)

end

end Metered

namespace Evaluation

open Metered

/-- Budgets never change an answer. Where an evaluation, an application, a
primitive or a turn of a recursion ends, from some counters, otherwise than at
a limit, it does so under all limits that are as large and from all counters
that are no further on: with the same value or the same failure, the final
counters being as much further back as the first ones were. From the same
counters, with `steps` and `depth` zero, it ends at the same counters. -/
theorem budgets_never_change_an_answer {limits limits' : Limits}
    (hsteps : limits.steps ≤ limits'.steps) (hdepth : limits.depth ≤ limits'.depth) (m : Meter)
    (steps depth : Nat) :
    (∀ t env, Finishes (eval limits t env (m.ahead steps depth)) →
      eval limits t env (m.ahead steps depth) = ahead steps depth (eval limits' t env m)) ∧
    (∀ f x, Finishes (apply limits f x (m.ahead steps depth)) →
      apply limits f x (m.ahead steps depth) = ahead steps depth (apply limits' f x m)) ∧
    (∀ p args, Finishes (fire limits p args (m.ahead steps depth)) →
      fire limits p args (m.ahead steps depth) = ahead steps depth (fire limits' p args m)) ∧
    (∀ x f, Finishes (recurse limits x f (m.ahead steps depth)) →
      recurse limits x f (m.ahead steps depth) = ahead steps depth (recurse limits' x f m)) := by
  have C := comparison_unhurried hsteps hdepth
  have hfuel : limits.steps - (m.ahead steps depth).steps ≤ limits'.steps - m.steps := by
    have : (m.ahead steps depth).steps = m.steps + steps := rfl
    omega
  have hself : ∀ ds : List Datum, List.Forall₂ Eq ds ds := fun ds =>
    List.forall₂_same.2 fun _ _ => rfl
  obtain ⟨heval, happly⟩ := C.within congruence_eq hfuel
  refine ⟨?_, ?_, ?_, ?_⟩
  · intro t env h
    exact (heval t (hself env) steps depth m h).eq_ahead
  · intro f x h
    exact (happly rfl rfl steps depth m h).eq_ahead
  · intro p args h
    exact (C.fire congruence_eq.toCongruence happly p (hself args) steps depth m h).eq_ahead
  · intro x f h
    exact (C.recurse congruence_eq.toCongruence happly rfl rfl steps depth m h).eq_ahead

/-- Twice twenty-one, from counters that leave just enough room and from others
further back. -/
theorem doubling_is_the_same_with_more_room :
    eval { steps := 11, depth := 2 } (.app (.app (.prim .mul) (.var 0)) (.literal 2)) [.int 21]
      ⟨5, 1⟩ = .ok (.int 42) ⟨11, 1⟩ ∧
    ahead 3 1 (eval {} (.app (.app (.prim .mul) (.var 0)) (.literal 2)) [.int 21] ⟨2, 0⟩) =
      .ok (.int 42) ⟨11, 1⟩ := by
  have hrun : eval { steps := 11, depth := 2 } (.app (.app (.prim .mul) (.var 0)) (.literal 2))
      [.int 21] ⟨5, 1⟩ = .ok (.int 42) ⟨11, 1⟩ := by rfl
  have hfinish : Finishes (eval { steps := 11, depth := 2 }
      (.app (.app (.prim .mul) (.var 0)) (.literal 2)) [.int 21] (Meter.ahead ⟨2, 0⟩ 3 1)) := trivial
  obtain ⟨heval, -⟩ := @budgets_never_change_an_answer { steps := 11, depth := 2 } {} (by decide)
    (by decide) ⟨2, 0⟩ 3 1
  refine ⟨hrun, ?_⟩
  rw [← heval _ _ hfinish]
  exact hrun

end Evaluation

end SymbolInduction
