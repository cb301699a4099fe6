-- How many steps a closed program takes that is made of a body. A run that ends
-- with a value can be moved ahead: under limits that are raised by as much as its
-- counters, it ends with the same value after as many steps. So a program takes
-- the steps of its body, and two for each argument.
import SymbolInduction.Proofs.Evaluation.Budgets
import SymbolInduction.Proofs.Evaluation.Programs

namespace SymbolInduction

namespace Metered

/-! ## Runs that are moved ahead -/

variable {α β : Type} {limits limits' : Limits} {steps depth : Nat}

/-- Where the first computation ends with a value it is back at its level, and
the second one ends with such a value from counters further on, and as much
further on. -/
def KeepsPace (steps depth : Nat) (R : α → β → Prop) (x : Metered α) (x' : Metered β) : Prop :=
  ∀ m a n, x m = .ok a n →
    n.depth = m.depth ∧ ∃ b, R a b ∧ x' (m.ahead steps depth) = .ok b (n.ahead steps depth)

theorem keepsPace_bind {γ δ : Type} {R : α → β → Prop} {S : γ → δ → Prop} {x : Metered α}
    {x' : Metered β} {f : α → Metered γ} {f' : β → Metered δ} (hx : KeepsPace steps depth R x x')
    (hf : ∀ a b, R a b → KeepsPace steps depth S (f a) (f' b)) :
    KeepsPace steps depth S (x >>= f) (x' >>= f') := by
  intro m c n h
  obtain ⟨a, k, ha, hc⟩ := bind_eq_ok h
  obtain ⟨hk, b, hab, hb⟩ := hx m a k ha
  obtain ⟨hn, d, hcd, hd⟩ := hf a b hab k c n hc
  refine ⟨hn.trans hk, d, hcd, ?_⟩
  simp only [bind, EStateM.bind, hb, hd]

theorem keepsPace_tick (hsteps : limits.steps + steps ≤ limits'.steps) :
    KeepsPace steps depth Eq (tick limits) (tick limits') := by
  intro m a n h
  obtain ⟨hroom, rfl⟩ := (tick_eq_ok_iff ..).1 h
  have hroom' : (m.ahead steps depth).steps < limits'.steps := by
    show m.steps + steps < limits'.steps
    omega
  refine ⟨rfl, (), rfl, (tick_eq_ok_iff ..).2 ⟨hroom', ?_⟩⟩
  simp only [Meter.ahead, Nat.add_right_comm]

theorem keepsPace_nested (hdepth : limits.depth + depth ≤ limits'.depth) {R : α → β → Prop}
    {x : Metered α} {x' : Metered β} (h : KeepsPace steps depth R x x') :
    KeepsPace steps depth R (nested limits x) (nested limits' x') := by
  intro m a n ha
  obtain ⟨hroom, k, hr, rfl⟩ := (nested_eq_ok_iff ..).1 ha
  have hroom' : (m.ahead steps depth).depth < limits'.depth := by
    show m.depth + depth < limits'.depth
    omega
  have hstart : ({ m.ahead steps depth with depth := (m.ahead steps depth).depth + 1 } : Meter) =
      Meter.ahead { m with depth := m.depth + 1 } steps depth := by
    simp only [Meter.ahead, Nat.add_right_comm]
  obtain ⟨hk, b, hab, hb⟩ := h _ a k hr
  refine ⟨by simp [hk], b, hab, (nested_eq_ok_iff ..).2 ⟨hroom', _, hstart ▸ hb, ?_⟩⟩
  simp only [Meter.ahead, hk, Meter.mk.injEq, true_and]
  omega

/-- Being moved ahead goes through all that evaluations are made of. -/
theorem comparison_keepsPace (hsteps : limits.steps + steps ≤ limits'.steps)
    (hdepth : limits.depth + depth ≤ limits'.depth) :
    Comparison limits limits' (KeepsPace steps depth) where
  value h := by
    rintro m _ n ⟨⟩
    exact ⟨rfl, _, h, rfl⟩
  failure _ e := by
    rintro m a n ⟨⟩
  bind := keepsPace_bind
  tick := keepsPace_tick hsteps
  nested := keepsPace_nested hdepth
  refused _ _ m a n h := absurd h (refuseStep_ne_ok limits m n a)

end Metered

namespace Evaluation

open Metered

variable {limits limits' : Limits}

/-- An evaluation that ends with a value from the start does so, too, after
`taken` steps and at a deeper level, where the limits are raised by as much. -/
theorem evalWithin_later {t : Term} {env : List Datum} {d : Datum} {m : Meter}
    (h : evalWithin limits limits.steps t env ({} : Meter) = .ok d m) {taken level : Nat}
    (hsteps : limits.steps + taken ≤ limits'.steps) (hdepth : limits.depth + level ≤ limits'.depth) :
    evalWithin limits' (limits'.steps - taken) t env (⟨taken, level⟩ : Meter) =
      .ok d ⟨m.steps + taken, level⟩ := by
  have hself : List.Forall₂ Eq env env := List.forall₂_same.2 fun _ _ => rfl
  have hfuel : limits.steps ≤ limits'.steps - taken := by omega
  have hpace := ((comparison_keepsPace hsteps hdepth).within congruence_eq hfuel).1 t hself
  obtain ⟨hm, _, rfl, hlater⟩ := hpace {} d m h
  have hstart : Meter.ahead {} taken level = ⟨taken, level⟩ := by
    simp only [Meter.ahead, Nat.zero_add]
  have hend : m.ahead taken level = ⟨m.steps + taken, level⟩ := by
    simp only [Meter.ahead, hm, Nat.zero_add]
  rwa [hstart, hend] at hlater

/-! ## One application after another -/

/-- A binder becomes a closure in one step. -/
theorem evalWithin_lam {taken : Nat} (hroom : taken < limits.steps) (body : Term) (env : List Datum)
    (level : Nat) :
    evalWithin limits (limits.steps - taken) (.lam body) env (⟨taken, level⟩ : Meter) =
      .ok (.closure body env) ⟨taken + 1, level⟩ := by
  rw [show limits.steps - taken = limits.steps - (taken + 1) + 1 by omega, evalWithin]
  simp only [bind, EStateM.bind, tick_meter, if_pos hroom]
  rfl

/-- A closure takes one step, and runs its body one level deeper. -/
theorem apply_closure {body : Term} {env : List Datum} {x d : Datum} {taken total : Nat}
    (hroom : taken < limits.steps) (hdepth : 0 < limits.depth)
    (h : evalWithin limits (limits.steps - (taken + 1)) body (x :: env) (⟨taken + 1, 1⟩ : Meter) =
      .ok d ⟨total, 1⟩) :
    apply limits (.closure body env) x ⟨taken, 0⟩ = .ok d ⟨total, 0⟩ := by
  unfold apply
  dsimp only
  rw [show limits.steps - taken = limits.steps - (taken + 1) + 1 by omega, applyWithin]
  simp only [bind, EStateM.bind, tick_meter, if_pos hroom, nested_meter, if_pos hdepth, h]

theorem applyInputs_cons {f g d : Datum} {v : Value} {vs : List Value} {m n k : Meter}
    (hv : v ≠ .missing) (happly : apply limits f (datumOf v) m = .ok g n)
    (hrest : applyInputs limits g vs n = .ok d k) : applyInputs limits f (v :: vs) m = .ok d k := by
  unfold applyInputs
  rw [ofValue_eq hv]
  show (apply limits f (datumOf v) >>= fun g => applyInputs limits g vs) m = _
  simp only [bind, EStateM.bind, happly, hrest]

/-- A closure of binders around a body takes the steps of the body, and two for
each argument but one, for which it takes one. -/
theorem applyInputs_closure {body : Term} {d : Datum} {m : Meter} {v : Value} {vs : List Value}
    {env : List Datum} {taken : Nat} (hv : .missing ∉ v :: vs)
    (h : evalWithin limits limits.steps body (((v :: vs).map datumOf).reverse ++ env)
      ({} : Meter) = .ok d m)
    (hsteps : limits.steps + (taken + 2 * vs.length + 1) ≤ limits'.steps)
    (hdepth : limits.depth + 1 ≤ limits'.depth) :
    applyInputs limits' (.closure (body.lambdas vs.length) env) (v :: vs) ⟨taken, 0⟩ =
      .ok d ⟨m.steps + (taken + 2 * vs.length + 1), 0⟩ := by
  rw [List.mem_cons, not_or] at hv
  induction vs generalizing v env taken with
  | nil =>
    have hbody := evalWithin_later h hsteps hdepth
    exact applyInputs_cons (Ne.symm hv.1) (apply_closure (by omega) (by omega) hbody) rfl
  | cons w vs ih =>
    rw [List.length_cons] at hsteps ⊢
    have hlam := evalWithin_lam (show taken + 1 < limits'.steps by omega) (body.lambdas vs.length)
      (datumOf v :: env) 1
    have hrest := @ih w (datumOf v :: env) (taken + 2) (by simpa using hv.2) (by simpa using h)
      (by omega)
    have htotal : taken + 2 + 2 * vs.length + 1 = taken + 2 * (vs.length + 1) + 1 := by omega
    rw [htotal] at hrest
    exact applyInputs_cons (Ne.symm hv.1) (apply_closure (by omega) (by omega) hlam) hrest

/-- A program that becomes a function which gives a datum for its arguments gives
the value of that datum. -/
theorem evaluate_eq_ok {program : Term} {xs : Inputs} {f d : Datum} {y : Value} {m n : Meter}
    (harity : program.arity = xs.length) (hf : eval limits program [] {} = .ok f m)
    (hd : applyInputs limits f xs m = .ok d n) (hy : d.toValue = .ok y) :
    evaluate limits program xs {} = .ok y n := by
  unfold evaluate
  rw [if_neg (not_not_intro harity)]
  show (eval limits program [] >>= fun f => applyInputs limits f xs >>= fun d =>
    (MonadExcept.ofExcept d.toValue : Metered Value)) {} = _
  simp only [bind, EStateM.bind, hf, hd, hy]
  rfl

theorem value?_of_eval {t : Term} {env : List Datum} {d : Datum} {m : Meter}
    (h : eval limits t env {} = .ok d m) : value? limits env t = some d := by
  unfold value? outcome
  rw [h]
  rfl

/-- A program made of a body gives the value of the body, with its arguments as
the variables. It takes the steps of the body and two more for each argument,
and needs one more level. -/
theorem evaluate_lambdas {body : Term} {d : Datum} {m : Meter} {y : Value} {xs : Inputs}
    (hxs : .missing ∉ xs) (h : eval limits body (Enumeration.Bank.environment xs) {} = .ok d m)
    (hy : d.toValue = .ok y) (hsteps : limits.steps + 2 * xs.length ≤ limits'.steps)
    (hdepth : limits.depth + 1 ≤ limits'.depth) :
    evaluate limits' (body.lambdas xs.length) xs {} = .ok y ⟨m.steps + 2 * xs.length, 0⟩ := by
  have harity : (body.lambdas xs.length).arity = xs.length :=
    arity_lambdas_of_value? (value?_of_eval h) hy _
  cases xs with
  | nil =>
    have hbody := @evalWithin_later limits limits' _ _ _ _ h 0 0 hsteps (by omega)
    exact evaluate_eq_ok harity hbody rfl hy
  | cons x xs =>
    rw [List.length_cons] at hsteps harity ⊢
    have hlam := evalWithin_lam (show 0 < limits'.steps by omega) (body.lambdas xs.length) [] 0
    have hargs := @applyInputs_closure limits limits' body d m x xs [] 1 hxs
      (by rw [List.append_nil]; exact h) (by omega) hdepth
    rw [show 1 + 2 * xs.length + 1 = 2 * (xs.length + 1) by omega] at hargs
    exact evaluate_eq_ok harity hlam hargs hy

end Evaluation

end SymbolInduction
