-- What a promotion can change: how long an evaluation takes, and nothing else.
-- Where a term has a value, the term with every promoted program written out
-- has that value too, in no more steps. Promoted programs run in an empty
-- environment and the programs written out in that of the term, so the
-- closures in the two runs differ; they compare as data do that behave alike.
import SymbolInduction.Proofs.Evaluation.Agreement

namespace SymbolInduction

/-! ## Terms written out -/

namespace Term

/-- The term with every promoted program replaced by its body. -/
def expanded : Term → Term
  | lam body => lam body.expanded
  | app f x => app f.expanded x.expanded
  | promoted body => body.expanded
  | t => t

theorem expanded_applied (f : Term) (args : List Term) :
    (f.applied args).expanded = f.expanded.applied (args.map expanded) := by
  induction args generalizing f with
  | nil => rfl
  | cons x args ih => exact ih (f.app x)

/-- The head of a term may be an application once it is written out. -/
theorem spine_expanded (t : Term) :
    t.expanded.spine =
      (t.spine.1.expanded.spine.1, t.spine.1.expanded.spine.2 ++ t.spine.2.map expanded) := by
  conv_lhs => rw [← t.applied_spine]
  rw [expanded_applied, spine_applied]

theorem spine_of_not_app {t : Term} (h : ∀ f x, t ≠ app f x) : t.spine = (t, []) := by
  cases t with
  | app f x => exact absurd rfl (h f x)
  | _ => rfl

end Term

/-! ## Computations that are no slower -/

namespace Metered

/-- Where the first computation gives a value, the second one gives one that
compares: from counters that are no further on, in which it ends no further on
either. Both come back to the level at which they started. -/
def NoSlower {α β : Type} (R : α → β → Prop) (x : Metered α) (x' : Metered β) : Prop :=
  ∀ m m', m'.steps ≤ m.steps → m'.depth ≤ m.depth → ∀ a n, x m = .ok a n →
    m.steps ≤ n.steps ∧ n.depth = m.depth ∧
      ∃ b n', x' m' = .ok b n' ∧ R a b ∧ n'.steps ≤ n.steps ∧ n'.depth = m'.depth

variable {α β γ δ : Type} {R : α → β → Prop} {S : γ → δ → Prop}

theorem NoSlower.bind {x : Metered α} {x' : Metered β} {f : α → Metered γ} {f' : β → Metered δ}
    (hx : NoSlower R x x') (hf : ∀ a b, R a b → NoSlower S (f a) (f' b)) :
    NoSlower S (x >>= f) (x' >>= f') := by
  intro m m' hsteps hdepth c n h
  obtain ⟨a, k, ha, hc⟩ := bind_eq_ok h
  obtain ⟨hk, hkd, b, k', hb, hab, hk', hkd'⟩ := hx m m' hsteps hdepth a k ha
  obtain ⟨hn, hnd, d, n', hd, hcd, hn', hnd'⟩ := hf a b hab k k' hk' (by omega) c n hc
  refine ⟨by omega, by omega, d, n', ?_, hcd, hn', by omega⟩
  simp only [Bind.bind, EStateM.bind, hb, hd]

theorem noSlower_tick (limits : Limits) : NoSlower Eq (tick limits) (tick limits) := by
  intro m m' hsteps hdepth a n h
  obtain ⟨hroom, rfl⟩ := (tick_eq_ok_iff ..).1 h
  exact ⟨Nat.le_succ _, rfl, (), _, (tick_eq_ok_iff ..).2 ⟨by omega, rfl⟩, rfl,
    Nat.succ_le_succ hsteps, rfl⟩

theorem NoSlower.nested {x : Metered α} {x' : Metered β} (limits : Limits) (h : NoSlower R x x') :
    NoSlower R (nested limits x) (Metered.nested limits x') := by
  intro m m' hsteps hdepth a n hrun
  obtain ⟨hroom, k, hr, rfl⟩ := (nested_eq_ok_iff ..).1 hrun
  obtain ⟨hk, hkd, b, k', hr', hab, hk', hkd'⟩ :=
    h { m with depth := m.depth + 1 } { m' with depth := m'.depth + 1 } hsteps
      (Nat.succ_le_succ hdepth) a k hr
  exact ⟨hk, by simp [hkd], b, _, (nested_eq_ok_iff ..).2 ⟨by omega, k', hr', rfl⟩, hab, hk',
    by simp [hkd']⟩

/-- Being no slower goes through all that evaluations are made of. -/
theorem comparison_noSlower (limits : Limits) : Comparison limits limits NoSlower where
  value h := by
    rintro m m' hsteps - a _ ⟨⟩
    exact ⟨Nat.le_refl _, rfl, _, m', rfl, h, hsteps, rfl⟩
  failure _ e := by
    rintro m m' - - a n ⟨⟩
  bind := NoSlower.bind
  tick := noSlower_tick limits
  nested := NoSlower.nested limits
  refused _ _ m _ _ _ a n h := absurd h (refuseStep_ne_ok limits m n a)

theorem NoSlower.trans {x : Metered α} {y : Metered β} {z : Metered β} (h : NoSlower R x y)
    (h' : NoSlower Eq y z) : NoSlower R x z := by
  intro m m' hsteps hdepth a n hx
  obtain ⟨hn, hnd, b, k, hy, hab, hk, hkd⟩ := h m m (Nat.le_refl _) (Nat.le_refl _) a n hx
  obtain ⟨-, -, b, n', hz, rfl, hn', hnd'⟩ := h' m m' hsteps hdepth b k hy
  exact ⟨hn, hnd, b, n', hz, hab, by omega, hnd'⟩

/-! ### What the second computation leaves out -/

/-- A computation that is no slower without a first part is no slower. -/
theorem NoSlower.skip {x : Metered γ} {x' : Metered δ} {f : γ → Metered α} {y : Metered β}
    (hx : NoSlower S x x') (hf : ∀ c, NoSlower R (f c) y) : NoSlower R (x >>= f) y := by
  intro m m' hsteps hdepth a n h
  obtain ⟨c, k, hc, ha⟩ := bind_eq_ok h
  obtain ⟨hk, hkd, -⟩ := hx m m (Nat.le_refl _) (Nat.le_refl _) c k hc
  obtain ⟨hn, hnd, hy⟩ := hf c k m' (by omega) (by omega) a n ha
  exact ⟨by omega, by omega, hy⟩

/-- A computation that is no slower on a level above is no slower. -/
theorem NoSlower.skipLevel {x : Metered α} {y : Metered β} (limits : Limits) (h : NoSlower R x y) :
    NoSlower R (Metered.nested limits x) y := by
  intro m m' hsteps hdepth a n hrun
  obtain ⟨-, k, hr, rfl⟩ := (nested_eq_ok_iff ..).1 hrun
  obtain ⟨hk, hkd, hy⟩ :=
    h { m with depth := m.depth + 1 } m' hsteps (Nat.le_succ_of_le hdepth) a k hr
  exact ⟨hk, by simp [hkd], hy⟩

end Metered

/-! ## Applications in one list of arguments -/

namespace Evaluation

open Metered

theorem applyAll_append (eval : Term → Metered Datum) (apply : Datum → Datum → Metered Datum)
    (f : Datum) (args rest : List Term) :
    applyAllWith eval apply f (args ++ rest) =
      applyAllWith eval apply f args >>= fun g => applyAllWith eval apply g rest := by
  induction args generalizing f with
  | nil => rw [List.nil_append, applyAllWith, pure_bind]
  | cons x args ih => simp only [List.cons_append, applyAllWith, ih, bind_assoc]

/-- Arguments that follow those of a head go on its list, unless they would be those that
an `if` at the head still waits for. -/
theorem evalSpine_append (eval : Term → Metered Datum) (apply : Datum → Datum → Metered Datum)
    {head : Term} {args : List Term} (h : head ≠ .prim .cond ∨ 3 ≤ args.length)
    (rest : List Term) :
    evalSpineWith eval apply head (args ++ rest) =
      evalSpineWith eval apply head args >>= fun f => applyAllWith eval apply f rest := by
  by_cases hcond : head = .prim .cond
  · subst hcond
    obtain ⟨c, t, e, more, rfl⟩ : ∃ c t e more, args = c :: t :: e :: more := by
      rcases args with _ | ⟨c, _ | ⟨t, _ | ⟨e, more⟩⟩⟩ <;> simp at h
      exact ⟨c, t, e, more, rfl⟩
    simp only [evalSpineWith, List.cons_append, bind_assoc, applyAll_append]
  · rw [evalSpine_eq (Or.inl hcond), evalSpine_eq (Or.inl hcond)]
    simp only [bind_assoc, applyAll_append]

section

variable {limits : Limits} {fuel fuel' : Nat}

theorem noSlower_eval (h : fuel ≤ fuel') (t : Term) (env : List Datum) :
    NoSlower Eq (evalWithin limits fuel t env) (evalWithin limits fuel' t env) :=
  ((comparison_noSlower limits).within congruence_eq h).1 t (List.forall₂_same.2 fun _ _ => rfl)

theorem noSlower_apply (h : fuel ≤ fuel') {f f' x x' : Datum} (hf : f = f') (hx : x = x') :
    NoSlower Eq (applyWithin limits fuel f x) (applyWithin limits fuel' f' x') :=
  ((comparison_noSlower limits).within congruence_eq h).2 hf hx

theorem noSlower_applyAll (env : List Datum) (f : Datum) (args : List Term) :
    NoSlower Eq
      (applyAllWith (fun t => evalWithin limits fuel t env) (applyWithin limits fuel) f args)
      (applyAllWith (fun t => evalWithin limits fuel t env) (applyWithin limits fuel) f args) :=
  (comparison_noSlower limits).applyAll (noSlower_apply (Nat.le_refl fuel))
    (List.forall₂_same.2 fun t _ => noSlower_eval (Nat.le_refl fuel) t env) rfl

theorem noSlower_self (env : List Datum) (head : Term) (args : List Term) :
    NoSlower Eq
      (evalSpineWith (fun t => evalWithin limits fuel t env) (applyWithin limits fuel) head args)
      (evalSpineWith (fun t => evalWithin limits fuel t env) (applyWithin limits fuel) head args) :=
  (comparison_noSlower limits).evalSpine congruence_eq.toCongruence
    (noSlower_apply (Nat.le_refl fuel))
    (List.forall₂_same.2 fun t _ => noSlower_eval (Nat.le_refl fuel) t env) Iff.rfl
    (noSlower_eval (Nat.le_refl fuel) head env)

/-- The steps of `if` as a function: it takes its arguments one by one. -/
theorem eval_cond (limits : Limits) (fuel : Nat) (env : List Datum) :
    (evalWithin limits (fuel + 1) (.prim .cond) env : Metered Datum) =
      tick limits >>= fun _ => pure (.waiting .cond []) := by
  unfold evalWithin
  rfl

theorem apply_cond (limits : Limits) (fuel : Nat) {given : List Datum} (h : given.length < 2)
    (x : Datum) :
    (applyWithin limits (fuel + 1) (.waiting .cond given) x : Metered Datum) =
      tick limits >>= fun _ => pure (.waiting .cond (given ++ [x])) := by
  unfold applyWithin
  have hlen : (given ++ [x]).length ≠ Primitive.cond.arity := by
    rw [List.length_append]
    exact Nat.ne_of_lt (Nat.succ_lt_succ h)
  simp only [if_neg hlen]

theorem apply_cond_last (limits : Limits) (fuel : Nat) (c t e : Datum) :
    (applyWithin limits (fuel + 1) (.waiting .cond [c, t]) e : Metered Datum) =
      tick limits >>= fun _ => ofExcept (c.asBool "if") >>= fun b =>
        pure (if b then t else e) := by
  unfold applyWithin
  rfl

/-- `if` that takes its arguments one by one evaluates both branches; written with
all its arguments it evaluates the condition and one of them. -/
theorem noSlower_branch (env : List Datum) {args : List Term} (hlen : 3 ≤ args.length) :
    NoSlower Eq
      (applyAllWith (fun t => evalWithin limits fuel t env) (applyWithin limits fuel)
        (.waiting .cond []) args)
      (evalSpineWith (fun t => evalWithin limits fuel t env) (applyWithin limits fuel)
        (.prim .cond) args) := by
  have C := comparison_noSlower limits
  have heval := fun t => @noSlower_eval limits fuel fuel (Nat.le_refl fuel) t env
  rcases args with _ | ⟨c, _ | ⟨t, _ | ⟨e, rest⟩⟩⟩
  case nil | cons.nil | cons.cons.nil => simp at hlen
  cases fuel with
  | zero =>
    intro m m' _ _ a n h
    rw [applyAllWith, evalWithin_zero] at h
    obtain ⟨d, k, hd, -⟩ := bind_eq_ok h
    exact absurd hd (refuseStep_ne_ok limits m k d)
  | succ fuel =>
    have happlied := fun f => @noSlower_applyAll limits (fuel + 1) env f rest
    simp only [evalSpineWith, applyAllWith]
    refine C.bind (heval c) ?_
    rintro dc _ rfl
    simp only [apply_cond limits fuel (by simp : ([] : List Datum).length < 2),
      apply_cond limits fuel (by simp : [dc].length < 2), apply_cond_last, List.nil_append,
      List.cons_append, bind_assoc, pure_bind]
    refine C.tick.skip fun _ => ?_
    cases dc.asBool "if" with
    | error err =>
      refine (heval t).skip fun _ => C.tick.skip fun _ => (heval e).skip fun _ =>
        C.tick.skip fun _ => ?_
      exact C.failure Eq err
    | ok b =>
      simp only [MonadExcept.ofExcept, pure_bind]
      cases b with
      | true =>
        refine C.bind (heval t) ?_
        rintro dt _ rfl
        exact C.tick.skip fun _ => (heval e).skip fun _ => C.tick.skip fun _ => happlied dt
      | false =>
        refine (heval t).skip fun _ => C.tick.skip fun _ => C.bind (heval e) ?_
        rintro de _ rfl
        exact C.tick.skip fun _ => happlied de

/-- `if` may be evaluated as a function first, whatever is written after it. -/
theorem noSlower_lazy (env : List Datum) (args : List Term) :
    NoSlower Eq
      (evalWithin limits fuel (.prim .cond) env >>= fun f =>
        applyAllWith (fun t => evalWithin limits fuel t env) (applyWithin limits fuel) f args)
      (evalSpineWith (fun t => evalWithin limits fuel t env) (applyWithin limits fuel)
        (.prim .cond) args) := by
  have C := comparison_noSlower limits
  by_cases hlen : args.length < 3
  · rw [evalSpine_eq (Or.inr hlen)]
    exact C.bind (noSlower_eval (Nat.le_refl _) _ env) fun f _ hf => hf ▸ noSlower_applyAll env f _
  cases fuel with
  | zero =>
    intro m m' _ _ a n h
    rw [evalWithin_zero] at h
    obtain ⟨d, k, hd, -⟩ := bind_eq_ok h
    exact absurd hd (refuseStep_ne_ok limits m k d)
  | succ fuel =>
    simp only [eval_cond, bind_assoc, pure_bind]
    exact C.tick.skip fun _ => noSlower_branch env (Nat.le_of_not_lt hlen)

/-- The arguments of a head that is itself applied go on its own list. -/
theorem noSlower_spine (env : List Datum) (head : Term) (args rest : List Term) :
    NoSlower Eq
      (evalSpineWith (fun t => evalWithin limits fuel t env) (applyWithin limits fuel) head args >>=
        fun f => applyAllWith (fun t => evalWithin limits fuel t env) (applyWithin limits fuel) f
          rest)
      (evalSpineWith (fun t => evalWithin limits fuel t env) (applyWithin limits fuel) head
        (args ++ rest)) := by
  by_cases h : head ≠ .prim .cond ∨ 3 ≤ args.length
  · rw [← evalSpine_append _ _ h]
    exact noSlower_self env head (args ++ rest)
  · obtain ⟨rfl, hlen⟩ : head = .prim .cond ∧ args.length < 3 := by simpa using h
    rw [evalSpine_eq (Or.inr hlen)]
    simp only [bind_assoc, ← applyAll_append]
    exact noSlower_lazy env (args ++ rest)

/-- A term gives no other value as a head of its own than as the head and the
arguments that it is made of. -/
theorem noSlower_head (env : List Datum) (t : Term) :
    NoSlower Eq (evalWithin limits fuel t env)
      (evalSpineWith (fun t => evalWithin limits fuel t env) (applyWithin limits fuel)
        t.spine.1 t.spine.2) := by
  have C := comparison_noSlower limits
  by_cases h : ∃ f x, t = .app f x
  · obtain ⟨f, x, rfl⟩ := h
    cases fuel with
    | zero =>
      rw [evalWithin_zero]
      exact C.refused Eq _
    | succ fuel =>
      rw [evalWithin_app]
      refine C.tick.skip fun _ => NoSlower.skipLevel limits ?_
      refine C.evalSpine congruence_eq.toCongruence (noSlower_apply (Nat.le_succ fuel)) ?_ Iff.rfl
        (noSlower_eval (Nat.le_succ fuel) _ env)
      exact List.forall₂_same.2 fun t _ => noSlower_eval (Nat.le_succ fuel) t env
  · have hspine : t.spine = (t, []) := Term.spine_of_not_app fun f x ht => h ⟨f, x, ht⟩
    rw [hspine, evalSpine_eq (Or.inr (by simp))]
    simp only [applyAllWith, bind_pure]
    exact noSlower_eval (Nat.le_refl fuel) t env

/-- An application of a term to arguments, and of its head to its own arguments
and these. -/
theorem noSlower_applied (env : List Datum) (t : Term) (args : List Term) :
    NoSlower Eq
      (evalWithin limits fuel t env >>= fun f =>
        applyAllWith (fun t => evalWithin limits fuel t env) (applyWithin limits fuel) f args)
      (evalSpineWith (fun t => evalWithin limits fuel t env) (applyWithin limits fuel) t.spine.1
        (t.spine.2 ++ args)) := by
  refine NoSlower.trans ?_ (noSlower_spine env t.spine.1 t.spine.2 args)
  exact (comparison_noSlower limits).bind (noSlower_head env t) fun f _ hf =>
    hf ▸ noSlower_applyAll env f args

end

/-! ## Data of two runs -/

/-- A datum and what stands for it where promoted programs are written out: a
closure's body is written out too, and its environment may go on further. -/
inductive Expands : Datum → Datum → Prop
  | data {d : Datum} (h : d.isFunction = false) : Expands d d
  | closure (body : Term) {env env' : List Datum} (beyond : List Datum)
      (h : List.Forall₂ Expands env env') :
      Expands (.closure body env) (.closure body.expanded (env' ++ beyond))
  | waiting (p : Primitive) {given given' : List Datum} (h : List.Forall₂ Expands given given') :
      Expands (.waiting p given) (.waiting p given')
  | recur {f f' : Datum} (h : Expands f f') : Expands (.recur f) (.recur f')

/-- A term in an environment, and the term written out in one that stands for
it and may go on further. -/
def ExpandsCode (t : Term) (env : List Datum) (t' : Term) (env' : List Datum) : Prop :=
  t' = t.expanded ∧ ∃ inner beyond, env' = inner ++ beyond ∧ List.Forall₂ Expands env inner

theorem congruence_expands : Congruence Expands where
  plain {d} h := by
    cases d with
    | int | bool | list => exact .data rfl
    | _ => cases h
  same h := by
    cases h with
    | data => exact Or.inl rfl
    | _ => exact Or.inr ⟨id, id⟩
  waiting p _ _ h := .waiting p h
  recur h := .recur h

theorem shape_of_expands {d d' : Datum} (h : Expands d d') : Shape ExpandsCode Expands d d' := by
  cases h with
  | data h => exact .data h h
  | closure body beyond henv =>
    exact .closure fun {x x'} hx => ⟨rfl, x' :: _, beyond, rfl, .cons hx henv⟩
  | waiting p h => exact .waiting p h
  | recur h => exact .recur h

/-- A variable of the smaller environment stands for one of the larger one. -/
theorem noSlower_lookup (limits : Limits) {env inner : List Datum} (beyond : List Datum)
    (h : List.Forall₂ Expands env inner) (i : UInt64) :
    NoSlower Expands (lookup env i) (lookup (inner ++ beyond) i) := by
  have C := comparison_noSlower limits
  by_cases hi : i.toNat < env.length
  · have hlookup : (lookup (inner ++ beyond) i : Metered Datum) = lookup inner i := by
      unfold lookup
      rw [List.getElem?_append_left (h.length_eq ▸ hi)]
    rw [hlookup]
    exact C.lookup h i
  · unfold lookup
    rw [List.getElem?_eq_none (Nat.le_of_not_lt hi)]
    rintro m m' - - a n ⟨⟩

theorem noSlower_expanded (limits : Limits) {fuel fuel' : Nat} (h : fuel ≤ fuel') :
    (∀ {t env t' env'}, ExpandsCode t env t' env' →
      NoSlower Expands (evalWithin limits fuel t env) (evalWithin limits fuel' t' env')) ∧
    ∀ {f f' x x'}, Expands f f' → Expands x x' →
      NoSlower Expands (applyWithin limits fuel f x) (applyWithin limits fuel' f' x') := by
  have C := comparison_noSlower limits
  induction fuel generalizing fuel' with
  | zero =>
    constructor
    · intro t env t' env' _
      rw [evalWithin_zero]
      exact C.refused _ _
    · intro f f' x x' _ _
      rw [applyWithin_zero]
      exact C.refused _ _
  | succ fuel ih =>
    obtain ⟨fuel', rfl⟩ : ∃ n, fuel' = n + 1 := ⟨fuel' - 1, by omega⟩
    obtain ⟨heval, happly⟩ := ih (Nat.le_of_succ_le_succ h)
    constructor
    · rintro t env _ _ ⟨rfl, inner, beyond, rfl, henv⟩
      have hsub : ∀ t : Term, NoSlower Expands (evalWithin limits fuel t env)
          (evalWithin limits fuel' t.expanded (inner ++ beyond)) :=
        fun t => heval ⟨rfl, inner, beyond, rfl, henv⟩
      cases t with
      | var i =>
        unfold evalWithin
        exact C.bind C.tick fun _ _ _ => noSlower_lookup limits beyond henv i
      | lam body =>
        unfold evalWithin
        exact C.bind C.tick fun _ _ _ => C.value (.closure body beyond henv)
      | prim p =>
        unfold evalWithin
        exact C.bind C.tick fun _ _ _ => C.value (congruence_expands.constant p)
      | promoted body =>
        -- one step fewer: the body itself, in any environment
        rw [evalWithin]
        refine C.tick.skip fun _ => ?_
        exact (ih (Nat.le_succ_of_le (Nat.le_of_succ_le_succ h))).1 ⟨rfl, [], _, rfl, .nil⟩
      | app f x =>
        have hspine := (Term.app f x).spine_expanded
        rw [Term.expanded] at hspine ⊢
        rw [evalWithin_app, evalWithin_app, hspine]
        refine C.bind C.tick fun _ _ _ => C.nested ?_
        generalize (Term.app f x).spine = spine
        obtain ⟨head, args⟩ := spine
        have hargs : List.Forall₂ (fun t t' => NoSlower Expands (evalWithin limits fuel t env)
            (evalWithin limits fuel' t' (inner ++ beyond))) args (args.map Term.expanded) := by
          rw [List.forall₂_map_right_iff]
          exact List.forall₂_same.2 fun t _ => hsub t
        by_cases hcond : head = .prim .cond
        · subst hcond
          exact C.evalSpine congruence_expands happly hargs Iff.rfl (hsub _)
        · rw [evalSpine_eq (Or.inl hcond)]
          refine NoSlower.trans ?_ (noSlower_applied _ head.expanded _)
          exact C.bind (hsub head) fun f f' hf => C.applyAll happly hargs hf
    · intro f f' x x' hf hx
      exact C.applied congruence_expands heval happly (shape_of_expands hf) hx

/-- Promotion preserves meaning: where the evaluation of a term in an
environment of data gives data, the term with every promoted program written
out gives the same, in no more steps and at the same depth. The bodies need not
be closed: a variable that a promoted program does not bind has no value. -/
theorem promotion_preserves_meaning (limits : Limits) (t : Term) {env : List Datum}
    (henv : ∀ d ∈ env, d.isFunction = false) (m : Meter) {d : Datum} {n : Meter}
    (h : eval limits t env m = .ok d n) (hd : d.isFunction = false) :
    ∃ n', eval limits t.expanded env m = .ok d n' ∧ n'.steps ≤ n.steps ∧ n'.depth = n.depth := by
  have hself : List.Forall₂ Expands env env := List.forall₂_same.2 fun d hmem => .data (henv d hmem)
  obtain ⟨heval, -⟩ := noSlower_expanded limits (Nat.le_refl (limits.steps - m.steps))
  obtain ⟨-, hdepth, d', n', hrun, hdd', hsteps, hdepth'⟩ :=
    heval ⟨rfl, env, [], (List.append_nil env).symm, hself⟩ m m (Nat.le_refl _) (Nat.le_refl _) d n h
  have heq : d' = d := by
    cases hdd' with
    | data => rfl
    | _ => cases hd
  exact ⟨n', heq ▸ hrun, hsteps, hdepth'.trans hdepth.symm⟩

/-- Promoted `if` on three arguments evaluates both branches, and gives what it
gives where it is written out. -/
theorem promoted_choice_keeps_its_value :
    eval {} (.applied (.promoted (.prim .cond))
        [.applied (.prim .gt) [.var 0, .literal 3], .var 0, .literal 3]) [.int 5] {} =
      .ok (.int 5) ⟨14, 0⟩ ∧
    ∃ n', eval {} (.applied (.prim .cond)
        [.applied (.prim .gt) [.var 0, .literal 3], .var 0, .literal 3]) [.int 5] {} =
      .ok (.int 5) n' ∧ n'.steps ≤ 14 ∧ n'.depth = 0 := by
  have hrun : eval {} (.applied (.promoted (.prim .cond))
      [.applied (.prim .gt) [.var 0, .literal 3], .var 0, .literal 3]) [.int 5] {} =
        .ok (.int 5) ⟨14, 0⟩ :=
    (numberOf?_eq_some_iff _ _ _).1 (by decide +kernel)
  exact ⟨hrun, promotion_preserves_meaning {} _ (by simp [Datum.isFunction]) {} hrun rfl⟩

end Evaluation

end SymbolInduction
