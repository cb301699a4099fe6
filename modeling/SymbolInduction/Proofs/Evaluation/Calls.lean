-- Calls under a budget. Every call that begins within its budget ends, takes no more
-- steps than it may, and comes back to the level from which it was made; and whatever
-- the counters are, it keeps to the discipline of what it is made of.
import SymbolInduction.Proofs.Evaluation.Agreement
import SymbolInduction.Proofs.Evaluation.Discipline

namespace SymbolInduction.Evaluation

open Metered

/-- What a call is made of is what the discipline allows. -/
def Discipline.call (D : Discipline) : Call → Prop
  | .eval t env => D.code t env
  | .apply f x => D.data f ∧ D.data x
  | .fire _ args => ∀ d ∈ args, D.data d
  | .recurse x f => D.data x ∧ D.data f

section

variable {D : Discipline} {limits : Limits}

theorem abides_call {c : Call} (h : D.call c) {fuel fuel' : Nat} (hle : fuel ≤ fuel') :
    Abides D limits fuel D.data (c.runWithin limits fuel) (c.runWithin limits fuel') := by
  obtain ⟨heval, happly⟩ := abides_within D limits hle
  cases c with
  | eval t env => exact heval t env h
  | apply f x => exact happly f x h.1 h.2
  | fire p args => exact abides_fire happly p h
  | recurse x f => exact abides_recurse happly h.1 h.2

/-- A call from within the budget ends as the discipline has it, with fuel for the steps
that are left and with any more. -/
theorem runWithin_ends {c : Call} (h : D.call c) {m : Meter} (hm : m.steps ≤ limits.steps)
    {fuel : Nat} (hfuel : limits.steps - m.steps ≤ fuel) :
    Ends D.failure limits m D.data (c.runWithin limits fuel m) ∧
      Watched.forget (c.watch limits ⟨m, []⟩) = c.runWithin limits fuel m ∧
      ∀ level ∈ Watched.levels (c.watch limits ⟨m, []⟩), InReach limits ⟨m, []⟩ level :=
  abides_call h hfuel ⟨m, []⟩ hm (show limits.steps ≤ m.steps + (limits.steps - m.steps) by omega)

end

/-! ## The budget -/

/-- The discipline that all code keeps to: a failure is no limit. -/
def Discipline.any : Discipline where
  data _ := True
  code _ _ := True
  failure e := e.isLimit = false
  plain _ := trivial
  waiting_iff := by simp
  recur_iff := Iff.rfl
  closure_iff := Iff.rfl
  bound _ _ := trivial
  unbound _ _ := rfl
  body _ _ := trivial
  head _ := trivial
  argument _ := trivial
  promoted _ := trivial
  refusal h := by
    rename_i e
    cases e <;> first | rfl | exact h.elim

theorem Discipline.any_call (c : Call) : Discipline.any.call c := by
  cases c with
  | eval => trivial
  | apply => exact ⟨trivial, trivial⟩
  | fire => exact fun _ _ => trivial
  | recurse => exact ⟨trivial, trivial⟩

/-- The steps that are left are fuel enough: with more of it a call does the same. -/
theorem runWithin_eq_run {limits : Limits} (c : Call) {m : Meter} (hm : m.steps ≤ limits.steps)
    {fuel : Nat} (hfuel : limits.steps - m.steps ≤ fuel) :
    c.runWithin limits fuel m = c.run limits m := by
  have hmore := (runWithin_ends (Discipline.any_call c) hm hfuel).2.1
  have hleft := (runWithin_ends (Discipline.any_call c) hm (Nat.le_refl _)).2.1
  rw [Call.run_eq, ← hmore, hleft]

/-- A call that begins within its budget ends, and with any more fuel it does the same. Its
steps stay within their limit, but for the one step that was too many, and it comes back to
its level, but for the one level that was refused; where there is no word left for that step
or that level, the program stops instead. It does the same while it is watched; and from a
level within the limit it never stands deeper than one level below the limit. -/
theorem a_call_stays_within_its_budget (limits : Limits) (c : Call) {m : Meter}
    (h : m.steps ≤ limits.steps) :
    Ends (fun e => e.isLimit = false) limits m (fun _ => True) (c.run limits m) ∧
      (∀ fuel, limits.steps - m.steps ≤ fuel → c.runWithin limits fuel m = c.run limits m) ∧
      Watched.forget (c.watch limits ⟨m, []⟩) = c.run limits m ∧
      (m.depth ≤ limits.depth →
        ∀ level ∈ Watched.levels (c.watch limits ⟨m, []⟩), level ≤ limits.depth + 1) := by
  obtain ⟨hends, hforget, hlevels⟩ :=
    runWithin_ends (Discipline.any_call c) h (Nat.le_refl (limits.steps - m.steps))
  rw [← Call.run_eq] at hends hforget
  refine ⟨hends, fun fuel hfuel => runWithin_eq_run c h hfuel, hforget, fun hdepth level hlevel => ?_⟩
  rcases hlevels level hlevel with hmem | hle
  · cases hmem
  · rwa [Nat.max_eq_left hdepth] at hle

/-- Under a limit of one level, the successor of a successor is refused its inner list
of arguments. -/
theorem a_second_level_is_refused :
    let limits : Limits := { steps := 20, depth := 1 }
    let c := Call.eval (.app (.prim .incr) (.app (.prim .incr) (.literal 1))) []
    c.run limits ⟨3, 0⟩ = .error (.depthExceeded 1) ⟨6, 1⟩ ∧
      (∀ fuel, 17 ≤ fuel →
        c.runWithin limits fuel (⟨3, 0⟩ : Meter) = .error (.depthExceeded 1) ⟨6, 1⟩) ∧
      Watched.levels (c.watch limits ⟨⟨3, 0⟩, []⟩) = [1, 2, 1, 1, 1, 0] ∧
      ∀ level ∈ Watched.levels (c.watch limits ⟨⟨3, 0⟩, []⟩), level ≤ 2 := by
  intro limits c
  have hrun : c.run limits ⟨3, 0⟩ = .error (.depthExceeded 1) ⟨6, 1⟩ := rfl
  obtain ⟨-, hfuel, -, hlevels⟩ :=
    a_call_stays_within_its_budget limits c (show (⟨3, 0⟩ : Meter).steps ≤ 20 by decide)
  exact ⟨hrun, fun fuel h => (hfuel fuel h).trans hrun, rfl, hlevels (by decide)⟩

/-- Where there is a word left for both, no counter stops the program. -/
theorem run_ne_overflow {limits : Limits} (hfits : limits.Fits) (c : Call) {m : Meter}
    (hsteps : m.steps ≤ limits.steps) (hdepth : m.depth ≤ limits.depth) (n : Meter) :
    c.run limits m ≠ .error .counterOverflow n := by
  intro hrun
  have hends := (runWithin_ends (Discipline.any_call c) hsteps (Nat.le_refl _)).1
  rw [← Call.run_eq, hrun] at hends
  cases hends with
  | failure h => cases h
  | overflow h =>
    have := hfits.steps
    have := hfits.depth
    omega

/-! ## The recursion without fuel -/

section

variable {limits : Limits}

theorem evalWithin_eq_eval {fuel : Nat} (hfuel : limits.steps ≤ fuel) (t : Term)
    (env : List Datum) : evalWithin limits fuel t env = eval limits t env := by
  funext m
  by_cases hm : m.steps ≤ limits.steps
  · exact runWithin_eq_run (.eval t env) hm (Nat.le_trans (Nat.sub_le ..) hfuel)
  · have hrefused := fun fuel => evalWithin_refused (Nat.le_of_not_le hm) fuel t env
    exact (hrefused fuel).trans (hrefused _).symm

theorem applyWithin_eq_apply {fuel : Nat} (hfuel : limits.steps ≤ fuel) :
    applyWithin limits fuel = apply limits := by
  funext f x m
  by_cases hm : m.steps ≤ limits.steps
  · exact runWithin_eq_run (.apply f x) hm (Nat.le_trans (Nat.sub_le ..) hfuel)
  · have hrefused := fun fuel => applyWithin_refused (Nat.le_of_not_le hm) fuel f x
    exact (hrefused fuel).trans (hrefused _).symm

/-- Evaluation under a budget is the recursion of its own equation. -/
theorem eval_eq (t : Term) (env : List Datum) :
    eval limits t env = tick limits >>= fun _ =>
      match t with
      | .var i => lookup env i
      | .lam body => pure (.closure body env)
      | .prim p => pure ((Datum.ofConstant? p).getD (.waiting p []))
      | .promoted body => eval limits body []
      | .app f x => nested limits (evalSpineWith (fun t => eval limits t env) (apply limits)
          (Term.app f x).spine.1 (Term.app f x).spine.2) := by
  have heval := evalWithin_eq_eval (Nat.le_refl limits.steps)
  have happly := applyWithin_eq_apply (Nat.le_refl limits.steps)
  rw [← evalWithin_eq_eval (Nat.le_succ limits.steps)]
  cases t <;> simp only [evalWithin, heval, happly]

/-- Application under a budget is the recursion of its own equation. -/
theorem apply_eq (f x : Datum) :
    apply limits f x = tick limits >>= fun _ =>
      match f with
      | .closure body env => nested limits (eval limits body (x :: env))
      | .waiting p given =>
        if (given ++ [x]).length = p.arity then fireWith limits (apply limits) p (given ++ [x])
        else pure (.waiting p (given ++ [x]))
      | .recur f => recurseWith limits (apply limits) x f
      | _ => throw (.typeMismatch "application of a non-function") := by
  have heval := evalWithin_eq_eval (Nat.le_refl limits.steps)
  have happly := applyWithin_eq_apply (Nat.le_refl limits.steps)
  have hmore := applyWithin_eq_apply (Nat.le_succ limits.steps)
  rw [← congrFun (congrFun hmore f) x]
  cases f <;> simp only [applyWithin, heval, happly]

/-- A primitive that is fired within the budget applies functions under it. -/
theorem fire_eq (p : Primitive) (args : List Datum) {m : Meter} (hm : m.steps ≤ limits.steps) :
    fire limits p args m = fireWith limits (apply limits) p args m := by
  rw [← applyWithin_eq_apply (Nat.le_refl limits.steps)]
  exact (runWithin_eq_run (.fire p args) hm (Nat.sub_le ..)).symm

theorem recurse_eq (x f : Datum) {m : Meter} (hm : m.steps ≤ limits.steps) :
    recurse limits x f m = recurseWith limits (apply limits) x f m := by
  rw [← applyWithin_eq_apply (Nat.le_refl limits.steps)]
  exact (runWithin_eq_run (.recurse x f) hm (Nat.sub_le ..)).symm

end

/-! ## What comes of a call -/

section

variable {D : Discipline} {limits : Limits}

/-- A result such as the discipline has it, or a limit. -/
def Discipline.Allows (D : Discipline) : EStateM.Result EvalError Meter Datum → Prop
  | .ok d _ => D.data d
  | .error e _ => D.failure e ∨ e.isLimit = true

theorem Ends.allows {m : Meter} {r : EStateM.Result EvalError Meter Datum}
    (h : Ends D.failure limits m D.data r) : D.Allows r := by
  cases h with
  | value h _ _ _ => exact h
  | failure h _ _ => exact Or.inl h
  | stepLimit _ _ => exact Or.inr rfl
  | depthExceeded _ _ => exact Or.inr rfl
  | overflow _ _ _ => exact Or.inr rfl

theorem allows_refuseStep (m : Meter) : D.Allows (refuseStep limits m) := by
  obtain ⟨e, n, hrefused, he⟩ := refuseStep_stops (α := Datum) limits m
  rw [hrefused]
  exact Or.inr he

theorem eval_allows {t : Term} {env : List Datum} (h : D.code t env) (m : Meter) :
    D.Allows (eval limits t env m) := by
  by_cases hm : m.steps ≤ limits.steps
  · have hcall : D.call (.eval t env) := h
    exact (runWithin_ends hcall hm (Nat.le_refl _)).1.allows
  · rw [show eval limits t env m = refuseStep limits m from
      evalWithin_refused (Nat.le_of_not_le hm) _ t env]
    exact allows_refuseStep m

theorem apply_allows {f x : Datum} (hf : D.data f) (hx : D.data x) (m : Meter) :
    D.Allows (apply limits f x m) := by
  by_cases hm : m.steps ≤ limits.steps
  · have hcall : D.call (.apply f x) := ⟨hf, hx⟩
    exact (runWithin_ends hcall hm (Nat.le_refl _)).1.allows
  · rw [show apply limits f x m = refuseStep limits m from
      applyWithin_refused (Nat.le_of_not_le hm) _ f x]
    exact allows_refuseStep m

end

/-! ## One application after another -/

/-- The first value, applied to the arguments one after another, comes to the second
one; each application has its own limits and its own counters. -/
inductive Applied : Datum → List Datum → Datum → Prop
  | nil (f : Datum) : Applied f [] f
  | cons {f x g h : Datum} {xs : List Datum} {limits : Limits} {m n : Meter}
      (happly : apply limits f x m = .ok g n) (hrest : Applied g xs h) : Applied f (x :: xs) h

theorem Applied.data {D : Discipline} {f g : Datum} {xs : List Datum} (h : Applied f xs g)
    (hf : D.data f) (hxs : ∀ x ∈ xs, D.data x) : D.data g := by
  induction h with
  | nil f => exact hf
  | @cons f x g h xs limits m n happly _ ih =>
    rw [List.forall_mem_cons] at hxs
    have hg := @apply_allows D limits f x hf hxs.1 m
    rw [happly] at hg
    exact ih hg hxs.2

end SymbolInduction.Evaluation
