-- What the budgets cannot change. Two runs of one term, from any counters and
-- under any limits, give the same value or both fail, unless a limit stops one
-- of them. An application whose arguments are replaced by terms that behave
-- alike behaves as it did before.
import SymbolInduction.Proofs.Evaluation.Comparison

namespace SymbolInduction

/-- A failure that a larger budget could avoid, or one of the counters themselves. -/
def EvalError.isLimit : EvalError → Bool
  | .stepLimit _ | .depthExceeded _ | .counterOverflow => true
  | _ => false

namespace Metered

variable {α β : Type}

/-! ## Refusals -/

/-- A step that is refused is a limit. -/
theorem refuseStep_stops (limits : Limits) (m : Meter) :
    ∃ e n, (refuseStep limits : Metered α) m = .error e n ∧ e.isLimit = true := by
  rw [refuseStep_meter]
  split
  · exact ⟨_, _, rfl, rfl⟩
  · exact ⟨_, _, rfl, rfl⟩

/-- So is a level. -/
theorem refuseLevel_stops (limits : Limits) (m : Meter) :
    ∃ e n, (refuseLevel limits : Metered α) m = .error e n ∧ e.isLimit = true := by
  rw [refuseLevel_meter]
  split
  · exact ⟨_, _, rfl, rfl⟩
  · exact ⟨_, _, rfl, rfl⟩

/-! ## Runs that end alike -/

/-- Two runs end alike: with values that compare, or both without a value. A
run that was stopped at a limit is like every other run. -/
inductive EndsLike (R : α → β → Prop) :
    EStateM.Result EvalError Meter α → EStateM.Result EvalError Meter β → Prop
  | value {a : α} {b : β} (h : R a b) (m m' : Meter) : EndsLike R (.ok a m) (.ok b m')
  | failure (e e' : EvalError) (m m' : Meter) : EndsLike R (.error e m) (.error e' m')
  | stoppedFirst {e : EvalError} (he : e.isLimit = true) (b : β) (m m' : Meter) :
      EndsLike R (.error e m) (.ok b m')
  | stoppedSecond {e : EvalError} (he : e.isLimit = true) (a : α) (m m' : Meter) :
      EndsLike R (.ok a m) (.error e m')

/-- A run that was not stopped at a limit. -/
def Finishes : EStateM.Result EvalError Meter α → Prop
  | .ok .. => True
  | .error e _ => e.isLimit = false

/-- Two computations that end alike from all counters. -/
def Agree (R : α → β → Prop) (x : Metered α) (x' : Metered β) : Prop :=
  ∀ m m', EndsLike R (x m) (x' m')

theorem EndsLike.symm {r r' : EStateM.Result EvalError Meter α} (h : EndsLike Eq r r') :
    EndsLike Eq r' r := by
  cases h with
  | value h m m' => exact .value h.symm m' m
  | failure e e' m m' => exact .failure e' e m' m
  | stoppedFirst he a m m' => exact .stoppedSecond he a m' m
  | stoppedSecond he a m m' => exact .stoppedFirst he a m' m

theorem endsLike_stopped (R : α → β → Prop) {e : EvalError} (he : e.isLimit = true) (m : Meter)
    (r : EStateM.Result EvalError Meter β) : EndsLike R (.error e m) r := by
  cases r with
  | ok a m' => exact .stoppedFirst he a m m'
  | error e' m' => exact .failure e e' m m'

theorem endsLike_stopped' (R : α → β → Prop) {e : EvalError} (he : e.isLimit = true) (m : Meter)
    (r : EStateM.Result EvalError Meter α) : EndsLike R r (.error e m) := by
  cases r with
  | ok a m' => exact .stoppedSecond he a m' m
  | error e' m' => exact .failure e' e m' m

/-- Only a run that was not stopped carries the likeness on. -/
theorem EndsLike.trans {r s r' : EStateM.Result EvalError Meter α} (h : EndsLike Eq r s)
    (hs : Finishes s) (h' : EndsLike Eq s r') : EndsLike Eq r r' := by
  cases h with
  | value hab m m' =>
    subst hab
    cases h' with
    | value h _ n => exact .value h m n
    | stoppedSecond he _ _ n => exact .stoppedSecond he _ m n
  | failure e e' m m' =>
    cases h' with
    | failure _ e'' _ n => exact .failure e e'' m n
    | stoppedFirst he => rw [Finishes, he] at hs; cases hs
  | stoppedFirst he a m m' => exact endsLike_stopped Eq he m r'
  | stoppedSecond he => rw [Finishes, he] at hs; cases hs

/-- The value with which a run ended. -/
def valueOf? : EStateM.Result EvalError Meter α → Option α
  | .ok a _ => some a
  | .error .. => none

/-- The number to which a run came, with the counters at its end. Numbers can be told
apart, and functions cannot. -/
def numberOf? : EStateM.Result EvalError Meter Datum → Option (Int64 × Meter)
  | .ok (.int n) m => some (n, m)
  | _ => none

theorem numberOf?_eq_some_iff (r : EStateM.Result EvalError Meter Datum) (n : Int64) (m : Meter) :
    numberOf? r = some (n, m) ↔ r = .ok (.int n) m := by
  unfold numberOf?
  split <;> simp_all

theorem EndsLike.valueOf?_eq {r r' : EStateM.Result EvalError Meter α} (h : EndsLike Eq r r')
    (hr : Finishes r) (hr' : Finishes r') : valueOf? r = valueOf? r' := by
  cases h with
  | value h => exact congrArg some h
  | failure => rfl
  | stoppedFirst he => rw [Finishes, he] at hr; cases hr
  | stoppedSecond he => rw [Finishes, he] at hr'; cases hr'

theorem endsLike_of_valueOf?_eq {r r' : EStateM.Result EvalError Meter α}
    (h : valueOf? r = valueOf? r') : EndsLike Eq r r' := by
  cases r <;> cases r' <;> cases h
  · exact .value rfl _ _
  · exact .failure ..

/-! ## Computations that agree -/

theorem Agree.symm {x x' : Metered α} (h : Agree Eq x x') : Agree Eq x' x :=
  fun m m' => (h m' m).symm

theorem agree_refuseStep (R : α → β → Prop) (limits : Limits) (x : Metered β) :
    Agree R (refuseStep limits) x := fun m m' => by
  obtain ⟨e, n, hrefused, he⟩ := refuseStep_stops (α := α) limits m
  rw [hrefused]
  exact endsLike_stopped R he n (x m')

theorem agree_bind {γ δ : Type} {R : α → β → Prop} {S : γ → δ → Prop} {x : Metered α}
    {x' : Metered β} {f : α → Metered γ} {f' : β → Metered δ} (hx : Agree R x x')
    (hf : ∀ a b, R a b → Agree S (f a) (f' b)) : Agree S (x >>= f) (x' >>= f') := by
  intro m m'
  have h := hx m m'
  simp only [bind, EStateM.bind]
  cases hr : x m <;> cases hr' : x' m' <;> rw [hr, hr'] at h
  · cases h with
    | value h => exact hf _ _ h _ _
  · cases h with
    | stoppedSecond he => exact endsLike_stopped' S he _ _
  · cases h with
    | stoppedFirst he => exact endsLike_stopped S he _ _
  · exact .failure ..

theorem agree_tick (limits limits' : Limits) : Agree Eq (tick limits) (tick limits') := by
  intro m m'
  rw [tick_meter, tick_meter]
  split
  · split
    · exact .value rfl ..
    · exact (agree_refuseStep Eq limits' (pure ())).symm ..
  · exact agree_refuseStep Eq limits (tick limits') m m'

theorem agree_nested (limits limits' : Limits) {R : α → β → Prop} {x : Metered α}
    {x' : Metered β} (h : Agree R x x') : Agree R (nested limits x) (nested limits' x') := by
  intro m m'
  have hx := h { m with depth := m.depth + 1 } { m' with depth := m'.depth + 1 }
  rw [nested_meter, nested_meter]
  by_cases hd : m.depth < limits.depth
  · by_cases hd' : m'.depth < limits'.depth
    · rw [if_pos hd, if_pos hd']
      cases hr : x { m with depth := m.depth + 1 } <;>
        cases hr' : x' { m' with depth := m'.depth + 1 } <;> rw [hr, hr'] at hx
      · cases hx with
        | value h => exact .value h _ _
      · cases hx with
        | stoppedSecond he => exact .stoppedSecond he ..
      · cases hx with
        | stoppedFirst he => exact .stoppedFirst he ..
      · exact .failure ..
    · rw [if_neg hd']
      obtain ⟨e, n, hrefused, he⟩ := refuseLevel_stops (α := β) limits' m'
      rw [hrefused]
      exact endsLike_stopped' R he n _
  · rw [if_neg hd]
    obtain ⟨e, n, hrefused, he⟩ := refuseLevel_stops (α := α) limits m
    rw [hrefused]
    exact endsLike_stopped R he n _

/-- Agreement goes through all that evaluations are made of. -/
theorem comparison_agree (limits limits' : Limits) : Comparison limits limits' Agree where
  value h m m' := .value h m m'
  failure _ e m m' := .failure e e m m'
  bind := agree_bind
  tick := agree_tick limits limits'
  nested := agree_nested limits limits'
  refused R := agree_refuseStep R limits

end Metered

namespace Evaluation

open Metered

/-- Neither the fuel nor the limits nor the counters change what a term or an
application gives, unless one of them runs out. -/
theorem agree_within (limits limits' : Limits) (fuel fuel' : Nat) :
    (∀ t env, Agree Eq (evalWithin limits fuel t env) (evalWithin limits' fuel' t env)) ∧
      ∀ f x, Agree Eq (applyWithin limits fuel f x) (applyWithin limits' fuel' f x) := by
  have hself : ∀ env : List Datum, List.Forall₂ Eq env env := fun env =>
    List.forall₂_same.2 fun _ _ => rfl
  rcases Nat.le_total fuel fuel' with h | h
  · obtain ⟨heval, happly⟩ := (comparison_agree limits limits').within congruence_eq h
    exact ⟨fun t env => heval t (hself env), fun f x => happly rfl rfl⟩
  · obtain ⟨heval, happly⟩ := (comparison_agree limits' limits).within congruence_eq h
    exact ⟨fun t env => (heval t (hself env)).symm, fun f x => (happly rfl rfl).symm⟩

/-! ## Replacing arguments -/

/-- Two terms that behave alike in an environment, at all budgets. -/
def Interchangeable (limits : Limits) (env : List Datum) (t t' : Term) : Prop :=
  ∀ fuel fuel', Agree Eq (evalWithin limits fuel t env) (evalWithin limits fuel' t' env)

theorem interchangeable_self (limits : Limits) (env : List Datum) (t : Term) :
    Interchangeable limits env t t := fun fuel fuel' => (agree_within limits limits fuel fuel').1 t env

end Evaluation

namespace Term

theorem spineOn_eq (t : Term) (args : List Term) :
    t.spineOn args = (t.spine.1, t.spine.2 ++ args) := by
  unfold spine
  induction t generalizing args with
  | app f x ihf _ =>
    rw [spineOn, spineOn, ihf (x :: args), ihf [x]]
    simp
  | _ => rfl

theorem spineOn_applied (f : Term) (args rest : List Term) :
    (f.applied args).spineOn rest = f.spineOn (args ++ rest) := by
  induction args generalizing f with
  | nil => rfl
  | cons x args ih => exact ih (f.app x)

/-- An application has the head of what is applied, and the arguments after
those it had before. -/
theorem spine_applied (f : Term) (args : List Term) :
    (f.applied args).spine = (f.spine.1, f.spine.2 ++ args) := by
  have h := spineOn_applied f args []
  rw [List.append_nil, spineOn_eq f args] at h
  exact h

theorem applied_eq_app (f : Term) {args : List Term} (h : args ≠ []) :
    ∃ g x, f.applied args = app g x := by
  obtain ⟨args, x, rfl⟩ := List.eq_nil_or_concat args |>.resolve_left h
  exact ⟨f.applied args, x, by simp [applied]⟩

end Term

namespace Evaluation

open Metered

theorem evalWithin_applied (limits : Limits) (fuel : Nat) (f : Term) {args : List Term}
    (h : args ≠ []) (env : List Datum) :
    (evalWithin limits (fuel + 1) (f.applied args) env : Metered Datum) =
      tick limits >>= fun _ => nested limits (evalSpineWith
        (fun t => evalWithin limits fuel t env) (applyWithin limits fuel)
        f.spine.1 (f.spine.2 ++ args)) := by
  obtain ⟨g, x, hg⟩ := f.applied_eq_app h
  have hs := f.spine_applied args
  rw [hg] at hs ⊢
  rw [evalWithin_app, hs]

/-- Arguments may be replaced by others that behave alike: no run of the
application sees the difference. -/
theorem interchangeable_applied {limits : Limits} {env : List Datum} (f : Term)
    {args args' : List Term} (hne : args ≠ [])
    (hargs : List.Forall₂ (Interchangeable limits env) args args') :
    Interchangeable limits env (f.applied args) (f.applied args') := by
  intro fuel fuel'
  have hne' : args' ≠ [] := by
    rintro rfl
    cases hargs
    exact hne rfl
  cases fuel with
  | zero =>
    rw [evalWithin_zero]
    exact agree_refuseStep Eq limits _
  | succ fuel =>
    cases fuel' with
    | zero =>
      rw [evalWithin_zero]
      exact (agree_refuseStep Eq limits _).symm
    | succ fuel' =>
      have C := comparison_agree limits limits
      have happly : ∀ {g g' x x'}, g = g' → x = x' →
          Agree Eq (applyWithin limits fuel g x) (applyWithin limits fuel' g' x') := by
        rintro g _ x _ rfl rfl
        exact (agree_within limits limits fuel fuel').2 g x
      rw [evalWithin_applied limits fuel f hne, evalWithin_applied limits fuel' f hne']
      refine C.bind C.tick fun _ _ _ => C.nested (C.evalSpine congruence_eq.toCongruence happly ?_
        Iff.rfl (interchangeable_self limits env _ fuel fuel'))
      refine List.rel_append ?_ ?_
      · exact List.forall₂_same.2 fun t _ => interchangeable_self limits env t fuel fuel'
      · exact hargs.imp fun t t' h => h fuel fuel'

/-! ## Outcomes -/

/-- The evaluation of a term comes to an end within its limits. -/
def Completes (limits : Limits) (env : List Datum) (t : Term) : Prop :=
  ∀ e, outcome (eval limits t env) = .error e → e.isLimit = false

theorem finishes_of_completes {limits : Limits} {env : List Datum} {t : Term}
    (h : Completes limits env t) : Finishes (evalWithin limits limits.steps t env ({} : Meter)) := by
  unfold Completes outcome eval at h
  cases hr : evalWithin limits limits.steps t env ({} : Meter) with
  | ok d m => trivial
  | error e m =>
    refine h e ?_
    simp [hr]

/-- The value of a term, where it has one. -/
def value? (limits : Limits) (env : List Datum) (t : Term) : Option Datum :=
  (outcome (eval limits t env)).toOption

theorem value?_eq (limits : Limits) (env : List Datum) (t : Term) :
    value? limits env t = valueOf? (evalWithin limits limits.steps t env ({} : Meter)) := by
  unfold value? outcome eval
  simp only [Nat.sub_zero]
  cases evalWithin limits limits.steps t env ({} : Meter) <;> rfl

/-- Two terms whose evaluations come to an end behave alike exactly if they
have one value, or both have none. -/
theorem interchangeable_iff {limits : Limits} {env : List Datum} {t t' : Term}
    (h : Completes limits env t) (h' : Completes limits env t') :
    Interchangeable limits env t t' ↔ value? limits env t = value? limits env t' := by
  have hf := finishes_of_completes h
  have hf' := finishes_of_completes h'
  rw [value?_eq, value?_eq]
  constructor
  · intro hi
    exact (hi limits.steps limits.steps {} {}).valueOf?_eq hf hf'
  · intro heq fuel fuel' m m'
    have hstart := interchangeable_self limits env t fuel limits.steps m {}
    have hend := interchangeable_self limits env t' limits.steps fuel' {} m'
    exact (hstart.trans hf (endsLike_of_valueOf?_eq heq)).trans hf' hend

end Evaluation

end SymbolInduction
