-- How many arguments a value takes. The arity of a term is read off its text, and the
-- value of the term is a function at least until it has been given so many arguments,
-- whatever the budget of each application.
import SymbolInduction.Proofs.Evaluation.Calls
import SymbolInduction.Proofs.Evaluation.Pace

namespace SymbolInduction

/-- The larger ones of two limits. -/
instance : Max Limits where
  max limits limits' :=
    { steps := max limits.steps limits'.steps
      depth := max limits.depth limits'.depth
      steps_lt := Nat.max_lt.2 ⟨limits.steps_lt, limits'.steps_lt⟩
      depth_lt := Nat.max_lt.2 ⟨limits.depth_lt, limits'.depth_lt⟩ }

@[simp]
theorem Limits.max_steps (limits limits' : Limits) :
    (max limits limits').steps = max limits.steps limits'.steps := rfl

@[simp]
theorem Limits.max_depth (limits limits' : Limits) :
    (max limits limits').depth = max limits.depth limits'.depth := rfl

namespace Evaluation

open Metered

variable {limits limits' : Limits}

/-- A run that ends with a value does the same under larger limits. -/
theorem comparison_larger (hsteps : limits.steps ≤ limits'.steps)
    (hdepth : limits.depth ≤ limits'.depth) : Comparison limits limits' (KeepsPace 0 0) :=
  comparison_keepsPace hsteps hdepth

/-- What an evaluation gives it gives under larger limits as well. -/
theorem evalWithin_of_eval {t : Term} {env : List Datum} {f : Datum} {m n : Meter}
    (h : eval limits t env m = .ok f n) (hsteps : limits.steps ≤ limits'.steps)
    (hdepth : limits.depth ≤ limits'.depth) :
    evalWithin limits' (limits.steps - m.steps) t env m = .ok f n := by
  have hself : List.Forall₂ Eq env env := List.forall₂_same.2 fun _ _ => rfl
  have hpace := ((comparison_larger hsteps hdepth).within congruence_eq
    (Nat.le_refl (limits.steps - m.steps))).1 t hself
  obtain ⟨-, _, rfl, hlarger⟩ := hpace m f n h
  exact hlarger

theorem applyWithin_of_apply {f x g : Datum} {m n : Meter} (h : apply limits f x m = .ok g n)
    (hsteps : limits.steps ≤ limits'.steps) (hdepth : limits.depth ≤ limits'.depth) :
    applyWithin limits' (limits.steps - m.steps) f x m = .ok g n := by
  have hpace := ((comparison_larger hsteps hdepth).within congruence_eq
    (Nat.le_refl (limits.steps - m.steps))).2 (Eq.refl f) (Eq.refl x)
  obtain ⟨-, _, rfl, hlarger⟩ := hpace m g n h
  exact hlarger

/-- Under limits as large as all those of the applications, a value that waits for more
arguments than it is given is still a function. -/
theorem Applied.isFunction_of_waits {f g : Datum} {xs : List Datum} (h : Applied f xs g) :
    ∃ bound : Limits, ∀ limits : Limits, bound.steps ≤ limits.steps → bound.depth ≤ limits.depth →
      ∀ count, xs.length < count → Waits limits count f → g.isFunction = true := by
  induction h with
  | nil f =>
    refine ⟨{}, fun limits _ _ count hcount hwait => ?_⟩
    exact (hwait.mono (Nat.succ_le_of_lt hcount)).1
  | @cons f x g h xs limits m n happly _ ih =>
    obtain ⟨bound, hbound⟩ := ih
    refine ⟨max bound limits, ?_⟩
    intro limits' hsteps hdepth count hcount hwait
    rw [Limits.max_steps, Nat.max_le] at hsteps
    rw [Limits.max_depth, Nat.max_le] at hdepth
    rw [List.length_cons] at hcount
    obtain ⟨count, rfl⟩ : ∃ k, count = k + 1 := ⟨count - 1, by omega⟩
    have hg := applyWithin_of_apply happly hsteps.2 hdepth.2
    exact hbound limits' hsteps.1 hdepth.1 count (by omega) (hwait.2 _ x m g n hg)

/-- The value of a term is a function, and stays one, until it has been given as many
arguments as the term takes by its text. So a term whose value is no function takes none. -/
theorem a_value_takes_the_arity_of_its_term {t : Term} {env : List Datum} {f : Datum}
    {m n : Meter} (h : eval limits t env m = .ok f n) :
    (∀ xs g, xs.length < t.arity → Applied f xs g → g.isFunction = true) ∧
      (f.isFunction = false → t.arity = 0) := by
  have hfunction : ∀ xs g, xs.length < t.arity → Applied f xs g → g.isFunction = true := by
    intro xs g hlt hg
    obtain ⟨bound, hbound⟩ := hg.isFunction_of_waits
    -- limits as large as all that the value has met
    have heval : evalWithin (max bound limits) (limits.steps - m.steps) t env m = .ok f n :=
      evalWithin_of_eval h (Nat.le_max_right ..) (Nat.le_max_right ..)
    have hwait : Waits (max bound limits) t.arity f := (allWait_evalWithin t).1 _ env m f n heval
    exact hbound _ (Nat.le_max_left ..) (Nat.le_max_left ..) _ hlt hwait
  refine ⟨hfunction, fun hdata => ?_⟩
  by_contra hpos
  have hf := hfunction [] f (Nat.pos_of_ne_zero hpos) (.nil f)
  rw [hdata] at hf
  cases hf

/-- A binder around a sum that lacks its second argument: two arguments by its text, and
a function after the first one. -/
theorem a_sum_lacks_its_second_argument :
    let body : Term := .app (.prim .add) (.var 0)
    (Term.lam body).arity = 2 ∧
      eval {} (.lam body) [] {} = .ok (.closure body []) ⟨1, 0⟩ ∧
      apply {} (.closure body []) (.int 3) ⟨1, 0⟩ = .ok (.waiting .add [.int 3]) ⟨6, 0⟩ ∧
      (Datum.waiting .add [.int 3]).isFunction = true ∧
      (Datum.int 3).isFunction = false ∧ (Term.var 0).arity = 0 := by
  intro body
  have happly : apply {} (.closure body []) (.int 3) ⟨1, 0⟩ = .ok (.waiting .add [.int 3]) ⟨6, 0⟩ :=
    rfl
  have hclosure := @a_value_takes_the_arity_of_its_term {} (.lam body) [] _ {} _ rfl
  have hnumber := @a_value_takes_the_arity_of_its_term {} (.var 0) [.int 3] _ {} _ rfl
  exact ⟨rfl, rfl, happly, hclosure.1 [.int 3] _ (by decide) (.cons happly (.nil _)), rfl,
    hnumber.2 rfl⟩

end Evaluation

end SymbolInduction
