-- Two ways to choose a branch. `if` as a value takes its arguments one by one and chooses
-- when both branches have been evaluated; `if` written with all its arguments evaluates
-- the branch that it takes, and never the other one. Where the first way gives a value,
-- the second one gives the same, in no more steps.
import SymbolInduction.Proofs.Evaluation.Programs
import SymbolInduction.Proofs.Evaluation.Promotion

namespace SymbolInduction.Evaluation

open Metered

variable {limits limits' : Limits} {fuel : Nat} {env : List Datum}

/-! ## The value of a head -/

/-- What a term gives on one run, its head gives with its own arguments on every other run
that ends with a value. -/
theorem evalSpine_of_eval {t : Term} {d : Datum} {m n : Meter}
    (h : eval limits t env m = .ok d n) {m' n' : Meter} {d' : Datum}
    (h' : evalSpineWith (fun t => evalWithin limits' fuel t env) (applyWithin limits' fuel)
      t.spine.1 t.spine.2 m' = .ok d' n') : d' = d := by
  obtain ⟨-, -, _, _, hspine, rfl, -, -⟩ :=
    noSlower_head env t m m (Nat.le_refl _) (Nat.le_refl _) d n h
  obtain ⟨heval, happly⟩ := agree_within limits limits' (limits.steps - m.steps) fuel
  have happly' : ∀ {f f' x x'}, f = f' → x = x' →
      Agree Eq (applyWithin limits (limits.steps - m.steps) f x)
        (applyWithin limits' fuel f' x') := by
    rintro f _ x _ rfl rfl
    exact happly f x
  have hargs : List.Forall₂ (fun t t' => Agree Eq (evalWithin limits (limits.steps - m.steps) t env)
      (evalWithin limits' fuel t' env)) t.spine.2 t.spine.2 :=
    List.forall₂_same.2 fun t _ => heval t env
  have hends := (comparison_agree limits limits').evalSpine congruence_eq.toCongruence happly' hargs
    Iff.rfl (heval t.spine.1 env) m m'
  rw [hspine, h'] at hends
  cases hends with
  | value heq => exact heq.symm

/-- `if` with too few arguments waits for the others, and keeps those that it has. -/
theorem applyAll_cond {args : List Term} {given : List Datum}
    (hlen : given.length + args.length < 3) {m n : Meter} {d : Datum}
    (h : applyAllWith (fun t => evalWithin limits fuel t env) (applyWithin limits fuel)
      (.waiting .cond given) args m = .ok d n) :
    ∃ kept, d = .waiting .cond kept ∧ kept.length = given.length + args.length := by
  induction args generalizing given m with
  | nil =>
    cases h
    exact ⟨given, rfl, rfl⟩
  | cons t args ih =>
    rw [List.length_cons] at hlen ⊢
    obtain ⟨x, k, -, h⟩ := bind_eq_ok h
    obtain ⟨g, l, hg, h⟩ := bind_eq_ok h
    cases fuel with
    | zero =>
      rw [applyWithin_zero] at hg
      exact absurd hg (refuseStep_ne_ok limits k l g)
    | succ fuel =>
      rw [apply_cond limits fuel (by omega)] at hg
      obtain ⟨-, k', -, hg⟩ := bind_eq_ok hg
      cases hg
      have hgiven : (given ++ [x]).length = given.length + 1 := by simp
      obtain ⟨kept, rfl, hkept⟩ := ih (by omega) h
      exact ⟨kept, rfl, by omega⟩

/-- A term that gives `if` without any argument is `if` itself, or its head has all it
needs for a value: no argument that follows goes to an `if` at the head. -/
theorem head_of_cond {h : Term} {m n : Meter}
    (hcond : eval limits h env m = .ok (.waiting .cond []) n) :
    h = .prim .cond ∨ h.spine.1 ≠ .prim .cond ∨ 3 ≤ h.spine.2.length := by
  by_contra hnone
  obtain ⟨hne, hhead, hlen⟩ : h ≠ .prim .cond ∧ h.spine.1 = .prim .cond ∧ h.spine.2.length < 3 := by
    simpa only [not_or, not_not, Nat.not_le] using hnone
  obtain ⟨-, -, _, k, hspine, rfl, -, -⟩ :=
    noSlower_head env h m m (Nat.le_refl _) (Nat.le_refl _) _ n hcond
  rw [evalSpine_eq (Or.inr hlen), hhead] at hspine
  obtain ⟨f, l, hf, hargs⟩ := bind_eq_ok hspine
  generalize limits.steps - m.steps = fuel at hf hargs
  cases fuel with
  | zero =>
    rw [evalWithin_zero] at hf
    exact absurd hf (refuseStep_ne_ok limits m l f)
  | succ fuel =>
    rw [eval_cond] at hf
    obtain ⟨-, l', -, hf⟩ := bind_eq_ok hf
    cases hf
    obtain ⟨kept, heq, hkept⟩ := applyAll_cond (by simpa using hlen) hargs
    cases heq
    have hnil : h.spine.2 = [] := List.length_eq_zero_iff.1 (by simpa using hkept.symm)
    refine hne ?_
    rw [← h.applied_spine, hhead, hnil]
    rfl

/-! ## The two ways -/

/-- A computation that can give one value only goes on with that value. -/
theorem bind_of_only {α β : Type} {x : Metered α} {f : α → Metered β} {a : α}
    (h : ∀ m b n, x m = .ok b n → b = a) : x >>= f = x >>= fun _ => f a := by
  funext m
  simp only [bind, EStateM.bind]
  cases hr : x m with
  | ok b n =>
    obtain rfl := h m b n hr
    rfl
  | error e n => rfl

/-- Arguments that follow a head that gives `if`, and the same arguments written after
`if` itself. -/
theorem noSlower_choice {h : Term} {m n : Meter}
    (hcond : eval limits h env m = .ok (.waiting .cond []) n) {args : List Term}
    (hargs : 3 ≤ args.length) :
    NoSlower Eq
      (evalSpineWith (fun t => evalWithin limits' fuel t env) (applyWithin limits' fuel) h.spine.1
        (h.spine.2 ++ args))
      (evalSpineWith (fun t => evalWithin limits' fuel t env) (applyWithin limits' fuel)
        (.prim .cond) args) := by
  rcases head_of_cond hcond with rfl | hhead
  · exact noSlower_self env _ _
  · rw [evalSpine_append _ _ hhead, bind_of_only fun _ _ _ hrun => evalSpine_of_eval hcond hrun]
    exact (noSlower_self env _ _).skip fun _ => noSlower_branch env hargs

/-- The lazy choice agrees with the strict one. Where a head gives `if` as a value, under
any budget, and the application of that head to a condition, two branches and any further
arguments gives a value, `if` written with these arguments gives it too, from the same
counters: in no more steps, and at the same depth. -/
theorem a_lazy_choice_agrees_with_a_strict_one {h : Term} {m₀ n₀ : Meter}
    (hcond : eval limits h env m₀ = .ok (.waiting .cond []) n₀) (c t e : Term) (extra : List Term)
    {m n : Meter} {v : Datum}
    (hrun : eval limits' (h.applied (c :: t :: e :: extra)) env m = .ok v n) :
    ∃ n', eval limits' ((Term.prim .cond).applied (c :: t :: e :: extra)) env m = .ok v n' ∧
      n'.steps ≤ n.steps ∧ n'.depth = n.depth := by
  have hargs : c :: t :: e :: extra ≠ [] := List.cons_ne_nil _ _
  have C := comparison_noSlower limits'
  unfold eval at hrun ⊢
  generalize limits'.steps - m.steps = fuel at hrun ⊢
  cases fuel with
  | zero =>
    rw [evalWithin_zero] at hrun
    exact absurd hrun (refuseStep_ne_ok limits' m n v)
  | succ fuel =>
    rw [evalWithin_applied limits' fuel h hargs] at hrun
    rw [evalWithin_applied limits' fuel (.prim .cond) hargs]
    have hchoice := @noSlower_choice limits limits' fuel env h m₀ n₀ hcond (c :: t :: e :: extra)
      (by simp)
    obtain ⟨-, hdepth, _, n', hrun', rfl, hsteps, hdepth'⟩ :=
      C.bind C.tick (fun _ _ _ => C.nested hchoice) m m (Nat.le_refl _) (Nat.le_refl _) v n hrun
    exact ⟨n', hrun', hsteps, hdepth'.trans hdepth.symm⟩

/-- A variable that stands for `if`, before a condition, two functions, and an argument for
the function that is chosen. -/
theorem a_variable_chooses_a_function :
    let args := [.app (.prim .isNil) (.prim .nil), .prim .incr, .prim .decr, .literal 7]
    let env := [.waiting .cond []]
    let limits : Limits := { steps := 40, depth := 9 }
    eval {} (.var 0) env {} = .ok (.waiting .cond []) ⟨1, 0⟩ ∧
      eval limits (.applied (.var 0) args) env ⟨3, 1⟩ = .ok (.int 8) ⟨16, 1⟩ ∧
      ∃ n', eval limits (.applied (.prim .cond) args) env ⟨3, 1⟩ = .ok (.int 8) n' ∧
        n'.steps ≤ 16 ∧ n'.depth = 1 := by
  intro args env limits
  have hcond : eval {} (.var 0) env {} = .ok (.waiting .cond []) ⟨1, 0⟩ := by rfl
  have hrun : eval limits (.applied (.var 0) args) env ⟨3, 1⟩ = .ok (.int 8) ⟨16, 1⟩ :=
    (numberOf?_eq_some_iff _ _ _).1 (by decide +kernel)
  exact ⟨hcond, hrun, a_lazy_choice_agrees_with_a_strict_one hcond _ _ _ _ hrun⟩

end SymbolInduction.Evaluation
