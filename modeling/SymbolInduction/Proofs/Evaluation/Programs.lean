-- What a closed program gives that is made of a body. A term whose value is no
-- function waits for nothing, so binders around it make a program that takes
-- one argument for each of them; and what that program gives is the value of
-- the body, with the arguments as its variables.
import SymbolInduction.Enumeration.Bank
import SymbolInduction.Proofs.Evaluation.Agreement

namespace SymbolInduction

/-! ## Values that wait for arguments -/

namespace Evaluation

/-- Applied to so many arguments, one after another, the value is a function
until the last one, however much fuel each application has. -/
def Waits (limits : Limits) : (count : Nat) → Datum → Prop
  | 0, _ => True
  | count + 1, f => f.isFunction = true ∧
      ∀ fuel x (m : Meter) g n, applyWithin limits fuel f x m = .ok g n → Waits limits count g

variable {limits : Limits}

theorem Waits.mono {count less : Nat} {f : Datum} (h : Waits limits count f) (hle : less ≤ count) :
    Waits limits less f := by
  induction less generalizing count f with
  | zero => trivial
  | succ less ih =>
    obtain ⟨count, rfl⟩ : ∃ k, count = k + 1 := ⟨count - 1, by omega⟩
    exact ⟨h.1, fun fuel x m g n hg => ih (h.2 fuel x m g n hg) (by omega)⟩

/-- Every value of the computation waits for so many arguments. -/
def AllWait (limits : Limits) (count : Nat) (x : Metered Datum) : Prop :=
  ∀ m d n, x m = .ok d n → Waits limits count d

theorem allWait_pure {count : Nat} {d : Datum} (h : Waits limits count d) :
    AllWait limits count (pure d) := by
  intro m d n hd
  cases hd
  exact h

/-- What a term does after its first step says how its value waits. -/
theorem allWait_step {count : Nat} {t : Term} {env : List Datum} {next : Nat → Metered Datum}
    (hstep : ∀ fuel, (evalWithin limits (fuel + 1) t env : Metered Datum) =
      Metered.tick limits >>= fun _ => next fuel)
    (hnext : ∀ fuel, AllWait limits count (next fuel)) (fuel : Nat) :
    AllWait limits count (evalWithin limits fuel t env) := by
  intro m d n h
  cases fuel with
  | zero =>
    rw [evalWithin_zero] at h
    exact absurd h (Metered.refuseStep_ne_ok limits m n d)
  | succ fuel =>
    rw [hstep] at h
    obtain ⟨-, m', -, h⟩ := Metered.bind_eq_ok h
    exact hnext fuel m' d n h

/-- A primitive with some of its arguments waits for the others. -/
theorem waits_waiting (p : Primitive) (given : List Datum) :
    Waits limits (p.arity - given.length) (.waiting p given) := by
  generalize hk : p.arity - given.length = k
  induction k generalizing given with
  | zero => trivial
  | succ k ih =>
    refine ⟨rfl, ?_⟩
    intro fuel x m g n hg
    cases fuel with
    | zero =>
      rw [applyWithin_zero] at hg
      exact absurd hg (Metered.refuseStep_ne_ok limits m n g)
    | succ fuel =>
      rw [applyWithin] at hg
      obtain ⟨-, m', -, hg⟩ := Metered.bind_eq_ok hg
      have hlen : (given ++ [x]).length = given.length + 1 := by simp
      dsimp only at hg
      split at hg
      · obtain rfl : k = 0 := by omega
        trivial
      · cases hg
        exact ih (given ++ [x]) (by omega)

theorem waits_closure {body : Term} {env : List Datum} {count : Nat}
    (h : ∀ fuel x, AllWait limits count (evalWithin limits fuel body (x :: env))) :
    Waits limits (count + 1) (.closure body env) := by
  refine ⟨rfl, ?_⟩
  intro fuel x m g n hg
  cases fuel with
  | zero =>
    rw [applyWithin_zero] at hg
    exact absurd hg (Metered.refuseStep_ne_ok limits m n g)
  | succ fuel =>
    rw [applyWithin] at hg
    obtain ⟨-, m', -, hg⟩ := Metered.bind_eq_ok hg
    obtain ⟨-, l, hg, -⟩ := (Metered.nested_eq_ok_iff ..).1 hg
    exact h fuel x _ g l hg

theorem allWait_applyAll {fuel : Nat} {eval : Term → Metered Datum} {count : Nat} {f : Datum}
    (hf : Waits limits count f) (args : List Term) :
    AllWait limits (count - args.length) (applyAllWith eval (applyWithin limits fuel) f args) := by
  induction args generalizing count f with
  | nil =>
    intro m d n h
    cases h
    exact hf
  | cons arg args ih =>
    intro m d n h
    unfold applyAllWith at h
    obtain ⟨x, m', -, h⟩ := Metered.bind_eq_ok h
    obtain ⟨g, m'', hg, h⟩ := Metered.bind_eq_ok h
    have hless : Waits limits (count - 1) g := by
      cases count with
      | zero => trivial
      | succ count => exact hf.2 fuel x m' g m'' hg
    rw [List.length_cons, show count - (args.length + 1) = count - 1 - args.length by omega]
    exact ih hless m'' d n h

theorem arity_app_le (f x : Term) :
    (Term.app f x).arity ≤
      (Term.app f x).spine.1.arity - (Term.app f x).spine.2.length := by
  rw [Term.arity_app]
  split
  · rename_i h
    rw [h]
    exact Nat.le_refl _
  · rename_i h
    rw [h]
    exact Nat.le_refl _
  · exact Nat.zero_le _

theorem waits_constant (p : Primitive) :
    Waits limits p.arity ((Datum.ofConstant? p).getD (.waiting p [])) := by
  cases h : Datum.ofConstant? p with
  | none => exact waits_waiting p []
  | some d =>
    have harity : p.arity = 0 := by
      cases p with
      | literal | nil => rfl
      | _ => cases h
    rw [harity]
    trivial

/-- The value of an application waits for what the head waits for, less what it
is given. -/
theorem allWait_app {f x : Term}
    (hhead : ∀ fuel env, AllWait limits (Term.app f x).spine.1.arity
      (evalWithin limits fuel (Term.app f x).spine.1 env)) (fuel : Nat) (env : List Datum) :
    AllWait limits (Term.app f x).arity (evalWithin limits fuel (.app f x) env) := by
  refine allWait_step (fun fuel => evalWithin_app limits fuel f x env) ?_ fuel
  intro fuel m d n h
  obtain ⟨-, l, h, -⟩ := (Metered.nested_eq_ok_iff ..).1 h
  refine Waits.mono ?_ (arity_app_le f x)
  generalize (Term.app f x).spine = s at *
  by_cases hs : s.1 ≠ .prim .cond ∨ s.2.length < 3
  · rw [evalSpine_eq hs] at h
    obtain ⟨g, k', hg, h⟩ := Metered.bind_eq_ok h
    exact allWait_applyAll (hhead fuel env _ g k' hg) s.2 k' d l h
  · -- `if` with all its arguments waits for nothing
    have hs : s.1 = .prim .cond ∧ 3 ≤ s.2.length := by simpa using hs
    have harity : s.1.arity - s.2.length = 0 := by
      rw [hs.1, show (Term.prim .cond).arity = 3 from rfl]
      omega
    rw [harity]
    trivial

/-- The value of a term waits for as many arguments as the term takes, and so
does the value of its head. -/
theorem allWait_evalWithin (t : Term) :
    (∀ fuel env, AllWait limits t.arity (evalWithin limits fuel t env)) ∧
      ∀ fuel env, AllWait limits t.spine.1.arity (evalWithin limits fuel t.spine.1 env) := by
  induction t with
  | app f x ihf _ =>
    have hhead : (Term.app f x).spine.1 = f.spine.1 := by
      unfold Term.spine
      rw [Term.spineOn, Term.spineOn_eq]
      rfl
    rw [hhead]
    exact ⟨allWait_app (hhead ▸ ihf.2), ihf.2⟩
  | var i => exact ⟨fun _ _ _ _ _ _ => trivial, fun _ _ _ _ _ _ => trivial⟩
  | lam body ih =>
    refine and_self_iff.2 fun fuel env => allWait_step (fun _ => by rw [evalWithin]) (fun _ => ?_) fuel
    exact allWait_pure (waits_closure fun fuel x => ih.1 fuel (x :: env))
  | prim p =>
    refine and_self_iff.2 fun fuel env => allWait_step (fun _ => by rw [evalWithin]) (fun _ => ?_) fuel
    exact allWait_pure (waits_constant p)
  | promoted body ih =>
    refine and_self_iff.2 fun fuel env => allWait_step (fun _ => by rw [evalWithin]) ?_ fuel
    exact fun fuel => ih.1 fuel []

/-- A term that has a value, and no function, takes no arguments. -/
theorem arity_eq_zero {env : List Datum} {t : Term} {d : Datum}
    (h : value? limits env t = some d) (hdata : d.isFunction = false) : t.arity = 0 := by
  rw [value?_eq] at h
  have hwait := (@allWait_evalWithin limits t).1 limits.steps env {}
  cases hr : evalWithin limits limits.steps t env ({} : Meter) with
  | error e m =>
    rw [hr] at h
    cases h
  | ok a m =>
    rw [hr] at h
    cases h
    cases ha : t.arity with
    | zero => rfl
    | succ k =>
      have hfunction := (ha ▸ hwait d m hr).1
      rw [hdata] at hfunction
      cases hfunction

/-! ## Programs with a body -/

/-- From all counters the computation gives the value, unless a limit stops it. -/
def Gives {α : Type} (a : α) (x : Metered α) : Prop :=
  ∀ m, (∃ n, x m = .ok a n) ∨ ∃ e n, x m = .error e n ∧ e.isLimit = true

theorem gives_pure {α : Type} (a : α) : Gives a (pure a) := fun m => Or.inl ⟨m, rfl⟩

theorem Gives.bind {α β : Type} {a : α} {b : β} {x : Metered α} {f : α → Metered β}
    (hx : Gives a x) (hf : Gives b (f a)) : Gives b (x >>= f) := by
  intro m
  simp only [Bind.bind, EStateM.bind]
  rcases hx m with ⟨n, hn⟩ | ⟨e, n, hn, he⟩
  · rw [hn]
    exact hf n
  · rw [hn]
    exact Or.inr ⟨e, n, rfl, he⟩

theorem gives_refuseStep {α : Type} (a : α) : Gives a (Metered.refuseStep limits) := fun m =>
  Or.inr (Metered.refuseStep_stops limits m)

theorem gives_tick : Gives () (Metered.tick limits) := by
  intro m
  rw [Metered.tick_meter]
  split
  · exact Or.inl ⟨_, rfl⟩
  · exact gives_refuseStep () m

theorem Gives.nested {α : Type} {a : α} {x : Metered α} (h : Gives a x) :
    Gives a (Metered.nested limits x) := by
  intro m
  rw [Metered.nested_meter]
  split
  · rcases h { m with depth := m.depth + 1 } with ⟨n, hn⟩ | ⟨e, n, hn, he⟩
    · rw [hn]
      exact Or.inl ⟨_, rfl⟩
    · rw [hn]
      exact Or.inr ⟨_, _, rfl, he⟩
  · exact Or.inr (Metered.refuseLevel_stops limits m)

/-- Under any limits a term gives the value that it has under some. -/
theorem gives_of_value? {limits' : Limits} {env : List Datum} {t : Term} {d : Datum}
    (h : value? limits' env t = some d) (fuel : Nat) : Gives d (evalWithin limits fuel t env) := by
  intro m
  rw [value?_eq] at h
  have hagree := (agree_within limits limits' fuel limits'.steps).1 t env m {}
  cases hr : evalWithin limits' limits'.steps t env ({} : Meter) with
  | error e n =>
    rw [hr] at h
    cases h
  | ok a n =>
    rw [hr] at h hagree
    cases h
    generalize evalWithin limits fuel t env m = r at hagree ⊢
    cases hagree with
    | value hab k => exact Or.inl ⟨k, congrArg (EStateM.Result.ok · k) hab⟩
    | stoppedFirst he => exact Or.inr ⟨_, _, rfl, he⟩

theorem gives_lam (fuel : Nat) (body : Term) (env : List Datum) :
    Gives (.closure body env) (evalWithin limits fuel (.lam body) env) := by
  cases fuel with
  | zero =>
    rw [evalWithin_zero]
    exact gives_refuseStep _
  | succ fuel =>
    rw [evalWithin]
    exact gives_tick.bind (gives_pure _)

theorem gives_apply {body : Term} {env : List Datum} {x r : Datum}
    (h : ∀ fuel, Gives r (evalWithin limits fuel body (x :: env))) :
    Gives r (apply limits (.closure body env) x) := by
  have hwithin : ∀ fuel, Gives r (applyWithin limits fuel (.closure body env) x) := by
    intro fuel
    cases fuel with
    | zero =>
      rw [applyWithin_zero]
      exact gives_refuseStep r
    | succ fuel =>
      rw [applyWithin]
      exact gives_tick.bind (h fuel).nested
  exact fun m => hwithin _ m

/-- An argument as the value of a variable. -/
def datumOf (v : Value) : Datum := (Datum.ofValue v).toOption.getD .empty

theorem ofValue_eq {v : Value} (h : v ≠ .missing) : Datum.ofValue v = .ok (datumOf v) := by
  cases v with
  | missing => exact absurd rfl h
  | _ => rfl

/-- A closure of binders around a body gives the value of the body, with its
arguments as the variables. -/
theorem gives_applyInputs {body : Term} {d : Datum} {v : Value} {vs : List Value}
    (hv : .missing ∉ v :: vs) {env : List Datum}
    (h : ∀ fuel, Gives d (evalWithin limits fuel body (((v :: vs).map datumOf).reverse ++ env))) :
    Gives d (applyInputs limits (.closure (body.lambdas vs.length) env) (v :: vs)) := by
  induction vs generalizing v env with
  | nil =>
    unfold applyInputs
    rw [ofValue_eq fun hmissing => hv (by simp [hmissing])]
    exact (gives_pure _).bind ((gives_apply h).bind (gives_pure d))
  | cons w vs ih =>
    rw [List.mem_cons, not_or] at hv
    have hnext := @ih w hv.2 (datumOf v :: env) fun fuel => by simpa using h fuel
    unfold applyInputs
    rw [ofValue_eq fun hmissing => hv.1 hmissing.symm]
    exact (gives_pure _).bind ((gives_apply fun fuel => gives_lam fuel _ _).bind hnext)

theorem isFunction_of_toValue {d : Datum} {y : Value} (h : d.toValue = .ok y) :
    d.isFunction = false := by
  cases d with
  | int | list | empty => rfl
  | _ => cases h

/-- A body that gives a value is no function, so a program made of it takes just
the arguments that are bound around it. -/
theorem arity_lambdas_of_value? {env : List Datum} {body : Term} {d : Datum} {y : Value}
    (hvalue : value? limits env body = some d) (hy : d.toValue = .ok y) (n : Nat) :
    (body.lambdas n).arity = n := by
  rw [Term.arity_lambdas, arity_eq_zero hvalue (isFunction_of_toValue hy), Nat.zero_add]

/-- A program made of a body gives the value of the body, with its arguments as
the variables, unless a limit stops it. -/
theorem gives_evaluate {limits' : Limits} {body : Term} {d : Datum} {y : Value} {xs : Inputs}
    (hxs : .missing ∉ xs) (hvalue : value? limits' (Enumeration.Bank.environment xs) body = some d)
    (hy : d.toValue = .ok y) : Gives y (evaluate limits (body.lambdas xs.length) xs) := by
  have harity : (body.lambdas xs.length).arity = xs.length :=
    arity_lambdas_of_value? hvalue hy _
  have hbody : ∀ fuel, Gives d (evalWithin limits fuel body ((xs.map datumOf).reverse)) :=
    gives_of_value? hvalue
  have hend : Gives y (MonadExcept.ofExcept d.toValue : Metered Value) := by
    rw [hy]
    exact gives_pure y
  unfold evaluate
  rw [if_neg (by simp [harity])]
  cases xs with
  | nil => exact Gives.bind (fun m => hbody _ m) ((gives_pure d).bind hend)
  | cons x xs =>
    have hargs := @gives_applyInputs limits body d x xs hxs [] (by simpa using hbody)
    exact Gives.bind (fun m => gives_lam _ _ _ m) (hargs.bind hend)

/-- What a program made of a body gives, where no limit stops it. -/
theorem outcome_evaluate {limits' : Limits} {body : Term} {d : Datum} {y : Value} {xs : Inputs}
    (hxs : .missing ∉ xs) (hvalue : value? limits' (Enumeration.Bank.environment xs) body = some d)
    (hy : d.toValue = .ok y)
    (hends : ∀ e, outcome (evaluate limits (body.lambdas xs.length) xs) = .error e →
      e.isLimit = false) :
    outcome (evaluate limits (body.lambdas xs.length) xs) = .ok y := by
  unfold outcome at hends ⊢
  rcases @gives_evaluate limits limits' body d y xs hxs hvalue hy {} with ⟨n, hn⟩ | ⟨e, n, hn, he⟩
  · rw [hn]
  · rw [hn] at hends
    have := hends e rfl
    rw [he] at this
    cases this

end Evaluation

end SymbolInduction
