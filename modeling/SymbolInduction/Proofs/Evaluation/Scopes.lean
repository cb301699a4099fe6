-- Terms in scope. A variable of a term in scope refers to a binder around it or to a value
-- of the environment; and what a promoted program holds is closed. The values that come
-- of such terms hold nothing but such terms, so no variable is ever met that has no value.
import SymbolInduction.Proofs.Evaluation.Calls

namespace SymbolInduction

/-- Every variable refers to a binder around it or to one of `n` values; and promoted
programs are closed. -/
def Term.InScope : (n : Nat) → Term → Prop
  | n, .var i => i.toNat < n
  | n, .lam body => body.InScope (n + 1)
  | n, .app f x => f.InScope n ∧ x.InScope n
  | _, .prim _ => True
  | _, .promoted body => body.InScope 0

/-- A term in scope can be told by its text alone. -/
instance Term.decidableInScope : (n : Nat) → (t : Term) → Decidable (t.InScope n)
  | n, .var i => inferInstanceAs (Decidable (i.toNat < n))
  | n, .lam body => body.decidableInScope (n + 1)
  | n, .app f x =>
    have := f.decidableInScope n
    have := x.decidableInScope n
    inferInstanceAs (Decidable (f.InScope n ∧ x.InScope n))
  | _, .prim _ => inferInstanceAs (Decidable True)
  | _, .promoted body => body.decidableInScope 0

example : (Term.lam (.app (.var 0) (.var 1))).InScope 1 := by decide

/-- The terms within a value are in the scope of what it keeps for them. -/
inductive Datum.InScope : Datum → Prop
  | plain {d : Datum} (h : d.isFunction = false) : d.InScope
  | closure {body : Term} {env : List Datum} (hbody : body.InScope (env.length + 1))
      (henv : ∀ d ∈ env, d.InScope) : InScope (.closure body env)
  | waiting {p : Primitive} {given : List Datum} (hgiven : ∀ d ∈ given, d.InScope) :
      InScope (.waiting p given)
  | recur {f : Datum} (hf : f.InScope) : InScope (.recur f)

namespace Evaluation

/-- The discipline of scopes: no variable is without a value. -/
def Discipline.scopes : Discipline where
  data := Datum.InScope
  code t env := t.InScope env.length ∧ ∀ d ∈ env, d.InScope
  failure e := ∀ i, e ≠ .unboundIndex i
  plain {d} h := .plain (by cases d <;> first | rfl | exact h.elim)
  waiting_iff := by
    refine ⟨fun h => ?_, .waiting⟩
    cases h with
    | plain h => cases h
    | waiting h => exact h
  recur_iff := by
    refine ⟨fun h => ?_, .recur⟩
    cases h with
    | plain h => cases h
    | recur h => exact h
  closure_iff := by
    refine ⟨fun h => ?_, fun h => .closure h.1 h.2⟩
    cases h with
    | plain h => cases h
    | closure hbody henv => exact ⟨hbody, henv⟩
  bound h hd := h.2 _ (List.mem_of_getElem? hd)
  unbound h hi := absurd h.1 (Nat.not_lt.2 (List.getElem?_eq_none_iff.1 hi))
  body h hx := ⟨h.1, List.forall_mem_cons.2 ⟨hx, h.2⟩⟩
  head h := ⟨h.1.1, h.2⟩
  argument h := ⟨h.1.2, h.2⟩
  promoted h := ⟨h.1, by simp⟩
  refusal h i he := by
    subst he
    exact h

/-! ## Runs that meet no unbound variable -/

/-- From all counters, the computation ends otherwise than at a variable without a value. -/
def NeverUnbound {α : Type} (x : Metered α) : Prop :=
  ∀ m i n, x m ≠ .error (.unboundIndex i) n

variable {limits : Limits}

theorem neverUnbound_pure {α : Type} (a : α) : NeverUnbound (pure a) := by
  rintro m i n ⟨⟩

theorem neverUnbound_ofExcept {α : Type} {r : Except EvalError α}
    (h : ∀ i, r ≠ .error (.unboundIndex i)) : NeverUnbound (MonadExcept.ofExcept r) := by
  intro m i n hr
  cases r with
  | ok a => cases hr
  | error e =>
    cases hr
    exact h i rfl

theorem NeverUnbound.bind {α β : Type} {x : Metered α} {f : α → Metered β} (hx : NeverUnbound x)
    (hf : ∀ m a n, x m = .ok a n → NeverUnbound (f a)) : NeverUnbound (x >>= f) := by
  intro m i n h
  simp only [Bind.bind, EStateM.bind] at h
  cases hr : x m with
  | ok a k =>
    rw [hr] at h
    exact hf m a k hr k i n h
  | error e k =>
    rw [hr] at h
    cases h
    exact hx m i n hr

theorem ne_unbound_of_allows {r : EStateM.Result EvalError Meter Datum}
    (h : Discipline.scopes.Allows r) (i : UInt64) (n : Meter) : r ≠ .error (.unboundIndex i) n := by
  rintro rfl
  rcases h with hfailure | hlimit
  · exact hfailure i rfl
  · cases hlimit

theorem neverUnbound_eval {t : Term} {env : List Datum} (ht : t.InScope env.length)
    (henv : ∀ d ∈ env, d.InScope) : NeverUnbound (eval limits t env) :=
  fun m => ne_unbound_of_allows (@eval_allows Discipline.scopes limits t env ⟨ht, henv⟩ m)

theorem neverUnbound_apply {f x : Datum} (hf : f.InScope) (hx : x.InScope) :
    NeverUnbound (apply limits f x) :=
  fun m => ne_unbound_of_allows (@apply_allows Discipline.scopes limits f x hf hx m)

theorem inScope_of_eval {t : Term} {env : List Datum} {f : Datum} {m n : Meter}
    (h : eval limits t env m = .ok f n) (ht : t.InScope env.length)
    (henv : ∀ d ∈ env, d.InScope) : f.InScope := by
  have hallows := @eval_allows Discipline.scopes limits t env ⟨ht, henv⟩ m
  rw [h] at hallows
  exact hallows

theorem inScope_of_apply {f x g : Datum} {m n : Meter} (h : apply limits f x m = .ok g n)
    (hf : f.InScope) (hx : x.InScope) : g.InScope := by
  have hallows := @apply_allows Discipline.scopes limits f x hf hx m
  rw [h] at hallows
  exact hallows

/-! ## Programs on observed values -/

theorem neverUnbound_ofValue (v : Value) :
    NeverUnbound (MonadExcept.ofExcept (Datum.ofValue v)) := by
  refine neverUnbound_ofExcept fun i hi => ?_
  cases v <;> cases hi

theorem neverUnbound_toValue (d : Datum) : NeverUnbound (MonadExcept.ofExcept d.toValue) := by
  refine neverUnbound_ofExcept fun i hi => ?_
  cases d <;> cases hi

theorem isFunction_ofValue {v : Value} {m n : Meter} {d : Datum}
    (h : (MonadExcept.ofExcept (Datum.ofValue v) : Metered Datum) m = .ok d n) :
    d.isFunction = false := by
  cases v <;> cases h <;> rfl

theorem neverUnbound_applyInputs {f : Datum} (hf : f.InScope) (vs : List Value) :
    NeverUnbound (applyInputs limits f vs) := by
  induction vs generalizing f with
  | nil => exact neverUnbound_pure f
  | cons v vs ih =>
    refine (neverUnbound_ofValue v).bind fun m x n hx => ?_
    have hscope : x.InScope := .plain (isFunction_ofValue hx)
    exact (neverUnbound_apply hf hscope).bind fun m g n hg => ih (inScope_of_apply hg hf hscope)

theorem neverUnbound_evaluate {t : Term} (ht : t.InScope 0) (inputs : Inputs) :
    NeverUnbound (evaluate limits t inputs) := by
  have hempty : t.InScope ([] : List Datum).length := ht
  have henv : ∀ d ∈ ([] : List Datum), d.InScope := by simp
  have hrest : NeverUnbound (eval limits t [] >>= fun f => applyInputs limits f inputs >>= fun d =>
      (MonadExcept.ofExcept d.toValue : Metered Value)) :=
    (neverUnbound_eval hempty henv).bind fun m f n hf =>
      (neverUnbound_applyInputs (inScope_of_eval hf hempty henv) inputs).bind fun _ d _ _ =>
        neverUnbound_toValue d
  unfold evaluate
  split
  · rintro m i n ⟨⟩
  · exact hrest

/-- A term in the scope of an environment that holds no functions never meets a variable
without a value: not while it is evaluated, and not while its value is applied to what is
no function, whatever the limits and the counters of each call. So a closed program never
does, on any inputs. -/
theorem a_term_in_scope_meets_no_unbound_variable {t : Term} {env : List Datum}
    (ht : t.InScope env.length) (henv : ∀ d ∈ env, d.isFunction = false) (limits : Limits) :
    NeverUnbound (eval limits t env) ∧
      (∀ m f n, eval limits t env m = .ok f n →
        ∀ xs g, (∀ x ∈ xs, x.isFunction = false) → Applied f xs g →
          ∀ (limits' : Limits) (x : Datum), x.isFunction = false →
            NeverUnbound (apply limits' g x)) ∧
      (env = [] → ∀ inputs, NeverUnbound (evaluate limits t inputs)) := by
  have hscope : ∀ d ∈ env, d.InScope := fun d hd => .plain (henv d hd)
  refine ⟨neverUnbound_eval ht hscope, ?_, ?_⟩
  · intro m f n hf xs g hxs hg limits' x hx
    have hfscope : f.InScope := inScope_of_eval hf ht hscope
    have hgscope : g.InScope :=
      @Applied.data Discipline.scopes f g xs hg hfscope fun x hx => .plain (hxs x hx)
    exact neverUnbound_apply hgscope (.plain hx)
  · rintro rfl inputs
    exact neverUnbound_evaluate ht inputs

/-- A summand that a closure keeps has a value; without its environment it has none. -/
theorem a_captured_summand_is_bound :
    let body : Term := .app (.app (.prim .add) (.var 0)) (.var 1)
    NeverUnbound (eval {} (.lam body) [.int 3]) ∧
      NeverUnbound (apply {} (.closure body [.int 3]) (.int 4)) ∧
      NeverUnbound (evaluate {} (.lam (.lam body)) [.int 3, .int 4]) ∧
      apply {} (.closure body []) (.int 4) {} = .error (.unboundIndex 1) ⟨6, 0⟩ := by
  intro body
  obtain ⟨heval, happly, -⟩ := @a_term_in_scope_meets_no_unbound_variable (.lam body) [.int 3]
    (by decide) (by simp [Datum.isFunction]) {}
  obtain ⟨-, -, hclosed⟩ := @a_term_in_scope_meets_no_unbound_variable (.lam (.lam body)) []
    (by decide) (by simp) {}
  exact ⟨heval, happly {} _ _ rfl [] _ (by simp) (.nil _) {} _ rfl, hclosed rfl _, rfl⟩

end Evaluation

end SymbolInduction
