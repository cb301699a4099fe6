-- Two runs of the evaluator, side by side. A way to compare computations that
-- holds of all the pieces from which an evaluation is made holds of whole
-- evaluations. So what limits, counters and fuel can do to a run is said once
-- for each piece, and never again for each kind of term.
import Mathlib.Data.List.Forall2
import SymbolInduction.Evaluation.Basic

namespace SymbolInduction

namespace Metered

/-- A way to compare computations under some limits with computations under
other ones. `Rel R` compares computations whose values `R` compares. A run that
finds no step left may be compared with any other. -/
structure Comparison (limits limits' : Limits)
    (Rel : ∀ {α β : Type}, (α → β → Prop) → Metered α → Metered β → Prop) : Prop where
  value {α β : Type} {R : α → β → Prop} {a : α} {b : β} (h : R a b) : Rel R (pure a) (pure b)
  failure {α β : Type} (R : α → β → Prop) (e : EvalError) : Rel R (throw e) (throw e)
  bind {α β γ δ : Type} {R : α → β → Prop} {S : γ → δ → Prop} {x : Metered α} {x' : Metered β}
    {f : α → Metered γ} {f' : β → Metered δ} (hx : Rel R x x')
    (hf : ∀ a b, R a b → Rel S (f a) (f' b)) : Rel S (x >>= f) (x' >>= f')
  tick : Rel Eq (tick limits) (tick limits')
  nested {α β : Type} {R : α → β → Prop} {x : Metered α} {x' : Metered β} (h : Rel R x x') :
    Rel R (nested limits x) (nested limits' x')
  refused {α β : Type} (R : α → β → Prop) (x : Metered β) : Rel R (refuseStep limits) x

end Metered

namespace Evaluation

/-- Data that holds no other data. -/
def IsPlain : Datum → Prop
  | .int _ | .bool _ | .list _ => True
  | _ => False

/-- A way to compare data that takes plain data for nothing but itself. -/
structure Congruence (D : Datum → Datum → Prop) : Prop where
  plain {d : Datum} (h : IsPlain d) : D d d
  same {d d' : Datum} (h : D d d') : d = d' ∨ ¬IsPlain d ∧ ¬IsPlain d'
  waiting (p : Primitive) {given given' : List Datum} (h : List.Forall₂ D given given') :
    D (.waiting p given) (.waiting p given')
  recur {f f' : Datum} (h : D f f') : D (.recur f) (.recur f')

/-- Two data of one shape, whose parts compare; and the bodies of two closures
do, as code in an environment, once both are given their arguments. -/
inductive Shape (Code : Term → List Datum → Term → List Datum → Prop) (D : Datum → Datum → Prop) :
    Datum → Datum → Prop
  | closure {body body' : Term} {env env' : List Datum}
      (h : ∀ {x x'}, D x x' → Code body (x :: env) body' (x' :: env')) :
      Shape Code D (.closure body env) (.closure body' env')
  | waiting (p : Primitive) {given given' : List Datum} (h : List.Forall₂ D given given') :
      Shape Code D (.waiting p given) (.waiting p given')
  | recur {f f' : Datum} (h : D f f') : Shape Code D (.recur f) (.recur f')
  | data {d d' : Datum} (h : d.isFunction = false) (h' : d'.isFunction = false) : Shape Code D d d'

/-- The same code, in environments that compare. -/
def SameCode (D : Datum → Datum → Prop) (t : Term) (env : List Datum) (t' : Term)
    (env' : List Datum) : Prop :=
  t = t' ∧ List.Forall₂ D env env'

/-- A congruence that compares closures of one body by their environments. -/
structure StructuralCongruence (D : Datum → Datum → Prop) : Prop extends Congruence D where
  closure (body : Term) {env env' : List Datum} (h : List.Forall₂ D env env') :
    D (.closure body env) (.closure body env')
  shape {d d' : Datum} (h : D d d') : Shape (SameCode D) D d d'

theorem congruence_eq : StructuralCongruence Eq where
  plain _ := rfl
  same h := Or.inl h
  waiting p _ _ h := by
    rw [List.forall₂_eq_eq_eq] at h
    rw [h]
  recur h := congrArg Datum.recur h
  closure body _ _ h := by
    rw [List.forall₂_eq_eq_eq] at h
    rw [h]
  shape {d d'} h := by
    subst h
    cases d with
    | closure body env =>
      exact .closure fun hx => ⟨rfl, .cons hx (List.forall₂_same.2 fun _ _ => rfl)⟩
    | waiting p given => exact .waiting p (List.forall₂_same.2 fun _ _ => rfl)
    | recur f => exact .recur rfl
    | _ => exact .data rfl rfl

namespace Congruence

variable {D : Datum → Datum → Prop} {d d' : Datum}

theorem constant (hD : Congruence D) (p : Primitive) :
    D ((Datum.ofConstant? p).getD (.waiting p [])) ((Datum.ofConstant? p).getD (.waiting p [])) := by
  cases p with
  | literal | nil => exact hD.plain trivial
  | _ => exact hD.waiting _ .nil

/-- What is read of data that is alike is the same, where all that is not plain
is refused alike. -/
theorem read_eq {β : Type} {read : Datum → β} (hD : Congruence D) (h : D d d') (refusal : β)
    (hrefused : ∀ a, ¬IsPlain a → read a = refusal) : read d = read d' := by
  rcases hD.same h with rfl | ⟨hd, hd'⟩
  · rfl
  · rw [hrefused d hd, hrefused d' hd']

theorem asInt_eq (hD : Congruence D) (h : D d d') (place : String) :
    d.asInt place = d'.asInt place := by
  refine hD.read_eq h (.error (.typeMismatch place)) fun a ha => ?_
  cases a with
  | int | bool | list => exact absurd trivial ha
  | _ => rfl

theorem asBool_eq (hD : Congruence D) (h : D d d') (place : String) :
    d.asBool place = d'.asBool place := by
  refine hD.read_eq h (.error (.typeMismatch place)) fun a ha => ?_
  cases a with
  | int | bool | list => exact absurd trivial ha
  | _ => rfl

theorem asList_eq (hD : Congruence D) (h : D d d') (place : String) :
    d.asList place = d'.asList place := by
  refine hD.read_eq h (.error (.typeMismatch place)) fun a ha => ?_
  cases a with
  | int | bool | list => exact absurd trivial ha
  | _ => rfl

end Congruence

/-! ## Equations -/

section

variable {σ : Type}

/-- Where `if` is not the head, or has too few arguments, the head is
evaluated first. -/
theorem evalSpine_eq {eval : Term → Counting σ Datum} {apply : Datum → Datum → Counting σ Datum}
    {head : Term} {args : List Term} (h : head ≠ .prim .cond ∨ args.length < 3) :
    evalSpineWith eval apply head args = eval head >>= fun f => applyAllWith eval apply f args := by
  unfold evalSpineWith
  split
  · simp only [ne_eq, not_true_eq_false, List.length_cons, false_or] at h
    omega
  · rfl

variable [Recorder σ]

theorem fire_mismatch (limits : Limits) (apply : Datum → Datum → Counting σ Datum) {p : Primitive}
    {args : List Datum} (h : args.length ≠ p.arity) :
    fireWith limits apply p args = throw (.arityMismatch p.arity args.length) := by
  cases p <;> rcases args with _ | ⟨a, _ | ⟨b, _ | ⟨c, _ | ⟨d, rest⟩⟩⟩⟩ <;>
    first | rfl | exact absurd rfl h

theorem fire_eq_mismatch (limits : Limits) (apply : Datum → Datum → Counting σ Datum) {a b : Datum}
    (h : ¬IsPlain a ∨ ¬IsPlain b) :
    fireWith limits apply .eq [a, b] = throw (.typeMismatch "eq?") := by
  unfold fireWith
  cases a <;> cases b <;> first | rfl | simp [IsPlain] at h

theorem evalWithin_zero (limits : Limits) (t : Term) (env : List Datum) :
    (evalWithin limits 0 t env : Counting σ Datum) = Metered.refuseStep limits := by
  unfold evalWithin
  rfl

/-- An application costs a step and runs one level deeper. -/
theorem evalWithin_app (limits : Limits) (fuel : Nat) (f x : Term) (env : List Datum) :
    (evalWithin limits (fuel + 1) (.app f x) env : Counting σ Datum) =
      Metered.tick limits >>= fun _ => Metered.nested limits (evalSpineWith
        (fun t => evalWithin limits fuel t env) (applyWithin limits fuel) (Term.app f x).spine.1
        (Term.app f x).spine.2) := by
  rw [evalWithin]

theorem applyWithin_zero (limits : Limits) (f x : Datum) :
    (applyWithin limits 0 f x : Counting σ Datum) = Metered.refuseStep limits := by
  unfold applyWithin
  rfl

end

end Evaluation

/-! ## The pieces of an evaluation -/

namespace Metered.Comparison

open Evaluation

variable {limits limits' : Limits}
  {Rel : ∀ {α β : Type}, (α → β → Prop) → Metered α → Metered β → Prop}
  {D : Datum → Datum → Prop} {eval eval' : Term → Metered Datum}
  {apply apply' : Datum → Datum → Metered Datum}

theorem ofExcept {α : Type} (C : Comparison limits limits' Rel) (r : Except EvalError α) :
    Rel Eq (ofExcept r : Metered α) (ofExcept r) := by
  cases r with
  | ok a => exact C.value rfl
  | error e => exact C.failure Eq e

/-- Computations that go on with one outcome from outside. -/
theorem given {α β γ : Type} {S : β → γ → Prop} (C : Comparison limits limits' Rel)
    {r r' : Except EvalError α} (hr : r = r') {f : α → Metered β} {f' : α → Metered γ}
    (hf : ∀ a, Rel S (f a) (f' a)) :
    Rel S (Bind.bind (MonadExcept.ofExcept r) f) (Bind.bind (MonadExcept.ofExcept r') f') := by
  subst hr
  refine C.bind (C.ofExcept r) ?_
  rintro a _ rfl
  exact hf a

/-! ### Primitives -/

theorem recurse (C : Comparison limits limits' Rel) (hD : Congruence D)
    (happly : ∀ {f f' x x'}, D f f' → D x x' → Rel D (apply f x) (apply' f' x'))
    {x x' f f' : Datum} (hx : D x x') (hf : D f f') :
    Rel D (recurseWith limits apply x f) (recurseWith limits' apply' x' f') := by
  unfold recurseWith
  refine C.nested (C.bind (happly hf (hD.recur hf)) ?_)
  intro g g' hg
  exact happly hg hx

theorem arithmetic (C : Comparison limits limits' Rel) (hD : Congruence D)
    (op : Int64 → Int64 → Except EvalError Int64) {a a' b b' : Datum} (ha : D a a')
    (hb : D b b') : Rel D (arithmetic op a b) (Evaluation.arithmetic op a' b') := by
  unfold Evaluation.arithmetic
  refine C.given (hD.asInt_eq ha _) fun a => ?_
  refine C.given (hD.asInt_eq hb _) fun b => ?_
  exact C.given rfl fun n => C.value (hD.plain trivial)

theorem equality (C : Comparison limits limits' Rel) (hD : Congruence D) {a a' b b' : Datum}
    (ha : D a a') (hb : D b b') :
    Rel D (fireWith limits apply .eq [a, b]) (fireWith limits' apply' .eq [a', b']) := by
  have hmismatch : ¬IsPlain a ∧ ¬IsPlain a' ∨ ¬IsPlain b ∧ ¬IsPlain b' →
      Rel D (fireWith limits apply .eq [a, b]) (fireWith limits' apply' .eq [a', b']) := by
    intro h
    rw [fire_eq_mismatch limits apply (h.imp And.left And.left),
      fire_eq_mismatch limits' apply' (h.imp And.right And.right)]
    exact C.failure D _
  rcases hD.same ha with rfl | ha
  · rcases hD.same hb with rfl | hb
    · unfold fireWith
      cases a <;> cases b <;> first
        | exact C.value (hD.plain trivial)
        | exact C.failure D _
    · exact hmismatch (Or.inr hb)
  · exact hmismatch (Or.inl ha)

/-- A primitive does the same on data that compare. -/
theorem fire (C : Comparison limits limits' Rel) (hD : Congruence D)
    (happly : ∀ {f f' x x'}, D f f' → D x x' → Rel D (apply f x) (apply' f' x')) (p : Primitive)
    {args args' : List Datum} (h : List.Forall₂ D args args') :
    Rel D (fireWith limits apply p args) (fireWith limits' apply' p args') := by
  by_cases hargs : args.length = p.arity
  case neg =>
    rw [fire_mismatch limits apply hargs, fire_mismatch limits' apply' (h.length_eq ▸ hargs),
      h.length_eq]
    exact C.failure D _
  cases p with
  | literal | nil =>
    obtain rfl := List.length_eq_zero_iff.1 hargs
    cases h
    exact C.value (hD.plain trivial)
  | incr | decr =>
    obtain ⟨a, rfl⟩ := List.length_eq_one_iff.1 hargs
    rcases h with _ | ⟨ha, _ | _⟩
    unfold fireWith
    refine C.given (hD.asInt_eq ha _) fun a => ?_
    exact C.given rfl fun n => C.value (hD.plain trivial)
  | add | sub | mul =>
    obtain ⟨a, b, rfl⟩ := List.length_eq_two.1 hargs
    rcases h with _ | ⟨ha, _ | ⟨hb, _ | _⟩⟩
    exact C.arithmetic hD _ ha hb
  | eq =>
    obtain ⟨a, b, rfl⟩ := List.length_eq_two.1 hargs
    rcases h with _ | ⟨ha, _ | ⟨hb, _ | _⟩⟩
    exact C.equality hD ha hb
  | gt =>
    obtain ⟨a, b, rfl⟩ := List.length_eq_two.1 hargs
    rcases h with _ | ⟨ha, _ | ⟨hb, _ | _⟩⟩
    unfold fireWith
    refine C.given (hD.asInt_eq ha _) fun a => ?_
    exact C.given (hD.asInt_eq hb _) fun b => C.value (hD.plain trivial)
  | cond =>
    obtain ⟨c, a, b, rfl⟩ := List.length_eq_three.1 hargs
    rcases h with _ | ⟨hc, _ | ⟨ha, _ | ⟨hb, _ | _⟩⟩⟩
    unfold fireWith
    refine C.given (hD.asBool_eq hc _) fun c => C.value ?_
    cases c with
    | true => exact ha
    | false => exact hb
  | cons =>
    obtain ⟨x, xs, rfl⟩ := List.length_eq_two.1 hargs
    rcases h with _ | ⟨hx, _ | ⟨hxs, _ | _⟩⟩
    unfold fireWith
    refine C.given (hD.asInt_eq hx _) fun x => ?_
    exact C.given (hD.asList_eq hxs _) fun xs => C.value (hD.plain trivial)
  | car | cdr =>
    obtain ⟨xs, rfl⟩ := List.length_eq_one_iff.1 hargs
    rcases h with _ | ⟨hxs, _ | _⟩
    unfold fireWith
    refine C.given (hD.asList_eq hxs _) fun xs => ?_
    cases xs with
    | nil => exact C.failure D _
    | cons x xs => exact C.value (hD.plain trivial)
  | isNil | length =>
    obtain ⟨xs, rfl⟩ := List.length_eq_one_iff.1 hargs
    rcases h with _ | ⟨hxs, _ | _⟩
    unfold fireWith
    exact C.given (hD.asList_eq hxs _) fun xs => C.value (hD.plain trivial)
  | fix =>
    obtain ⟨x, f, rfl⟩ := List.length_eq_two.1 hargs
    rcases h with _ | ⟨hx, _ | ⟨hf, _ | _⟩⟩
    exact C.recurse hD happly hx hf

/-! ### Arguments -/

theorem applyAll (C : Comparison limits limits' Rel)
    (happly : ∀ {f f' x x'}, D f f' → D x x' → Rel D (apply f x) (apply' f' x'))
    {args args' : List Term}
    (hargs : List.Forall₂ (fun t t' => Rel D (eval t) (eval' t')) args args') {f f' : Datum}
    (hf : D f f') : Rel D (applyAllWith eval apply f args) (applyAllWith eval' apply' f' args') := by
  induction hargs generalizing f f' with
  | nil => exact C.value hf
  | cons ht _ ih =>
    unfold applyAllWith
    exact C.bind ht fun x x' hx => C.bind (happly hf hx) fun g g' hg => ih hg

/-- Heads that compare, of which both are `if` or none is, on arguments that
compare. -/
theorem evalSpine (C : Comparison limits limits' Rel) (hD : Congruence D)
    (happly : ∀ {f f' x x'}, D f f' → D x x' → Rel D (apply f x) (apply' f' x'))
    {args args' : List Term}
    (hargs : List.Forall₂ (fun t t' => Rel D (eval t) (eval' t')) args args') {head head' : Term}
    (hsame : head = .prim .cond ↔ head' = .prim .cond) (hhead : Rel D (eval head) (eval' head')) :
    Rel D (evalSpineWith eval apply head args) (evalSpineWith eval' apply' head' args') := by
  by_cases h : head ≠ .prim .cond ∨ args.length < 3
  · have h' : head' ≠ .prim .cond ∨ args'.length < 3 := by rwa [ne_eq, ← hsame, ← hargs.length_eq]
    rw [evalSpine_eq h, evalSpine_eq h']
    exact C.bind hhead fun f f' hf => C.applyAll happly hargs hf
  · obtain ⟨rfl, hlen⟩ : head = .prim .cond ∧ 3 ≤ args.length := by
      simpa using h
    obtain rfl := hsame.1 rfl
    -- `if` with its three arguments: the condition, and one branch of two
    rcases hargs with _ | ⟨hc, _ | ⟨ht, _ | ⟨he, hrest⟩⟩⟩
    · simp at hlen
    · simp at hlen
    · simp at hlen
    · simp only [evalSpineWith]
      refine C.bind hc fun c c' hcc => C.given (hD.asBool_eq hcc _) fun b => C.bind (R := D) ?_ ?_
      · cases b with
        | true => exact ht
        | false => exact he
      · intro f f' hf
        exact C.applyAll happly hrest hf

/-! ### Whole evaluations -/

theorem lookup (C : Comparison limits limits' Rel) {env env' : List Datum}
    (h : List.Forall₂ D env env') (i : UInt64) : Rel D (lookup env i) (Evaluation.lookup env' i) := by
  unfold Evaluation.lookup
  by_cases hi : i.toNat < env.length
  · have hi' : i.toNat < env'.length := h.length_eq ▸ hi
    rw [List.getElem?_eq_getElem hi, List.getElem?_eq_getElem hi']
    exact C.value (h.get hi hi')
  · have hi' : ¬i.toNat < env'.length := h.length_eq ▸ hi
    rw [List.getElem?_eq_none (Nat.le_of_not_lt hi), List.getElem?_eq_none (Nat.le_of_not_lt hi')]
    exact C.failure D _

/-- An application, where what compares as code compares when it is evaluated. -/
theorem applied (C : Comparison limits limits' Rel) (hD : Congruence D)
    {Code : Term → List Datum → Term → List Datum → Prop} {fuel fuel' : Nat}
    (heval : ∀ {t env t' env'}, Code t env t' env' →
      Rel D (evalWithin limits fuel t env) (evalWithin limits' fuel' t' env'))
    (happly : ∀ {f f' x x'}, D f f' → D x x' →
      Rel D (applyWithin limits fuel f x) (applyWithin limits' fuel' f' x'))
    {f f' x x' : Datum} (hf : Shape Code D f f') (hx : D x x') :
    Rel D (applyWithin limits (fuel + 1) f x) (applyWithin limits' (fuel' + 1) f' x') := by
  unfold applyWithin
  refine C.bind C.tick fun _ _ _ => ?_
  cases hf with
  | closure hcode => exact C.nested (heval (hcode hx))
  | waiting p hgiven =>
    have hall := List.rel_append hgiven (.cons hx .nil)
    dsimp only
    rw [hall.length_eq]
    split
    · exact C.fire hD happly p hall
    · exact C.value (hD.waiting p hall)
  | recur hturn => exact C.recurse hD happly hx hturn
  | data h h' => cases f <;> cases h <;> cases f' <;> cases h' <;> exact C.failure D _

/-- What can be said of the pieces can be said of one evaluation under both
limits, where the second one has as much fuel. -/
theorem within (C : Comparison limits limits' Rel) (hD : StructuralCongruence D)
    {fuel fuel' : Nat} (h : fuel ≤ fuel') :
    (∀ t {env env'}, List.Forall₂ D env env' →
      Rel D (evalWithin limits fuel t env) (evalWithin limits' fuel' t env')) ∧
    ∀ {f f' x x'}, D f f' → D x x' →
      Rel D (applyWithin limits fuel f x) (applyWithin limits' fuel' f' x') := by
  induction fuel generalizing fuel' with
  | zero =>
    constructor
    · intro t env env' _
      rw [evalWithin_zero]
      exact C.refused D _
    · intro f f' x x' _ _
      rw [applyWithin_zero]
      exact C.refused D _
  | succ fuel ih =>
    obtain ⟨fuel', rfl⟩ : ∃ n, fuel' = n + 1 := ⟨fuel' - 1, by omega⟩
    obtain ⟨heval, happly⟩ := ih (Nat.le_of_succ_le_succ h)
    constructor
    · intro t env env' henv
      unfold evalWithin
      refine C.bind C.tick fun _ _ _ => ?_
      cases t with
      | var i => exact C.lookup henv i
      | lam body => exact C.value (hD.closure body henv)
      | prim p => exact C.value (hD.constant p)
      | promoted body => exact heval body .nil
      | app f x =>
        refine C.nested (C.evalSpine hD.toCongruence happly ?_ Iff.rfl (heval _ henv))
        exact List.forall₂_same.2 fun t _ => heval t henv
    · intro f f' x x' hf hx
      refine C.applied hD.toCongruence ?_ happly (hD.shape hf) hx
      rintro t env _ env' ⟨rfl, henv⟩
      exact heval t henv

end Metered.Comparison

end SymbolInduction
