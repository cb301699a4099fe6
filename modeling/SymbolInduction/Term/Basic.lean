-- Program terms, with variables counted from the innermost binder outwards.
import SymbolInduction.Term.Primitive

namespace SymbolInduction

/-- A program term. `promoted` holds a closed program that became a component
of the grammar; it is written with a `#` in front. -/
inductive Term where
  | var (i : UInt64)
  | lam (body : Term)
  | app (f x : Term)
  | prim (p : Primitive)
  | promoted (body : Term)
  deriving DecidableEq, Inhabited

namespace Term

/-- The literal `n`. -/
def literal (n : Int64) : Term := prim (.literal n)

/-- `body` under `n` binders. -/
def lambdas : Nat → Term → Term
  | 0, body => body
  | n + 1, body => lam (lambdas n body)

/-- `body` under `n` marks of promotion. -/
def promotedTimes : Nat → Term → Term
  | 0, body => body
  | n + 1, body => promoted (promotedTimes n body)

/-- `f` applied to arguments, the first one innermost. -/
def applied (f : Term) (args : List Term) : Term := args.foldl app f

/-- The head of an application, with its arguments put before `args`. -/
def spineOn : Term → List Term → Term × List Term
  | app f x, args => spineOn f (x :: args)
  | t, args => (t, args)

/-- The head of a term and the arguments to which it is applied. -/
def spine (t : Term) : Term × List Term := t.spineOn []

/-- How many arguments an application still waits for when its head waits for
`n`, at least. An application of a variable, or of a binder, promises none. -/
def arityUnder : Term → (given : Nat) → Nat
  | app f _, given => f.arityUnder (given + 1)
  | prim p, given => p.arity - given
  | promoted body, given => body.arityUnder 0 - given
  | lam body, 0 => body.arityUnder 0 + 1
  | lam _, _ + 1 => 0
  | var _, _ => 0

/-- How many arguments a program takes before it gives a value. -/
def arity (t : Term) : Nat := t.arityUnder 0

/-- The number of nodes; a promoted program counts as one. -/
def size : Term → Nat
  | lam body => body.size + 1
  | app f x => f.size + x.size + 1
  | _ => 1

/-- Whether a promoted program occurs in the term. -/
def usesPromoted : Term → Bool
  | promoted _ => true
  | lam body => body.usesPromoted
  | app f x => f.usesPromoted || x.usesPromoted
  | _ => false

/-- The term below up to `n` binders at its front. -/
def stripLambdas : Nat → Term → Term
  | n + 1, lam body => body.stripLambdas n
  | _, t => t

/-! ## Small laws -/

theorem applied_spineOn (t : Term) (args : List Term) :
    applied (t.spineOn args).1 (t.spineOn args).2 = applied t args := by
  induction t generalizing args with
  | app f x ihf _ => simpa [spineOn, applied] using ihf (x :: args)
  | _ => rfl

/-- A term is its head applied to its arguments. -/
theorem applied_spine (t : Term) : applied t.spine.1 t.spine.2 = t := applied_spineOn t []

@[simp] theorem arity_lam (body : Term) : (lam body).arity = body.arity + 1 := rfl

@[simp] theorem arity_promoted (body : Term) : (promoted body).arity = body.arity := rfl

/-- An application waits for what its head waits for, less what it is given. -/
theorem arity_app (f x : Term) :
    (app f x).arity =
      match (app f x).spine with
      | (prim p, args) => p.arity - args.length
      | (promoted b, args) => b.arity - args.length
      | _ => 0 := by
  suffices h : ∀ (t : Term) (n : Nat) (args : List Term), args.length = n → 0 < n →
      t.arityUnder n =
        match t.spineOn args with
        | (prim p, args) => p.arity - args.length
        | (promoted b, args) => b.arity - args.length
        | _ => 0 from h f 1 [x] rfl Nat.one_pos
  intro t
  induction t with
  | app f x ihf _ => intro n args hn hpos; exact ihf (n + 1) (x :: args) (by simp [hn]) (by omega)
  | lam b _ =>
    intro n args _ hpos
    obtain ⟨m, rfl⟩ := Nat.exists_eq_add_of_lt hpos
    simp [arityUnder, spineOn]
  | prim p => intro n args hn _; simp [arityUnder, spineOn, hn]
  | promoted b _ => intro n args hn _; simp [arityUnder, spineOn, hn, arity]
  | var i => intro n args _ _; rfl

@[simp] theorem lambdas_succ (n : Nat) (t : Term) : lambdas (n + 1) t = lam (lambdas n t) := rfl

/-- Under `n` binders a program takes `n` more arguments. -/
@[simp] theorem arity_lambdas (n : Nat) (t : Term) : (lambdas n t).arity = t.arity + n := by
  induction n with
  | zero => rfl
  | succ n ih => simp [ih]; omega

end Term

end SymbolInduction
