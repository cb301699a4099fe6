-- Promotion: the programs of solved symbols with two arguments become
-- components of the grammar. Programs that do the same as one of the two
-- canonical ones, so far as it was seen, are promoted as that one.
import SymbolInduction.Learner.Basic

namespace SymbolInduction.Learner

variable {α : Type} [Scalar α]

/-- Whether two programs agree on all examples, and the programs with what
they remember. Where the first one gives no output, they agree. -/
def agreement (p q : Program) : List Example → Logged α (Bool × Program × Program)
  | [] => pure (true, p, q)
  | e :: es => do
    let (v, p) ← p.evaluate e.inputs
    let (w, q) ← q.evaluate e.inputs
    if v = .missing || v = w then agreement p q es else pure (false, p, q)

/-- The two canonical programs, with what they remember. -/
structure Canon where
  add : Program
  monus : Program

/-- The term that is promoted for a program: a canonical one where it agrees on
all examples, and its own term otherwise. -/
def promotedFor (options : Options α) (c : Canon) (p : Program) (own : Term)
    (examples : List Example) : Logged α (Term × Program × Canon) := do
  let (likeAdd, p, add) ← agreement p c.add examples
  if likeAdd then pure (options.add, p, { c with add })
  else
    let (likeMonus, p, monus) ← agreement p c.monus examples
    pure (if likeMonus then options.monus else own, p, { add, monus })

/-- The program of a symbol that may be promoted, and its term. -/
def promotable? (l : Learner α) (s : Symbol α) : Option (Program × Term) :=
  if s.learnable && s.solved && s.arity == 2 then
    s.explanation.bind fun p =>
      p.term?.bind fun t => if l.options.guard p.description then some (p, t) else none
  else none

/-- The terms that are promoted for some symbols, and the symbols with what
their programs remember. -/
def promotions (l : Learner α) : Canon → List (Symbol α) → Logged α (List Term × List (Symbol α))
  | _, [] => pure ([], [])
  | c, s :: rest =>
    match l.promotable? s with
    | none => do
      let (terms, rest) ← promotions l c rest
      pure (terms, s :: rest)
    | some (p, t) => do
      let (chosen, p, c) ← promotedFor l.options c p t s.examples
      let (terms, rest) ← promotions l c rest
      pure (.promoted chosen :: terms, { s with explanation := some p } :: rest)

/-- Builds the grammar anew from the base terms and the promoted programs. Says
whether it has changed. -/
def updateGrammar (l : Learner α) : Logged α (Bool × Learner α) := do
  let canon : Canon := { add := .ofTerm l.options.add, monus := .ofTerm l.options.monus }
  let (terms, symbols) ← promotions l canon l.symbols
  { l with symbols }.renew (l.baseTerms ++ terms)

end SymbolInduction.Learner
