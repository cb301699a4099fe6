-- Symbols with one program. Two symbols that are explained alike are taken for
-- one, and one of them starts anew.
import SymbolInduction.Learner.Basic

namespace SymbolInduction.Learner

variable {α : Type} [Scalar α]

/-- Which one of two symbols gives way. -/
inductive Side where
  | first | second
  deriving DecidableEq, Inhabited

/-- Which one of two symbols with the same program gives way: the one that is
learned, where the other one is not; of two that are learned, the one with
fewer confident examples, or the second. Of two that are not learned, none. -/
def loser? (s t : Symbol α) : Option Side :=
  match s.learnable, t.learnable with
  | false, false => none
  | false, true => some .second
  | true, false => some .first
  | true, true => if s.examples.length < t.examples.length then some .first else some .second

/-- Compares symbol `i` with those that come after it, the next one being
symbol `j`, until it gives way itself. Says how many symbols were cleared. -/
def mergeWith (i : Nat) : (s : Symbol α) → (j : Nat) → List (Symbol α) →
    Logged α (Nat × Symbol α × List (Symbol α))
  | s, _, [] => pure (0, s, [])
  | s, j, t :: ts =>
    if Explanation.equivalent s.explanation t.explanation then
      match loser? s t with
      | none => do
        let (n, s, ts) ← mergeWith i s (j + 1) ts
        pure (n, s, t :: ts)
      | some .first => do
        .note (.merged i j s.explanation.description i)
        pure (1, s.clear, t :: ts)
      | some .second => do
        .note (.merged i j s.explanation.description j)
        let (n, s, ts) ← mergeWith i s (j + 1) ts
        pure (n + 1, s, t.clear :: ts)
    else do
      let (n, s, ts) ← mergeWith i s (j + 1) ts
      pure (n, s, t :: ts)

/-- Merges each of the first `count` symbols of a list with those after it. The
first one is symbol `i`. -/
def mergeFrom (i : Nat) : (count : Nat) → List (Symbol α) → Logged α (Nat × List (Symbol α))
  | count + 1, s :: ts => do
    let (n, s, ts) ← mergeWith i s (i + 1) ts
    let (m, ts) ← mergeFrom (i + 1) count ts
    pure (n + m, s :: ts)
  | _, symbols => pure (0, symbols)

/-- Clears one of any two symbols with the same program. Says how many were
cleared. -/
def merge (l : Learner α) : Logged α (Nat × Learner α) := do
  let (n, symbols) ← mergeFrom 0 l.symbols.length l.symbols
  pure (n, { l with symbols })

end SymbolInduction.Learner
