-- A symbol: what was observed of it, and the program that explains it so far.
-- Observations and candidate programs come in one after another; a symbol is
-- solved once its program is good enough, and stays so until it is cleared.
import SymbolInduction.Evidence
import SymbolInduction.Score

namespace SymbolInduction

/-- One symbol of a vocabulary. -/
structure Symbol (α : Type) where
  idx : Nat
  arity : Nat
  settings : Settings α
  learnable : Bool := true
  fewshot : Bool := false
  evidence : Evidence α := {}
  /-- The examples that are sure enough, and which of them are reproduced. -/
  examples : List Example := []
  correct : Option (List Bool) := none
  explanation : Explanation := none
  groundTruth : Option Program := none
  likelihood : α
  solved : Bool := false

namespace Symbol

variable {α : Type} [Scalar α]

/-! ## New symbols -/

/-- A symbol that nothing is known of. -/
def fresh (idx arity : Nat) (settings : Settings α) : Symbol α :=
  { idx, arity, settings, likelihood := Scalar.zero }

/-- A symbol whose program is known and never learned. -/
def pinned (idx : Nat) (program : Program) (settings : Settings α) : Symbol α :=
  { idx, arity := program.arity, settings, learnable := false, explanation := some program
    groundTruth := some program, likelihood := Scalar.one, solved := true }

/-! ## Observations and candidates -/

/-- Settles whether the symbol is solved. A symbol that is not learned is; one
without a program is not; one that was solved stays so. -/
def settle (s : Symbol α) : Symbol α :=
  { s with
    solved :=
      if !s.learnable then true
      else if s.explanation.isNone then false
      else s.solved || Scalar.le s.settings.solvedThreshold s.likelihood }

/-- Scores the symbol's program on its examples. -/
def rescore (s : Symbol α) : Logged α (Symbol α) := do
  let (score, explanation) ← s.explanation.score s.examples (some s.settings.arityPenalty)
  pure { s with explanation, likelihood := score.likelihood, correct := score.correct }

/-- Notes how well the known program, where there is one, fits the batch and
the examples that are sure enough. -/
def audit (s : Symbol α) (batch : List Example) : Logged α (Symbol α) :=
  match s.groundTruth with
  | none => pure s
  | some truth => do
    let (all, truth) ← Explanation.score (some truth) batch none
    let (sure, truth) ← Explanation.score truth s.examples none
    .note (.observed s.idx s.arity batch.length s.examples.length all.likelihood sure.likelihood)
    pure { s with groundTruth := truth }

/-- The symbol with a round of observations taken in: old weights fade, the
new ones are added, and the examples are chosen anew. -/
def withEvidence (s : Symbol α) (batch : List Example) : Symbol α :=
  let evidence := s.evidence.observe s.settings.decay batch
  { s with evidence, examples := evidence.confident s.settings }

/-- One round of observations. Those with another number of arguments do not
count. -/
def observe (s : Symbol α) (observed : List Example) : Logged α (Symbol α) := do
  let batch := observed.filter fun e => e.arity == s.arity
  let s := s.withEvidence batch
  let s ← if s.learnable then s.rescore else pure s
  s.settle.audit batch

/-- Whether a candidate with a given likelihood takes the place of the current
program: it is more likely, or as likely and has a shorter text. -/
def prefers (s : Symbol α) (likelihood : α) (candidate : Program) : Bool :=
  Scalar.lt s.likelihood likelihood ||
    (Scalar.eq likelihood s.likelihood &&
      candidate.text.utf8ByteSize < s.explanation.text.utf8ByteSize)

/-- Offers a candidate program. Says whether it took the place of the current
one. -/
def consider (s : Symbol α) (candidate : Program) : Logged α (Bool × Symbol α) :=
  if !s.learnable then pure (false, s)
  else do
    let (score, explanation) ←
      Explanation.score (some candidate) s.examples (some s.settings.arityPenalty)
    if s.prefers score.likelihood candidate then
      let s := { s with explanation, likelihood := score.likelihood, correct := score.correct }
      pure (true, s.settle)
    else pure (false, s)

/-! ## Freezing and clearing -/

/-- Stops learning the symbol and trusts its program. -/
def freeze (s : Symbol α) : Symbol α :=
  ({ s with learnable := false, likelihood := Scalar.one } : Symbol α).settle

/-- Forgets all that was learned of the symbol. -/
def clear (s : Symbol α) : Symbol α :=
  { s with
    evidence := {}, examples := [], correct := none, explanation := none
    likelihood := Scalar.zero, solved := false }

end Symbol

end SymbolInduction
