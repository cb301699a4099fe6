-- The numbers that weigh evidence: weights, likelihoods and log posteriors.
-- Everything that only counts, compares and divides is written over this
-- class, so the laws of the rules can be read in exact numbers while the
-- program runs on double precision.

namespace SymbolInduction

/-- A kind of number in which evidence can be weighed. The comparisons are
the numeric ones, so a value that is no number is below nothing and equal to
nothing; `rank` is the total order by which candidates are sorted. -/
class Scalar (α : Type) extends Add α, Mul α, Div α, Neg α where
  /-- The number that counts `n` things. -/
  ofNat : Nat → α
  /-- Strictly below. -/
  lt : α → α → Bool
  /-- Below or equal. -/
  le : α → α → Bool
  /-- Numerically equal. -/
  eq : α → α → Bool
  /-- The larger of two numbers, and the other one where one is no number. -/
  max : α → α → α
  /-- Neither infinite nor no number at all. -/
  isFinite : α → Bool
  /-- The natural logarithm. -/
  log : α → α
  /-- A total order that agrees with `lt` on numbers. -/
  rank : α → α → Ordering

namespace Scalar

variable {α : Type} [Scalar α]

/-- Nothing counted. -/
def zero : α := ofNat 0

/-- One thing counted. -/
def one : α := ofNat 1

/-- The fraction `n / d`. -/
def ratio (n d : Nat) : α := ofNat n / ofNat d

/-- The sum of a list, from the left. -/
def sum (xs : List α) : α := xs.foldl (· + ·) zero

end Scalar

/-- Where a double stands in the total order: negative numbers before
positive ones, `-0` just before `0`, and infinities and non-numbers at the
ends, as their bits order them. -/
def placeOfDouble (x : Float) : Int :=
  let magnitude : Nat := x.toBits.toNat % 0x8000000000000000
  if x.toBits.toNat < 0x8000000000000000 then (magnitude : Int) else -(magnitude : Int) - 1

instance : Scalar Float where
  ofNat := Float.ofNat
  lt a b := a < b
  le a b := a ≤ b
  eq a b := a == b
  max a b := if a.isNaN then b else if b.isNaN then a else if a < b then b else a
  isFinite := Float.isFinite
  log := Float.log
  rank a b := compare (placeOfDouble a) (placeOfDouble b)

end SymbolInduction
