-- The shortest decimal text that reads back as a given double. A double
-- stands for the reals nearest to it. Among the powers of ten, the largest
-- one is taken that has a multiple in that interval; of its multiples next to
-- the exact value, the nearer one gives the digits.
import SymbolInduction.Decimal.Double
import SymbolInduction.Decimal.Word

namespace SymbolInduction.Decimal

/-- The interval of a double on the grid of multiples of a power of ten, all
scaled to whole numbers: the exact value, its two ends, and the distance of
two neighbours on the grid. -/
structure Grid where
  value : Nat
  low : Nat
  high : Nat
  step : Nat
  /-- Whether the two ends belong to the interval. -/
  closed : Bool

namespace Grid

/-- The double `m * 2 ^ e` on the grid of multiples of `10 ^ i`. -/
def of (m : Nat) (e i : Int) : Grid :=
  let scale := Nat.pow 10 (-i).toNat <<< (e - 2).toNat
  { value := 4 * m * scale
    low := (if Double.isAtPowerOfTwo m e then 4 * m - 1 else 4 * m - 2) * scale
    high := (4 * m + 2) * scale
    step := Nat.pow 10 i.toNat <<< (2 - e).toNat
    closed := m % 2 = 0 }

/-- Whether the `n`th multiple lies in the interval. -/
def holds (g : Grid) (n : Nat) : Bool :=
  if g.closed then g.low ≤ n * g.step ∧ n * g.step ≤ g.high
  else g.low < n * g.step ∧ n * g.step < g.high

/-- The multiple in the interval that is nearest to the exact value, an even
one where two are as near. -/
def nearest? (g : Grid) : Option Nat :=
  let n := g.value / g.step
  let below := g.value - n * g.step
  let above := (n + 1) * g.step - g.value
  match n != 0 && g.holds n, g.holds (n + 1) with
  | true, true =>
    if below < above then some n
    else if above < below then some (n + 1)
    else if n % 2 = 0 then some n else some (n + 1)
  | true, false => some n
  | false, true => some (n + 1)
  | false, false => none

end Grid

/-- The digits and the power of ten of the shortest text of `m * 2 ^ e`. The
doubles lie between `10 ^ -324` and `10 ^ 309`. -/
def shortest? (m : Nat) (e : Int) : Option (Nat × Int) :=
  (List.range 650).findSome? fun (j : Nat) =>
    let i : Int := 309 - (j : Int)
    (Grid.of m e i).nearest?.map fun n => (n, i)

example : shortest? (2 ^ 52) (-52) = some (1, 0) := by decide +kernel
example : shortest? 1 (-1074) = some (5, -324) := by decide +kernel
example : shortest? 0x1999999999999a (-56) = some (1, -1) := by decide +kernel

end SymbolInduction.Decimal
