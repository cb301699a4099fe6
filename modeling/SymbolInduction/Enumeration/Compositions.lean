-- How a cost is shared out among arguments, and how one argument is chosen
-- from each of several pools.

namespace SymbolInduction.Enumeration

/-! ## Compositions -/

/-- The numbers from `n` down to one. -/
def countdown : Nat → List Nat
  | 0 => []
  | n + 1 => (n + 1) :: countdown n

/-- All ways to write `total` as a sum of so many positive parts, those with
the largest first part first. -/
def compositions : (total parts : Nat) → List (List Nat)
  | 0, 0 => [[]]
  | _ + 1, 0 => []
  | total, parts + 1 =>
    (countdown (total - parts)).flatMap fun c => (compositions (total - c) parts).map (c :: ·)

example : compositions 4 2 = [[3, 1], [2, 2], [1, 3]] := by decide

/-! ## Choices

A choice from some pools is a list with one index for each of them. Choices
are gone through like the numbers of an odometer whose first wheel turns
fastest. -/

/-- The first choice. -/
def firstChoice (sizes : List Nat) : List Nat := sizes.map fun _ => 0

/-- The choice after another one; none after the last. -/
def nextChoice? : (sizes choice : List Nat) → Option (List Nat)
  | size :: sizes, i :: choice =>
    if i + 1 < size then some ((i + 1) :: choice) else (nextChoice? sizes choice).map (0 :: ·)
  | _, _ => none

example : nextChoice? [2, 3] [1, 1] = some [0, 2] := by decide

/-- Goes from one choice to the next, at most `count` of them. -/
def visitFrom {σ ε : Type} (sizes : List Nat) (visit : List Nat → σ → Except ε σ) :
    (count : Nat) → (choice : List Nat) → σ → Except ε σ
  | 0, _, s => .ok s
  | count + 1, choice, s => do
    let s ← visit choice s
    match nextChoice? sizes choice with
    | some next => visitFrom sizes visit count next s
    | none => .ok s

/-- How many choices there are from pools with the given sizes. -/
def countChoices : (sizes : List Nat) → Nat
  | [] => 1
  | size :: sizes => size * countChoices sizes

/-- Visits every choice from pools with the given sizes. -/
def visitChoices {σ ε : Type} (sizes : List Nat) (visit : List Nat → σ → Except ε σ) (s : σ) :
    Except ε σ :=
  visitFrom sizes visit (countChoices sizes) (firstChoice sizes) s

end SymbolInduction.Enumeration
