-- The two budgets of an evaluation. Every evaluation of a term and every
-- application of a function costs a step; every list of arguments, every call
-- of a closure and every turn of a recursion is one level deep. A computation
-- carries both counters along, and keeps them when it fails. The counters are
-- words: where one of them cannot go on, the program stops.

namespace SymbolInduction

/-- Why an evaluation gave no value. -/
inductive EvalError where
  | arityMismatch (expected found : Nat)
  | typeMismatch (place : String)
  | depthExceeded (limit : Nat)
  | stepLimit (limit : Nat)
  | indexOutOfRange (place : String)
  | divisionByZero
  | overflow
  | unboundIndex (i : UInt64)
  | missingInput
  /-- A counter stood at the greatest word. This is no error that is returned:
  the program stops. -/
  | counterOverflow
  deriving DecidableEq, Inhabited

/-- What is said of a failed evaluation. -/
def EvalError.message : EvalError → String
  | .arityMismatch expected found => s!"expected {expected} arguments, got {found}"
  | .typeMismatch place => "type mismatch in " ++ place
  | .depthExceeded limit => s!"depth limit {limit} exceeded"
  | .stepLimit limit => s!"step limit {limit} exceeded"
  | .indexOutOfRange place => "index out of range in " ++ place
  | .divisionByZero => "division by zero"
  | .overflow => "arithmetic overflow"
  | .unboundIndex i => s!"unbound variable ${i.toNat}"
  | .missingInput => "missing input"
  | .counterOverflow => "attempt to add with overflow"

/-- How many steps and how many levels an evaluation may use: two words. -/
structure Limits where
  steps : Nat := 20000
  depth : Nat := 200
  steps_lt : steps < UInt64.size := by decide
  depth_lt : depth < UInt64.size := by decide
  deriving DecidableEq

theorem Limits.defaultDepth_lt : 200 < UInt64.size := by decide

/-- The limits leave a word for the step and for the level that is one too many. -/
structure Limits.Fits (limits : Limits) : Prop where
  steps : limits.steps + 1 < UInt64.size
  depth : limits.depth + 1 < UInt64.size

/-- The steps used so far and the level at which an evaluation stands. -/
structure Meter where
  steps : Nat := 0
  depth : Nat := 0
  deriving DecidableEq, Inhabited

/-! ## Counting -/

/-- A state with counters on it, which may keep a record of how they move. -/
class Recorder (σ : Type) where
  meter : σ → Meter
  move : σ → Meter → σ

/-- The counters alone keep no record. -/
instance : Recorder Meter where
  meter m := m
  move _ m := m

/-- A computation that moves counters and may fail. -/
abbrev Counting (σ : Type) := EStateM EvalError σ

/-- A computation that moves the counters and may fail; a failure leaves the
counters where they stood. -/
abbrev Metered := Counting Meter

namespace Metered

open Recorder

variable {σ α : Type} [Recorder σ]

/-- Counts the step that is one too many, and fails. -/
def refuseStep (limits : Limits) : Counting σ α := fun s =>
  if (meter s).steps + 1 < UInt64.size then
    .error (.stepLimit limits.steps) (move s { meter s with steps := (meter s).steps + 1 })
  else .error .counterOverflow s

/-- Counts one step, and fails where that is one too many. -/
def tick (limits : Limits) : Counting σ Unit := fun s =>
  if (meter s).steps < limits.steps then
    .ok () (move s { meter s with steps := (meter s).steps + 1 })
  else refuseStep limits s

/-- Counts the level that is one too deep, and fails. -/
def refuseLevel (limits : Limits) : Counting σ α := fun s =>
  if (meter s).depth + 1 < UInt64.size then
    .error (.depthExceeded limits.depth) (move s { meter s with depth := (meter s).depth + 1 })
  else .error .counterOverflow s

/-- The counters, one level less deep. -/
def leave (s : σ) : σ := move s { meter s with depth := (meter s).depth - 1 }

/-- Runs a computation one level deeper and comes back to the level before,
also after a failure. Where the level is too deep, the computation does not
start and the counter stays at the level that was refused. -/
def nested (limits : Limits) (x : Counting σ α) : Counting σ α := fun s =>
  if (meter s).depth < limits.depth then
    match x (move s { meter s with depth := (meter s).depth + 1 }) with
    | .ok a s => .ok a (leave s)
    | .error e s => .error e (leave s)
  else refuseLevel limits s

/-- Where no step is left, nothing comes after the step that is refused. -/
theorem tick_bind_refused {limits : Limits} {s : σ} (h : limits.steps ≤ (meter s).steps)
    (f : Unit → Counting σ α) : (tick limits >>= f) s = refuseStep limits s := by
  simp only [bind, EStateM.bind, tick, if_neg (Nat.not_lt.2 h), refuseStep]
  by_cases hword : (meter s).steps + 1 < UInt64.size
  · simp only [if_pos hword]
  · simp only [if_neg hword]

/-! ## The counters alone -/

theorem refuseStep_meter (limits : Limits) (m : Meter) :
    (refuseStep limits : Metered α) m =
      if m.steps + 1 < UInt64.size then
        .error (.stepLimit limits.steps) { m with steps := m.steps + 1 }
      else .error .counterOverflow m := rfl

theorem tick_meter (limits : Limits) (m : Meter) :
    (tick limits : Metered Unit) m =
      if m.steps < limits.steps then .ok () { m with steps := m.steps + 1 }
      else refuseStep limits m := rfl

theorem refuseLevel_meter (limits : Limits) (m : Meter) :
    (refuseLevel limits : Metered α) m =
      if m.depth + 1 < UInt64.size then
        .error (.depthExceeded limits.depth) { m with depth := m.depth + 1 }
      else .error .counterOverflow m := rfl

theorem nested_meter (limits : Limits) (x : Metered α) (m : Meter) :
    nested limits x m =
      if m.depth < limits.depth then
        match x { m with depth := m.depth + 1 } with
        | .ok a m => .ok a { m with depth := m.depth - 1 }
        | .error e m => .error e { m with depth := m.depth - 1 }
      else refuseLevel limits m := by
  unfold nested leave Recorder.meter Recorder.move instRecorderMeter
  dsimp only
  split
  · cases x { m with depth := m.depth + 1 } <;> rfl
  · rfl

/-! ## What gives a value -/

omit [Recorder σ] in
theorem bind_eq_ok {β : Type} {x : Counting σ α} {f : α → Counting σ β} {s t : σ} {b : β}
    (h : (x >>= f) s = .ok b t) : ∃ a u, x s = .ok a u ∧ f a u = .ok b t := by
  simp only [bind, EStateM.bind] at h
  cases hr : x s with
  | ok a u =>
    rw [hr] at h
    exact ⟨a, u, rfl, h⟩
  | error e u =>
    rw [hr] at h
    cases h

@[simp]
theorem refuseStep_ne_ok (limits : Limits) (m n : Meter) (a : α) :
    (refuseStep limits : Metered α) m ≠ .ok a n := by
  rw [refuseStep_meter]
  split <;> simp

@[simp]
theorem refuseLevel_ne_ok (limits : Limits) (m n : Meter) (a : α) :
    (refuseLevel limits : Metered α) m ≠ .ok a n := by
  rw [refuseLevel_meter]
  split <;> simp

theorem tick_eq_ok_iff (limits : Limits) (m n : Meter) :
    tick limits m = .ok () n ↔ m.steps < limits.steps ∧ n = { m with steps := m.steps + 1 } := by
  rw [tick_meter]
  by_cases hroom : m.steps < limits.steps
  · simp [hroom, @eq_comm _ n]
  · simp [hroom]

theorem nested_eq_ok_iff (limits : Limits) (x : Metered α) (m n : Meter) (a : α) :
    nested limits x m = .ok a n ↔
      m.depth < limits.depth ∧ ∃ k, x { m with depth := m.depth + 1 } = .ok a k ∧
        n = { k with depth := k.depth - 1 } := by
  rw [nested_meter]
  by_cases hroom : m.depth < limits.depth
  · cases x { m with depth := m.depth + 1 } <;> simp [hroom, @eq_comm _ n, and_assoc]
  · simp [hroom]

end Metered

end SymbolInduction
