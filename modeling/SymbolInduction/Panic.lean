-- What stops the program. Where it stops, nothing is returned, not even an error.

namespace SymbolInduction

/-- Why the program stopped. -/
inductive Panic where
  /-- The entry with number `index` was looked up where there are `length` entries. -/
  | indexOutOfRange (length index : Nat)
  /-- A count went past the greatest word. -/
  | countOverflow
  /-- A table was to have more entries than can be addressed. -/
  | capacityOverflow
  /-- Something was to be shared out among none. -/
  | divisionByZero
  /-- An instant was past the last one that the clock can show. -/
  | timeOverflow
  /-- Weights to draw by added up to no finite number. -/
  | weightOverflow
  deriving DecidableEq, Inhabited

/-- The entry of an array with a number. -/
def entry {β : Type} (entries : Array β) (i : Nat) : Except Panic β :=
  match entries[i]? with
  | some e => .ok e
  | none => .error (.indexOutOfRange entries.size i)

theorem entry_eq_ok_iff {β : Type} (entries : Array β) (i : Nat) (e : β) :
    entry entries i = .ok e ↔ entries[i]? = some e := by
  unfold entry
  cases entries[i]? <;> simp

end SymbolInduction
