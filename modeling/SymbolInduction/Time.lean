-- Time: spans of it, and a clock that shows instants. Both are counted in
-- nanoseconds.
import SymbolInduction.Panic

namespace SymbolInduction

/-! ## Spans -/

/-- A span of time. Its whole seconds fit in a word. -/
structure Duration where
  nanoseconds : Nat
  nanoseconds_lt : nanoseconds < UInt64.size * 1000000000
  deriving DecidableEq

namespace Duration

/-- So many milliseconds. -/
def ofMillis (n : UInt64) : Duration where
  nanoseconds := n.toNat * 1000000
  nanoseconds_lt := by
    have hword : n.toNat < UInt64.size := n.toNat_lt
    omega

/-- So many seconds. -/
def ofSeconds (n : UInt64) : Duration where
  nanoseconds := n.toNat * 1000000000
  nanoseconds_lt := by
    have hword : n.toNat < UInt64.size := n.toNat_lt
    omega

instance : Inhabited Duration := ⟨ofMillis 0⟩

/-- The whole milliseconds of a span. -/
def millis (d : Duration) : Nat := d.nanoseconds / 1000000

/-- What is left of a span after so many nanoseconds. -/
def less (d : Duration) (elapsed : Nat) : Duration where
  nanoseconds := d.nanoseconds - elapsed
  nanoseconds_lt := Nat.lt_of_le_of_lt (Nat.sub_le ..) d.nanoseconds_lt

/-- An equal share of a span. Of the number of shares only the last 32 bits
count. -/
def share (d : Duration) (shares : Nat) : Except Panic Duration :=
  let shares := shares % UInt32.size
  if shares = 0 then .error .divisionByZero
  else
    .ok
      { nanoseconds := d.nanoseconds / shares
        nanoseconds_lt := Nat.lt_of_le_of_lt (Nat.div_le_self ..) d.nanoseconds_lt }

end Duration

/-! ## Instants -/

/-- A clock: the instant at each of the moments at which it is read, and the
last instant that it can show. -/
structure Clock where
  now : Nat → Nat
  last : Nat

namespace Clock

/-- The clock that stands still, with seconds that fit in a signed word. -/
def still : Clock := { now := fun _ => 0, last := UInt64.size / 2 * 1000000000 - 1 }

/-- The instant that is so much later than another one. -/
def after (c : Clock) (instant : Nat) (d : Duration) : Except Panic Nat :=
  if instant + d.nanoseconds ≤ c.last then .ok (instant + d.nanoseconds) else .error .timeOverflow

end Clock

end SymbolInduction
