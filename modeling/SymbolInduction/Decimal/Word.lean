-- Decimal text of machine integers. A word is written with the fewest
-- digits; it is read back with an optional sign and any number of leading
-- zeros, and a number outside its range is refused.

namespace SymbolInduction.Decimal

/-- The number that a text of ASCII digits writes. An empty text writes none. -/
def natOf? (text : List Char) : Option Nat :=
  if text ≠ [] ∧ text.all Char.isDigit then some (Nat.ofDigitChars 10 text 0) else none

/-- The signed 64-bit number `n`, where it is in range. -/
def int64OfInt? (n : Int) : Option Int64 :=
  if Int64.minValue.toInt ≤ n ∧ n ≤ Int64.maxValue.toInt then some (Int64.ofInt n) else none

/-- The unsigned 64-bit number `n`, where it is in range. -/
def uint64OfNat? (n : Nat) : Option UInt64 :=
  if n < UInt64.size then some (UInt64.ofNat n) else none

/-- Reads a signed word: digits after an optional `+` or `-`. -/
def int64Of? : List Char → Option Int64
  | '-' :: digits => (natOf? digits).bind fun n => int64OfInt? (-n)
  | '+' :: digits => (natOf? digits).bind fun n => int64OfInt? n
  | digits => (natOf? digits).bind fun n => int64OfInt? n

/-- Reads an unsigned word: digits after an optional `+`. -/
def uint64Of? : List Char → Option UInt64
  | '+' :: digits => (natOf? digits).bind uint64OfNat?
  | digits => (natOf? digits).bind uint64OfNat?

/-- The digits of a natural number, with no leading zero. -/
def natChars (n : Nat) : List Char := Nat.toDigits 10 n

/-- The digits of a signed word, after a `-` where it is negative. -/
def int64Chars (n : Int64) : List Char :=
  match n.toInt with
  | .ofNat k => natChars k
  | .negSucc k => '-' :: natChars (k + 1)

/-- The decimal text of a signed word. -/
def int64Text (n : Int64) : String := String.ofList (int64Chars n)

example : int64Of? "+007".toList = some 7 := by decide
example : int64Of? "-9223372036854775808".toList = some Int64.minValue := by decide
example : int64Of? "9223372036854775808".toList = none := by decide
example : uint64Of? "-0".toList = none := by decide
example : int64Text (-12) = "-12" := by decide

end SymbolInduction.Decimal
