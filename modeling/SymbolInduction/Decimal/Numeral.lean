-- Numbers as they stand in a text: a sign, digits, perhaps digits after a
-- point, perhaps an exponent.
import SymbolInduction.Decimal.Shortest

namespace SymbolInduction.Decimal

/-- A written number. -/
structure Numeral where
  negative : Bool := false
  whole : List Char
  fraction : Option (List Char) := none
  /-- Whether the exponent is negative, and its digits. -/
  exponent : Option (Bool × List Char) := none
  deriving DecidableEq, Inhabited

namespace Numeral

/-- A minus sign, where there is one. -/
def sign (negative : Bool) : List Char := if negative then ['-'] else []

/-- The text of a number. An exponent always has a sign. -/
def chars (n : Numeral) : List Char :=
  sign n.negative ++ n.whole ++
    (n.fraction.elim [] ('.' :: ·)) ++
    (n.exponent.elim [] fun (negative, digits) =>
      'e' :: (if negative then '-' else '+') :: digits)

/-! ## Whole numbers -/

/-- The written form of a whole number. -/
def ofInt (n : Int) : Numeral := { negative := decide (n < 0), whole := natChars n.natAbs }

/-- The whole number that is written without point and exponent. A zero with a
minus sign is not a whole number. -/
def toInt? (n : Numeral) : Option Int :=
  match n.fraction, n.exponent with
  | none, none =>
    let m := Nat.ofDigitChars 10 n.whole 0
    if n.negative then if m = 0 then none else some (-m) else some m
  | _, _ => none

/-! ## Doubles, written -/

/-- The written form of `digits * 10 ^ power`: with a point up to 16 places
before it and down to four zeros behind it, and else with an exponent. A point
always has a digit on either side. -/
def ofDigits (negative : Bool) (digits : List Char) (power : Int) : Numeral :=
  let place := digits.length + power
  if 0 ≤ power ∧ place ≤ 16 then
    { negative, whole := digits ++ List.replicate power.toNat '0', fraction := some ['0'] }
  else if 0 < place ∧ place ≤ 16 then
    { negative, whole := digits.take place.toNat, fraction := some (digits.drop place.toNat) }
  else if -5 < place ∧ place ≤ 0 then
    { negative, whole := ['0'], fraction := some (List.replicate (-place).toNat '0' ++ digits) }
  else
    { negative, whole := digits.take 1
      fraction := if digits.length = 1 then none else some (digits.drop 1)
      exponent := some (decide (place - 1 < 0), natChars (place - 1).natAbs) }

/-- The shortest written form that reads as the double; none for an infinity
or no number. -/
def ofDouble? : Double → Option Numeral
  | .finite negative m e =>
    if m = 0 then some { negative, whole := ['0'], fraction := some ['0'] }
    else (shortest? m e).map fun (n, i) => ofDigits negative (natChars n) i
  | _ => none

example : (ofDigits true ['1', '2'] (-3)).chars = ['-', '0', '.', '0', '1', '2'] := by decide
example : (ofDigits false ['1', '2'] 15).chars = ['1', '.', '2', 'e', '+', '1', '6'] := by decide
example : (ofDigits false ['1'] (-6)).chars = ['1', 'e', '-', '6'] := by decide

/-! ## Doubles, read

The digits are gathered in one unsigned word as far as they fit, and scaled by
one multiplication or division with a power of ten. -/

/-- Takes digits into a word while it stays below `2 ^ 64`; says how many were
taken. -/
def gather : (word : Nat) → List Char → Nat × Nat
  | word, [] => (word, 0)
  | word, d :: ds =>
    let next := word * 10 + (d.toNat - '0'.toNat)
    if next < UInt64.size then
      let (word, taken) := gather next ds
      (word, taken + 1)
    else (word, 0)

/-- A power of ten, as near as a double comes to it. -/
def powerOfTen (k : Nat) : Float := Float.ofScientific 1 false k

/-- Scales a double by a power of ten. Powers beyond the range of doubles are
reached in steps; there is no result beyond the range. -/
def scale (x : Float) (power : Int) : Option Float :=
  if 308 < power then
    if x == 0 then some x else none
  else if 0 ≤ power then
    let y := x * powerOfTen power.toNat
    if y.isInf then none else some y
  else if -308 ≤ power then some (x / powerOfTen (-power).toNat)
  else if x == 0 then some x
  else scale (x / powerOfTen 308) (power + 308)
termination_by (-power).toNat
decreasing_by omega

/-- The largest exponent that is reckoned with. -/
def exponentLimit : Nat := 2147483647

/-- The size of a written number. Digits of the whole part that no longer fit
count as places; digits of the fraction that no longer fit do not count. A
huge exponent leaves nothing or goes beyond the range. -/
def magnitude? (n : Numeral) : Option Float :=
  let (word, taken) := gather 0 n.whole
  let (word, fractional) := gather word (n.fraction.getD [])
  let places : Int := n.whole.length - taken - fractional
  let x := (UInt64.ofNat word).toFloat
  match n.exponent with
  | none => scale x places
  | some (negative, digits) =>
    let e := Nat.ofDigitChars 10 digits 0
    if exponentLimit < e then if word ≠ 0 && !negative then none else some 0
    else scale x (places + if negative then -(e : Int) else e)

/-- The double that a written number reads as. -/
def toFloat? (n : Numeral) : Option Float :=
  n.magnitude?.map fun x => if n.negative then -x else x

end Numeral

end SymbolInduction.Decimal
