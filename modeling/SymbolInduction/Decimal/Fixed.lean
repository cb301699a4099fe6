-- Numbers with a fixed count of decimal places. The exact binary value is
-- rounded once, and a value halfway between two texts takes the even one.
import SymbolInduction.Decimal.Double
import SymbolInduction.Decimal.Word

namespace SymbolInduction.Decimal

/-- The quotient, rounded to the nearest whole number; a half goes to the even
neighbour. -/
def roundHalfEven (num den : Nat) : Nat :=
  let q := num / den
  let r := num % den
  if 2 * r < den then q
  else if den < 2 * r then q + 1
  else if q % 2 = 0 then q else q + 1

/-- The text of `n` hundredths, thousandths and so on, by the count of places. -/
def placed (places n : Nat) : List Char :=
  let digits := natChars n
  let digits := List.replicate (places + 1 - digits.length) '0' ++ digits
  let whole := digits.take (digits.length - places)
  if places = 0 then whole else whole ++ '.' :: digits.drop (digits.length - places)

/-- The text of a double with a fixed count of decimal places. -/
def Double.fixed (places : Nat) : Double → String
  | .notANumber => "NaN"
  | .infinite negative => if negative then "-inf" else "inf"
  | .finite negative m e =>
    let n := roundHalfEven ((m * Nat.pow 10 places) <<< e.toNat) (1 <<< (-e).toNat)
    String.ofList ((if negative then ['-'] else []) ++ placed places n)

/-- The text of a floating-point number with two decimal places. -/
def twoPlaces (x : Float) : String := (Double.ofFloat x).fixed 2

example : (Double.ofBits 0x3fc0000000000000).fixed 2 = "0.12" := by decide
example : (Double.ofBits 0xbff0000000000000).fixed 2 = "-1.00" := by decide

end SymbolInduction.Decimal
