-- JSON texts, read. Blanks are the four of the format; numbers have no leading
-- zeros; strings hold no control characters.
import SymbolInduction.Json.Tree

namespace SymbolInduction.Json

/-- The rest of a text after its blanks. -/
def skipBlanks (text : List Char) : List Char :=
  text.dropWhile fun c => c = ' ' || c = '\n' || c = '\t' || c = '\r'

/-! ## Strings -/

/-- A piece of a string: a character, or a unit of 16 bits that is written as
an escape. -/
inductive Piece where
  | char (c : Char)
  | unit (n : Nat)
  deriving DecidableEq, Inhabited

/-- The value of a hexadecimal digit. -/
def hexDigit? (c : Char) : Option Nat :=
  if '0' ≤ c ∧ c ≤ '9' then some (c.toNat - '0'.toNat)
  else if 'a' ≤ c ∧ c ≤ 'f' then some (c.toNat - 'a'.toNat + 10)
  else if 'A' ≤ c ∧ c ≤ 'F' then some (c.toNat - 'A'.toNat + 10)
  else none

/-- The unit that four hexadecimal digits write. -/
def unit? (a b c d : Char) : Option Nat := do
  let a ← hexDigit? a
  let b ← hexDigit? b
  let c ← hexDigit? c
  let d ← hexDigit? d
  pure (((a * 16 + b) * 16 + c) * 16 + d)

/-- The character that an escape of one letter stands for. -/
def simpleEscape? (c : Char) : Option Char :=
  match c with
  | '"' | '\\' | '/' => some c
  | 'b' => some (Char.ofNat 8)
  | 'f' => some (Char.ofNat 12)
  | 'n' => some '\n'
  | 'r' => some '\r'
  | 't' => some '\t'
  | _ => none

/-- The pieces of a string after its opening quote, and the rest of the text
after its closing quote. -/
def pieces? : List Char → Option (List Piece × List Char)
  | [] => none
  | '"' :: rest => some ([], rest)
  | '\\' :: 'u' :: a :: b :: c :: d :: rest => do
    let n ← unit? a b c d
    let (ps, rest) ← pieces? rest
    pure (.unit n :: ps, rest)
  | '\\' :: c :: rest => do
    let c ← simpleEscape? c
    let (ps, rest) ← pieces? rest
    pure (.char c :: ps, rest)
  | c :: rest =>
    if c.toNat < 32 || c = '\\' then none
    else do
      let (ps, rest) ← pieces? rest
      pure (.char c :: ps, rest)

/-- Whether a unit is the first half of a pair. -/
def isLeading (n : Nat) : Bool := 0xD800 ≤ n && n < 0xDC00

/-- Whether a unit is the second half of a pair. -/
def isTrailing (n : Nat) : Bool := 0xDC00 ≤ n && n < 0xE000

/-- The characters of a string. Two halves of a pair make one character, and a
half alone makes none. -/
def joined? : List Piece → Option (List Char)
  | [] => some []
  | .char c :: ps => (joined? ps).map (c :: ·)
  | .unit n :: ps =>
    if isTrailing n then none
    else if isLeading n then
      match ps with
      | .unit m :: ps =>
        if isTrailing m then
          (joined? ps).map (Char.ofNat (0x10000 + (n - 0xD800) * 0x400 + (m - 0xDC00)) :: ·)
        else none
      | _ => none
    else (joined? ps).map (Char.ofNat n :: ·)

/-- A string after its opening quote, and the rest of the text. -/
def string? (text : List Char) : Option (Option String × List Char) := do
  let (ps, rest) ← pieces? text
  pure ((joined? ps).map String.ofList, rest)

/-! ## Numbers -/

/-- The digits at the start of a text, one at least, and the rest. -/
def digits? (text : List Char) : Option (List Char × List Char) :=
  match text.takeWhile Char.isDigit with
  | [] => none
  | ds => some (ds, text.dropWhile Char.isDigit)

/-- The part after a point, where there is one. -/
def fraction? : List Char → Option (Option (List Char) × List Char)
  | '.' :: text => do
    let (ds, rest) ← digits? text
    pure (some ds, rest)
  | text => some (none, text)

/-- The sign of an exponent: whether it is negative. -/
def exponentSign : List Char → Bool × List Char
  | '-' :: text => (true, text)
  | '+' :: text => (false, text)
  | text => (false, text)

/-- The exponent, where there is one. -/
def exponent? : List Char → Option (Option (Bool × List Char) × List Char)
  | [] => some (none, [])
  | c :: text =>
    if c = 'e' || c = 'E' then do
      let (negative, text) := exponentSign text
      let (ds, rest) ← digits? text
      pure (some (negative, ds), rest)
    else some (none, c :: text)

/-- A number after its sign, and the rest of the text. -/
def unsigned? (negative : Bool) (text : List Char) : Option (Decimal.Numeral × List Char) := do
  let (whole, text) ← digits? text
  if whole.length ≠ 1 && whole.head? = some '0' then none
  let (fraction, text) ← fraction? text
  let (exponent, rest) ← exponent? text
  pure ({ negative, whole, fraction, exponent }, rest)

/-- A number at the start of a text, and the rest. -/
def number? : List Char → Option (Decimal.Numeral × List Char)
  | '-' :: text => unsigned? true text
  | text => unsigned? false text

/-! ## Trees -/

mutual

/-- The tree at the start of a text, and the rest. At least every other call
takes a character, so twice the length of the text is fuel enough. -/
def tree? : (fuel : Nat) → List Char → Option (Tree × List Char)
  | 0, _ => none
  | fuel + 1, text =>
    match skipBlanks text with
    | 'n' :: 'u' :: 'l' :: 'l' :: rest => some (.null, rest)
    | 't' :: 'r' :: 'u' :: 'e' :: rest => some (.bool true, rest)
    | 'f' :: 'a' :: 'l' :: 's' :: 'e' :: rest => some (.bool false, rest)
    | '"' :: rest => do
      let (s, rest) ← string? rest
      pure (.string s, rest)
    | '[' :: rest =>
      match skipBlanks rest with
      | ']' :: rest => some (.array [], rest)
      | rest => do
        let (items, rest) ← items? fuel rest
        pure (.array items, rest)
    | '{' :: rest =>
      match skipBlanks rest with
      | '}' :: rest => some (.object [], rest)
      | rest => do
        let (members, rest) ← members? fuel rest
        pure (.object members, rest)
    | text => do
      let (n, rest) ← number? text
      pure (.number n, rest)

/-- The items of an array up to its closing bracket, one at least. -/
def items? : (fuel : Nat) → List Char → Option (List Tree × List Char)
  | 0, _ => none
  | fuel + 1, text => do
    let (t, rest) ← tree? fuel text
    match skipBlanks rest with
    | ']' :: rest => pure ([t], rest)
    | ',' :: rest => do
      let (ts, rest) ← items? fuel rest
      pure (t :: ts, rest)
    | _ => none

/-- The members of an object up to its closing bracket, one at least. -/
def members? : (fuel : Nat) → List Char → Option (List (Option String × Tree) × List Char)
  | 0, _ => none
  | fuel + 1, text => do
    match skipBlanks text with
    | '"' :: rest => do
      let (name, rest) ← string? rest
      match skipBlanks rest with
      | ':' :: rest => do
        let (t, rest) ← tree? fuel rest
        match skipBlanks rest with
        | '}' :: rest => pure ([(name, t)], rest)
        | ',' :: rest => do
          let (ms, rest) ← members? fuel rest
          pure ((name, t) :: ms, rest)
        | _ => none
      | _ => none
    | _ => none

end

/-- The tree of a text. There is nothing but blanks after it. -/
def Tree.ofText? (text : String) : Option Tree :=
  match tree? (2 * text.length + 2) text.toList with
  | some (t, rest) => if skipBlanks rest = [] then some t else none
  | none => none

end SymbolInduction.Json
