-- JSON texts, written: on one line without blanks, or over many lines with two
-- blanks for each level.
import SymbolInduction.Json.Tree

namespace SymbolInduction.Json

/-! ## Strings -/

/-- A character within a string. Quotes, backslashes and control characters
are escaped. -/
def escaped (c : Char) : List Char :=
  if c = '"' then ['\\', '"']
  else if c = '\\' then ['\\', '\\']
  else if c = '\n' then ['\\', 'n']
  else if c = '\r' then ['\\', 'r']
  else if c = '\t' then ['\\', 't']
  else if c.toNat = 8 then ['\\', 'b']
  else if c.toNat = 12 then ['\\', 'f']
  else if c.toNat < 32 then
    ['\\', 'u', '0', '0'] ++ Nat.toDigits 16 (c.toNat / 16) ++ Nat.toDigits 16 (c.toNat % 16)
  else [c]

/-- A string in quotes. -/
def quoted (s : String) : List Char := '"' :: (s.toList.flatMap escaped ++ ['"'])

/-! ## Trees -/

/-- How a text is laid out: what comes before the first item of a list and
before its closing bracket at a level, and what stands after a colon. -/
structure Layout where
  newline : (level : Nat) → List Char
  afterColon : List Char

/-- Everything on one line, without blanks. -/
def Layout.compact : Layout := { newline := fun _ => [], afterColon := [] }

/-- Each item on a line of its own, with two blanks for each level. -/
def Layout.indented : Layout where
  newline level := '\n' :: List.replicate (2 * level) ' '
  afterColon := [' ']

namespace Tree

mutual

/-- The text of a tree before `rest`. -/
def charsOn (l : Layout) (level : Nat) : Tree → (rest : List Char) → List Char
  | null, rest => ['n', 'u', 'l', 'l'] ++ rest
  | bool true, rest => ['t', 'r', 'u', 'e'] ++ rest
  | bool false, rest => ['f', 'a', 'l', 's', 'e'] ++ rest
  | number n, rest => n.chars ++ rest
  | string s, rest => quoted (s.getD "") ++ rest
  | array [], rest => '[' :: ']' :: rest
  | array (t :: ts), rest =>
    '[' :: (l.newline (level + 1) ++ t.charsOn l (level + 1) (itemsOn l (level + 1) ts
      (l.newline level ++ ']' :: rest)))
  | object [], rest => '{' :: '}' :: rest
  | object ((name, t) :: ms), rest =>
    '{' :: (l.newline (level + 1) ++ quoted (name.getD "") ++ ':' :: (l.afterColon ++
      t.charsOn l (level + 1) (membersOn l (level + 1) ms (l.newline level ++ '}' :: rest))))

/-- The further items of an array, each after a comma. -/
def itemsOn (l : Layout) (level : Nat) : List Tree → (rest : List Char) → List Char
  | [], rest => rest
  | t :: ts, rest => ',' :: (l.newline level ++ t.charsOn l level (itemsOn l level ts rest))

/-- The further members of an object, each after a comma. -/
def membersOn (l : Layout) (level : Nat) :
    List (Option String × Tree) → (rest : List Char) → List Char
  | [], rest => rest
  | (name, t) :: ms, rest =>
    ',' :: (l.newline level ++ quoted (name.getD "") ++ ':' :: (l.afterColon ++
      t.charsOn l level (membersOn l level ms rest)))

end

/-- The text of a tree. -/
def text (l : Layout) (t : Tree) : String := String.ofList (t.charsOn l 0 [])

end Tree

end SymbolInduction.Json
