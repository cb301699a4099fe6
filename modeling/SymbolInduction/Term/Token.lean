-- Tokens of program text: brackets, the mark `#`, and words. Blanks and
-- comments, which run from `;` to the end of the line, stand between tokens.
import SymbolInduction.Text.Blank

namespace SymbolInduction

/-- One token of program text. -/
inductive Token where
  | opening
  | closing
  | hash
  | word (letters : List Char)
  deriving DecidableEq, Inhabited

namespace Token

/-- Where a scan of the text stands. A word keeps its letters, last one first. -/
inductive Place where
  | between
  | comment
  | word (letters : List Char)

/-- A character that ends a word. The mark `#` is not among them: within a
word it is a letter. -/
def endsWord (c : Char) : Bool := Text.isBlank c || c == '(' || c == ')' || c == ';'

/-- The token that a character completes when it stands between tokens, and
the place after it. -/
def start (c : Char) : Option Token × Place :=
  if Text.isBlank c then (none, .between)
  else if c == '(' then (some opening, .between)
  else if c == ')' then (some closing, .between)
  else if c == '#' then (some hash, .between)
  else if c == ';' then (none, .comment)
  else (none, .word [c])

/-- Reads the text from a place on. -/
def scan : Place → List Char → List Token
  | .word letters, [] => [word letters.reverse]
  | _, [] => []
  | .between, c :: text => (start c).1.toList ++ scan (start c).2 text
  | .comment, c :: text => scan (if c == '\n' then .between else .comment) text
  | .word letters, c :: text =>
    if endsWord c then
      word letters.reverse :: ((start c).1.toList ++ scan (start c).2 text)
    else scan (.word (c :: letters)) text

/-- The tokens of a text. -/
def ofText (text : List Char) : List Token := scan .between text

example : ofText "#a#b(c;(d\n)".toList =
    [hash, word ['a', '#', 'b'], opening, word ['c'], closing] := by decide

end Token

end SymbolInduction
