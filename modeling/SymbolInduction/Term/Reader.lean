-- Reading terms from tokens. The reader goes through the tokens once, with
-- the lists that are still open on a stack, and stops at the end of a term.
import SymbolInduction.Term.Basic
import SymbolInduction.Term.Token

namespace SymbolInduction

/-- Why a text is no program. -/
inductive ParseError where
  | unexpectedEnd
  | unexpected (token : String)
  | emptyList
  | lambdaBody
  | badIndex (word : String)
  | unknownSymbol (word : String)
  | trailingInput
  deriving DecidableEq, Inhabited

/-- What is said of a text that is no program. -/
def ParseError.message : ParseError → String
  | .unexpectedEnd => "unexpected end of input"
  | .unexpected token => "unexpected " ++ token
  | .emptyList => "empty list"
  | .lambdaBody => "lambda expects a single body"
  | .badIndex word => "bad variable index " ++ word
  | .unknownSymbol word => "unknown symbol " ++ word
  | .trailingInput => "trailing input after program"

namespace Term

/-! ## Open lists -/

/-- The part of a list that has been read: nothing yet, the word `lambda` and
perhaps its body, or a head and its arguments so far. -/
inductive OpenList where
  | start
  | binder (body : Option Term)
  | application (t : Term)
  deriving DecidableEq, Inhabited

namespace OpenList

/-- Adds one term to an open list. A binder takes a single body; every other
list applies its head to each further term. -/
def add : OpenList → Term → Except ParseError OpenList
  | start, t => .ok (application t)
  | binder none, t => .ok (binder (some t))
  | binder (some _), _ => .error .lambdaBody
  | application f, t => .ok (application (app f t))

/-- The term that a list stands for at its closing bracket. -/
def close : OpenList → Except ParseError Term
  | start => .error .emptyList
  | binder none => .error .lambdaBody
  | binder (some body) => .ok (lam body)
  | application t => .ok t

end OpenList

/-! ## Words -/

/-- The term that a word stands for: a variable after `$`, or a primitive. -/
def ofWord : List Char → Except ParseError Term
  | '$' :: digits =>
    match Decimal.uint64Of? digits with
    | some i => .ok (var i)
    | none => .error (.badIndex (String.ofList ('$' :: digits)))
  | word =>
    match Primitive.ofName? word with
    | some p => .ok (prim p)
    | none => .error (.unknownSymbol (String.ofList word))

/-! ## The reader -/

/-- A reader within a term: the lists that are open, innermost first, each
with the number of marks `#` before its opening bracket; and the number of
marks read since the last opening bracket or word. Those marks go to the next
bracket or word, even where a closing bracket comes between. -/
structure Reader where
  stack : List (OpenList × Nat) := []
  marks : Nat := 0
  deriving Inhabited

namespace Reader

/-- What one token leads to: the end of a term, or a reader within it. -/
abbrev Step := Except ParseError (Term ⊕ Reader)

/-- Hands a finished term to the innermost open list. With no list open, the
term is the whole. -/
def finish (t : Term) (marks : Nat) : List (OpenList × Nat) → Step
  | [] => .ok (.inl t)
  | (l, wraps) :: stack =>
    match l.add t with
    | .ok l => .ok (.inr ⟨(l, wraps) :: stack, marks⟩)
    | .error e => .error e

/-- A word. Without marks, `lambda` is read as a binder at the start of a list
and nowhere else. -/
def word (r : Reader) (letters : List Char) : Step :=
  if letters = ['l', 'a', 'm', 'b', 'd', 'a'] ∧ r.marks = 0 then
    match r.stack with
    | (.start, wraps) :: stack => .ok (.inr ⟨(.binder none, wraps) :: stack, 0⟩)
    | _ => .error (.unexpected "lambda")
  else
    match ofWord letters with
    | .ok t => finish (promotedTimes r.marks t) 0 r.stack
    | .error e => .error e

/-- Takes one token. -/
def step (r : Reader) : Token → Step
  | .hash => .ok (.inr ⟨r.stack, r.marks + 1⟩)
  | .opening => .ok (.inr ⟨(.start, r.marks) :: r.stack, 0⟩)
  | .closing =>
    match r.stack with
    | [] => .error (.unexpected ")")
    | (l, wraps) :: stack =>
      match l.close with
      | .ok t => finish (promotedTimes wraps t) r.marks stack
      | .error e => .error e
  | .word letters => r.word letters

/-- Reads to the end of a term; what is left over comes with the outcome, also
after an error. -/
def run (r : Reader) : List Token → Except ParseError Term × List Token
  | [] => (.error .unexpectedEnd, [])
  | token :: tokens =>
    match r.step token with
    | .ok (.inl t) => (.ok t, tokens)
    | .ok (.inr r) => r.run tokens
    | .error e => (.error e, tokens)

end Reader

/-- Reads one term from the front of the tokens. -/
def read (tokens : List Token) : Except ParseError Term × List Token := Reader.run {} tokens

/-- Reads a text that holds one term and nothing else. -/
def ofText (text : String) : Except ParseError Term :=
  match read (Token.ofText text.toList) with
  | (.ok t, []) => .ok t
  | (.ok _, _ :: _) => .error .trailingInput
  | (.error e, _) => .error e

/-- A reader uses up at least one token, unless there is none. -/
theorem Reader.length_run (r : Reader) (token : Token) (tokens : List Token) :
    (r.run (token :: tokens)).2.length ≤ tokens.length := by
  induction tokens generalizing r token with
  | nil => rw [run]; split <;> simp [run]
  | cons next tokens ih =>
    rw [run]
    split
    · simp
    · exact Nat.le_succ_of_le (ih _ _)
    · simp

/-- Reads term after term up to the end or the first error, and says what is
left over. -/
def readAll : List Token → List (Except ParseError Term) × List Token
  | [] => ([], [])
  | token :: tokens =>
    match h : read (token :: tokens) with
    | (.error e, rest) => ([.error e], rest)
    | (.ok t, rest) =>
      have : rest.length ≤ tokens.length := by
        have := Reader.length_run {} token tokens
        rw [read] at h
        simpa [h] using this
      let (terms, left) := readAll rest
      (.ok t :: terms, left)
termination_by tokens => tokens.length
decreasing_by simp; omega

end Term

end SymbolInduction
