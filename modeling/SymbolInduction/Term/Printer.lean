-- The text of a term: variables as `$n`, binders as `(lambda body)`,
-- applications with their arguments in one list, promoted programs with a
-- `#` in front. The text reads back as the term, so it also serves as the
-- name by which programs are compared.
import SymbolInduction.Term.Basic

namespace SymbolInduction.Term

/-- The text of a term before `rest`. Where the term heads a list that is
already open, an application adds its own argument to that list. -/
def charsOn : (headsList : Bool) → Term → (rest : List Char) → List Char
  | _, var i, rest => '$' :: (Decimal.natChars i.toNat ++ rest)
  | _, prim p, rest => p.nameChars ++ rest
  | _, promoted body, rest => '#' :: body.charsOn false rest
  | _, lam body, rest =>
    ['(', 'l', 'a', 'm', 'b', 'd', 'a', ' '] ++ body.charsOn false (')' :: rest)
  | true, app f x, rest => f.charsOn true (' ' :: x.charsOn false rest)
  | false, app f x, rest => '(' :: f.charsOn true (' ' :: x.charsOn false (')' :: rest))

/-- The characters of a term's text. -/
def chars (t : Term) : List Char := t.charsOn false []

/-- The text of a term. -/
def text (t : Term) : String := String.ofList t.chars

example : text (lam (app (app (prim .add) (var 0)) (promoted (literal (-3))))) =
    "(lambda (+ $0 #-3))" := by decide

/-- What follows a text does not change it. -/
theorem charsOn_append (t : Term) (b : Bool) (r s : List Char) :
    t.charsOn b (r ++ s) = t.charsOn b r ++ s := by
  induction t generalizing b r with
  | var i => simp [charsOn]
  | prim p => simp [charsOn]
  | promoted t ih => simp [charsOn, ih]
  | lam t ih =>
    have := ih false (')' :: r)
    simp_all [charsOn]
  | app f x ihf ihx =>
    cases b with
    | true =>
      have := ihf true (' ' :: x.charsOn false r)
      simp_all [charsOn]
    | false =>
      have h1 := ihf true (' ' :: x.charsOn false (')' :: r))
      have h2 := ihx false (')' :: r)
      simp_all [charsOn]

end SymbolInduction.Term
