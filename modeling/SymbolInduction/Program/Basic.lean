-- Programs that remember their outputs. The memory changes no output: what it
-- holds is what the program would give anew. It only spares the work, and
-- lets a failure be noted in the journal once for each list of arguments.
import SymbolInduction.Program.Body
import SymbolInduction.Journal
import SymbolInduction.Term.Reader

namespace SymbolInduction

/-- A program with the outputs that it gave before. -/
structure Program where
  body : Body
  memo : List (Inputs × Value) := []
  /-- What is remembered is what the program gives. -/
  faithful : ∀ e ∈ memo, e.2 = body.answer e.1 := by simp

namespace Program

/-- The program of a term. -/
def ofTerm (t : Term) : Program := { body := .term t }

/-- The program of a text. -/
def ofText (text : String) : Except ParseError Program := ofTerm <$> Term.ofText text

/-- The program that gives one value, without arguments. -/
def constant (v : Value) : Program := { body := .constant v }

/-- A program that the domain supplies. -/
def supplied (arity : Nat) (f : Inputs → Except EvalError Value) : Program :=
  { body := .supplied arity f }

/-- How many arguments the program takes. -/
def arity (p : Program) : Nat := p.body.arity

/-- The text by which the program is known. -/
def description (p : Program) : String := p.body.description

/-- How the program is shown. -/
def text (p : Program) : String := p.body.text

/-- The term of the program, where it is made of one. -/
def term? (p : Program) : Option Term :=
  match p.body with
  | .term t => some t
  | _ => none

/-- The output of the program, whatever it remembers. -/
def output (p : Program) (xs : Inputs) : Value := p.body.output xs

/-- Whether two programs are known to do the same. -/
def equivalent (p q : Program) : Bool := p.body.equivalent q.body

/-- The program with its output on `xs` remembered. -/
def remember (p : Program) (xs : Inputs) : Program where
  body := p.body
  memo := (xs, p.body.answer xs) :: p.memo
  faithful := by simpa using p.faithful

/-- The output on `xs`, and the program that remembers it. Arguments that are
too many, too few or missing give no output and are not remembered. -/
def evaluate {α : Type} (p : Program) (xs : Inputs) : Logged α (Value × Program) :=
  if p.body.accepts xs then
    match p.memo.lookup xs with
    | some v => pure (v, p)
    | none =>
      match p.body.run xs with
      | .ok v => pure (v, p.remember xs)
      | .error e => do
        .note (.failed p.description xs e)
        pure (.missing, p.remember xs)
  else pure (.missing, p)

/-- What is looked up in the memory stands in it. -/
theorem mem_of_lookup {xs : Inputs} {v : Value} {memo : List (Inputs × Value)}
    (h : memo.lookup xs = some v) : (xs, v) ∈ memo := by
  induction memo with
  | nil => simp at h
  | cons e memo ih =>
    obtain ⟨ys, w⟩ := e
    rw [List.lookup_cons] at h
    split at h
    · rename_i hxy
      cases h
      simp [eq_of_beq hxy]
    · exact List.mem_cons_of_mem _ (ih h)

/-- The memory changes no output. -/
@[simp] theorem evaluate_output {α : Type} (p : Program) (xs : Inputs) :
    (p.evaluate (α := α) xs).value.1 = p.output xs := by
  simp only [evaluate, output, Body.output]
  split
  · split
    · rename_i v h
      exact p.faithful _ (mem_of_lookup h)
    · simp only [Body.answer]
      split <;> simp_all
  · rfl

/-- Evaluating a program does not change what it is. -/
@[simp] theorem evaluate_body {α : Type} (p : Program) (xs : Inputs) :
    (p.evaluate (α := α) xs).value.2.body = p.body := by
  simp only [evaluate]
  repeat' split
  all_goals rfl

end Program

/-! ## Explanations -/

/-- What a symbol is explained by: nothing yet, or a program. -/
abbrev Explanation := Option Program

namespace Explanation

/-- How many arguments an explanation takes; no explanation takes none. -/
def arity : Explanation → Nat
  | none => 0
  | some p => p.arity

/-- The text by which an explanation is known. -/
def description : Explanation → String
  | none => "NULL"
  | some p => p.description

/-- How an explanation is shown. -/
def text : Explanation → String
  | none => "NULL"
  | some p => p.text

/-- The output of an explanation. Without arguments, no explanation gives the
mark of an absent value. -/
def output : Explanation → Inputs → Value
  | none, [] => .empty
  | none, _ => .missing
  | some p, xs => p.output xs

/-- The output on `xs`, and the explanation that remembers it. -/
def evaluate {α : Type} : Explanation → Inputs → Logged α (Value × Explanation)
  | none, xs => pure (output none xs, none)
  | some p, xs => do
    let (v, p) ← p.evaluate xs
    pure (v, some p)

@[simp] theorem evaluate_output {α : Type} (e : Explanation) (xs : Inputs) :
    (evaluate (α := α) e xs).value.1 = output e xs := by
  cases e with
  | none => rfl
  | some p => exact Program.evaluate_output p xs

/-- Whether two explanations are known to be the same. No explanation is like
nothing, not even like itself. -/
def equivalent : Explanation → Explanation → Bool
  | some p, some q => p.equivalent q
  | _, _ => false

end Explanation

end SymbolInduction
