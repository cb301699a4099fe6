-- The journal: what happens while symbols are learned, as a list of events
-- beside each result. An event says what it is about; its line is only its
-- wording.
import SymbolInduction.Task
import SymbolInduction.Grammar
import SymbolInduction.Evaluation.Meter
import SymbolInduction.Oracle.Error
import SymbolInduction.Decimal.Fixed

namespace SymbolInduction

/-! ## Events -/

/-- How much an event matters. -/
inductive Level where
  | trace | debug | info | warn
  deriving DecidableEq, Inhabited

/-- The name of a level. -/
def Level.name : Level → String
  | trace => "TRACE"
  | debug => "DEBUG"
  | info => "INFO"
  | warn => "WARN"

/-- Something that happened. -/
inductive Event (α : Type) where
  /-- A program gave no output for some arguments. -/
  | failed (description : String) (inputs : Inputs) (error : EvalError)
  /-- A symbol with a known program was observed: how many examples there were
  and how many are confident, and which share of both the known program
  reproduces. -/
  | observed (idx arity count confident : Nat) (accuracy confidentAccuracy : α)
  /-- A task was built. -/
  | task (t : Task)
  /-- A round had no task. -/
  | noTasks (round : Nat)
  /-- A new grammar came into use. -/
  | grammar (g : Grammar)
  /-- Programs found under an older grammar or for other types were dropped. -/
  | explorationDropped (version : Nat)
  /-- A search gave no answer. -/
  | oracleFailed (round : Nat) (error : OracleError)
  /-- A solution came for a symbol that does not exist. -/
  | unknownTask (name : String)
  /-- Two symbols had the same program. -/
  | merged (first second : Nat) (description : String) (cleared : Nat)
  /-- A search ended. -/
  | searched (task : String) (terms candidates : Nat)
  /-- A round ended. -/
  | roundEnded (round total solved learnable : Nat)
  /-- How a symbol stands at the end of a round. -/
  | standing (idx : Nat) (name : String) (solved : Bool) (likelihood : α) (explanation : String)

namespace Event

/-- How much each event matters. -/
def level {α : Type} : Event α → Level
  | failed .. => .trace
  | noTasks _ | grammar _ | roundEnded .. => .info
  | oracleFailed .. | unknownTask _ => .warn
  | _ => .debug

/-- The title of a symbol. -/
def symbolTitle (idx : Nat) : String := "Symbol-" ++ Text.padLeft '0' 2 (toString idx)

/-- The wording of an event. -/
def message : Event Float → String
  | failed description inputs error =>
    description ++ " failed on " ++ Value.quotedList inputs ++ ": " ++ error.message
  | observed idx arity count confident accuracy confidentAccuracy =>
    s!"{symbolTitle idx}: arity: {arity}, examples (conf): {count} ({confident}), " ++
      "accuracy (conf): " ++ Decimal.twoPlaces (accuracy * 100) ++
      " (" ++ Decimal.twoPlaces (confidentAccuracy * 100) ++ ")"
  | task t => t.text
  | noTasks round => s!"Round {round}: no tasks"
  | grammar g => g.text
  | explorationDropped version => s!"Dropping exploration samples from grammar v{version}"
  | oracleFailed round error => s!"Round {round}: oracle failed: {error.message}"
  | unknownTask name => "Oracle returned a solution for unknown task " ++ name
  | merged first second description cleared =>
    s!"{symbolTitle first} and {symbolTitle second} share " ++ description ++
      s!"; clearing {symbolTitle cleared}"
  | searched name terms candidates => name ++ s!": {terms} terms, {candidates} candidates"
  | roundEnded round total solved learnable =>
    s!"Round {round}: Semantics: total {total}, solved {solved}, learn {learnable}"
  | standing idx name solved likelihood explanation =>
    symbolTitle idx ++ " " ++ Text.padLeft ' ' 8 name ++ " " ++
      (if solved then "solved" else "      ") ++ " " ++ Decimal.twoPlaces likelihood ++ " " ++ explanation

/-- The line of an event. -/
def line (e : Event Float) : String := e.level.name ++ " " ++ e.message

end Event

/-! ## Results with a journal -/

/-- A result and the events on the way to it, first one first. -/
structure Logged (α β : Type) where
  value : β
  log : List (Event α) := []

namespace Logged

variable {α β γ : Type}

instance : Monad (Logged α) where
  pure b := { value := b }
  bind x f := { value := (f x.value).value, log := x.log ++ (f x.value).log }

/-- Notes one event. -/
def note (e : Event α) : Logged α Unit := { value := (), log := [e] }

@[simp] theorem value_pure (b : β) : (pure b : Logged α β).value = b := rfl

@[simp] theorem log_pure (b : β) : (pure b : Logged α β).log = [] := rfl

@[simp] theorem value_bind (x : Logged α β) (f : β → Logged α γ) :
    (x >>= f).value = (f x.value).value := rfl

@[simp] theorem log_bind (x : Logged α β) (f : β → Logged α γ) :
    (x >>= f).log = x.log ++ (f x.value).log := rfl

@[simp] theorem value_map (f : β → γ) (x : Logged α β) : (f <$> x).value = f x.value := rfl

@[simp] theorem log_map (f : β → γ) (x : Logged α β) : (f <$> x).log = x.log := List.append_nil _

instance : LawfulMonad (Logged α) :=
  LawfulMonad.mk' (Logged α) (fun x => by cases x; simp [Functor.map])
    (fun _ _ => by simp [bind, pure]) (fun _ _ _ => by simp [bind])

end Logged

end SymbolInduction
