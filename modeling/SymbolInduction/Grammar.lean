-- Grammars: the components from which programs are built, and the version
-- for which a grammar was put together.
import SymbolInduction.Term.Printer
import SymbolInduction.Table

namespace SymbolInduction

/-- A component of a grammar. -/
structure Component where
  term : Term
  deriving DecidableEq, Inhabited

namespace Component

/-- The text by which a component is known. -/
def description (c : Component) : String := c.term.text

/-- How many arguments a component takes. -/
def arity (c : Component) : Nat := c.term.arity

/-- Whether the component is a program that was promoted. -/
def isPromoted (c : Component) : Bool :=
  match c.term with
  | .promoted _ => true
  | _ => false

/-- Whether the component takes no function as an argument. A component that
is not a bare primitive counts as one that takes none. -/
def isFirstOrder (c : Component) : Bool :=
  match c.term with
  | .prim p => !p.isHigherOrder
  | _ => true

end Component

/-- Components with the version for which they were put together. -/
structure Grammar where
  components : List Component
  version : Nat
  deriving DecidableEq, Inhabited

namespace Grammar

/-- Keeps the first of several components with one description. -/
def withoutRepeats : (seen : List String) → List Component → List Component
  | _, [] => []
  | seen, c :: cs =>
    if c.description ∈ seen then withoutRepeats seen cs
    else c :: withoutRepeats (c.description :: seen) cs

/-- The grammar of some terms; a term that is already there is left out. -/
def ofTerms (terms : List Term) (version : Nat) : Grammar :=
  { components := withoutRepeats [] (terms.map Component.mk), version }

/-- The descriptions of the components. -/
def descriptions (g : Grammar) : KeySet String :=
  Table.setOf (g.components.map Component.description)

/-- Whether some component has a given description. -/
def contains (g : Grammar) (description : String) : Bool :=
  g.components.any (·.description == description)

/-- The promoted programs among the components. -/
def promoted (g : Grammar) : List Component := g.components.filter Component.isPromoted

/-- Whether two grammars have the same components. Neither their order nor
their versions count. -/
def sameComponents (g h : Grammar) : Bool := g.descriptions == h.descriptions

/-- The text of a grammar. -/
def text (g : Grammar) : String :=
  "Grammar v" ++ toString g.version ++ " [" ++
    String.intercalate ", " (g.components.map Component.description) ++ "]"

/-- The components with which every grammar starts: the literals 0 and 1 and
the named primitives. Recursion is there only where it is asked for. -/
def baseTerms (recursion : Bool) : List Term :=
  [.literal 0, .literal 1] ++
    (Primitive.named.filter fun p => recursion || p ≠ .fix).map Term.prim

end Grammar

end SymbolInduction
