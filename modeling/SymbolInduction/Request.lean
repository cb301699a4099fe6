-- The types of synthesis tasks: numbers, lists and arrows between them, and
-- the text in which a journal shows them.

namespace SymbolInduction

/-- What a synthesis task asks for. -/
inductive Request where
  | int
  | list (item : Request)
  | arrow (argument result : Request)
  deriving DecidableEq, Inhabited

namespace Request

/-! ## Arrows -/

/-- `a -> b -> ... -> z`, grouped to the right. One component stands for
itself, and none at all for a number. -/
def ofComponents : List Request → Request
  | [] => int
  | [r] => r
  | a :: rest => arrow a (ofComponents rest)

/-- How many arguments come before the result. -/
def arity : Request → Nat
  | arrow _ r => r.arity + 1
  | _ => 0

/-- The arguments, in the order in which they are given. -/
def arguments : Request → List Request
  | arrow a r => a :: r.arguments
  | _ => []

/-- What is left once every argument is given. -/
def result : Request → Request
  | arrow _ r => r.result
  | r => r

@[simp] theorem length_arguments (r : Request) : r.arguments.length = r.arity := by
  induction r <;> simp_all [arguments, arity]

/-- A chain of one data type has one argument fewer than components. -/
theorem arity_ofComponents_replicate {r : Request} (h : r.arity = 0) (n : Nat) :
    (ofComponents (List.replicate (n + 1) r)).arity = n := by
  induction n with
  | zero => simpa [ofComponents] using h
  | succ n ih => simpa [List.replicate_succ, ofComponents, arity] using ih

/-! ## The order -/

/-- The type spelled in prefix order, one number for each constructor. No
spelling is the start of another one. -/
def key : Request → List Nat
  | int => [0]
  | list r => 1 :: r.key
  | arrow a r => 2 :: (a.key ++ r.key)

/-- Spellings that stand at the start of one text are equal. -/
theorem key_append_inj {a b : Request} {s t : List Nat} (h : a.key ++ s = b.key ++ t) :
    a = b ∧ s = t := by
  induction a generalizing b s t with
  | int => cases b <;> simp_all [key]
  | list a ih =>
    cases b with
    | list b => exact (ih (by simpa [key] using h)).imp_left (congrArg list)
    | _ => simp [key] at h
  | arrow a r iha ihr =>
    cases b with
    | arrow b q =>
      simp only [key, List.cons_append, List.append_assoc, List.cons.injEq, true_and] at h
      obtain ⟨rfl, hr⟩ := iha h
      obtain ⟨rfl, hs⟩ := ihr hr
      exact ⟨rfl, hs⟩
    | _ => simp [key] at h

/-- The spelling tells types apart. -/
theorem key_injective {a b : Request} (h : a.key = b.key) : a = b :=
  (key_append_inj (s := []) (t := []) (by simpa using h)).1

/-- Numbers come before lists and lists before arrows; lists go by their
items, and arrows by their arguments first. -/
instance : Ord Request := ⟨compareOn key⟩

instance : Std.TransOrd Request := inferInstanceAs (Std.TransCmp (compareOn key))

instance : Std.LawfulEqOrd Request where
  compare_self {a} := show compare a.key a.key = .eq from Std.ReflCmp.compare_self
  eq_of_compare h := key_injective (Std.LawfulEqOrd.eq_of_compare (α := List Nat) h)

/-! ## The text -/

/-- The text of a type before `rest`. An arrow is put in brackets where it
stands as an argument. -/
def charsOn : (isArgument : Bool) → Request → (rest : List Char) → List Char
  | _, int, rest => ['i', 'n', 't'] ++ rest
  | _, list r, rest => ['l', 'i', 's', 't', '('] ++ r.charsOn false (')' :: rest)
  | false, arrow a r, rest => a.charsOn true ([' ', '-', '>', ' '] ++ r.charsOn false rest)
  | true, arrow a r, rest =>
    '(' :: a.charsOn true ([' ', '-', '>', ' '] ++ r.charsOn false (')' :: rest))

/-- The text of a type. -/
def text (r : Request) : String := String.ofList (r.charsOn false [])

example : text (arrow (arrow (list int) int) int) = "(list(int) -> int) -> int" := by decide

end Request

end SymbolInduction
