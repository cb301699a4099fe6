-- The texts of types. An argument ends where its own text ends, as it is a word
-- or stands in brackets. Any other type ends before a bracket or at the end of
-- the text, where no arrow goes on. So a text is the text of one type only. And
-- it can be written without recursion, from a stack of what is still to come.
import SymbolInduction.Request

namespace SymbolInduction.Request

/-! ## Texts that begin alike -/

/-- The text goes on with an arrow. -/
def arrowOn (rest : List Char) : List Char := [' ', '-', '>', ' '] ++ rest

/-- A text in which no arrow goes on. -/
def EndsType (rest : List Char) : Prop := rest.head? ≠ some ' '

theorem endsType_closing (rest : List Char) : EndsType (')' :: rest) := by simp [EndsType]

theorem EndsType.ne_arrowOn {rest : List Char} (h : EndsType rest) (more : List Char) :
    rest ≠ arrowOn more := by
  rintro rfl
  exact h rfl

theorem charsOn_arrow (a r : Request) (rest : List Char) :
    (arrow a r).charsOn false rest = a.charsOn true (arrowOn (r.charsOn false rest)) := by
  simp only [charsOn, arrowOn]

theorem charsOn_bracketed (a r : Request) (rest : List Char) :
    (arrow a r).charsOn true rest = '(' :: (arrow a r).charsOn false (')' :: rest) := by
  simp only [charsOn]

/-- Written as an argument, the type is told from all others, whatever comes after:
a text begins with this type only, and what comes after it is one. -/
def TellsArgument (a : Request) : Prop :=
  ∀ (b : Request) (s t : List Char), a.charsOn true s = b.charsOn true t → a = b ∧ s = t

/-- Written anywhere else, the type is told where no arrow goes on. -/
def TellsResult (a : Request) : Prop :=
  ∀ (b : Request) (s t : List Char), EndsType s → EndsType t →
    a.charsOn false s = b.charsOn false t → a = b ∧ s = t

/-- What is no arrow is written alike everywhere, and an arrow does not begin with it,
as it would go on after it. -/
theorem tellsResult_of_argument {a : Request} (h : a.TellsArgument)
    (hsame : ∀ rest, a.charsOn false rest = a.charsOn true rest) : a.TellsResult := by
  intro b s t hs ht heq
  rw [hsame] at heq
  cases b with
  | int => exact h int s t (by simpa only [charsOn] using heq)
  | list r => exact h (list r) s t (by simpa only [charsOn] using heq)
  | arrow c d =>
    rw [charsOn_arrow] at heq
    exact absurd (h c _ _ heq).2 (hs.ne_arrowOn _)

/-- An arrow is told by its argument, and then by its result. -/
theorem tellsResult_arrow {a r : Request} (ha : a.TellsArgument) (hr : r.TellsResult) :
    (arrow a r).TellsResult := by
  intro b s t hs ht heq
  rw [charsOn_arrow] at heq
  cases b with
  | int =>
    exact absurd (ha int _ t (by simpa only [charsOn] using heq)).2.symm (ht.ne_arrowOn _)
  | list q =>
    exact absurd (ha (list q) _ t (by simpa only [charsOn] using heq)).2.symm (ht.ne_arrowOn _)
  | arrow c d =>
    rw [charsOn_arrow] at heq
    obtain ⟨rfl, hrest⟩ := ha _ _ _ heq
    obtain ⟨rfl, rfl⟩ := hr _ _ _ hs ht (List.append_cancel_left hrest)
    exact ⟨rfl, rfl⟩

/-- The first character of an argument tells its kind, and the brackets of a list
and of an arrow hold a type in which no arrow goes on. -/
theorem tells_both (a : Request) : a.TellsArgument ∧ a.TellsResult := by
  induction a with
  | int =>
    have hargument : int.TellsArgument := by
      intro b s t heq
      cases b with
      | int => simpa [charsOn] using heq
      | _ => simp [charsOn] at heq
    exact ⟨hargument, tellsResult_of_argument hargument fun _ => by simp only [charsOn]⟩
  | list r ih =>
    have hargument : (list r).TellsArgument := by
      intro b s t heq
      cases b with
      | list q =>
        have hitem : r.charsOn false (')' :: s) = q.charsOn false (')' :: t) := by
          simpa [charsOn] using heq
        obtain ⟨rfl, hrest⟩ := ih.2 _ _ _ (endsType_closing s) (endsType_closing t) hitem
        exact ⟨rfl, (List.cons.inj hrest).2⟩
      | _ => simp [charsOn] at heq
    exact ⟨hargument, tellsResult_of_argument hargument fun _ => by simp only [charsOn]⟩
  | arrow a r iha ihr =>
    have hresult := tellsResult_arrow iha.1 ihr.2
    refine ⟨?_, hresult⟩
    intro b s t heq
    rw [charsOn_bracketed] at heq
    cases b with
    | arrow c d =>
      rw [charsOn_bracketed] at heq
      obtain ⟨hsame, hrest⟩ := hresult _ _ _ (endsType_closing s) (endsType_closing t)
        (List.cons.inj heq).2
      exact ⟨hsame, (List.cons.inj hrest).2⟩
    | _ => simp [charsOn] at heq

/-! ## Writing without recursion -/

/-- What is still to be written: a type, or a text. -/
inductive Frame where
  | enter (r : Request) (isArgument : Bool)
  | text (s : List Char)

/-- How many frames are taken off for a type. -/
def frames : Request → Nat
  | int => 1
  | list r => r.frames + 3
  | arrow a r => a.frames + r.frames + 4

/-- How many frames are taken off until a stack is empty. -/
def pending : List Frame → Nat
  | [] => 0
  | .enter r _ :: stack => r.frames + pending stack
  | .text _ :: stack => pending stack + 1

/-- Writes what is on a stack. A frame is taken off at a time; a type that is no
word leaves its parts on the stack, with the texts between them. -/
def written : List Frame → List Char
  | [] => []
  | .text s :: stack => s ++ written stack
  | .enter int _ :: stack => ['i', 'n', 't'] ++ written stack
  | .enter (list r) _ :: stack =>
    written (.text ['l', 'i', 's', 't', '('] :: .enter r false :: .text [')'] :: stack)
  | .enter (arrow a r) false :: stack =>
    written (.enter a true :: .text [' ', '-', '>', ' '] :: .enter r false :: stack)
  | .enter (arrow a r) true :: stack =>
    written (.text ['('] :: .enter a true :: .text [' ', '-', '>', ' '] :: .enter r false ::
      .text [')'] :: stack)
termination_by stack => pending stack
decreasing_by
  all_goals
    simp only [pending, frames]
    omega

/-- A type on the stack is written before what is under it. -/
theorem written_enter (r : Request) (isArgument : Bool) (stack : List Frame) :
    written (.enter r isArgument :: stack) = r.charsOn isArgument (written stack) := by
  induction r generalizing isArgument stack with
  | int => simp only [written, charsOn]
  | list r ih => simp only [written, charsOn, ih, List.cons_append, List.nil_append]
  | arrow a r iha ihr =>
    cases isArgument <;> simp only [written, charsOn, iha, ihr, List.cons_append, List.nil_append]

/-! ## The text of a type -/

/-- The text of a type is what is written from a stack with the type alone, and
types with one text are one. -/
theorem a_request_is_told_by_its_text :
    (∀ r : Request, r.text = String.ofList (written [.enter r false])) ∧
      ∀ a b : Request, a.text = b.text ↔ a = b := by
  refine ⟨fun r => ?_, fun a b => ⟨fun h => ?_, fun h => h ▸ rfl⟩⟩
  · rw [written_enter, written]
    rfl
  · have hends : EndsType [] := by simp [EndsType]
    exact ((tells_both a).2 b [] [] hends hends (String.ofList_injective h)).1

end SymbolInduction.Request
