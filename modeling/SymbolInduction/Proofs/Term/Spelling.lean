-- How a text spells its tokens. Brackets and marks stand for themselves, a word
-- goes on to the next blank, bracket or comment, and blanks and comments stand
-- between tokens and spell none. Every text spells exactly one list of tokens.
import SymbolInduction.Proofs.Term.RoundTrip
import Mathlib.Data.List.TakeWhile

namespace SymbolInduction.Token

/-- The text spells the tokens. -/
inductive Spells : List Char → List Token → Prop
  | nil : Spells [] []
  | blank {c : Char} {text : List Char} {tokens : List Token} :
      Text.isBlank c = true → Spells text tokens → Spells (c :: text) tokens
  | comment {line text : List Char} {tokens : List Token} :
      '\n' ∉ line → (∀ c, text.head? = some c → c = '\n') → Spells text tokens →
      Spells (';' :: (line ++ text)) tokens
  | opening {text : List Char} {tokens : List Token} :
      Spells text tokens → Spells ('(' :: text) (opening :: tokens)
  | closing {text : List Char} {tokens : List Token} :
      Spells text tokens → Spells (')' :: text) (closing :: tokens)
  | hash {text : List Char} {tokens : List Token} :
      Spells text tokens → Spells ('#' :: text) (hash :: tokens)
  | word {letters text : List Char} {tokens : List Token} :
      IsWord letters → EndsWords text → Spells text tokens →
      Spells (letters ++ text) (word letters :: tokens)

theorem scan_blank {c : Char} (h : Text.isBlank c = true) (text : List Char) :
    scan .between (c :: text) = scan .between text :=
  scan_blanks (List.forall_mem_singleton.2 h) text

/-- A comment is passed over up to the end of its line. -/
theorem scan_comment {line text : List Char} (hline : '\n' ∉ line)
    (htext : ∀ c, text.head? = some c → c = '\n') :
    scan .comment (line ++ text) = scan .between text := by
  induction line with
  | nil =>
    cases text with
    | nil => rfl
    | cons c text =>
      obtain rfl := htext c rfl
      rfl
  | cons c line ih =>
    rw [List.mem_cons, not_or] at hline
    obtain ⟨hc, hline⟩ := hline
    have hnext : scan .comment (c :: (line ++ text)) = scan .comment (line ++ text) := by
      simp [scan, Ne.symm hc]
    exact hnext.trans (ih hline)

theorem Spells.ofText_eq {text : List Char} {tokens : List Token} (h : Spells text tokens) :
    ofText text = tokens := by
  unfold ofText
  induction h with
  | nil => rfl
  | blank hc _ ih => rw [scan_blank hc, ih]
  | comment hline htext _ ih =>
    rw [← ih]
    exact scan_comment hline htext
  | opening _ ih => exact congrArg (Token.opening :: ·) ih
  | closing _ ih => exact congrArg (Token.closing :: ·) ih
  | hash _ ih => exact congrArg (Token.hash :: ·) ih
  | word hletters htext _ ih => rw [scan_word hletters htext, ih]

theorem head?_dropWhile {p : Char → Bool} {text : List Char} {c : Char}
    (h : (text.dropWhile p).head? = some c) : p c = false := by
  have := List.head?_dropWhile_not p text
  rw [h] at this
  simpa using this

/-- A comment takes all up to the end of its line. -/
theorem spells_comment {text : List Char}
    (h : Spells (text.dropWhile (· != '\n')) (scan .between (text.dropWhile (· != '\n')))) :
    Spells (';' :: text) (scan .between (';' :: text)) := by
  have hline : '\n' ∉ text.takeWhile (· != '\n') := fun hmem => by
    simpa using List.mem_takeWhile_imp hmem
  have hrest : ∀ c, (text.dropWhile (· != '\n')).head? = some c → c = '\n' := fun c hc => by
    simpa using head?_dropWhile hc
  have hspells := Spells.comment hline hrest h
  rw [← scan_comment hline hrest, List.takeWhile_append_dropWhile] at hspells
  exact hspells

/-- A word takes all up to the first character that ends it. -/
theorem spells_word {c : Char} {text : List Char} (hc : endsWord c = false) (hmark : c ≠ '#')
    (h : Spells (text.dropWhile (!endsWord ·)) (scan .between (text.dropWhile (!endsWord ·)))) :
    Spells (c :: text) (scan .between (c :: text)) := by
  have hword : IsWord (c :: text.takeWhile (!endsWord ·)) :=
    isWord_cons hc hmark fun d hd => by simpa using List.mem_takeWhile_imp hd
  have hrest : EndsWords (text.dropWhile (!endsWord ·)) := fun d hd => by
    simpa using head?_dropWhile hd
  have hspells := Spells.word hword hrest h
  rw [← scan_word hword hrest, List.cons_append, List.takeWhile_append_dropWhile] at hspells
  exact hspells

theorem spells_scan (text : List Char) : Spells text (scan .between text) := by
  match text with
  | [] => exact .nil
  | c :: text =>
    by_cases hblank : Text.isBlank c = true
    · rw [scan_blank hblank]
      exact .blank hblank (spells_scan text)
    by_cases hopening : c = '('
    · subst hopening
      exact .opening (spells_scan text)
    by_cases hclosing : c = ')'
    · subst hclosing
      exact .closing (spells_scan text)
    by_cases hmark : c = '#'
    · subst hmark
      exact .hash (spells_scan text)
    by_cases hcomment : c = ';'
    · subst hcomment
      exact spells_comment (spells_scan (text.dropWhile (· != '\n')))
    · have hc : endsWord c = false := by
        simp [endsWord, hblank, hopening, hclosing, hcomment]
      exact spells_word hc hmark (spells_scan (text.dropWhile (!endsWord ·)))
termination_by text.length
decreasing_by
  all_goals
    have := List.length_dropWhile_le (p := (· != '\n')) text
    have := List.length_dropWhile_le (p := (!endsWord ·)) text
    simp only [List.length_cons]
    omega

/-- Every text spells one list of tokens, the one that is read from it. -/
theorem spells_iff {text : List Char} {tokens : List Token} :
    Spells text tokens ↔ tokens = ofText text :=
  ⟨fun h => h.ofText_eq.symm, fun h => h ▸ spells_scan text⟩

end SymbolInduction.Token
