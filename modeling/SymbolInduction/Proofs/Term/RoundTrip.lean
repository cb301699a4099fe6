-- What is printed for a term reads back as that term, and the texts of
-- several terms, with blanks between them, read back as those terms.
import SymbolInduction.Proofs.Decimal.RoundTrip
import SymbolInduction.Term.Printer
import SymbolInduction.Term.Reader

namespace SymbolInduction

/-! ## Words -/

namespace Token

/-- A text that a scan takes for one word, where it ends there. -/
structure IsWord (w : List Char) : Prop where
  nonempty : w ≠ []
  no_mark : w.head? ≠ some '#'
  inside : ∀ c ∈ w, endsWord c = false

/-- A text before which a word ends. -/
def EndsWords (rest : List Char) : Prop := ∀ c, rest.head? = some c → endsWord c = true

theorem endsWords_cons {c : Char} (h : endsWord c = true) (rest : List Char) :
    EndsWords (c :: rest) := by
  intro d hd
  cases hd
  exact h

theorem endsWord_of_isDigit {c : Char} (h : c.isDigit = true) : endsWord c = false := by
  obtain ⟨h1, h2⟩ : 48 ≤ c.toNat ∧ c.toNat ≤ 57 := Char.isDigit_iff_toNat.1 h
  have hne : ∀ d : Char, d.toNat < 48 ∨ 57 < d.toNat → (c == d) = false := by
    intro d hd
    rw [beq_eq_false_iff_ne]
    rintro rfl
    omega
  have hblank : Text.isBlank c = false := by
    simp only [Text.isBlank, Text.blankRanges, List.any_cons, List.any_nil, Bool.or_false,
      Bool.or_eq_false_iff, Bool.and_eq_false_iff, decide_eq_false_iff_not]
    omega
  simp only [endsWord, hblank, Bool.false_or, Bool.or_eq_false_iff]
  exact ⟨⟨hne '(' (by decide), hne ')' (by decide)⟩, hne ';' (by decide)⟩

theorem isWord_of_digits {w : List Char} (hne : w ≠ []) (h : ∀ c ∈ w, c.isDigit = true) :
    IsWord w := by
  refine ⟨hne, ?_, fun c hc => endsWord_of_isDigit (h c hc)⟩
  intro hhead
  exact absurd (h '#' (List.mem_of_mem_head? hhead)) (by decide)

theorem isWord_of_all {w : List Char} (hne : w ≠ []) (hm : w.head? ≠ some '#')
    (h : w.all (fun c => !endsWord c) = true) : IsWord w := by
  refine ⟨hne, hm, fun c hc => ?_⟩
  simpa using List.all_eq_true.1 h c hc

theorem isWord_cons {c : Char} {w : List Char} (hc : endsWord c = false) (hm : c ≠ '#')
    (h : ∀ d ∈ w, endsWord d = false) : IsWord (c :: w) := by
  refine ⟨List.cons_ne_nil _ _, by simpa using hm, ?_⟩
  intro d hd
  rcases List.mem_cons.1 hd with rfl | hd
  · exact hc
  · exact h d hd

/-! ## Scanning -/

theorem scan_inside (w letters rest : List Char) (hw : ∀ c ∈ w, endsWord c = false)
    (hrest : EndsWords rest) :
    scan (.word letters) (w ++ rest) = word (letters.reverse ++ w) :: scan .between rest := by
  induction w generalizing letters with
  | nil =>
    cases rest with
    | nil => simp [scan]
    | cons c rest => simp [scan, hrest c rfl]
  | cons c w ih =>
    have hc := hw c (by simp)
    have ih := ih (c :: letters) fun d hd => hw d (List.mem_cons_of_mem _ hd)
    simpa [scan, hc] using ih

/-- A word is scanned as one token. -/
theorem scan_word {w rest : List Char} (hw : IsWord w) (hrest : EndsWords rest) :
    scan .between (w ++ rest) = word w :: scan .between rest := by
  obtain ⟨hne, hmark, hin⟩ := hw
  cases w with
  | nil => exact absurd rfl hne
  | cons c w =>
    have hc := hin c (by simp)
    have hstart : start c = (none, .word [c]) := by
      simp_all [start, endsWord]
    have hinside := scan_inside w [c] rest (fun d hd => hin d (List.mem_cons_of_mem _ hd)) hrest
    simpa [scan, hstart] using hinside

theorem scan_blanks {gap : List Char} (h : ∀ c ∈ gap, Text.isBlank c = true) (rest : List Char) :
    scan .between (gap ++ rest) = scan .between rest := by
  induction gap with
  | nil => rfl
  | cons c gap ih =>
    have hc := h c (by simp)
    have ih := ih fun d hd => h d (List.mem_cons_of_mem _ hd)
    simpa [scan, start, hc] using ih

theorem endsWords_append {gap rest : List Char} (hne : gap ≠ [])
    (h : ∀ c ∈ gap, Text.isBlank c = true) : EndsWords (gap ++ rest) := by
  cases gap with
  | nil => exact absurd rfl hne
  | cons c gap => exact endsWords_cons (by simp [endsWord, h c (by simp)]) _

end Token

namespace Term

/-! ## The words of terms -/

/-- The word by which a variable is written. -/
def varChars (i : UInt64) : List Char := '$' :: Decimal.natChars i.toNat

theorem isWord_varChars (i : UInt64) : Token.IsWord (varChars i) :=
  Token.isWord_cons (by decide) (by decide) fun _ hd =>
    Token.endsWord_of_isDigit (Decimal.isDigit_of_mem_natChars hd)

theorem isWord_int64Chars (n : Int64) : Token.IsWord (Decimal.int64Chars n) := by
  unfold Decimal.int64Chars
  split
  · exact Token.isWord_of_digits (Decimal.natChars_ne_nil _)
      fun _ hc => Decimal.isDigit_of_mem_natChars hc
  · exact Token.isWord_cons (by decide) (by decide) fun _ hd =>
      Token.endsWord_of_isDigit (Decimal.isDigit_of_mem_natChars hd)

theorem isWord_nameChars (p : Primitive) : Token.IsWord p.nameChars := by
  cases p with
  | literal n => exact isWord_int64Chars n
  | _ => exact Token.isWord_of_all (by decide) (by decide) (by decide)

theorem ofWord_varChars (i : UInt64) : ofWord (varChars i) = .ok (var i) := by
  simp [ofWord, varChars, Decimal.uint64Of?_natChars]

theorem ofName?_int64Chars (n : Int64) :
    Primitive.ofName? (Decimal.int64Chars n) = some (.literal n) := by
  unfold Primitive.ofName?
  rw [Decimal.int64Of?_int64Chars]

/-- A primitive is what its name stands for. -/
theorem ofWord_nameChars (p : Primitive) : ofWord p.nameChars = .ok (prim p) := by
  cases p with
  | literal n =>
    show ofWord (Decimal.int64Chars n) = _
    unfold ofWord
    split
    · rename_i digits h
      rcases Decimal.mem_int64Chars (n := n) (c := '$') (by simp [h]) with h | h
      · exact absurd h (by decide)
      · exact absurd h (by decide)
    · rw [ofName?_int64Chars]
  | _ => rfl

/-- The word `lambda` alone stands for no term. -/
theorem not_lambda_of_ofWord {w : List Char} {t : Term} (h : ofWord w = .ok t) :
    w ≠ ['l', 'a', 'm', 'b', 'd', 'a'] := by
  rintro rfl
  have hlambda : ofWord ['l', 'a', 'm', 'b', 'd', 'a'] = .error (.unknownSymbol "lambda") := rfl
  rw [hlambda] at h
  cases h

/-! ## The tokens of a printed term -/

/-- The tokens of a term before those of `rest`, in the same two forms as its
text. -/
def tokensOn : (headsList : Bool) → Term → (rest : List Token) → List Token
  | _, var i, rest => .word (varChars i) :: rest
  | _, prim p, rest => .word p.nameChars :: rest
  | _, promoted body, rest => .hash :: body.tokensOn false rest
  | _, lam body, rest =>
    .opening :: .word ['l', 'a', 'm', 'b', 'd', 'a'] :: body.tokensOn false (.closing :: rest)
  | true, app f x, rest => f.tokensOn true (x.tokensOn false rest)
  | false, app f x, rest => .opening :: f.tokensOn true (x.tokensOn false (.closing :: rest))

theorem endsWords_closing (rest : List Char) : Token.EndsWords (')' :: rest) :=
  Token.endsWords_cons (by decide) rest

theorem endsWords_space (rest : List Char) : Token.EndsWords (' ' :: rest) :=
  Token.endsWords_cons (by decide) rest

open Token in
theorem scan_closing (rest : List Char) :
    scan .between (')' :: rest) = .closing :: scan .between rest := rfl

open Token in
theorem scan_opening (rest : List Char) :
    scan .between ('(' :: rest) = .opening :: scan .between rest := rfl

open Token in
theorem scan_hash (rest : List Char) :
    scan .between ('#' :: rest) = .hash :: scan .between rest := rfl

open Token in
theorem scan_space (rest : List Char) : scan .between (' ' :: rest) = scan .between rest := rfl

/-- A printed term is scanned as its tokens, where a word would end after it. -/
theorem scan_charsOn (t : Term) (b : Bool) (rest : List Char) (h : Token.EndsWords rest) :
    Token.scan .between (t.charsOn b rest) = t.tokensOn b (Token.scan .between rest) := by
  induction t generalizing b rest with
  | var i => exact Token.scan_word (isWord_varChars i) h
  | prim p => exact Token.scan_word (isWord_nameChars p) h
  | promoted body ih =>
    simp only [charsOn, tokensOn]
    rw [scan_hash, ih false rest h]
  | lam body ih =>
    simp only [charsOn, tokensOn]
    have hword : Token.IsWord ['l', 'a', 'm', 'b', 'd', 'a'] :=
      Token.isWord_of_all (by decide) (by decide) (by decide)
    have hlambda := Token.scan_word hword (endsWords_space (body.charsOn false (')' :: rest)))
    rw [scan_space, ih false _ (endsWords_closing rest), scan_closing] at hlambda
    rw [← hlambda]
    rfl
  | app f x ihf ihx =>
    cases b with
    | true =>
      simp only [charsOn, tokensOn]
      rw [ihf true _ (endsWords_space _), scan_space, ihx false rest h]
    | false =>
      simp only [charsOn, tokensOn]
      rw [scan_opening, ihf true _ (endsWords_space _), scan_space,
        ihx false _ (endsWords_closing rest), scan_closing]

/-! ## Reading the tokens -/

namespace Reader

/-- What a reader comes to after a step, with the tokens that are left. -/
def resume : Step → List Token → Except ParseError Term × List Token
  | .ok (.inl t), tokens => (.ok t, tokens)
  | .ok (.inr r), tokens => r.run tokens
  | .error e, tokens => (.error e, tokens)

theorem run_cons (r : Reader) (token : Token) (tokens : List Token) :
    r.run (token :: tokens) = resume (r.step token) tokens := by
  rw [run]
  split
  · rename_i h; rw [h]; rfl
  · rename_i h; rw [h]; rfl
  · rename_i h; rw [h]; rfl

/-- A word that stands for a term hands the term on. -/
theorem step_word (r : Reader) {w : List Char} {t : Term} (h : ofWord w = .ok t) :
    r.step (.word w) = finish (promotedTimes r.marks t) 0 r.stack := by
  have hlambda := not_lambda_of_ofWord h
  simp [step, word, hlambda, h]

end Reader

theorem promotedTimes_succ (n : Nat) (t : Term) :
    promotedTimes (n + 1) t = promotedTimes n (promoted t) := by
  induction n with
  | zero => rfl
  | succ n ih => rw [promotedTimes, ih, promotedTimes]

open Reader in
/-- The tokens of a term hand it on as one term, with the marks before it. At
the head of an open list they leave the list with the term as its head. -/
theorem run_tokensOn (t : Term) :
    (∀ (r : Reader) (rest : List Token), r.run (t.tokensOn false rest) =
      resume (finish (promotedTimes r.marks t) 0 r.stack) rest) ∧
    (∀ wraps stack (rest : List Token),
      run ⟨(.start, wraps) :: stack, 0⟩ (t.tokensOn true rest) =
        run ⟨(.application t, wraps) :: stack, 0⟩ rest) := by
  induction t with
  | var i =>
    have hword : ∀ (r : Reader) rest, r.run (.word (varChars i) :: rest) =
        resume (finish (promotedTimes r.marks (var i)) 0 r.stack) rest := fun r rest => by
      rw [run_cons, step_word r (ofWord_varChars i)]
    exact ⟨hword, fun _ _ rest => hword _ rest⟩
  | prim p =>
    have hword : ∀ (r : Reader) rest, r.run (.word p.nameChars :: rest) =
        resume (finish (promotedTimes r.marks (prim p)) 0 r.stack) rest := fun r rest => by
      rw [run_cons, step_word r (ofWord_nameChars p)]
    exact ⟨hword, fun _ _ rest => hword _ rest⟩
  | promoted body ih =>
    have hbody : ∀ (r : Reader) rest, r.run (.hash :: body.tokensOn false rest) =
        resume (finish (promotedTimes r.marks (promoted body)) 0 r.stack) rest := fun r rest => by
      rw [run_cons, ← promotedTimes_succ]
      exact ih.1 ⟨r.stack, r.marks + 1⟩ rest
    exact ⟨hbody, fun _ _ rest => hbody _ rest⟩
  | lam body ih =>
    have hbody : ∀ (r : Reader) rest, r.run ((lam body).tokensOn false rest) =
        resume (finish (promotedTimes r.marks (lam body)) 0 r.stack) rest := fun r rest => by
      rw [tokensOn, run_cons]
      show run ⟨(.binder none, r.marks) :: r.stack, 0⟩ _ = _
      rw [ih.1]
      show run ⟨(.binder (some body), r.marks) :: r.stack, 0⟩ (.closing :: rest) = _
      rw [run_cons]
      rfl
    exact ⟨hbody, fun _ _ rest => hbody _ rest⟩
  | app f x ihf ihx =>
    constructor
    · intro r rest
      rw [tokensOn, run_cons]
      show run ⟨(.start, r.marks) :: r.stack, 0⟩ _ = _
      rw [ihf.2, ihx.1]
      show run ⟨(.application (app f x), r.marks) :: r.stack, 0⟩ (.closing :: rest) = _
      rw [run_cons]
      rfl
    · intro wraps stack rest
      rw [tokensOn, ihf.2, ihx.1]
      rfl

/-- One term is read from the front of its tokens, and the rest is left. -/
theorem read_tokensOn (t : Term) (rest : List Token) : read (t.tokensOn false rest) = (.ok t, rest) :=
  (run_tokensOn t).1 {} rest

theorem tokensOn_ne_nil (t : Term) (rest : List Token) : t.tokensOn false rest ≠ [] := by
  cases t <;> exact List.cons_ne_nil _ _

/-- Reading on after a term that was read. -/
theorem readAll_of_read {t : Term} {tokens rest : List Token} (hne : tokens ≠ [])
    (h : read tokens = (.ok t, rest)) :
    readAll tokens = (.ok t :: (readAll rest).1, (readAll rest).2) := by
  cases tokens with
  | nil => exact absurd rfl hne
  | cons token tokens =>
    rw [readAll]
    split
    · rename_i he
      rw [h] at he
      cases he
    · rename_i he
      rw [h] at he
      cases he
      rfl

/-- A printed term reads back as the term. -/
theorem ofText_text (t : Term) : ofText t.text = .ok t := by
  have hscan : Token.ofText t.text.toList = t.tokensOn false [] := by
    rw [text, String.toList_ofList]
    exact scan_charsOn t false [] (fun _ h => by cases h)
  rw [ofText, hscan, read_tokensOn]

/-- Terms with the same text are the same term. -/
theorem text_injective {t u : Term} (h : t.text = u.text) : t = u := by
  have ht := ofText_text t
  rw [h, ofText_text u] at ht
  cases ht
  rfl

/-! ## Several terms -/

/-- The texts of terms, one after another, each with the blanks after it. -/
def charsOfList (ts : List (Term × List Char)) : List Char := ts.flatMap fun e => e.1.chars ++ e.2

/-- Blanks follow each term, and some of them stand between any two. -/
structure Spaced (ts : List (Term × List Char)) : Prop where
  blank : ∀ e ∈ ts, ∀ c ∈ e.2, Text.isBlank c = true
  apart : ∀ e ∈ ts.dropLast, e.2 ≠ []

theorem Spaced.tail {e : Term × List Char} {ts : List (Term × List Char)} (h : Spaced (e :: ts)) :
    Spaced ts := by
  refine ⟨fun d hd => h.blank d (List.mem_cons_of_mem _ hd), fun d hd => h.apart d ?_⟩
  cases ts with
  | nil => cases hd
  | cons next ts => exact List.mem_cons_of_mem _ hd

/-- A word ends after each of several texts. -/
theorem Spaced.endsWords {e : Term × List Char} {ts : List (Term × List Char)}
    (h : Spaced (e :: ts)) : Token.EndsWords (e.2 ++ charsOfList ts) := by
  cases ts with
  | nil =>
    intro c hc
    simp only [charsOfList, List.flatMap_nil, List.append_nil] at hc
    simp [Token.endsWord, h.blank e (by simp) c (List.mem_of_mem_head? hc)]
  | cons next ts =>
    exact Token.endsWords_append (h.apart e (by simp)) (h.blank e (by simp))

theorem readAll_charsOfList {ts : List (Term × List Char)} (h : Spaced ts) :
    readAll (Token.ofText (charsOfList ts)) = (ts.map (.ok ·.1), []) := by
  induction ts with
  | nil =>
    show readAll [] = ([], [])
    rw [readAll]
  | cons e ts ih =>
    have hscan : Token.ofText (charsOfList (e :: ts)) =
        e.1.tokensOn false (Token.ofText (charsOfList ts)) := by
      have htext : charsOfList (e :: ts) = e.1.charsOn false (e.2 ++ charsOfList ts) := by
        rw [← List.nil_append (e.2 ++ charsOfList ts), charsOn_append]
        simp [charsOfList, chars]
      rw [htext, Token.ofText, scan_charsOn e.1 false _ h.endsWords,
        Token.scan_blanks (h.blank e (by simp))]
      rfl
    rw [hscan, readAll_of_read (tokensOn_ne_nil _ _) (read_tokensOn _ _), ih h.tail]
    rfl

/-- The text of every term reads back as the term. The texts of several terms
with blanks between them read back, one after another, as those terms, and
then there is nothing left to read. -/
theorem printed_terms_read_back :
    (∀ t : Term, ofText t.text = .ok t) ∧
    ∀ (lead : List Char) (ts : List (Term × List Char)),
      (∀ c ∈ lead, Text.isBlank c = true) → Spaced ts →
      readAll (Token.ofText (lead ++ charsOfList ts)) = (ts.map (.ok ·.1), []) := by
  refine ⟨ofText_text, fun lead ts hlead hts => ?_⟩
  rw [Token.ofText, Token.scan_blanks hlead]
  exact readAll_charsOfList hts

/-- Two terms, a tab and a space between them. -/
theorem printed_pair_reads_back :
    (∀ c ∈ ['\n'], Text.isBlank c = true) ∧
    Spaced [(lam (app (var 0) (literal (-3))), ['\t', ' ']), (promoted (prim .add), [])] ∧
    readAll (Token.ofText "\n(lambda ($0 -3))\t #+".toList) =
      ([.ok (lam (app (var 0) (literal (-3)))), .ok (promoted (prim .add))], []) := by
  have hlead : ∀ c ∈ ['\n'], Text.isBlank c = true := List.all_eq_true.1 (by decide)
  have hspaced : Spaced [(lam (app (var 0) (literal (-3))), ['\t', ' ']), (promoted (prim .add), [])] :=
    { blank := List.forall_mem_cons.2 ⟨List.all_eq_true.1 (by decide), by simp⟩
      apart := by simp }
  refine ⟨hlead, hspaced, ?_⟩
  have htext : "\n(lambda ($0 -3))\t #+".toList = ['\n'] ++
      charsOfList [(lam (app (var 0) (literal (-3))), ['\t', ' ']), (promoted (prim .add), [])] := by
    decide +kernel
  rw [htext, printed_terms_read_back.2 _ _ hlead hspaced]
  rfl

end Term

end SymbolInduction
