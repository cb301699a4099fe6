-- The grammar of programs, and what the reader makes of it. A term is a word, a
-- term after a mark, a binder with one body, or a list of a head and arguments.
-- The reader takes just the texts of this grammar, as the terms that they derive
-- there, but for the marks right before a closing bracket: it carries these on,
-- past the bracket, to the next term that opens.
import SymbolInduction.Proofs.Term.Spelling
import Mathlib.Data.List.Chain

namespace SymbolInduction.Term

/-! ## The grammar -/

/-- The word that begins a binder. -/
def lambdaWord : Token := .word ['l', 'a', 'm', 'b', 'd', 'a']

/-- A word names a variable, a literal or a primitive. -/
inductive Names : List Char → Term → Prop
  | index {digits : List Char} {i : UInt64} :
      Decimal.uint64Of? digits = some i → Names ('$' :: digits) (var i)
  | literal {letters : List Char} {n : Int64} :
      Decimal.int64Of? letters = some n → Names letters (literal n)
  | primitive {p : Primitive} : p ∈ Primitive.named → Names p.nameChars (prim p)

/-- The tokens derive the term. -/
inductive Derives : List Token → Term → Prop
  | word {letters : List Char} {t : Term} : Names letters t → Derives [.word letters] t
  | marked {tokens : List Token} {t : Term} :
      Derives tokens t → Derives (.hash :: tokens) (promoted t)
  | binder {tokens : List Token} {body : Term} :
      Derives tokens body → Derives (.opening :: lambdaWord :: (tokens ++ [.closing])) (lam body)
  | list {tokens : List Token} {f : Term} {args : List (List Token × Term)} :
      Derives tokens f → (∀ arg ∈ args, Derives arg.1 arg.2) →
      Derives (.opening :: (tokens ++ args.flatMap (·.1) ++ [.closing])) (f.applied (args.map (·.2)))

/-- No mark stands right before a closing bracket. -/
def MarksTerms (tokens : List Token) : Prop :=
  tokens.IsChain fun token next => token = .hash → next ≠ .closing

/-- The tokens as the reader takes them: marks before a closing bracket, with
`marks` of them ahead of the tokens, stand after it. After the last closing
bracket they are dropped. -/
def settle (marks : Nat) : List Token → List Token
  | [] => List.replicate marks .hash
  | .hash :: tokens => settle (marks + 1) tokens
  | .opening :: tokens => List.replicate marks .hash ++ .opening :: settle 0 tokens
  | .word letters :: tokens => List.replicate marks .hash ++ .word letters :: settle 0 tokens
  | [.closing] => [.closing]
  | .closing :: tokens => .closing :: settle marks tokens

/-! ## Words -/

theorem not_dollar_of_int64Of? {letters : List Char} {n : Int64}
    (h : Decimal.int64Of? letters = some n) (digits : List Char) : letters ≠ '$' :: digits := by
  rintro rfl
  have hnone : Decimal.natOf? ('$' :: digits) = none := if_neg fun hdigits => by
    simpa using hdigits.2
  simp [Decimal.int64Of?, hnone] at h

theorem ofWord_eq_ok_iff {letters : List Char} {t : Term} :
    ofWord letters = .ok t ↔ Names letters t := by
  constructor
  · intro h
    unfold ofWord at h
    split at h
    · split at h
      · rename_i hdigits
        cases h
        exact .index hdigits
      · cases h
    · split at h
      · rename_i p hname
        cases h
        unfold Primitive.ofName? at hname
        split at hname
        · rename_i hnumber
          cases hname
          exact .literal hnumber
        · have hletters : p.nameChars = letters := by simpa using List.find?_some hname
          exact hletters ▸ .primitive (List.mem_of_find?_eq_some hname)
      · cases h
  · intro h
    cases h with
    | index hdigits => simp [ofWord, hdigits]
    | literal hnumber =>
      unfold ofWord
      split
      · exact absurd rfl (not_dollar_of_int64Of? hnumber _)
      · rw [Primitive.ofName?, hnumber]
        rfl
    | primitive => exact ofWord_nameChars _

/-! ## What is derived is read -/

namespace Reader

/-- Terms at the end of a list become arguments of its head. -/
theorem run_arguments {args : List (List Token × Term)}
    (h : ∀ arg ∈ args, ∀ (r : Reader) (rest : List Token),
      r.run (arg.1 ++ rest) = resume (finish (promotedTimes r.marks arg.2) 0 r.stack) rest)
    (f : Term) (wraps : Nat) (stack : List (OpenList × Nat)) (rest : List Token) :
    run ⟨(.application f, wraps) :: stack, 0⟩ (args.flatMap (·.1) ++ rest) =
      run ⟨(.application (f.applied (args.map (·.2))), wraps) :: stack, 0⟩ rest := by
  induction args generalizing f with
  | nil => rfl
  | cons arg args ih =>
    rw [List.flatMap_cons, List.append_assoc, h arg (by simp)]
    exact ih (fun arg' harg => h arg' (by simp [harg])) (app f arg.2)

/-- Tokens that derive a term are read as the term. -/
theorem run_of_derives {tokens : List Token} {t : Term} (h : Derives tokens t) :
    ∀ (r : Reader) (rest : List Token),
      r.run (tokens ++ rest) = resume (finish (promotedTimes r.marks t) 0 r.stack) rest := by
  induction h with
  | word hname =>
    intro r rest
    rw [List.singleton_append, run_cons, step_word r (ofWord_eq_ok_iff.2 hname)]
  | marked _ ih =>
    intro r rest
    rw [List.cons_append, run_cons, ← promotedTimes_succ]
    exact ih ⟨r.stack, r.marks + 1⟩ rest
  | @binder tokens body _ ih =>
    intro r rest
    have hbody := ih ⟨(.binder none, r.marks) :: r.stack, 0⟩ (.closing :: rest)
    rw [List.cons_append, List.cons_append, List.append_assoc, run_cons]
    show run ⟨(.start, r.marks) :: r.stack, 0⟩ (lambdaWord :: _) = _
    rw [run_cons]
    refine hbody.trans ?_
    show run ⟨(.binder (some body), r.marks) :: r.stack, 0⟩ (.closing :: rest) = _
    rw [run_cons]
    rfl
  | @list tokens f args _ _ ihf ihargs =>
    intro r rest
    have hhead := ihf ⟨(.start, r.marks) :: r.stack, 0⟩ (args.flatMap (·.1) ++ .closing :: rest)
    rw [List.cons_append, List.append_assoc, List.append_assoc, run_cons]
    refine hhead.trans ?_
    show run ⟨(.application f, r.marks) :: r.stack, 0⟩ _ = _
    rw [run_arguments ihargs, run_cons]
    rfl

end Reader

theorem read_of_derives {tokens : List Token} {t : Term} (h : Derives tokens t) :
    read tokens = (.ok t, []) := by
  have hrun := Reader.run_of_derives h {} []
  rwa [List.append_nil] at hrun

/-! ## What is read is derived -/

theorem derives_promotedTimes {tokens : List Token} {t : Term} (h : Derives tokens t)
    (marks : Nat) : Derives (List.replicate marks .hash ++ tokens) (promotedTimes marks t) := by
  induction marks with
  | zero => exact h
  | succ marks ih => exact .marked ih

/-- The tokens after its opening bracket bring a list to where it is. -/
inductive OpenList.Reads : OpenList → List Token → Prop
  | start : Reads .start []
  | binder : Reads (.binder none) [lambdaWord]
  | body {tokens : List Token} {t : Term} :
      Derives tokens t → Reads (.binder (some t)) (lambdaWord :: tokens)
  | application {tokens : List Token} {f : Term} {args : List (List Token × Term)} :
      Derives tokens f → (∀ arg ∈ args, Derives arg.1 arg.2) →
      Reads (.application (f.applied (args.map (·.2)))) (tokens ++ args.flatMap (·.1))

theorem OpenList.Reads.add {l l' : OpenList} {inner tokens : List Token} {t : Term}
    (h : Reads l inner) (ht : Derives tokens t) (hadd : l.add t = .ok l') :
    Reads l' (inner ++ tokens) := by
  cases h with
  | start =>
    cases hadd
    have := @Reads.application tokens t [] ht (by simp)
    simpa [applied] using this
  | binder =>
    cases hadd
    exact .body ht
  | body => cases hadd
  | @application tokens' f args hf hargs =>
    cases hadd
    have hall : ∀ arg ∈ args ++ [(tokens, t)], Derives arg.1 arg.2 := by
      intro arg harg
      rcases List.mem_append.1 harg with harg | harg
      · exact hargs arg harg
      · rw [List.mem_singleton.1 harg]
        exact ht
    have := Reads.application hf hall
    simpa [applied, List.append_assoc] using this

theorem OpenList.Reads.close {l : OpenList} {inner : List Token} {t : Term} (h : Reads l inner)
    (hclose : l.close = .ok t) : Derives (.opening :: (inner ++ [.closing])) t := by
  cases h with
  | start => cases hclose
  | binder => cases hclose
  | body ht =>
    cases hclose
    exact .binder ht
  | application hf hargs =>
    cases hclose
    exact .list hf hargs

/-- The tokens bring a reader to where it has these open lists. -/
inductive Reader.Opens : List (OpenList × Nat) → List Token → Prop
  | nil : Opens [] []
  | cons {stack : List (OpenList × Nat)} {outer : List Token} {l : OpenList} {inner : List Token}
      {wraps : Nat} : Opens stack outer → l.Reads inner →
      Opens ((l, wraps) :: stack) (outer ++ (List.replicate wraps .hash ++ .opening :: inner))

namespace Reader

/-- The tokens bring a reader to where it is. -/
def Represents (r : Reader) (tokens : List Token) : Prop :=
  ∃ outer, Opens r.stack outer ∧ tokens = outer ++ List.replicate r.marks .hash

theorem represents_finish {stack : List (OpenList × Nat)} {outer tokens : List Token} {t : Term}
    {next : Term ⊕ Reader} (hstack : Opens stack outer) (ht : Derives tokens t)
    (h : finish t 0 stack = .ok next) :
    next.elim (Derives (outer ++ tokens)) (Represents · (outer ++ tokens)) := by
  cases hstack with
  | nil =>
    cases h
    exact ht
  | @cons stack outer l inner wraps hstack hl =>
    unfold finish at h
    dsimp only at h
    split at h
    · rename_i l' hadd
      cases h
      refine ⟨_, .cons hstack (hl.add ht hadd), ?_⟩
      simp
    · cases h

/-- One token more: the tokens up to now derive the term that has been read, or
bring the reader to where it is. -/
theorem Represents.step {r : Reader} {tokens : List Token} (h : r.Represents tokens)
    {token : Token} (hmarks : token = .closing → r.marks = 0) {next : Term ⊕ Reader}
    (hstep : r.step token = .ok next) :
    next.elim (Derives (tokens ++ [token])) (Represents · (tokens ++ [token])) := by
  obtain ⟨stack, marks⟩ := r
  obtain ⟨outer, hstack, rfl⟩ := h
  cases token with
  | opening =>
    cases hstep
    exact ⟨_, .cons hstack .start, by simp⟩
  | hash =>
    cases hstep
    exact ⟨outer, hstack, by simp [List.replicate_succ']⟩
  | closing =>
    obtain rfl : marks = 0 := hmarks rfl
    cases hstack with
    | nil => cases hstep
    | @cons stack outer l inner wraps hstack hl =>
      simp only [Reader.step] at hstep
      split at hstep
      · rename_i t hclose
        have hfinish := represents_finish hstack
          (derives_promotedTimes (hl.close hclose) wraps) hstep
        simpa using hfinish
      · cases hstep
  | word letters =>
    simp only [Reader.step, word] at hstep
    split at hstep
    · rename_i hlambda
      obtain ⟨rfl, rfl⟩ := hlambda
      split at hstep
      · cases hstep
        cases hstack with
        | cons hstack hl =>
          cases hl
          exact ⟨_, .cons hstack .binder, by simp [lambdaWord]⟩
      · cases hstep
    · split at hstep
      · rename_i t hword
        have hfinish := represents_finish hstack
          (derives_promotedTimes (.word (ofWord_eq_ok_iff.1 hword)) marks) hstep
        simpa using hfinish
      · cases hstep

/-- Where no mark stands before a closing bracket, there is none when one comes. -/
theorem Represents.marks_eq_zero {r : Reader} {tokens rest : List Token} (h : r.Represents tokens)
    (hmarks : MarksTerms (tokens ++ .closing :: rest)) : r.marks = 0 := by
  obtain ⟨stack, marks⟩ := r
  obtain ⟨outer, -, rfl⟩ := h
  cases marks with
  | zero => rfl
  | succ marks =>
    dsimp only at hmarks
    rw [List.replicate_succ', ← List.append_assoc, List.append_assoc, List.singleton_append] at hmarks
    exact absurd rfl ((List.isChain_append_cons_cons.1 hmarks).2.1 rfl)

/-- Tokens that are read to their end derive the term that is read, together
with those before them. -/
theorem Represents.run {r : Reader} {tokens rest : List Token} {t : Term}
    (h : r.Represents tokens) (hmarks : MarksTerms (tokens ++ rest))
    (hrun : r.run rest = (.ok t, [])) : Derives (tokens ++ rest) t := by
  induction rest generalizing r tokens with
  | nil => cases hrun
  | cons token rest ih =>
    have hzero : token = .closing → r.marks = 0 := by
      rintro rfl
      exact h.marks_eq_zero hmarks
    rw [run_cons] at hrun
    rw [List.append_cons] at hmarks ⊢
    cases hstep : r.step token with
    | error e =>
      rw [hstep] at hrun
      cases hrun
    | ok next =>
      rw [hstep] at hrun
      cases next with
      | inl t' =>
        cases hrun
        rw [List.append_nil]
        exact h.step hzero hstep
      | inr r' => exact ih (h.step hzero hstep) hmarks hrun

end Reader

/-- Where no mark stands before a closing bracket, the tokens are read as a term
exactly if they derive it. -/
theorem read_iff_derives {tokens : List Token} (h : MarksTerms tokens) {t : Term} :
    read tokens = (.ok t, []) ↔ Derives tokens t :=
  ⟨fun hread => Reader.Represents.run (r := {}) ⟨[], .nil, rfl⟩ h hread, read_of_derives⟩

/-! ## Marks before a closing bracket -/

namespace Reader

theorem run_replicate_hash (stack : List (OpenList × Nat)) (marks more : Nat)
    (tokens : List Token) :
    run ⟨stack, marks⟩ (List.replicate more .hash ++ tokens) = run ⟨stack, marks + more⟩ tokens := by
  induction more generalizing marks with
  | zero => rfl
  | succ more ih =>
    rw [List.replicate_succ, List.cons_append, run_cons]
    show run ⟨stack, marks + 1⟩ _ = _
    rw [ih, Nat.add_right_comm, Nat.add_assoc]

/-- A closing bracket does not ask for the marks before it, and leaves them. -/
theorem step_closing_cases (stack : List (OpenList × Nat)) :
    (∃ e, ∀ marks, step ⟨stack, marks⟩ .closing = .error e) ∨
      (∃ t, ∀ marks, step ⟨stack, marks⟩ .closing = .ok (.inl t)) ∨
        ∃ stack', ∀ marks, step ⟨stack, marks⟩ .closing = .ok (.inr ⟨stack', marks⟩) := by
  cases stack with
  | nil => exact Or.inl ⟨_, fun _ => rfl⟩
  | cons entry stack =>
    obtain ⟨l, wraps⟩ := entry
    simp only [step]
    cases l.close with
    | error e => exact Or.inl ⟨e, fun _ => rfl⟩
    | ok t =>
      cases stack with
      | nil => exact Or.inr (Or.inl ⟨_, fun _ => rfl⟩)
      | cons entry stack =>
        obtain ⟨l', wraps'⟩ := entry
        simp only [finish]
        cases l'.add (promotedTimes wraps t) with
        | error e => exact Or.inl ⟨e, fun _ => rfl⟩
        | ok l' => exact Or.inr (Or.inr ⟨_, fun _ => rfl⟩)

/-- A word takes the marks before it. -/
theorem step_word_cases (r : Reader) (letters : List Char) :
    (∃ e, r.step (.word letters) = .error e) ∨ (∃ t, r.step (.word letters) = .ok (.inl t)) ∨
      ∃ stack, r.step (.word letters) = .ok (.inr ⟨stack, 0⟩) := by
  simp only [step, word]
  split
  · split
    · exact Or.inr (Or.inr ⟨_, rfl⟩)
    · exact Or.inl ⟨_, rfl⟩
  · split
    · unfold finish
      split
      · exact Or.inr (Or.inl ⟨_, rfl⟩)
      · split
        · exact Or.inr (Or.inr ⟨_, rfl⟩)
        · exact Or.inl ⟨_, rfl⟩
    · exact Or.inl ⟨_, rfl⟩

end Reader

theorem eq_nil_of_settle {marks : Nat} {tokens : List Token} (h : settle marks tokens = []) :
    tokens = [] := by
  induction tokens generalizing marks with
  | nil => rfl
  | cons token tokens ih =>
    cases token with
    | hash =>
      obtain rfl := ih h
      cases h
    | opening => simp [settle] at h
    | word letters => simp [settle] at h
    | closing => cases tokens <;> cases h

theorem settle_closing {tokens : List Token} (h : tokens ≠ []) (marks : Nat) :
    settle marks (.closing :: tokens) = .closing :: settle marks tokens := by
  cases tokens with
  | nil => exact absurd rfl h
  | cons token tokens => rfl

open Reader in
/-- The reader reads tokens as it reads them with their marks carried on. -/
theorem run_settle_iff (stack : List (OpenList × Nat)) (marks : Nat) (tokens : List Token)
    (t : Term) :
    run ⟨stack, 0⟩ (settle marks tokens) = (.ok t, []) ↔ run ⟨stack, marks⟩ tokens = (.ok t, []) := by
  induction tokens generalizing stack marks with
  | nil =>
    have hrun := run_replicate_hash stack 0 marks []
    rw [List.append_nil] at hrun
    rw [settle, hrun]
    exact iff_of_false (by simp [run]) (by simp [run])
  | cons token tokens ih =>
    cases token with
    | hash => exact (ih stack (marks + 1)).trans (by rw [run_cons]; rfl)
    | opening =>
      rw [settle, run_replicate_hash, run_cons, run_cons, Nat.zero_add]
      exact ih ((.start, marks) :: stack) 0
    | word letters =>
      rw [settle, run_replicate_hash, run_cons, run_cons, Nat.zero_add]
      rcases step_word_cases ⟨stack, marks⟩ letters with ⟨e, he⟩ | ⟨t', ht'⟩ | ⟨stack', hstack'⟩
      · rw [he]
        exact iff_of_false (by simp [resume]) (by simp [resume])
      · rw [ht']
        have hrest : settle 0 tokens = [] ↔ tokens = [] :=
          ⟨eq_nil_of_settle, by rintro rfl; rfl⟩
        simp [resume, hrest]
      · rw [hstack']
        exact ih stack' 0
    | closing =>
      by_cases hlast : tokens = []
      · subst hlast
        rw [settle, run_cons, run_cons]
        rcases step_closing_cases stack with ⟨e, he⟩ | ⟨t', ht'⟩ | ⟨stack', hstack'⟩
        · rw [he, he]
        · rw [ht', ht']
        · rw [hstack', hstack']
          exact iff_of_false (by simp [resume, run]) (by simp [resume, run])
      · rw [settle_closing hlast, run_cons, run_cons]
        rcases step_closing_cases stack with ⟨e, he⟩ | ⟨t', ht'⟩ | ⟨stack', hstack'⟩
        · rw [he, he]
          exact iff_of_false (by simp [resume]) (by simp [resume])
        · rw [ht', ht']
          -- something is left over after the term, carried on or not
          have hrest : settle marks tokens ≠ [] := fun h => hlast (eq_nil_of_settle h)
          simp [resume, hlast, hrest]
        · rw [hstack', hstack']
          exact ih stack' marks

/-! ## Tokens without such marks -/

theorem marksTerms_cons {token : Token} {tokens : List Token}
    (h : token = .hash → tokens.head? ≠ some .closing) (htokens : MarksTerms tokens) :
    MarksTerms (token :: tokens) := by
  refine List.isChain_cons.2 ⟨fun next hnext htoken hclosing => h htoken ?_, htokens⟩
  rw [hnext, hclosing]

theorem marksTerms_closing {tokens : List Token} (h : MarksTerms tokens) :
    MarksTerms (.closing :: tokens) := marksTerms_cons Token.noConfusion h

theorem marksTerms_replicate {tokens : List Token} (htokens : MarksTerms tokens)
    (h : tokens.head? ≠ some .closing) (marks : Nat) :
    MarksTerms (List.replicate marks .hash ++ tokens) := by
  induction marks with
  | zero => exact htokens
  | succ marks ih =>
    refine marksTerms_cons (fun _ => ?_) ih
    cases marks with
    | zero => exact h
    | succ marks => exact fun hhead => by cases hhead

theorem marksTerms_settle (marks : Nat) (tokens : List Token) :
    MarksTerms (settle marks tokens) := by
  induction tokens generalizing marks with
  | nil =>
    have := marksTerms_replicate .nil (by simp) marks
    rwa [List.append_nil] at this
  | cons token tokens ih =>
    cases token with
    | hash => exact ih (marks + 1)
    | opening =>
      exact marksTerms_replicate (marksTerms_cons Token.noConfusion (ih 0)) (by simp) marks
    | word letters =>
      exact marksTerms_replicate (marksTerms_cons Token.noConfusion (ih 0)) (by simp) marks
    | closing =>
      by_cases hlast : tokens = []
      · subst hlast
        exact .singleton _
      · rw [settle_closing hlast]
        exact marksTerms_closing (ih marks)

theorem marksTerms_flatMap {args : List (List Token × Term)} {rest : List Token}
    (h : ∀ arg ∈ args, ∀ rest, MarksTerms rest → MarksTerms (arg.1 ++ rest))
    (hrest : MarksTerms rest) : MarksTerms (args.flatMap (·.1) ++ rest) := by
  induction args with
  | nil => exact hrest
  | cons arg args ih =>
    rw [List.flatMap_cons, List.append_assoc]
    exact h arg (by simp) _ (ih fun arg' harg => h arg' (by simp [harg]))

/-- Tokens that derive a term begin with no closing bracket, and put no mark
before one. -/
theorem Derives.marksTerms_append {tokens : List Token} {t : Term} (h : Derives tokens t) :
    ∀ {rest : List Token}, MarksTerms rest →
      (tokens ++ rest).head? ≠ some .closing ∧ MarksTerms (tokens ++ rest) := by
  induction h with
  | word =>
    intro rest hrest
    exact ⟨by simp, marksTerms_cons Token.noConfusion hrest⟩
  | marked _ ih =>
    intro rest hrest
    obtain ⟨hhead, hmarks⟩ := ih hrest
    exact ⟨by simp, marksTerms_cons (fun _ => hhead) hmarks⟩
  | binder _ ih =>
    intro rest hrest
    obtain ⟨-, hbody⟩ := ih (marksTerms_closing hrest)
    rw [List.cons_append, List.cons_append, List.append_assoc, List.singleton_append]
    exact ⟨by simp, marksTerms_cons Token.noConfusion (marksTerms_cons Token.noConfusion hbody)⟩
  | @list tokens f args _ _ ihf ihargs =>
    intro rest hrest
    have hargs := marksTerms_flatMap (fun arg harg _ hrest => (ihargs arg harg hrest).2)
      (marksTerms_closing hrest)
    rw [List.cons_append, List.append_assoc, List.append_assoc, List.singleton_append]
    exact ⟨by simp, marksTerms_cons Token.noConfusion (ihf hargs).2⟩

theorem Derives.marksTerms {tokens : List Token} {t : Term} (h : Derives tokens t) :
    MarksTerms tokens := by
  have : MarksTerms (tokens ++ []) := (h.marksTerms_append .nil).2
  rwa [List.append_nil] at this

/-! ## Texts -/

theorem ofText_eq_ok_iff {text : String} {t : Term} :
    ofText text = .ok t ↔ read (Token.ofText text.toList) = (.ok t, []) := by
  unfold ofText
  generalize read (Token.ofText text.toList) = out
  obtain ⟨result, rest⟩ := out
  cases result <;> cases rest <;> simp

theorem ofText_iff_derives_settle {text : String} {t : Term} :
    ofText text = .ok t ↔ Derives (settle 0 (Token.ofText text.toList)) t := by
  rw [ofText_eq_ok_iff, ← read_iff_derives (marksTerms_settle 0 _)]
  exact (run_settle_iff [] 0 _ t).symm

/-- A text spells one list of tokens. It is read as a term exactly if the tokens
derive that term once the marks before each closing bracket are carried on past
it. So the tokens themselves derive the term exactly if the text is read as it
and has no mark before a closing bracket. -/
theorem reader_follows_the_grammar (text : String) :
    let tokens := Token.ofText text.toList
    (∀ ts, Token.Spells text.toList ts ↔ ts = tokens) ∧
      ∀ t, (ofText text = .ok t ↔ Derives (settle 0 tokens) t) ∧
        (Derives tokens t ↔ ofText text = .ok t ∧ MarksTerms tokens) := by
  intro tokens
  refine ⟨fun ts => Token.spells_iff, fun t => ⟨ofText_iff_derives_settle, fun h => ?_, ?_⟩⟩
  · exact ⟨ofText_eq_ok_iff.2 (read_of_derives h), h.marksTerms⟩
  · rintro ⟨hread, hmarks⟩
    exact (read_iff_derives hmarks).1 (ofText_eq_ok_iff.1 hread)

/-- A mark at the end of a list goes to the next term of the list around it. The
text is read as a term, and no term derives from its tokens. -/
theorem a_mark_leaves_its_list :
    ofText "((+ #) 1 2)" = .ok ((prim .add).applied [promoted (literal 1), literal 2]) ∧
      ∀ t, ¬ Derives (Token.ofText "((+ #) 1 2)".toList) t :=
  ⟨by decide +kernel, fun _ h => absurd h.marksTerms (by unfold MarksTerms; decide +kernel)⟩

end SymbolInduction.Term
