-- What a merge comes to. The scan compares each symbol with those after it and
-- clears as it goes, also the symbol it compares with. Read as a whole, it
-- clears the symbols that some other symbol drives out, and no others.
import SymbolInduction.Learner.Merge
import SymbolInduction.Proofs.Program.Equivalence

namespace SymbolInduction.Learner

variable {α : Type}

/-! ## Who drives out whom -/

/-- Two symbols are explained by the same program. -/
def Alike (s t : Symbol α) : Prop := Explanation.equivalent s.explanation t.explanation = true

theorem Alike.symm {s t : Symbol α} (h : Alike s t) : Alike t s := Explanation.equivalent_symm h

theorem Alike.trans {s t u : Symbol α} (hst : Alike s t) (htu : Alike t u) : Alike s u :=
  Explanation.equivalent_trans hst htu

/-- Only programs are alike. -/
theorem Alike.isSome {s t : Symbol α} (h : Alike s t) : t.explanation.isSome = true := by
  unfold Alike Explanation.equivalent at h
  split at h
  · rename_i ht
    rw [ht]
    rfl
  · cases h

/-- Symbol `s` at position `i` drives out symbol `t` at position `j`: they are
alike, `t` is learned, and `s` is not learned, or has more examples, or as many
at a lower position. -/
structure DrivesOut (i : Nat) (s : Symbol α) (j : Nat) (t : Symbol α) : Prop where
  alike : Alike s t
  learnable : t.learnable = true
  better : s.learnable = false ∨ t.examples.length < s.examples.length ∨
    (t.examples.length = s.examples.length ∧ i < j)

theorem DrivesOut.trans {i j k : Nat} {s t u : Symbol α} (hst : DrivesOut i s j t)
    (htu : DrivesOut j t k u) : DrivesOut i s k u := by
  refine ⟨hst.alike.trans htu.alike, htu.learnable, ?_⟩
  rcases hst.better with h | h
  · exact Or.inl h
  · rcases htu.better with h' | h'
    · rw [hst.learnable] at h'
      cases h'
    · exact Or.inr (by omega)

theorem drivesOut_succ {i j : Nat} {s t : Symbol α} :
    DrivesOut (i + 1) s (j + 1) t ↔ DrivesOut i s j t := by
  constructor
  · rintro ⟨h1, h2, h3⟩
    exact ⟨h1, h2, h3.imp_right (Or.imp_right (And.imp_right Nat.lt_of_succ_lt_succ))⟩
  · rintro ⟨h1, h2, h3⟩
    exact ⟨h1, h2, h3.imp_right (Or.imp_right (And.imp_right Nat.succ_lt_succ))⟩

/-- No symbol drives out the one at position `k`. -/
def Stays (symbols : List (Symbol α)) (k : Nat) (t : Symbol α) : Prop :=
  ∀ j s, j ≠ k → symbols[j]? = some s → ¬DrivesOut j s k t

/-! ## One comparison -/

section

variable [Scalar α]

theorem not_alike_clear (s t : Symbol α) : ¬Alike s.clear t := by
  intro h
  cases h

theorem not_alike_clear' (s t : Symbol α) : ¬Alike s t.clear := fun h =>
  not_alike_clear t s h.symm

theorem ne_clear_of_alike {s t : Symbol α} (h : Alike s t) : t ≠ t.clear := by
  intro ht
  rw [ht] at h
  exact not_alike_clear' s t h

end

/-- Of two symbols that are alike, the first one gives way to a later one that
drives it out. -/
theorem loser?_eq_first_iff {i j : Nat} {s t : Symbol α} (hij : i < j) (h : Alike s t) :
    loser? s t = some .first ↔ DrivesOut j t i s := by
  constructor
  · intro hl
    refine ⟨h.symm, ?_, ?_⟩ <;> unfold loser? at hl <;> grind
  · rintro ⟨-, hs, hbetter⟩
    unfold loser?
    grind

theorem loser?_eq_second_iff {i j : Nat} {s t : Symbol α} (hij : i < j) (h : Alike s t) :
    loser? s t = some .second ↔ DrivesOut i s j t := by
  constructor
  · intro hl
    refine ⟨h, ?_, ?_⟩ <;> unfold loser? at hl <;> grind
  · rintro ⟨-, ht, hbetter⟩
    unfold loser?
    grind

/-! ## One scan -/

variable [Scalar α]

/-- How many symbols have a program. -/
def explained (symbols : List (Symbol α)) : Nat := symbols.countP (·.explanation.isSome)

/-- What a scan from symbol `s` at position `i` over the symbols `ts`, which
stand from position `j` on, makes of all of them. -/
structure Scanned (i : Nat) (s : Symbol α) (j : Nat) (ts : List (Symbol α))
    (out : Nat × Symbol α × List (Symbol α)) : Prop where
  length : out.2.2.length = ts.length
  /-- The symbol stays, or a symbol that stays drives it out. -/
  first : (out.2.1 = s ∧ ∀ k t, ts[k]? = some t → ¬DrivesOut (j + k) t i s) ∨
    (out.2.1 = s.clear ∧
      ∃ k t, ts[k]? = some t ∧ out.2.2[k]? = some t ∧ DrivesOut (j + k) t i s)
  /-- Any other symbol stays, or it is driven out by `s`; what `s` drives out
  can stay only where `s` itself is cleared. -/
  others : ∀ k t, ts[k]? = some t →
    (out.2.2[k]? = some t ∧ (DrivesOut i s (j + k) t → out.2.1 = s.clear)) ∨
      (out.2.2[k]? = some t.clear ∧ DrivesOut i s (j + k) t)
  count : out.1 + explained (out.2.1 :: out.2.2) = explained (s :: ts)

/-- A scan over one more symbol that does not drive out `s`. -/
theorem Scanned.cons {i j n : Nat} {s s' t t' : Symbol α} {ts ts' : List (Symbol α)}
    (h : Scanned i s (j + 1) ts (n, s', ts')) (ht : ¬DrivesOut j t i s) {m : Nat}
    (ht' : (t' = t ∧ ¬DrivesOut i s j t ∧ m = n) ∨ (t' = t.clear ∧ DrivesOut i s j t ∧ m = n + 1)) :
    Scanned i s j (t :: ts) (m, s', t' :: ts') := by
  have hshift : ∀ k, j + (k + 1) = j + 1 + k := by omega
  refine ⟨congrArg (· + 1) h.length, ?_, ?_, ?_⟩
  · rcases h.first with ⟨hs, hnone⟩ | ⟨hs, k, u, hu, hu', hd⟩
    · refine Or.inl ⟨hs, fun k u hu => ?_⟩
      cases k with
      | zero =>
        cases hu
        exact ht
      | succ k =>
        rw [hshift]
        exact hnone k u hu
    · exact Or.inr ⟨hs, k + 1, u, hu, hu', by rw [hshift]; exact hd⟩
  · intro k u hu
    cases k with
    | zero =>
      cases hu
      rcases ht' with ⟨rfl, hnot, -⟩ | ⟨rfl, hd, -⟩
      · exact Or.inl ⟨rfl, fun hd => absurd hd hnot⟩
      · exact Or.inr ⟨rfl, hd⟩
    | succ k =>
      rw [hshift]
      exact h.others k u hu
  · have hcount := h.count
    simp only [explained, List.countP_cons] at hcount ⊢
    rcases ht' with ⟨rfl, -, rfl⟩ | ⟨rfl, hd, rfl⟩
    · omega
    · have hprogram := hd.alike.isSome
      have hclear : t.clear.explanation.isSome = false := rfl
      simp only [hprogram, hclear] at hcount ⊢
      simp only [if_true, Bool.false_eq_true, if_false] at hcount ⊢
      omega

/-- A scan does what `Scanned` says. The numbers that it notes do not matter. -/
theorem scanned_mergeWith {i j : Nat} (hij : i < j) (a b : Nat) (s : Symbol α)
    (ts : List (Symbol α)) : Scanned i s j ts (mergeWith a s b ts).value := by
  induction ts generalizing j b with
  | nil =>
    refine ⟨rfl, Or.inl ⟨rfl, ?_⟩, ?_, Nat.zero_add _⟩
    · intro _ _ h
      cases h
    · intro _ _ h
      cases h
  | cons t ts ih =>
    have ih := ih (Nat.lt_succ_of_lt hij) (b + 1)
    rw [mergeWith]
    split
    · rename_i halike
      have hfirst := loser?_eq_first_iff hij (s := s) (t := t) halike
      have hsecond := loser?_eq_second_iff hij (s := s) (t := t) halike
      split
      · rename_i hl
        rw [hl] at hfirst hsecond
        have hnot : ¬DrivesOut j t i s := fun hd => by cases hfirst.2 hd
        have hnot' : ¬DrivesOut i s j t := fun hd => by cases hsecond.2 hd
        exact ih.cons hnot (Or.inl ⟨rfl, hnot', rfl⟩)
      · rename_i hl
        have hd : DrivesOut j t i s := hfirst.1 hl
        refine ⟨rfl, Or.inr ⟨rfl, 0, t, rfl, rfl, hd⟩, fun k u hu => Or.inl ⟨hu, fun _ => rfl⟩, ?_⟩
        have hprogram : s.explanation.isSome = true := hd.alike.isSome
        have hclear : s.clear.explanation.isSome = false := rfl
        simp only [Logged.value_bind, Logged.value_pure, explained, List.countP_cons, hprogram,
          hclear, if_true, Bool.false_eq_true, if_false]
        omega
      · rename_i hl
        rw [hl] at hfirst
        have hnot : ¬DrivesOut j t i s := fun hd => by cases hfirst.2 hd
        exact ih.cons hnot (Or.inr ⟨rfl, hsecond.1 hl, rfl⟩)
    · rename_i halike
      have hnot : ¬DrivesOut j t i s := fun hd => halike hd.alike.symm
      have hnot' : ¬DrivesOut i s j t := fun hd => halike hd.alike
      exact ih.cons hnot (Or.inl ⟨rfl, hnot', rfl⟩)

/-! ## All scans -/

/-- What a merge makes of symbols: those that some symbol drives out are
cleared, and all others stay. -/
structure Settled (before : List (Symbol α)) (out : Nat × List (Symbol α)) : Prop where
  length : out.2.length = before.length
  stays : ∀ k t, before[k]? = some t → Stays before k t → out.2[k]? = some t
  cleared : ∀ k t, before[k]? = some t → ¬Stays before k t → out.2[k]? = some t.clear
  count : out.1 + explained out.2 = explained before

theorem stays_clear (symbols : List (Symbol α)) (k : Nat) (t : Symbol α) :
    Stays symbols k t.clear := fun _ _ _ _ hd => not_alike_clear' _ _ hd.alike

/-- What drives out a symbol that stayed in the scan of `s` is still there, or
something better is. -/
theorem drivesOut_after_scan {s t : Symbol α} {ts : List (Symbol α)}
    {out : Nat × Symbol α × List (Symbol α)} {k : Nat} (h : Scanned 0 s 1 ts out)
    (ht' : out.2.2[k]? = some t) (ht : ts[k]? = some t) (hd : DrivesOut 0 s (k + 1) t) :
    ∃ j u, j ≠ k ∧ out.2.2[j]? = some u ∧ DrivesOut j u k t := by
  rw [Nat.add_comm] at hd
  have hclear : out.2.1 = s.clear := by
    rcases h.others k t ht with ⟨-, hs⟩ | ⟨ht'', -⟩
    · exact hs hd
    · rw [ht'] at ht''
      exact absurd (Option.some.inj ht'') (ne_clear_of_alike hd.alike)
  rcases h.first with ⟨hs, -⟩ | ⟨-, j, u, hu, hu', hdu⟩
  · rw [hclear] at hs
    exact absurd hs.symm (ne_clear_of_alike hd.alike.symm)
  · have hut := hdu.trans hd
    refine ⟨j, u, ?_, hu', ?_⟩
    · rintro rfl
      rw [ht] at hu
      cases hu
      have hbetter := hut.better
      rw [hut.learnable] at hbetter
      rcases hbetter with h | h
      · cases h
      · omega
    · rwa [Nat.add_comm 1 j, Nat.add_comm 1 k, drivesOut_succ] at hut

/-- Once the first symbol has been compared with the others, it makes no
difference any more to which of them stay. -/
theorem stays_after_scan {s t : Symbol α} {ts : List (Symbol α)}
    {out : Nat × Symbol α × List (Symbol α)} {k : Nat} (h : Scanned 0 s 1 ts out)
    (ht : ts[k]? = some t) (ht' : out.2.2[k]? = some t) :
    Stays (s :: ts) (k + 1) t ↔ Stays out.2.2 k t := by
  constructor
  · intro hstays j u hj hu hd
    -- what stands after the scan stood there before, or is cleared
    obtain ⟨v, hv⟩ : ∃ v, ts[j]? = some v := by
      obtain ⟨hlt, -⟩ := List.getElem?_eq_some_iff.1 hu
      rw [h.length] at hlt
      exact ⟨ts[j], List.getElem?_eq_getElem hlt⟩
    rcases h.others j v hv with ⟨hv', -⟩ | ⟨hv', -⟩
    · rw [hu] at hv'
      cases hv'
      exact hstays (j + 1) u (by omega) hv (drivesOut_succ.2 hd)
    · rw [hu] at hv'
      cases hv'
      exact not_alike_clear _ _ hd.alike
  · intro hstays j u hj hu hd
    cases j with
    | zero =>
      cases hu
      obtain ⟨j, u, hj, hu, hd⟩ := drivesOut_after_scan h ht' ht hd
      exact hstays j u hj hu hd
    | succ j =>
      rcases h.others j u hu with ⟨hu', -⟩ | ⟨-, hdu⟩
      · exact hstays j u (by omega) hu' (drivesOut_succ.1 hd)
      · rw [Nat.add_comm] at hdu
        obtain ⟨j, u, hj, hu, hd⟩ := drivesOut_after_scan h ht' ht (hdu.trans hd)
        exact hstays j u hj hu hd

theorem settled_cons {s : Symbol α} {ts : List (Symbol α)} {out : Nat × Symbol α × List (Symbol α)}
    {r : Nat × List (Symbol α)} (h : Scanned 0 s 1 ts out) (hr : Settled out.2.2 r) :
    Settled (s :: ts) (out.1 + r.1, out.2.1 :: r.2) := by
  refine ⟨?_, ?_, ?_, ?_⟩
  · simp [hr.length, h.length]
  · intro k t ht hstays
    cases k with
    | zero =>
      cases ht
      rcases h.first with ⟨hs, -⟩ | ⟨-, k, u, hu, -, hd⟩
      · exact congrArg some hs
      · rw [Nat.add_comm] at hd
        exact absurd hd (hstays (k + 1) u (by omega) hu)
    | succ k =>
      rcases h.others k t ht with ⟨ht', -⟩ | ⟨-, hd⟩
      · exact hr.stays k t ht' ((stays_after_scan h ht ht').1 hstays)
      · rw [Nat.add_comm] at hd
        exact absurd hd (hstays 0 s (by omega) rfl)
  · intro k t ht hnot
    cases k with
    | zero =>
      cases ht
      rcases h.first with ⟨-, hnone⟩ | ⟨hs, -⟩
      · refine absurd ?_ hnot
        intro j u hj hu
        cases j with
        | zero => exact absurd rfl hj
        | succ j =>
          rw [Nat.add_comm]
          exact hnone j u hu
      · exact congrArg some hs
    | succ k =>
      rcases h.others k t ht with ⟨ht', -⟩ | ⟨ht', -⟩
      · exact hr.cleared k t ht' fun hstays => hnot ((stays_after_scan h ht ht').2 hstays)
      · exact hr.stays k t.clear ht' (stays_clear _ k t)
  · have h1 := h.count
    have h2 := hr.count
    simp only [explained, List.countP_cons] at h1 h2 ⊢
    omega

theorem settled_mergeFrom (a : Nat) (ts : List (Symbol α)) :
    Settled ts (mergeFrom a ts.length ts).value := by
  generalize hn : ts.length = n
  induction n generalizing a ts with
  | zero =>
    obtain rfl := List.length_eq_zero_iff.1 hn
    refine ⟨rfl, ?_, ?_, rfl⟩
    · intro _ _ h
      cases h
    · intro _ _ h
      cases h
  | succ n ih =>
    cases ts with
    | nil => cases hn
    | cons s ts =>
      have hscan := scanned_mergeWith Nat.zero_lt_one a (a + 1) s ts
      have hlen : (mergeWith a s (a + 1) ts).value.2.2.length = n := by
        rw [hscan.length]
        exact Nat.succ.inj hn
      exact settled_cons hscan (ih (a + 1) _ hlen)

/-! ## Classes -/

/-- A symbol is explained like the program `p`. -/
def IsLike (p : Program) (s : Symbol α) : Prop := Explanation.equivalent s.explanation (some p) = true

/-- How many symbols had a program before and have none after. -/
def clearedCount (before after : List (Symbol α)) : Nat :=
  (before.zip after).countP fun (s, t) => s.explanation.isSome && t.explanation.isNone

/-- What a merge comes to, class by class: the symbols that are explained like
one program form a class. -/
structure Merged (before after : List (Symbol α)) (count : Nat) : Prop where
  length : after.length = before.length
  /-- In a class with a symbol that is not learned, all such symbols stay, and
  those that are learned are cleared. -/
  pinned : ∀ p, (∃ s ∈ before, IsLike p s ∧ s.learnable = false) →
    ∀ (i : Nat) (s : Symbol α), before[i]? = some s → IsLike p s →
      after[i]? = some (if s.learnable then s.clear else s)
  /-- In a class of learned symbols one of them stays: that with the most
  examples, and of several such the one at the lowest position. All others are
  cleared. -/
  learned : ∀ p, (∃ s ∈ before, IsLike p s) → (∀ s ∈ before, IsLike p s → s.learnable = true) →
    ∃ (w : Nat) (s : Symbol α), before[w]? = some s ∧ IsLike p s ∧ after[w]? = some s ∧
      ∀ (i : Nat) (t : Symbol α), i ≠ w → before[i]? = some t → IsLike p t →
        after[i]? = some t.clear ∧
        (t.examples.length < s.examples.length ∨
          (t.examples.length = s.examples.length ∧ w < i))
  /-- A symbol that is in no class stays as it is. -/
  others : ∀ (i : Nat) (s : Symbol α), before[i]? = some s → (∀ p, ¬IsLike p s) → after[i]? = some s
  count : count = clearedCount before after
  /-- Of two symbols with one program that are left, none is learned. -/
  apart : ∀ (i j : Nat) (s t : Symbol α), i ≠ j → after[i]? = some s → after[j]? = some t → Alike s t →
    s.learnable = false ∧ t.learnable = false

omit [Scalar α] in
/-- Of two symbols that are alike, one drives out the other, unless neither is
learned. -/
theorem drivesOut_or {i j : Nat} {s t : Symbol α} (h : Alike s t) (hij : i ≠ j)
    (hl : s.learnable = true ∨ t.learnable = true) : DrivesOut i s j t ∨ DrivesOut j t i s := by
  cases hs : s.learnable with
  | false =>
    rw [hs] at hl
    exact Or.inl ⟨h, hl.resolve_left (by simp), Or.inl hs⟩
  | true =>
    cases ht : t.learnable with
    | false => exact Or.inr ⟨h.symm, hs, Or.inl ht⟩
    | true =>
      by_cases hbetter : t.examples.length < s.examples.length ∨
          (t.examples.length = s.examples.length ∧ i < j)
      · exact Or.inl ⟨h, ht, Or.inr hbetter⟩
      · exact Or.inr ⟨h.symm, hs, Or.inr (by omega)⟩

omit [Scalar α] in
/-- Of the symbols with a property, one has the most examples, and it is the
first one that has so many. -/
theorem exists_most {P : Symbol α → Prop} {symbols : List (Symbol α)} (h : ∃ s ∈ symbols, P s) :
    ∃ (w : Nat) (s : Symbol α), symbols[w]? = some s ∧ P s ∧
      ∀ (i : Nat) (t : Symbol α), i ≠ w → symbols[i]? = some t → P t →
        t.examples.length < s.examples.length ∨
          (t.examples.length = s.examples.length ∧ w < i) := by
  induction symbols with
  | nil =>
    obtain ⟨s, hs, -⟩ := h
    cases hs
  | cons a rest ih =>
    by_cases hrest : ∃ s ∈ rest, P s
    · obtain ⟨w, s, hw, hs, hmost⟩ := ih hrest
      by_cases ha : P a ∧ s.examples.length ≤ a.examples.length
      · refine ⟨0, a, rfl, ha.1, fun i t hi ht hPt => ?_⟩
        cases i with
        | zero => exact absurd rfl hi
        | succ i =>
          by_cases hiw : i = w
          · subst hiw
            have hts : t = s := Option.some.inj (ht.symm.trans hw)
            subst hts
            omega
          · have := hmost i t hiw ht hPt
            omega
      · refine ⟨w + 1, s, hw, hs, fun i t hi ht hPt => ?_⟩
        cases i with
        | zero =>
          cases ht
          have : ¬s.examples.length ≤ a.examples.length := fun hle => ha ⟨hPt, hle⟩
          omega
        | succ i =>
          have := hmost i t (by omega) ht hPt
          omega
    · obtain ⟨s, hs, hPs⟩ := h
      rcases List.mem_cons.1 hs with rfl | hs
      · refine ⟨0, s, rfl, hPs, fun i t hi ht hPt => ?_⟩
        cases i with
        | zero => exact absurd rfl hi
        | succ i => exact absurd ⟨t, List.mem_of_getElem? ht, hPt⟩ hrest
      · exact absurd ⟨s, hs, hPs⟩ hrest

/-- The symbols that were cleared are those that lost their program. -/
theorem clearedCount_add {before after : List (Symbol α)} (hlen : after.length = before.length)
    (h : ∀ (k : Nat) (t : Symbol α),
      before[k]? = some t → after[k]? = some t ∨ after[k]? = some t.clear) :
    clearedCount before after + explained after = explained before := by
  induction before generalizing after with
  | nil =>
    obtain rfl := List.length_eq_zero_iff.1 hlen
    rfl
  | cons s before ih =>
    cases after with
    | nil => cases hlen
    | cons t after =>
      have ih := ih (Nat.succ.inj hlen) fun k u hu => h (k + 1) u hu
      simp only [clearedCount, explained, List.zip_cons_cons, List.countP_cons] at ih ⊢
      rcases h 0 s rfl with hs | hs
      · cases hs
        cases s.explanation <;> simp <;> omega
      · cases hs
        have hclear : s.clear.explanation = none := rfl
        cases he : s.explanation <;> simp [hclear] <;> omega

theorem Settled.kept_or_cleared {before : List (Symbol α)} {out : Nat × List (Symbol α)}
    (h : Settled before out) (k : Nat) (t : Symbol α) (ht : before[k]? = some t) :
    out.2[k]? = some t ∨ out.2[k]? = some t.clear := by
  by_cases hstays : Stays before k t
  · exact Or.inl (h.stays k t ht hstays)
  · exact Or.inr (h.cleared k t ht hstays)

/-- A symbol that is left with a program was there before, and stays. -/
theorem Settled.of_alike {before : List (Symbol α)} {out : Nat × List (Symbol α)}
    (h : Settled before out) {k : Nat} {s t : Symbol α} (ht : out.2[k]? = some t)
    (hst : Alike s t) : before[k]? = some t ∧ Stays before k t := by
  obtain ⟨hlt, -⟩ := List.getElem?_eq_some_iff.1 ht
  rw [h.length] at hlt
  have hb : before[k]? = some before[k] := List.getElem?_eq_getElem hlt
  by_cases hstays : Stays before k before[k]
  · have hk := h.stays k _ hb hstays
    rw [ht] at hk
    cases hk
    exact ⟨hb, hstays⟩
  · have hk := h.cleared k _ hb hstays
    rw [ht] at hk
    cases hk
    exact absurd hst (not_alike_clear' _ _)

/-! ## What is settled, class by class -/

section

variable {before : List (Symbol α)} {out : Nat × List (Symbol α)}

omit [Scalar α] in
theorem IsLike.alike {p : Program} {s t : Symbol α} (hs : IsLike p s) (ht : IsLike p t) : Alike s t :=
  Explanation.equivalent_trans hs (Explanation.equivalent_symm ht)

theorem Settled.pinned (h : Settled before out) {p : Program}
    (hpinned : ∃ s ∈ before, IsLike p s ∧ s.learnable = false) {i : Nat} {s : Symbol α}
    (hs : before[i]? = some s) (hps : IsLike p s) :
    out.2[i]? = some (if s.learnable then s.clear else s) := by
  obtain ⟨u, hu, hpu, hul⟩ := hpinned
  cases hsl : s.learnable with
  | false =>
    refine h.stays i s hs fun j t _ _ hd => ?_
    rw [hd.learnable] at hsl
    cases hsl
  | true =>
    obtain ⟨j, hj⟩ := List.getElem?_of_mem hu
    refine h.cleared i s hs fun hstays => hstays j u ?_ hj ⟨hpu.alike hps, hsl, Or.inl hul⟩
    rintro rfl
    rw [hs] at hj
    cases hj
    rw [hsl] at hul
    cases hul

theorem Settled.learned (h : Settled before out) {p : Program} (hp : ∃ s ∈ before, IsLike p s)
    (hlearned : ∀ s ∈ before, IsLike p s → s.learnable = true) :
    ∃ (w : Nat) (s : Symbol α), before[w]? = some s ∧ IsLike p s ∧ out.2[w]? = some s ∧
      ∀ (i : Nat) (t : Symbol α), i ≠ w → before[i]? = some t → IsLike p t →
        out.2[i]? = some t.clear ∧
        (t.examples.length < s.examples.length ∨
          (t.examples.length = s.examples.length ∧ w < i)) := by
  obtain ⟨w, s, hw, hps, hmost⟩ := exists_most hp
  -- nothing in the class has more examples than `s`, so nothing drives it out
  have hstays : Stays before w s := by
    intro j t hj ht hd
    have hpt : IsLike p t := Explanation.equivalent_trans hd.alike hps
    have hless := hmost j t hj ht hpt
    have hbetter := hd.better
    rw [hlearned t (List.mem_of_getElem? ht) hpt] at hbetter
    rcases hbetter with hbetter | hbetter
    · cases hbetter
    · omega
  refine ⟨w, s, hw, hps, h.stays w s hw hstays, fun i t hi ht hpt => ⟨?_, hmost i t hi ht hpt⟩⟩
  have hdrives : DrivesOut w s i t :=
    ⟨hps.alike hpt, hlearned t (List.mem_of_getElem? ht) hpt, Or.inr (hmost i t hi ht hpt)⟩
  exact h.cleared i t ht fun hkept => hkept w s hi.symm hw hdrives

theorem Settled.others (h : Settled before out) {i : Nat} {s : Symbol α}
    (hs : before[i]? = some s) (hnone : ∀ p, ¬IsLike p s) : out.2[i]? = some s := by
  refine h.stays i s hs fun j t _ _ hd => ?_
  obtain ⟨p, hp⟩ := Option.isSome_iff_exists.1 hd.alike.isSome
  have hself := hd.alike.symm.trans hd.alike
  unfold Alike at hself
  rw [hp] at hself
  exact hnone p (by rw [IsLike, hp]; exact hself)

theorem Settled.apart (h : Settled before out) {i j : Nat} {s t : Symbol α} (hij : i ≠ j)
    (hs : out.2[i]? = some s) (ht : out.2[j]? = some t) (hst : Alike s t) :
    s.learnable = false ∧ t.learnable = false := by
  obtain ⟨hs', hsstays⟩ := h.of_alike hs hst.symm
  obtain ⟨ht', htstays⟩ := h.of_alike ht hst
  by_cases hl : s.learnable = true ∨ t.learnable = true
  · rcases drivesOut_or hst hij hl with hd | hd
    · exact absurd hd (htstays i s hij hs')
    · exact absurd hd (hsstays j t hij.symm ht')
  · simpa using hl

theorem merged_of_settled (h : Settled before out) : Merged before out.2 out.1 where
  length := h.length
  pinned _ hpinned _ _ hs hps := h.pinned hpinned hs hps
  learned _ hp hlearned := h.learned hp hlearned
  others _ _ hs hnone := h.others hs hnone
  count := by
    have hcount := h.count
    have hcleared := clearedCount_add h.length h.kept_or_cleared
    omega
  apart _ _ _ _ hij hs ht hst := h.apart hij hs ht hst

end

/-- A merge leaves one symbol of each class of learned symbols, and no learned
symbol in any other class; it changes nothing else, and says how many symbols
it cleared. -/
theorem a_merge_leaves_the_best_of_each_class (l : Learner α) :
    Merged l.symbols l.merge.value.2.symbols l.merge.value.1 ∧
      l.merge.value.2 = { l with symbols := l.merge.value.2.symbols } :=
  ⟨merged_of_settled (settled_mergeFrom 0 l.symbols), rfl⟩

end SymbolInduction.Learner
