-- A symbol used backwards. The values that may stand at a position are those that
-- were observed there beside the other arguments, each of them once; and the absent
-- value joins them where the symbol itself gives an acceptable output for it. Neither
-- source asks what the other one has found, so a value that comes from both is there
-- twice.
import SymbolInduction.Proofs.Symbol.Uses

namespace SymbolInduction.Symbol

/-! ## Arguments that differ at one position -/

theorem sameExcept_iff {position : Nat} {xs : Inputs} (h : position < xs.length) (ys : Inputs) :
    sameExcept position ys xs = true ↔ ∃ v, ys = xs.set position v := by
  induction xs generalizing position ys with
  | nil => exact absurd h (Nat.not_lt_zero _)
  | cons x xs ih =>
    cases ys with
    | nil => cases position <;> simp [sameExcept]
    | cons y ys =>
      cases position with
      | zero => simp [sameExcept]
      | succ position =>
        simp [sameExcept, ih (Nat.lt_of_succ_lt_succ h) ys]

/-- The mark of an absent argument is left out wherever it stands. -/
theorem present_set_empty (xs : Inputs) (position : Nat) :
    present (xs.set position .empty) = present (xs.eraseIdx position) := by
  unfold present
  induction xs generalizing position with
  | nil => rfl
  | cons x xs ih =>
    cases position with
    | zero => rfl
    | succ position => simp only [List.set_cons_succ, List.eraseIdx_cons_succ, List.filter_cons, ih]

variable {α : Type} [Scalar α]

/-- The symbol is asked for the absent value as for any other value at the position. -/
theorem apply_withAbsent (s : Symbol α) (draw : WeightedDraw α) (position : Nat) (xs : Inputs)
    (wanted : Value) :
    s.apply draw (withAbsent position xs wanted) =
      s.apply draw (xs.set position (absentFor wanted)) := by
  cases wanted with
  | tuple ns => rfl
  | _ =>
    unfold withAbsent absentFor
    rw [← apply_present, ← apply_present s draw (xs.set position .empty), present_set_empty]

/-! ## What was observed -/

/-- The output that was observed most for some arguments. -/
def majorityAt (s : Symbol α) (xs : Inputs) : Option Value :=
  (s.evidence.get? xs).bind fun t => t.majority?.map (·.1)

/-- A value was observed at a position beside the other arguments, with an acceptable
output. -/
def Observed (s : Symbol α) (position : Nat) (xs : Inputs) (acceptable : List Value)
    (v : Value) : Prop :=
  ∃ y ∈ acceptable, s.majorityAt (xs.set position v) = some y

instance (s : Symbol α) (position : Nat) (xs : Inputs) (acceptable : List Value) (v : Value) :
    Decidable (s.Observed position xs acceptable v) :=
  inferInstanceAs (Decidable (∃ y ∈ acceptable, s.majorityAt (xs.set position v) = some y))

/-- The value that one entry of the evidence adds to those that were observed. -/
def observedIn (position : Nat) (xs : Inputs) (acceptable : List Value)
    (entry : Inputs × Tally α) : Option Value :=
  match entry.2.majority? with
  | some (y, _) =>
    if acceptable.contains y && sameExcept position entry.1 xs then entry.1[position]? else none
  | none => none

theorem observedAt_eq (s : Symbol α) (position : Nat) (xs : Inputs) (acceptable : List Value) :
    s.observedAt position xs acceptable =
      s.evidence.entries.filterMap (observedIn position xs acceptable) := rfl

theorem observedIn_eq_some_iff {position : Nat} {xs : Inputs} (h : position < xs.length)
    (acceptable : List Value) (entry : Inputs × Tally α) (v : Value) :
    observedIn position xs acceptable entry = some v ↔
      entry.1 = xs.set position v ∧ ∃ y ∈ acceptable, entry.2.majority?.map (·.1) = some y := by
  obtain ⟨ys, t⟩ := entry
  unfold observedIn
  dsimp only
  cases t.majority? with
  | none => simp
  | some leader =>
    obtain ⟨y, w⟩ := leader
    have hkept : (acceptable.contains y && sameExcept position ys xs) = true ↔
        y ∈ acceptable ∧ ∃ u, ys = xs.set position u := by
      rw [Bool.and_eq_true, List.contains_iff_mem, sameExcept_iff h]
    dsimp only
    constructor
    · intro hv
      split at hv
      · rename_i hif
        obtain ⟨hy, u, rfl⟩ := hkept.1 hif
        rw [List.getElem?_set_self h] at hv
        exact ⟨by rw [Option.some.inj hv], y, hy, rfl⟩
      · cases hv
    · rintro ⟨rfl, y', hy', heq⟩
      cases heq
      rw [if_pos (hkept.2 ⟨hy', v, rfl⟩), List.getElem?_set_self h]

theorem mem_observedAt_iff (s : Symbol α) {position : Nat} {xs : Inputs} (h : position < xs.length)
    (acceptable : List Value) (v : Value) :
    v ∈ s.observedAt position xs acceptable ↔ s.Observed position xs acceptable v := by
  rw [observedAt_eq, List.mem_filterMap]
  unfold Observed majorityAt
  constructor
  · rintro ⟨⟨ys, t⟩, hmem, hv⟩
    obtain ⟨hys, y, hy, hmajority⟩ := (observedIn_eq_some_iff h acceptable _ v).1 hv
    dsimp only at hys hmajority
    subst hys
    exact ⟨y, hy, by rw [Table.get?_eq_some_iff.2 hmem]; exact hmajority⟩
  · rintro ⟨y, hy, hmajority⟩
    obtain ⟨t, ht, hmajority⟩ := Option.bind_eq_some_iff.1 hmajority
    exact ⟨(_, t), Table.get?_eq_some_iff.1 ht,
      (observedIn_eq_some_iff h acceptable _ v).2 ⟨rfl, y, hy, hmajority⟩⟩

/-- One list of arguments is observed once, so a value is found once in the evidence. -/
theorem nodup_observedAt (s : Symbol α) {position : Nat} {xs : Inputs} (h : position < xs.length)
    (acceptable : List Value) : (s.observedAt position xs acceptable).Nodup := by
  rw [observedAt_eq, List.Nodup, List.pairwise_filterMap]
  refine s.evidence.ascending.imp ?_
  rintro entry entry' hlt v hv _ hv' rfl
  have hsame : entry.1 = entry'.1 := ((observedIn_eq_some_iff h acceptable _ v).1 hv).1.trans
    ((observedIn_eq_some_iff h acceptable _ v).1 hv').1.symm
  rw [hsame] at hlt
  exact absurd hlt (by simp)

/-! ## What is listed -/

/-- To use a symbol leaves what was observed as it is. -/
theorem evidence_apply (s : Symbol α) (draw : WeightedDraw α) (xs : Inputs) :
    (s.apply draw xs).value.2.evidence = s.evidence := by
  unfold apply
  split
  · rfl
  · split <;> rfl

/-- What is listed, given what the symbol says for the absent value. -/
theorem value_solve (s : Symbol α) (draw : WeightedDraw α) {position : Nat}
    (hposition : position < s.arity) {xs : Inputs} (hxs : xs.length = s.arity) (wanted : Value)
    (rest : List Value) :
    (s.solve draw position xs (wanted :: rest)).value.1 =
      (s.apply draw (xs.set position (absentFor wanted))).value.1.map fun answer =>
        s.observedAt position xs (wanted :: rest) ++
          if answer ∈ wanted :: rest then [absentFor wanted] else [] := by
  have hfits : ¬(xs.length ≠ s.arity || s.arity ≤ position) = true := by
    simp only [hxs, ne_eq, not_true_eq_false, decide_false, Bool.false_or, decide_eq_true_eq]
    omega
  rw [← apply_withAbsent]
  unfold solve
  dsimp only
  rw [if_neg hfits]
  simp only [Logged.value_bind, Logged.value_pure]
  congr 1
  funext answer
  simp only [solutions, List.contains_iff_mem, observedAt_eq, evidence_apply]

/-- The symbol gives an answer where it is trusted, and where the weights for the
arguments cannot be drawn by or add up to a number. -/
theorem exists_answer {s : Symbol α} {xs : Inputs}
    (h : s.isTrusted = true ∨ Unweighable (s.weightsAt (present xs)) ∨
      Scalar.isFinite (Scalar.sum (s.weightsAt (present xs))) = true) (draw : WeightedDraw α) :
    ∃ answer, (s.apply draw xs).value.1 = .ok answer := by
  cases htrusted : s.isTrusted with
  | true => exact ⟨_, apply_of_trusted htrusted draw xs⟩
  | false =>
    rw [htrusted] at h
    rw [apply_of_not_trusted htrusted]
    unfold weightsAt at h
    cases ht : s.evidence.get? (present xs) with
    | none => exact ⟨_, rfl⟩
    | some t =>
      rw [ht] at h
      dsimp only
      by_cases hweights : Unweighable (t.entries.map (·.2))
      · exact ⟨_, drawOutput_of_unweighable draw hweights⟩
      · rcases h with h | h | hfinite
        · cases h
        · exact absurd h hweights
        · obtain ⟨e, -, hdrawn, -⟩ := drawOutput_of_finite draw hweights hfinite
          exact ⟨e.1, hdrawn⟩

/-- A symbol lists the values that were observed at a position beside the other
arguments with an acceptable output, and the absent value where it gives an acceptable
output for that one. Each value is listed once by each of the two: so all are there
once, but for an absent value that was observed and is given such an output too. There
is a list where the symbol gives an answer for the absent value: where it is trusted,
and where the weights cannot be drawn by or add up to a number. Where asking it stops the
program, so does this. -/
theorem solve_lists_each_source_once (s : Symbol α) (draw : WeightedDraw α) {position : Nat}
    (hposition : position < s.arity) {xs : Inputs} (hxs : xs.length = s.arity) (wanted : Value)
    (rest : List Value) :
    let absent := absentFor wanted
    let asked := xs.set position absent
    (∀ answer, (s.apply draw asked).value.1 = .ok answer →
      ∃ found, (s.solve draw position xs (wanted :: rest)).value.1 = .ok found ∧
        (∀ v, v ∈ found ↔
          s.Observed position xs (wanted :: rest) v ∨ v = absent ∧ answer ∈ wanted :: rest) ∧
        ∀ v, found.count v =
          (if s.Observed position xs (wanted :: rest) v then 1 else 0) +
            if v = absent ∧ answer ∈ wanted :: rest then 1 else 0) ∧
    (∀ p, (s.apply draw asked).value.1 = .error p →
      (s.solve draw position xs (wanted :: rest)).value.1 = .error p) ∧
    ((s.isTrusted = true ∨ Unweighable (s.weightsAt (present asked)) ∨
        Scalar.isFinite (Scalar.sum (s.weightsAt (present asked))) = true) →
      ∃ answer, (s.apply draw asked).value.1 = .ok answer) := by
  intro absent asked
  have hlt : position < xs.length := hxs ▸ hposition
  have hmem := s.mem_observedAt_iff hlt (wanted :: rest)
  have hsolve := value_solve s draw hposition hxs wanted rest
  refine ⟨fun answer hanswer => ?_, fun p hpanic => ?_, fun h => exists_answer h draw⟩
  · refine ⟨s.observedAt position xs (wanted :: rest) ++
      if answer ∈ wanted :: rest then [absent] else [], ?_, fun v => ?_, fun v => ?_⟩
    · rw [hsolve, hanswer]
      rfl
    · rw [List.mem_append, hmem]
      by_cases h : answer ∈ wanted :: rest <;> simp [h]
    · rw [List.count_append, (s.nodup_observedAt hlt (wanted :: rest)).count]
      simp only [hmem]
      congr 1
      by_cases h : answer ∈ wanted :: rest
      · by_cases hv : v = absent
        · simp [h, hv]
        · simp [h, hv, Ne.symm hv]
      · simp [h]
  · rw [hsolve, hpanic]
    rfl

set_option maxRecDepth 1000 in
/-- Of two first summands that were observed beside a two, each is listed once. -/
theorem a_summand_is_listed_once :
    let s := (fresh 0 2 (Settings.default : Settings Float)).after
      [.observe [⟨[.int 1, .int 2], .int 3⟩, ⟨[.int 5, .int 2], .int 7⟩, ⟨[.int 1, .int 4], .int 5⟩]]
    0 < s.arity ∧ [Value.int 9, .int 2].length = s.arity ∧
      ∃ found, (s.solve (.preferring 0) 0 [.int 9, .int 2] [.int 3, .int 7]).value.1 = .ok found ∧
        .int 5 ∈ found ∧ found.count (.int 5) = 1 := by
  dsimp only
  generalize hs : (fresh 0 2 (Settings.default : Settings Float)).after
    [.observe [⟨[.int 1, .int 2], .int 3⟩, ⟨[.int 5, .int 2], .int 7⟩,
      ⟨[.int 1, .int 4], .int 5⟩]] = s
  have harity : s.arity = 2 := by
    rw [← hs]
    rfl
  have hobserved : s.Observed 0 [.int 9, .int 2] [.int 3, .int 7] (.int 5) := by
    rw [← hs]
    decide
  have hfinite : Scalar.isFinite (Scalar.sum (s.weightsAt [.int 2])) = true := by
    rw [← hs]
    decide
  obtain ⟨hlisted, -, hanswers⟩ := solve_lists_each_source_once s (.preferring 0)
    (harity ▸ Nat.two_pos) (harity ▸ rfl : [Value.int 9, .int 2].length = s.arity) (.int 3) [.int 7]
  obtain ⟨answer, hanswer⟩ := hanswers (Or.inr (Or.inr hfinite))
  obtain ⟨found, hfound, hmem, hcount⟩ := hlisted answer hanswer
  refine ⟨harity ▸ Nat.two_pos, harity ▸ rfl, found, hfound, (hmem _).2 (Or.inl hobserved), ?_⟩
  rw [hcount, if_pos hobserved, if_neg (fun h => by cases h.1)]

set_option maxRecDepth 1000 in
/-- The empty tuple was observed with an acceptable output, and the symbol gives it
that output too: so it is there twice. -/
theorem an_observed_empty_tuple_is_listed_twice :
    let s := (fresh 0 1 (Settings.default : Settings Float)).after
      [.observe [⟨[.tuple []], .tuple [1]⟩]]
    0 < s.arity ∧ [Value.tuple []].length = s.arity ∧
      (s.solve (.preferring 0) 0 [.tuple []] [.tuple [1]]).value.1 =
        .ok [.tuple [], .tuple []] ∧
      ¬[Value.tuple [], .tuple []].Nodup := by
  decide

end SymbolInduction.Symbol
