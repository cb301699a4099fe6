-- Candidates that share the highest rank. The one that is chosen is the last of
-- them, while sorting puts the first of them in front and cutting down drops the
-- last ones. So the size of a frontier matters for what is chosen from it exactly
-- where these candidates are not all of one program.
import Mathlib.Data.List.Induction
import SymbolInduction.Enumeration.Search
import SymbolInduction.Proofs.Frontier

namespace SymbolInduction.Frontier

/-- The candidates above which none ranks, in the order of the frontier. -/
def leaders {α : Type} [Scalar α] (f : Frontier α) : List (Candidate α) :=
  f.candidates.filter fun c => f.candidates.all fun d => (d.rank c).isLE

variable {f : Frontier Float}

theorem mem_leaders_iff {c : Candidate Float} :
    c ∈ f.leaders ↔ c ∈ f.candidates ∧ ∀ d ∈ f.candidates, d.standing ≤ c.standing := by
  simp [leaders, Candidate.rank_isLE_iff]

/-! ## Choosing -/

/-- What is chosen stands as high as any candidate before it, and higher than any
after it. -/
theorem exists_split_foldl (c : Candidate Float) (cs : List (Candidate Float)) :
    ∃ before after, c :: cs = before ++ cs.foldl better c :: after ∧
      (∀ d ∈ before, d.standing ≤ (cs.foldl better c).standing) ∧
        ∀ d ∈ after, d.standing < (cs.foldl better c).standing := by
  induction cs using List.reverseRecOn with
  | nil => exact ⟨[], [], rfl, by simp, by simp⟩
  | append_singleton cs d ih =>
    obtain ⟨before, after, hsplit, hbefore, hafter⟩ := ih
    rw [List.foldl_append, List.foldl_cons, List.foldl_nil, ← List.cons_append]
    have hmost := (foldl_better_spec c cs).2
    generalize cs.foldl better c = b at hsplit hbefore hafter hmost ⊢
    unfold better
    split
    · rename_i hbetter
      rw [Candidate.rank_isGT_iff] at hbetter
      refine ⟨before, after ++ [d], by rw [hsplit]; simp, hbefore, fun e he => ?_⟩
      rcases List.mem_append.1 he with he | he
      · exact hafter e he
      · rw [List.mem_singleton.1 he]
        exact hbetter
    · rename_i hworse
      rw [Candidate.rank_isGT_iff] at hworse
      refine ⟨c :: cs, [], rfl, fun e he => ?_, by simp⟩
      have := hmost e he
      omega

/-- Once the highest standing is known, the leaders are the candidates that have
it. -/
theorem leaders_eq_filter {b : Candidate Float} (hb : b ∈ f.leaders) :
    f.leaders = f.candidates.filter fun c => c.standing = b.standing := by
  obtain ⟨hmem, hmost⟩ := mem_leaders_iff.1 hb
  refine List.filter_congr fun c hc => ?_
  rw [Bool.eq_iff_iff, List.all_eq_true, decide_eq_true_eq]
  simp only [Candidate.rank_isLE_iff]
  constructor
  · intro h
    have := h b hmem
    have := hmost c hc
    omega
  · intro h d hd
    rw [h]
    exact hmost d hd

/-- The last one of the leaders is chosen. -/
theorem best?_eq_getLast? (f : Frontier Float) : f.best? = f.leaders.getLast? := by
  cases hcandidates : f.candidates with
  | nil => simp [best?, leaders, hcandidates]
  | cons c cs =>
    obtain ⟨before, after, hsplit, hbefore, hafter⟩ := exists_split_foldl c cs
    have hmost := (foldl_better_spec c cs).2
    have hbest : f.best? = some (cs.foldl better c) := by
      unfold best?
      rw [hcandidates]
    have hleads : cs.foldl better c ∈ f.leaders :=
      mem_leaders_iff.2 ⟨mem_of_best? hbest, by rwa [hcandidates]⟩
    have hnone : after.filter (fun d => d.standing = (cs.foldl better c).standing) = [] := by
      refine List.filter_eq_nil_iff.2 fun d hd => ?_
      have := hafter d hd
      simp only [decide_eq_true_eq]
      omega
    rw [hbest, leaders_eq_filter hleads, hcandidates, hsplit, List.filter_append,
      List.filter_cons_of_pos (by simp), hnone, List.getLast?_concat]

theorem candidates_eq_nil (h : f.leaders = []) : f.candidates = [] := by
  have hbest := f.best?_eq_getLast?
  rw [h, List.getLast?_nil] at hbest
  unfold best? at hbest
  split at hbest
  · assumption
  · cases hbest

/-! ## Ranking -/

/-- All candidates, best first. -/
def ranked (f : Frontier Float) : List (Candidate Float) :=
  f.candidates.mergeSort fun a b => (b.rank a).isLE

theorem candidates_keepBest (f : Frontier Float) (n : Nat) :
    (f.keepBest n).candidates = f.ranked.take n := rfl

theorem rank_trans (a b c : Candidate Float) (hab : (b.rank a).isLE = true)
    (hbc : (c.rank b).isLE = true) : (c.rank a).isLE = true := by
  rw [Candidate.rank_isLE_iff] at *
  omega

theorem rank_total (a b : Candidate Float) : ((b.rank a).isLE || (a.rank b).isLE) = true := by
  rw [Bool.or_eq_true, Candidate.rank_isLE_iff, Candidate.rank_isLE_iff]
  omega

theorem descending_ranked (f : Frontier Float) :
    f.ranked.Pairwise fun a b => b.standing ≤ a.standing :=
  (List.pairwise_mergeSort rank_trans rank_total f.candidates).imp
    fun h => (Candidate.rank_isLE_iff _ _).1 h

/-- Sorting leaves candidates of one standing in their order. -/
theorem filter_ranked (f : Frontier Float) (m : Int) :
    f.ranked.filter (fun c => c.standing = m) = f.candidates.filter (fun c => c.standing = m) := by
  have hperm := (List.mergeSort_perm f.candidates fun a b => (b.rank a).isLE).filter
    fun c => decide (c.standing = m)
  have hsublist : (f.candidates.filter fun c => c.standing = m).Sublist f.ranked := by
    refine List.sublist_mergeSort rank_trans rank_total ?_ List.filter_sublist
    refine List.pairwise_of_forall_mem_list fun a ha b hb => ?_
    simp only [List.mem_filter, decide_eq_true_eq] at ha hb
    rw [Candidate.rank_isLE_iff]
    omega
  have hfilter := hsublist.filter fun c => decide (c.standing = m)
  rw [List.filter_filter] at hfilter
  simp only [Bool.and_self] at hfilter
  exact (hfilter.eq_of_length hperm.length_eq.symm).symm

/-- In a descending list the candidates of the highest standing come first. -/
theorem eq_filter_append {m : Int} {cs : List (Candidate Float)}
    (hsorted : cs.Pairwise fun a b => b.standing ≤ a.standing) (hmost : ∀ c ∈ cs, c.standing ≤ m) :
    cs = cs.filter (fun c => c.standing = m) ++ cs.filter (fun c => c.standing ≠ m) := by
  induction cs with
  | nil => rfl
  | cons c cs ih =>
    obtain ⟨hbelow, hsorted⟩ := List.pairwise_cons.1 hsorted
    have ih := ih hsorted fun d hd => hmost d (List.mem_cons_of_mem c hd)
    by_cases hc : c.standing = m
    · rw [List.filter_cons_of_pos (by simpa using hc), List.filter_cons_of_neg (by simpa using hc),
        List.cons_append, ← ih]
    · -- from here on all candidates stand below `m`
      have hlow : ∀ d ∈ c :: cs, d.standing ≠ m := by
        have := hmost c List.mem_cons_self
        intro d hd
        rcases List.mem_cons.1 hd with rfl | hd
        · exact hc
        · have := hbelow d hd
          omega
      rw [List.filter_eq_nil_iff.2 fun d hd => by simpa using hlow d hd,
        List.filter_eq_self.2 fun d hd => by simpa using hlow d hd]
      rfl

/-- The leaders come first, in their order. -/
theorem exists_ranked_eq (f : Frontier Float) :
    ∃ rest, f.ranked = f.leaders ++ rest ∧
      ∀ c ∈ f.leaders, ∀ d ∈ rest, d.standing ≠ c.standing := by
  cases hleaders : f.leaders with
  | nil => exact ⟨f.ranked, rfl, by simp⟩
  | cons b bs =>
    have hb : b ∈ f.leaders := by simp [hleaders]
    have hmost := (mem_leaders_iff.1 hb).2
    have hsplit := eq_filter_append (m := b.standing) f.descending_ranked
      fun c hc => hmost c (List.mem_mergeSort.1 hc)
    rw [filter_ranked, ← leaders_eq_filter hb] at hsplit
    refine ⟨_, hleaders ▸ hsplit, fun c hc d hd => ?_⟩
    rw [← hleaders, leaders_eq_filter hb] at hc
    simp only [List.mem_filter, decide_eq_true_eq] at hc hd
    rw [hc.2]
    exact hd.2

/-- A frontier that is cut down keeps the first leaders. -/
theorem leaders_keepBest (f : Frontier Float) {n : Nat} (hn : 0 < n) :
    (f.keepBest n).leaders = f.leaders.take n := by
  obtain ⟨rest, hranked, hrest⟩ := f.exists_ranked_eq
  cases hleaders : f.leaders with
  | nil =>
    have hkept : (f.keepBest n).candidates = [] := by
      rw [List.eq_nil_iff_forall_not_mem]
      intro c hc
      have hmem := mem_of_mem_keepBest hc
      rw [candidates_eq_nil hleaders] at hmem
      cases hmem
    simp [leaders, hkept]
  | cons b bs =>
    obtain ⟨n, rfl⟩ : ∃ k, n = k + 1 := ⟨n - 1, by omega⟩
    have hb : b ∈ f.leaders := by simp [hleaders]
    have hkept : (f.keepBest (n + 1)).candidates =
        f.leaders.take (n + 1) ++ rest.take (n + 1 - f.leaders.length) := by
      rw [candidates_keepBest, hranked, List.take_append]
    have hfirst : b ∈ (f.keepBest (n + 1)).leaders := by
      refine mem_leaders_iff.2 ⟨?_, fun d hd => (mem_leaders_iff.1 hb).2 d (mem_of_mem_keepBest hd)⟩
      rw [hkept, hleaders]
      simp
    have hall : ∀ d ∈ f.leaders, d.standing = b.standing := by
      intro d hd
      rw [leaders_eq_filter hb] at hd
      simpa using (List.mem_filter.1 hd).2
    rw [leaders_eq_filter hfirst, hkept, List.filter_append, ← hleaders,
      List.filter_eq_self.2 fun d hd => by simpa using hall d (List.mem_of_mem_take hd),
      List.filter_eq_nil_iff.2 fun d hd => by simpa using hrest b hb d (List.mem_of_mem_take hd),
      List.append_nil]

/-- The last one of the leaders that are kept is chosen. -/
theorem best?_keepBest_eq (f : Frontier Float) {n : Nat} (hn : 0 < n) :
    (f.keepBest n).best? = (f.leaders.take n).getLast? := by
  rw [best?_eq_getLast?, f.leaders_keepBest hn]

theorem head?_keepBest (f : Frontier Float) {n : Nat} (hn : 0 < n) :
    (f.keepBest n).candidates.head? = f.leaders.head? := by
  obtain ⟨rest, hranked, -⟩ := f.exists_ranked_eq
  rw [candidates_keepBest, List.head?_take, if_neg (by omega)]
  cases hleaders : f.leaders with
  | nil =>
    unfold ranked
    rw [candidates_eq_nil hleaders, List.mergeSort_nil]
  | cons b bs =>
    rw [hranked, hleaders]
    rfl

/-! ## Ranking and choosing -/

/-- What is chosen from a frontier is the last of its leaders. Cut down to `n`
candidates, it has the first of them in front, and the last of the first `n` of
them is chosen. So the chosen program is the same before and after for every `n`,
and then stands in front, exactly if all leaders are candidates of one program. -/
theorem ranking_and_choosing_agree_iff (f : Frontier Float) :
    f.best? = f.leaders.getLast? ∧
      (∀ n, 0 < n → (f.keepBest n).best? = (f.leaders.take n).getLast? ∧
        (f.keepBest n).candidates.head? = f.leaders.head?) ∧
      ((∀ n, 0 < n → (f.keepBest n).best?.map (·.program) = f.best?.map (·.program) ∧
          (f.keepBest n).candidates.head?.map (·.program) =
            (f.keepBest n).best?.map (·.program)) ↔
        ∀ c ∈ f.leaders, ∀ d ∈ f.leaders, c.program = d.program) := by
  refine ⟨f.best?_eq_getLast?, fun n hn => ⟨f.best?_keepBest_eq hn, f.head?_keepBest hn⟩, ?_, ?_⟩
  · intro hsame
    -- cut down behind it, a frontier has each of its leaders chosen
    have hchosen : ∀ c ∈ f.leaders, f.best?.map (·.program) = some c.program := by
      intro c hc
      obtain ⟨i, hi, rfl⟩ := List.getElem_of_mem hc
      rw [← (hsame (i + 1) (Nat.succ_pos i)).1, f.best?_keepBest_eq (Nat.succ_pos i),
        List.take_succ_eq_append_getElem hi, List.getLast?_concat]
      rfl
    intro c hc d hd
    exact Option.some.inj ((hchosen c hc).symm.trans (hchosen d hd))
  · intro hone n hn
    cases hleaders : f.leaders with
    | nil => simp [f.best?_keepBest_eq hn, f.head?_keepBest hn, f.best?_eq_getLast?, hleaders]
    | cons b bs =>
      have hb : b ∈ f.leaders := by simp [hleaders]
      have hprogram : ∀ kept : List (Candidate Float), kept ⊆ f.leaders → kept ≠ [] →
          kept.getLast?.map (·.program) = some b.program := by
        intro kept hsub hne
        rw [List.getLast?_eq_some_getLast hne]
        exact congrArg some (hone _ (hsub (List.getLast_mem hne)) b hb)
      have hkept : (f.leaders.take n).getLast?.map (·.program) = some b.program :=
        hprogram _ (List.take_subset n _) (by simp [hleaders]; omega)
      have hall : f.leaders.getLast?.map (·.program) = some b.program :=
        hprogram _ (List.Subset.refl _) (by simp [hleaders])
      rw [f.best?_keepBest_eq hn, f.head?_keepBest hn, f.best?_eq_getLast?, hkept, hall, hleaders]
      exact ⟨rfl, rfl⟩

/-! ### A search that finds two halves -/

/-- Two examples, of which the literals 0 and 1 reproduce one each. -/
def halves : Enumeration.Scope where
  bounds := .ofWords 1 10 10
  clock := .still
  deadline := 1
  task := { name := "0", request := .int, examples := [⟨[], .int 0⟩, ⟨[], .int 1⟩] }

/-- What a search finds with the two literals: each of them misses one example. -/
def bothHalves : Frontier Float :=
  { (unexplored halves.task : Frontier Float) with
    candidates := [⟨.literal 0, -1, -100⟩, ⟨.literal 1, -1, -100⟩] }

theorem search_of_halves (maximum : Nat) :
    (Enumeration.solveTask halves (.ofTerms [.literal 0, .literal 1] 0) [] 0).toOption.map
      (Enumeration.Run.frontier halves.task maximum) = some (bothHalves.keepBest maximum) := by
  have hrun : (Enumeration.solveTask (α := Float) halves (.ofTerms [.literal 0, .literal 1] 0)
      [] 0).toOption.map (·.candidates.toList) = some bothHalves.candidates := by decide
  obtain ⟨run, hrun, hcandidates⟩ := Option.map_eq_some_iff.1 hrun
  rw [hrun, Option.map_some]
  unfold Enumeration.Run.frontier
  rw [hcandidates]
  rfl

/-- The two literals rank alike. The second one is chosen as long as both are there, though the
first one stands in front, and the first one once there is room for one only. So the
greatest size of a frontier decides what a search offers. -/
theorem cutting_down_changes_the_choice :
    (∀ maximum, (Enumeration.solveTask halves (.ofTerms [.literal 0, .literal 1] 0)
        [] 0).toOption.map (Enumeration.Run.frontier halves.task maximum) =
          some (bothHalves.keepBest maximum)) ∧
      (∀ c ∈ bothHalves.candidates, Scalar.eq c.logPosterior c.logPosterior = true) ∧
      bothHalves.best?.map (·.program) = some (.literal 1) ∧
      (bothHalves.keepBest 2).best?.map (·.program) = some (.literal 1) ∧
      (bothHalves.keepBest 2).candidates.head?.map (·.program) = some (.literal 0) ∧
      (bothHalves.keepBest 1).best?.map (·.program) = some (.literal 0) := by
  refine ⟨search_of_halves, by decide, by decide, ?_, ?_, ?_⟩
  · rw [best?_keepBest_eq _ (by decide)]
    decide
  · rw [head?_keepBest _ (by decide)]
    decide
  · rw [best?_keepBest_eq _ (by decide)]
    decide

end SymbolInduction.Frontier
