-- The evidence after any number of rounds, in exact arithmetic. The weight of
-- an output is what is left of the observations of all rounds, each as much
-- faded as it is old; and what is learned from is read off the weights alone,
-- whatever the order in which they were gathered.
import Mathlib.Data.List.GetD
import SymbolInduction.Proofs.Scalar.Exact
import SymbolInduction.Symbol.Basic

namespace SymbolInduction

/-! ## The output that leads -/

/-- An output has the greatest weight, and is the smallest one that has. -/
structure Leads (weight : Value → ℝ) (y : Value) : Prop where
  most : ∀ y', weight y' ≤ weight y
  least : ∀ y', weight y' = weight y → (compare y y').isLE = true

namespace Tally

/-- An entry weighs as much as another one, and comes first if it weighs no
more. -/
def Outweighs (a b : Value × ℝ) : Prop :=
  b.2 ≤ a.2 ∧ (b.2 = a.2 → (compare a.1 b.1).isLE = true)

theorem outweighs_self (a : Value × ℝ) : Outweighs a a := ⟨le_refl _, fun _ => Std.ReflOrd.isLE_rfl⟩

theorem Outweighs.trans {a b c : Value × ℝ} (h : Outweighs a b) (h' : Outweighs b c) :
    Outweighs a c := by
  refine ⟨h'.1.trans h.1, fun heq => ?_⟩
  have hbc : c.2 = b.2 := le_antisymm h'.1 (heq ▸ h.1)
  exact Std.TransOrd.isLE_trans (h.2 (hbc.symm.trans heq)) (h'.2 hbc)

/-- Of two entries in order the heavier one outweighs both. -/
theorem outweighs_heavier {a b : Value × ℝ} (h : compare a.1 b.1 = .lt) :
    Outweighs (heavier a b) a ∧ Outweighs (heavier a b) b := by
  unfold heavier
  split
  · rename_i hle
    rw [Scalar.le_real] at hle
    exact ⟨outweighs_self a, hle, fun _ => by rw [h]; rfl⟩
  · rename_i hle
    rw [Scalar.le_real, not_le] at hle
    exact ⟨⟨hle.le, fun heq => absurd heq hle.ne⟩, outweighs_self b⟩

theorem foldl_heavier (e : Value × ℝ) (es : List (Value × ℝ))
    (h : (e :: es).Pairwise fun a b => compare a.1 b.1 = .lt) :
    es.foldl heavier e ∈ e :: es ∧ ∀ x ∈ e :: es, Outweighs (es.foldl heavier e) x := by
  induction es generalizing e with
  | nil => simp [outweighs_self]
  | cons x es ih =>
    obtain ⟨he, hes⟩ := List.pairwise_cons.1 h
    obtain ⟨hx, hrest⟩ := List.pairwise_cons.1 hes
    obtain ⟨hfirst, hsecond⟩ := outweighs_heavier (he x (by simp))
    have hone : heavier e x = e ∨ heavier e x = x := by
      unfold heavier
      split
      · exact Or.inl rfl
      · exact Or.inr rfl
    have hsorted : (heavier e x :: es).Pairwise fun a b => compare a.1 b.1 = .lt := by
      refine List.pairwise_cons.2 ⟨fun y hy => ?_, hrest⟩
      rcases hone with hone | hone
      · rw [hone]
        exact he y (List.mem_cons_of_mem _ hy)
      · rw [hone]
        exact hx y hy
    obtain ⟨hmem, hmost⟩ := ih (heavier e x) hsorted
    have hhead := hmost _ List.mem_cons_self
    rw [List.foldl_cons]
    constructor
    · rcases List.mem_cons.1 hmem with hmem | hmem
      · rw [hmem]
        rcases hone with hone | hone <;> rw [hone] <;> simp
      · exact List.mem_cons_of_mem _ (List.mem_cons_of_mem _ hmem)
    · intro y hy
      rcases List.mem_cons.1 hy with rfl | hy
      · exact hhead.trans hfirst
      · rcases List.mem_cons.1 hy with rfl | hy
        · exact hhead.trans hsecond
        · exact hmost y (List.mem_cons_of_mem _ hy)

/-! ## Tallies -/

/-- The weight of an output; nothing where it was never observed. -/
noncomputable def weight (t : Tally ℝ) (y : Value) : ℝ := (t.get? y).getD 0

theorem weight_of_mem {t : Tally ℝ} {y : Value} {w : ℝ} (h : (y, w) ∈ t.entries) :
    t.weight y = w := by
  rw [weight, Table.get?_eq_some_iff.2 h]
  rfl

theorem mem_of_weight_ne_zero {t : Tally ℝ} {y : Value} (h : t.weight y ≠ 0) :
    (y, t.weight y) ∈ t.entries := by
  cases hget : t.get? y with
  | none => exact absurd (by rw [weight, hget]; rfl) h
  | some w =>
    have hmem := Table.get?_eq_some_iff.1 hget
    rwa [weight_of_mem hmem]

theorem outweighs_of_majority? {t : Tally ℝ} {b : Value × ℝ} (h : t.majority? = some b) :
    b ∈ t.entries ∧ ∀ x ∈ t.entries, Outweighs b x := by
  have hsorted := t.ascending
  unfold majority? at h
  split at h
  · cases h
  · rename_i e es hes
    rw [hes] at hsorted ⊢
    cases h
    exact foldl_heavier e es hsorted

theorem leads_of_majority? {t : Tally ℝ} {y : Value} {w : ℝ} (hw : 0 < w)
    (h : t.majority? = some (y, w)) : Leads t.weight y := by
  obtain ⟨hmem, hover⟩ := outweighs_of_majority? h
  have hweight := weight_of_mem hmem
  have houtput : ∀ y', t.weight y' ≤ w ∧ (t.weight y' = w → (compare y y').isLE = true) := by
    intro y'
    by_cases hzero : t.weight y' = 0
    · exact ⟨hzero ▸ hw.le, fun heq => absurd (heq.symm.trans hzero) hw.ne'⟩
    · exact hover _ (mem_of_weight_ne_zero hzero)
  refine ⟨fun y' => ?_, fun y' heq => ?_⟩
  · rw [hweight]
    exact (houtput y').1
  · exact (houtput y').2 (heq.trans hweight)

/-- Of the outputs that weigh something, the majority is the one that leads. -/
theorem majority?_eq_some_iff {t : Tally ℝ} {y : Value} {w : ℝ} (hw : 0 < w) :
    t.majority? = some (y, w) ↔ w = t.weight y ∧ Leads t.weight y := by
  constructor
  · intro h
    exact ⟨(weight_of_mem (outweighs_of_majority? h).1).symm, leads_of_majority? hw h⟩
  · rintro ⟨rfl, hlead⟩
    have hmem := mem_of_weight_ne_zero hw.ne'
    obtain ⟨⟨y', w'⟩, hb⟩ : ∃ b, t.majority? = some b := by
      unfold majority?
      split
      · rename_i hnil
        rw [hnil] at hmem
        cases hmem
      · exact ⟨_, rfl⟩
    -- the majority weighs as much as the output that leads, and neither comes after the other
    obtain ⟨hmem', hover⟩ := outweighs_of_majority? hb
    have hsame : t.weight y = w' := by
      refine le_antisymm (hover _ hmem).1 ?_
      rw [← weight_of_mem hmem']
      exact hlead.most y'
    have hle := (hover _ hmem).2 hsame
    have hge := hlead.least y' ((weight_of_mem hmem').trans hsame.symm)
    obtain rfl : y' = y := Std.LawfulEqOrd.eq_of_compare (Std.OrientedCmp.isLE_antisymm hle hge)
    rw [hb, hsame]

@[simp] theorem total_empty : total ({} : Tally ℝ) = 0 := Scalar.sum_real []

theorem weight_mapValues (t : Tally ℝ) (d : ℝ) (y : Value) :
    weight (t.mapValues (· * d)) y = t.weight y * d := by
  unfold weight
  rw [Table.get?_mapValues]
  cases t.get? y <;> simp

theorem weight_add (t : Tally ℝ) (y y' : Value) :
    (t.add y).weight y' = t.weight y' + if y' = y then 1 else 0 := by
  unfold weight add
  rw [Table.get?_alter]
  by_cases h : y' = y
  · subst h
    simp
  · rw [if_neg h, if_neg fun heq => h (Std.LawfulEqOrd.eq_of_compare heq), add_zero]

theorem total_mapValues (t : Tally ℝ) (d : ℝ) : total (t.mapValues (· * d)) = t.total * d := by
  unfold total Table.mapValues
  rw [Scalar.sum_real, Scalar.sum_real, List.map_map, ← List.sum_map_mul_right]
  rfl

theorem total_add (t : Tally ℝ) (y : Value) : (t.add y).total = t.total + 1 := by
  unfold total add Table.alter
  rw [Scalar.sum_real, Scalar.sum_real]
  dsimp only
  induction t.entries with
  | nil => simp [Table.alterIn]
  | cons e es ih =>
    obtain ⟨y', w⟩ := e
    rw [Table.alterIn]
    split
    · simp [add_comm]
    · simp [add_right_comm]
    · rw [List.map_cons, List.map_cons, List.sum_cons, List.sum_cons, ih, add_assoc]

/-- The output that is learned from leads, and weighs enough in itself and
against the others. -/
theorem confident?_eq_some_iff {s : Settings ℝ} (hmin : 0 < s.minConfidence) {t : Tally ℝ}
    {y : Value} :
    t.confident? s = some y ↔
      Leads t.weight y ∧ s.minConfidence ≤ t.weight y ∧ s.majorityShare < t.weight y / t.total := by
  unfold confident?
  constructor
  · intro h
    split at h
    · rename_i y' w hmajority
      split at h
      · rename_i henough
        cases h
        rw [Bool.and_eq_true, Scalar.le_real, Scalar.lt_real] at henough
        obtain ⟨rfl, hlead⟩ := (majority?_eq_some_iff (hmin.trans_le henough.1)).1 hmajority
        exact ⟨hlead, henough⟩
      · cases h
    · cases h
  · rintro ⟨hlead, henough, hshare⟩
    rw [(majority?_eq_some_iff (hmin.trans_le henough)).2 ⟨rfl, hlead⟩]
    dsimp only
    rw [if_pos]
    rw [Bool.and_eq_true, Scalar.le_real, Scalar.lt_real]
    exact ⟨henough, hshare⟩

end Tally

/-! ## What a round does to the weights -/

namespace Evidence

/-- The weights of the outputs for some arguments; none where these were never
observed. -/
def tallyAt (ev : Evidence ℝ) (xs : Inputs) : Tally ℝ := (ev.get? xs).getD {}

/-- The weight of all outputs for some arguments. -/
noncomputable def total (ev : Evidence ℝ) (xs : Inputs) : ℝ := (ev.tallyAt xs).total

theorem weight_eq (ev : Evidence ℝ) (xs : Inputs) (y : Value) :
    ev.weight xs y = (ev.tallyAt xs).weight y := by
  unfold weight tallyAt
  cases ev.get? xs with
  | none => exact Scalar.zero_real
  | some t => rw [Scalar.zero_real]; rfl

theorem tallyAt_fade (ev : Evidence ℝ) (d : ℝ) (xs : Inputs) :
    (ev.fade d).tallyAt xs = (ev.tallyAt xs).mapValues (· * d) := by
  unfold fade tallyAt
  rw [Table.get?_mapValues]
  cases ev.get? xs <;> rfl

theorem tallyAt_add (ev : Evidence ℝ) (e : Example) (xs : Inputs) :
    (ev.add e).tallyAt xs = if xs = e.inputs then (ev.tallyAt xs).add e.output else ev.tallyAt xs := by
  unfold add tallyAt
  rw [Table.get?_alter]
  by_cases h : xs = e.inputs
  · subst h
    simp
  · rw [if_neg h, if_neg fun heq => h (Std.LawfulEqOrd.eq_of_compare heq)]

theorem weight_add (ev : Evidence ℝ) (e : Example) (xs : Inputs) (y : Value) :
    (ev.add e).weight xs y = ev.weight xs y + if e = ⟨xs, y⟩ then 1 else 0 := by
  obtain ⟨xs', y'⟩ := e
  rw [weight_eq, weight_eq, tallyAt_add]
  by_cases h : xs = xs'
  · subst h
    simp [Tally.weight_add, eq_comm]
  · simp [h, Ne.symm h]

theorem total_add (ev : Evidence ℝ) (e : Example) (xs : Inputs) :
    (ev.add e).total xs = ev.total xs + if e.inputs = xs then 1 else 0 := by
  unfold total
  rw [tallyAt_add]
  by_cases h : xs = e.inputs
  · subst h
    simp [Tally.total_add]
  · simp [h, Ne.symm h]

theorem weight_observe (ev : Evidence ℝ) (d : ℝ) (batch : List Example) (xs : Inputs) (y : Value) :
    (ev.observe d batch).weight xs y = ev.weight xs y * d + batch.count ⟨xs, y⟩ := by
  have hadd : ∀ ev : Evidence ℝ,
      (batch.foldl add ev).weight xs y = ev.weight xs y + batch.count ⟨xs, y⟩ := by
    induction batch with
    | nil => simp
    | cons e batch ih =>
      intro ev
      rw [List.foldl_cons, ih, weight_add, List.count_cons]
      push_cast
      simp only [beq_iff_eq]
      ring
  unfold observe
  rw [hadd, weight_eq, tallyAt_fade, Tally.weight_mapValues, ← weight_eq]

theorem total_observe (ev : Evidence ℝ) (d : ℝ) (batch : List Example) (xs : Inputs) :
    (ev.observe d batch).total xs = ev.total xs * d + batch.countP (·.inputs = xs) := by
  have hadd : ∀ ev : Evidence ℝ,
      (batch.foldl add ev).total xs = ev.total xs + batch.countP (·.inputs = xs) := by
    induction batch with
    | nil => simp
    | cons e batch ih =>
      intro ev
      rw [List.foldl_cons, ih, total_add, List.countP_cons]
      push_cast
      simp only [decide_eq_true_eq]
      ring
  unfold observe
  rw [hadd, total, tallyAt_fade, Tally.total_mapValues, ← total]

/-! ## What is learned from -/

theorem mem_confident_iff {s : Settings ℝ} (hmin : 0 < s.minConfidence) (ev : Evidence ℝ)
    (xs : Inputs) (y : Value) :
    ⟨xs, y⟩ ∈ ev.confident s ↔
      Leads (ev.weight xs) y ∧ s.minConfidence ≤ ev.weight xs y ∧
        s.majorityShare < ev.weight xs y / ev.total xs := by
  have hweight : ev.weight xs = (ev.tallyAt xs).weight := funext fun y => weight_eq ev xs y
  rw [hweight, total, ← Tally.confident?_eq_some_iff hmin]
  unfold confident
  rw [List.mem_filterMap]
  constructor
  · rintro ⟨⟨xs', t⟩, hmem, h⟩
    obtain ⟨y', hy, heq⟩ := Option.map_eq_some_iff.1 h
    cases heq
    rw [tallyAt, Table.get?_eq_some_iff.2 hmem]
    exact hy
  · intro h
    unfold tallyAt at h
    cases hget : ev.get? xs with
    | none =>
      rw [hget] at h
      cases h
    | some t =>
      rw [hget] at h
      refine ⟨(xs, t), Table.get?_eq_some_iff.1 hget, ?_⟩
      rw [Option.getD_some] at h
      dsimp only
      rw [h]
      rfl

theorem ascending_confident {α : Type} [Scalar α] (s : Settings α) (ev : Evidence α) :
    (ev.confident s).Pairwise fun a b => compare a.inputs b.inputs = .lt := by
  unfold confident
  rw [List.pairwise_filterMap]
  refine ev.ascending.imp ?_
  rintro ⟨xs, t⟩ ⟨xs', t'⟩ h a ha b hb
  obtain ⟨y, -, rfl⟩ := Option.map_eq_some_iff.1 ha
  obtain ⟨y', -, rfl⟩ := Option.map_eq_some_iff.1 hb
  exact h

end Evidence

/-! ## Histories -/

/-- What is left of the counts of all rounds: the last one as it is, and each
one before it faded once for every round after it. -/
noncomputable def faded (decay : ℝ) (counts : List Nat) : ℝ :=
  ∑ r ∈ Finset.range counts.length, (counts.getD r 0 : ℝ) * decay ^ (counts.length - (r + 1))

@[simp] theorem faded_nil (decay : ℝ) : faded decay [] = 0 := rfl

theorem faded_concat (decay : ℝ) (counts : List Nat) (n : Nat) :
    faded decay (counts ++ [n]) = faded decay counts * decay + n := by
  unfold faded
  rw [List.length_append, List.length_singleton, Finset.sum_range_succ, Finset.sum_mul]
  congr 1
  · refine Finset.sum_congr rfl fun r hr => ?_
    have hlt := Finset.mem_range.1 hr
    rw [List.getD_append _ _ _ _ hlt, mul_assoc, ← pow_succ]
    congr 2
    omega
  · simp

theorem faded_sum (decay : ℝ) (outputs : Finset Value) (count : Value → List Example → Nat)
    (rounds : List (List Example)) :
    ∑ y ∈ outputs, faded decay (rounds.map (count y)) =
      faded decay (rounds.map fun batch => ∑ y ∈ outputs, count y batch) := by
  induction rounds using List.reverseRecOn with
  | nil => simp
  | append_singleton rounds batch ih =>
    simp only [List.map_append, List.map_singleton, faded_concat, Finset.sum_add_distrib,
      ← Finset.sum_mul, ih]
    push_cast
    rfl

/-- Every example with some arguments has one output. -/
theorem sum_count (outputs : Finset Value) (xs : Inputs) {batch : List Example}
    (h : ∀ e ∈ batch, e.output ∈ outputs) :
    ∑ y ∈ outputs, batch.count ⟨xs, y⟩ = batch.countP (·.inputs = xs) := by
  induction batch with
  | nil => simp
  | cons e batch ih =>
    obtain ⟨xs', y'⟩ := e
    have hy' : y' ∈ outputs := h _ List.mem_cons_self
    simp only [List.count_cons, List.countP_cons, Finset.sum_add_distrib,
      ih fun e he => h e (List.mem_cons_of_mem _ he)]
    by_cases hxs : xs' = xs
    · simp [hxs, hy']
    · simp [hxs]

namespace Symbol

variable {α : Type} [Scalar α]

/-! ## Symbols -/

/-- Two states of a symbol with one record of what was observed. -/
structure SameRecord (s s' : Symbol α) : Prop where
  arity : s'.arity = s.arity
  settings : s'.settings = s.settings
  evidence : s'.evidence = s.evidence
  examples : s'.examples = s.examples

omit [Scalar α] in
theorem SameRecord.trans {s s' s'' : Symbol α} (h : SameRecord s s') (h' : SameRecord s' s'') :
    SameRecord s s'' :=
  ⟨h'.arity.trans h.arity, h'.settings.trans h.settings, h'.evidence.trans h.evidence,
    h'.examples.trans h.examples⟩

theorem sameRecord_rescore (s : Symbol α) : SameRecord s s.rescore.value := ⟨rfl, rfl, rfl, rfl⟩

theorem sameRecord_settle (s : Symbol α) : SameRecord s s.settle := ⟨rfl, rfl, rfl, rfl⟩

theorem sameRecord_audit (s : Symbol α) (batch : List Example) :
    SameRecord s (s.audit batch).value := by
  unfold audit
  split <;> exact ⟨rfl, rfl, rfl, rfl⟩

/-- The examples of a batch that have as many arguments as a symbol. -/
def ofArity (arity : Nat) (batch : List Example) : List Example :=
  batch.filter fun e => e.arity == arity

/-- A round of observations leaves the record that the evidence makes. -/
theorem sameRecord_observe (s : Symbol α) (batch : List Example) :
    SameRecord (s.withEvidence (ofArity s.arity batch)) (s.observe batch).value := by
  have hend : ∀ s' : Symbol α, SameRecord s' (s'.settle.audit (ofArity s.arity batch)).value :=
    fun s' => (sameRecord_settle s').trans (sameRecord_audit _ _)
  unfold observe
  dsimp only
  split
  · exact (sameRecord_rescore _).trans (hend _)
  · exact hend _

/-- The symbol after some rounds of observations, first round first. -/
def afterRounds (s : Symbol α) (rounds : List (List Example)) : Symbol α :=
  rounds.foldl (fun s batch => (s.observe batch).value) s

/-- After some rounds the examples are those that the evidence is sure of, and
the evidence is that of all rounds. -/
structure Recorded (arity : Nat) (settings : Settings ℝ) (rounds : List (List Example))
    (s : Symbol ℝ) : Prop where
  arity_eq : s.arity = arity
  settings_eq : s.settings = settings
  examples_eq : s.examples = s.evidence.confident settings
  weight_eq : ∀ xs y, s.evidence.weight xs y =
    faded settings.decay (rounds.map fun batch => (ofArity arity batch).count ⟨xs, y⟩)
  total_eq : ∀ xs, s.evidence.total xs =
    faded settings.decay (rounds.map fun batch => (ofArity arity batch).countP (·.inputs = xs))

theorem recorded_fresh (idx arity : Nat) (settings : Settings ℝ) :
    Recorded arity settings [] (fresh idx arity settings) where
  arity_eq := rfl
  settings_eq := rfl
  examples_eq := rfl
  weight_eq _ _ := Scalar.zero_real
  total_eq _ := Tally.total_empty

theorem Recorded.observe {arity : Nat} {settings : Settings ℝ} {rounds : List (List Example)}
    {s : Symbol ℝ} (h : Recorded arity settings rounds s) (batch : List Example) :
    Recorded arity settings (rounds ++ [batch]) (s.observe batch).value := by
  have hrecord := sameRecord_observe s batch
  rw [h.arity_eq] at hrecord
  have hevidence : (s.observe batch).value.evidence =
      s.evidence.observe settings.decay (ofArity arity batch) := h.settings_eq ▸ hrecord.evidence
  constructor
  case arity_eq => exact hrecord.arity.trans h.arity_eq
  case settings_eq => exact hrecord.settings.trans h.settings_eq
  case examples_eq =>
    rw [hrecord.examples, hevidence, ← h.settings_eq]
    rfl
  case weight_eq =>
    intro xs y
    rw [hevidence, Evidence.weight_observe, h.weight_eq, List.map_append, List.map_singleton,
      faded_concat]
  case total_eq =>
    intro xs
    rw [hevidence, Evidence.total_observe, h.total_eq, List.map_append, List.map_singleton,
      faded_concat]

theorem recorded_afterRounds (idx arity : Nat) (settings : Settings ℝ)
    (rounds : List (List Example)) :
    Recorded arity settings rounds ((fresh idx arity settings).afterRounds rounds) := by
  induction rounds using List.reverseRecOn with
  | nil => exact recorded_fresh idx arity settings
  | append_singleton rounds batch ih =>
    unfold afterRounds at ih ⊢
    rw [List.foldl_append]
    exact ih.observe batch

/-- The outputs that some rounds of observations show. -/
def outputsOf (rounds : List (List Example)) : Finset Value :=
  (rounds.flatten.map (·.output)).toFinset

/-- What all outputs weigh for some arguments is what is left of all examples
that have these. -/
theorem sum_weights (arity : Nat) (decay : ℝ) (rounds : List (List Example)) (xs : Inputs) :
    ∑ y ∈ outputsOf rounds, faded decay
        (rounds.map fun batch => (ofArity arity batch).count ⟨xs, y⟩) =
      faded decay (rounds.map fun batch => (ofArity arity batch).countP (·.inputs = xs)) := by
  rw [faded_sum decay (outputsOf rounds) fun y batch => (ofArity arity batch).count ⟨xs, y⟩]
  congr 1
  refine List.map_congr_left fun batch hbatch => sum_count _ _ fun e he => ?_
  have hflat : e ∈ rounds.flatten := List.mem_flatten.2 ⟨batch, hbatch, List.mem_of_mem_filter he⟩
  exact List.mem_toFinset.2 (List.mem_map_of_mem hflat)

/-- The evidence after any number of rounds. The weight of an output adds up
how often each round showed it, faded once for every later round; and the
examples are, in strictly ascending order of their arguments, the outputs that
lead for some arguments, weigh enough, and have more than their share of what
all outputs weigh there. A decay may be any number. -/
theorem evidence_after_rounds (idx arity : Nat) (settings : Settings ℝ)
    (hmin : 0 < settings.minConfidence) (rounds : List (List Example)) :
    let s := (fresh idx arity settings).afterRounds rounds
    let weight := fun xs y =>
      faded settings.decay (rounds.map fun batch => (ofArity arity batch).count ⟨xs, y⟩)
    let total := fun xs => ∑ y ∈ outputsOf rounds, weight xs y
    (∀ xs y, s.evidence.weight xs y = weight xs y) ∧
    (s.examples.Pairwise fun a b => compare a.inputs b.inputs = .lt) ∧
    ∀ xs y, ⟨xs, y⟩ ∈ s.examples ↔
      Leads (weight xs) y ∧ settings.minConfidence ≤ weight xs y ∧
        settings.majorityShare < weight xs y / total xs := by
  intro s weight total
  have h := recorded_afterRounds idx arity settings rounds
  refine ⟨h.weight_eq, ?_, ?_⟩
  · rw [h.examples_eq]
    exact Evidence.ascending_confident settings _
  · intro xs y
    have htotal : total xs = s.evidence.total xs := by
      rw [h.total_eq]
      exact sum_weights arity settings.decay rounds xs
    rw [h.examples_eq, Evidence.mem_confident_iff hmin, htotal, h.weight_eq,
      funext (h.weight_eq xs)]

/-! ### Two rounds -/

/-- One output three times, and another one in the round after. -/
def threeThenOne : List (List Example) :=
  [List.replicate 3 ⟨[.int 1], .int 2⟩, [⟨[.int 1], .int 3⟩]]

theorem weights_threeThenOne (y : Value) :
    faded (1 / 2) (threeThenOne.map fun batch => (ofArity 1 batch).count ⟨[.int 1], y⟩) =
      if y = .int 2 then 3 / 2 else if y = .int 3 then 1 else 0 := by
  have hcounts : (threeThenOne.map fun batch => (ofArity 1 batch).count ⟨[.int 1], y⟩) =
      if y = .int 2 then [3, 0] else if y = .int 3 then [0, 1] else [0, 0] := by
    by_cases h2 : y = .int 2
    · subst h2
      rfl
    · by_cases h3 : y = .int 3
      · subst h3
        rfl
      · rw [if_neg h2, if_neg h3]
        have hnot : ∀ batch ∈ threeThenOne, (ofArity 1 batch).count ⟨[.int 1], y⟩ = 0 := by
          intro batch hbatch
          refine List.count_eq_zero.2 fun hmem => ?_
          have hall : ∀ batch ∈ threeThenOne, ∀ e ∈ batch, e.output = .int 2 ∨ e.output = .int 3 := by
            decide
          rcases hall batch hbatch _ (List.mem_of_mem_filter hmem) with h | h
          · exact h2 h
          · exact h3 h
        rw [List.map_congr_left hnot]
        rfl
  rw [hcounts]
  split
  · norm_num [faded, Finset.sum_range_succ]
  · split <;> norm_num [faded, Finset.sum_range_succ]

/-- Three observations outweigh one of the round after. -/
theorem three_outweigh_a_later_one :
    let s := (fresh 0 1 (Settings.default : Settings ℝ)).afterRounds threeThenOne
    s.evidence.weight [.int 1] (.int 2) = 3 / 2 ∧ ⟨[.int 1], .int 2⟩ ∈ s.examples := by
  intro s
  have hdecay : (Settings.default : Settings ℝ).decay = 1 / 2 := by
    simp [Settings.default, Scalar.ratio, Scalar.ofNat]
  have hshare : (Settings.default : Settings ℝ).majorityShare = 1 / 2 := hdecay
  have hmin : (Settings.default : Settings ℝ).minConfidence = 1 := Scalar.one_real
  obtain ⟨hweight, -, hmem⟩ := evidence_after_rounds 0 1 (Settings.default : Settings ℝ)
    (hmin ▸ one_pos) threeThenOne
  have houtputs : outputsOf threeThenOne = {.int 2, .int 3} := by decide
  have hne : Value.int 3 ≠ .int 2 := by decide
  have hconfident := hmem [.int 1] (.int 2)
  simp only [hdecay, hshare, hmin, houtputs, weights_threeThenOne, Finset.sum_pair hne.symm,
    if_neg hne, if_true] at hweight hconfident
  refine ⟨?_, hconfident.2 ⟨⟨fun y => ?_, fun y hy => ?_⟩, by norm_num, by norm_num⟩⟩
  · rw [hweight, weights_threeThenOne, if_pos rfl]
  · split
    · norm_num
    · split <;> norm_num
  · split at hy
    · rename_i heq
      rw [heq]
      decide
    · split at hy <;> norm_num at hy

end Symbol

end SymbolInduction
