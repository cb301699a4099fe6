-- Sorted tables: finite maps that list their keys in ascending order. Two
-- tables with the same entries are equal, so the order in which a table was
-- filled leaves no trace in it.

namespace SymbolInduction

/-- A finite map from `κ` to `ν`, kept as its entries in ascending order of
their keys. -/
structure Table (κ ν : Type) [Ord κ] where
  entries : List (κ × ν) := []
  ascending : entries.Pairwise (fun a b => compare a.1 b.1 = .lt) := by exact .nil
  deriving DecidableEq

/-- A finite set, kept as its members in ascending order. -/
abbrev KeySet (κ : Type) [Ord κ] := Table κ Unit

namespace Table

variable {κ ν μ : Type} [Ord κ]

/-- The table without entries. -/
def empty : Table κ ν := {}

instance : Inhabited (Table κ ν) := ⟨empty⟩

/-! ## Reading -/

/-- The value that a list of entries holds for a key. -/
def lookupIn (k : κ) : List (κ × ν) → Option ν
  | [] => none
  | (j, v) :: rest => if compare k j = .eq then some v else lookupIn k rest

/-- The value for a key, where the table has one. -/
def get? (t : Table κ ν) (k : κ) : Option ν := lookupIn k t.entries

/-- How many keys the table has. -/
def size (t : Table κ ν) : Nat := t.entries.length

/-- The keys, in ascending order. -/
def keys (t : Table κ ν) : List κ := t.entries.map (·.1)

/-! ## Writing -/

/-- Puts `f` of the old value in place of the old value for `k`, in a list
that is ascending. -/
def alterIn (k : κ) (f : Option ν → ν) : List (κ × ν) → List (κ × ν)
  | [] => [(k, f none)]
  | (j, v) :: rest =>
    match compare k j with
    | .lt => (k, f none) :: (j, v) :: rest
    | .eq => (j, f (some v)) :: rest
    | .gt => (j, v) :: alterIn k f rest

theorem mem_alterIn {k : κ} {f : Option ν → ν} {e : κ × ν} {l : List (κ × ν)}
    (h : e ∈ alterIn k f l) : e.1 = k ∨ ∃ v, (e.1, v) ∈ l := by
  induction l with
  | nil => simp_all [alterIn]
  | cons hd tl ih =>
    obtain ⟨j, v⟩ := hd
    rw [alterIn] at h
    split at h
    · rcases List.mem_cons.1 h with rfl | h
      · exact .inl rfl
      · exact .inr ⟨e.2, h⟩
    · rcases List.mem_cons.1 h with rfl | h
      · exact .inr ⟨v, by simp⟩
      · exact .inr ⟨e.2, List.mem_cons_of_mem _ h⟩
    · rcases List.mem_cons.1 h with rfl | h
      · exact .inr ⟨v, by simp⟩
      · exact (ih h).imp_right fun ⟨w, hw⟩ => ⟨w, List.mem_cons_of_mem _ hw⟩

/-- Writing one key keeps the entries ascending. -/
theorem pairwise_alterIn [Std.TransOrd κ] {k : κ} {f : Option ν → ν} {l : List (κ × ν)}
    (h : l.Pairwise (fun a b => compare a.1 b.1 = .lt)) :
    (alterIn k f l).Pairwise (fun a b => compare a.1 b.1 = .lt) := by
  induction l with
  | nil => simp [alterIn]
  | cons hd tl ih =>
    obtain ⟨j, v⟩ := hd
    obtain ⟨hj, htl⟩ := List.pairwise_cons.1 h
    rw [alterIn]
    split
    · rename_i hk
      refine List.pairwise_cons.2 ⟨fun e he => ?_, h⟩
      rcases List.mem_cons.1 he with rfl | he
      · exact hk
      · exact Std.TransCmp.lt_trans hk (hj e he)
    · exact List.pairwise_cons.2 ⟨hj, htl⟩
    · rename_i hk
      refine List.pairwise_cons.2 ⟨fun e he => ?_, ih htl⟩
      rcases mem_alterIn he with he | ⟨w, hw⟩
      · exact he ▸ Std.OrientedCmp.lt_of_gt hk
      · exact hj (e.1, w) hw

/-- Puts `f` of the value for `k` in its place; `f none` where `k` is new. -/
def alter [Std.TransOrd κ] (t : Table κ ν) (k : κ) (f : Option ν → ν) : Table κ ν where
  entries := alterIn k f t.entries
  ascending := pairwise_alterIn t.ascending

/-- Puts `v` in place of the value for `k`. -/
def insert [Std.TransOrd κ] (t : Table κ ν) (k : κ) (v : ν) : Table κ ν := t.alter k fun _ => v

/-- The table with `f` of every value. -/
def mapValues (f : ν → μ) (t : Table κ ν) : Table κ μ where
  entries := t.entries.map fun (k, v) => (k, f v)
  ascending := List.pairwise_map.2 t.ascending

/-- The table of a list of entries; a later one takes the place of an earlier
one. -/
def ofList [Std.TransOrd κ] (l : List (κ × ν)) : Table κ ν :=
  l.foldl (fun t (k, v) => t.insert k v) {}

/-- The set of the members of a list. -/
def setOf [Std.TransOrd κ] (ks : List κ) : KeySet κ := ofList (ks.map fun k => (k, ()))

/-! ## How writing changes what is read -/

theorem lookupIn_alterIn [Std.TransOrd κ] {k j : κ} {f : Option ν → ν} {l : List (κ × ν)}
    (h : l.Pairwise (fun a b => compare a.1 b.1 = .lt)) :
    lookupIn j (alterIn k f l) =
      if compare j k = .eq then some (f (lookupIn k l)) else lookupIn j l := by
  induction l with
  | nil => simp [alterIn, lookupIn]
  | cons hd tl ih =>
    obtain ⟨i, v⟩ := hd
    obtain ⟨hi, htl⟩ := List.pairwise_cons.1 h
    rw [alterIn]
    split
    · rename_i hk
      have hnone : ∀ l : List (κ × ν), (∀ e ∈ l, compare k e.1 = .lt) → lookupIn k l = none := by
        intro l hl
        induction l with
        | nil => rfl
        | cons e l ih => simp_all [lookupIn]
      rw [hnone _ fun e he => by
        rcases List.mem_cons.1 he with rfl | he
        · exact hk
        · exact Std.TransCmp.lt_trans hk (hi e he)]
      rfl
    · rename_i hk
      have hji : compare j i = compare j k := Std.TransCmp.congr_right (Std.OrientedCmp.eq_symm hk)
      simp only [lookupIn, hk, hji]
      split <;> rfl
    · rename_i hk
      have hne : ¬ compare k i = .eq := by simp [hk]
      simp only [lookupIn, ih htl, hne, if_false]
      by_cases hjk : compare j k = .eq
      · have : compare j i = .gt := (Std.TransCmp.congr_left hjk).trans hk
        simp [hjk, this]
      · simp [hjk]

@[simp] theorem get?_empty (k : κ) : ({} : Table κ ν).get? k = none := rfl

/-- A written key reads as what was written, and every other key as before. -/
theorem get?_alter [Std.TransOrd κ] (t : Table κ ν) (k j : κ) (f : Option ν → ν) :
    (t.alter k f).get? j = if compare j k = .eq then some (f (t.get? k)) else t.get? j :=
  lookupIn_alterIn t.ascending

theorem get?_insert [Std.TransOrd κ] [Std.LawfulEqOrd κ] [DecidableEq κ] (t : Table κ ν) (k j : κ)
    (v : ν) : (t.insert k v).get? j = if j = k then some v else t.get? j := by
  unfold insert
  rw [get?_alter]
  by_cases h : j = k
  · rw [if_pos h, if_pos (h ▸ Std.ReflCmp.compare_self)]
  · rw [if_neg h, if_neg fun heq => h (Std.LawfulEqOrd.eq_of_compare heq)]

theorem lookupIn_map {k : κ} {f : ν → μ} (l : List (κ × ν)) :
    lookupIn k (l.map fun (j, v) => (j, f v)) = (lookupIn k l).map f := by
  induction l with
  | nil => rfl
  | cons e l ih => simp only [List.map_cons, lookupIn, ih]; split <;> rfl

@[simp] theorem get?_mapValues (f : ν → μ) (t : Table κ ν) (k : κ) :
    (t.mapValues f).get? k = (t.get? k).map f := lookupIn_map _

theorem nodup_keys [Std.TransOrd κ] (t : Table κ ν) : (t.entries.map (·.1)).Nodup := by
  rw [List.Nodup, List.pairwise_map]
  exact t.ascending.imp fun {a b} hlt heq => by simp [heq] at hlt

/-- What a table holds for a key is what stands beside it in the list. -/
theorem get?_eq_some_iff [Std.TransOrd κ] [Std.LawfulEqOrd κ] {t : Table κ ν} {k : κ} {v : ν} :
    t.get? k = some v ↔ (k, v) ∈ t.entries := by
  obtain ⟨l, h⟩ := t
  simp only [get?]
  induction l with
  | nil => simp [lookupIn]
  | cons e l ih =>
    obtain ⟨j, w⟩ := e
    obtain ⟨hj, hl⟩ := List.pairwise_cons.1 h
    rw [lookupIn]
    split
    · rename_i hk
      obtain rfl := Std.LawfulEqOrd.eq_of_compare hk
      constructor
      · rintro ⟨⟩; simp
      · intro hm
        rcases List.mem_cons.1 hm with he | he
        · cases he; rfl
        · have := hj _ he; simp at this
    · rename_i hk
      rw [ih hl, List.mem_cons]
      constructor
      · exact .inr
      · rintro (he | he)
        · cases he; simp at hk
        · exact he

/-- Tables that read alike are equal. -/
@[ext] theorem ext [Std.TransOrd κ] [Std.LawfulEqOrd κ] {s t : Table κ ν}
    (h : ∀ k, s.get? k = t.get? k) : s = t := by
  have hmem : ∀ e, e ∈ s.entries ↔ e ∈ t.entries := fun (k, v) => by
    rw [← get?_eq_some_iff, ← get?_eq_some_iff, h]
  have hnodup : ∀ u : Table κ ν, u.entries.Nodup := fun u =>
    u.ascending.imp fun {a b} hab he => by simp [he] at hab
  have hperm : s.entries.Perm t.entries :=
    (List.perm_ext_iff_of_nodup (hnodup s) (hnodup t)).2 hmem
  have : s.entries = t.entries :=
    hperm.eq_of_pairwise (fun a b _ _ hab hba => by
      have := Std.OrientedCmp.gt_of_lt hab; simp_all) s.ascending t.ascending
  cases s; cases t; simp_all

/-! ## The order of writing -/

/-- What is written for two keys may be written in either order. -/
theorem alter_comm_of_ne [Std.TransOrd κ] [Std.LawfulEqOrd κ] (t : Table κ ν) {k j : κ} (h : k ≠ j)
    (f g : Option ν → ν) : (t.alter k f).alter j g = (t.alter j g).alter k f := by
  have hkj : compare k j ≠ .eq := fun heq => h (Std.LawfulEqOrd.eq_of_compare heq)
  have hjk : compare j k ≠ .eq := fun heq => h (Std.LawfulEqOrd.eq_of_compare heq).symm
  ext i
  simp only [get?_alter, if_neg hkj, if_neg hjk]
  by_cases hik : compare i k = .eq
  · have hij : compare i j ≠ .eq := fun heq => hkj ((Std.TransCmp.congr_left hik).symm.trans heq)
    rw [if_pos hik, if_neg hij, if_pos hik]
  · rw [if_neg hik, if_neg hik]

/-- What is written twice for one key is written at once. -/
theorem alter_alter [Std.TransOrd κ] [Std.LawfulEqOrd κ] (t : Table κ ν) (k : κ)
    (f g : Option ν → ν) : (t.alter k f).alter k g = t.alter k fun v => g (some (f v)) := by
  ext i
  simp only [get?_alter, Std.ReflCmp.compare_self, if_true]
  split <;> rfl

end Table

end SymbolInduction
