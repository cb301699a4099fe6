-- The components of a grammar. Terms are put together to a grammar by their texts: of
-- several terms with one text the first one stays. No two terms share a text, so a
-- grammar holds each of its terms once, and grammars have the same components where they
-- have the same terms.
import Mathlib.Data.List.Nodup
import SymbolInduction.Grammar
import SymbolInduction.Proofs.Term.RoundTrip

namespace SymbolInduction

/-! ## Sets of keys -/

namespace Table

variable {κ : Type} [Ord κ] [Std.TransOrd κ] [Std.LawfulEqOrd κ]

/-- What is looked up in a set to which keys are added: one of these keys, or what was
there. -/
theorem get?_foldl_insert [DecidableEq κ] (keys : List κ) (t : KeySet κ) (k : κ) :
    ((keys.map fun k => (k, ())).foldl (fun t (k, v) => t.insert k v) t).get? k =
      if k ∈ keys then some () else t.get? k := by
  induction keys generalizing t with
  | nil => rfl
  | cons j keys ih =>
    rw [List.map_cons, List.foldl_cons, ih, get?_insert]
    by_cases hk : k = j <;> simp [hk]

theorem get?_setOf [DecidableEq κ] (keys : List κ) (k : κ) :
    (setOf keys).get? k = if k ∈ keys then some () else none :=
  get?_foldl_insert keys {} k

/-- Two sets are the same where they have the same members. -/
theorem setOf_eq_iff {keys others : List κ} :
    setOf keys = setOf others ↔ ∀ k, k ∈ keys ↔ k ∈ others := by
  classical
  constructor
  · intro h k
    have hget := congrArg (·.get? k) h
    simp only [get?_setOf] at hget
    by_cases hk : k ∈ keys <;> by_cases hk' : k ∈ others <;> simp_all
  · intro h
    ext k
    simp only [get?_setOf, h k]

end Table

/-! ## Grammars -/

namespace Grammar

/-- The terms of the components. -/
def terms (g : Grammar) : List Term := g.components.map Component.term

/-- Components with one text are one component. -/
theorem description_injective : Function.Injective Component.description :=
  fun ⟨_⟩ ⟨_⟩ h => congrArg Component.mk (Term.text_injective h)

theorem mem_withoutRepeats {seen : List String} {components : List Component} {c : Component} :
    c ∈ withoutRepeats seen components ↔ c ∈ components ∧ c.description ∉ seen := by
  induction components generalizing seen with
  | nil => simp [withoutRepeats]
  | cons d components ih =>
    unfold withoutRepeats
    by_cases hcd : c = d
    · subst hcd
      by_cases hseen : c.description ∈ seen <;> simp [hseen, ih]
    · have hne : c.description ≠ d.description := fun h => hcd (description_injective h)
      split <;> simp [ih, hcd, hne]

theorem nodup_withoutRepeats (seen : List String) (components : List Component) :
    (withoutRepeats seen components).Nodup := by
  induction components generalizing seen with
  | nil => exact List.nodup_nil
  | cons c components ih =>
    unfold withoutRepeats
    split
    · exact ih seen
    · -- what follows the first one has another description
      refine List.nodup_cons.2 ⟨fun hmem => ?_, ih _⟩
      exact (mem_withoutRepeats.1 hmem).2 List.mem_cons_self

@[simp] theorem mem_terms_ofTerms {terms : List Term} {version : Nat} {t : Term} :
    t ∈ (ofTerms terms version).terms ↔ t ∈ terms := by
  unfold Grammar.terms ofTerms
  simp only [List.mem_map, mem_withoutRepeats]
  constructor
  · rintro ⟨_, ⟨⟨u, hu, rfl⟩, -⟩, rfl⟩
    exact hu
  · exact fun h => ⟨⟨t⟩, ⟨⟨t, h, rfl⟩, List.not_mem_nil⟩, rfl⟩

/-- A grammar that is put together of terms holds none of them twice. -/
theorem nodup_terms_ofTerms (terms : List Term) (version : Nat) :
    (ofTerms terms version).terms.Nodup := by
  have hinjective : Function.Injective Component.term :=
    fun ⟨_⟩ ⟨_⟩ h => congrArg Component.mk h
  exact List.Nodup.map hinjective (nodup_withoutRepeats [] _)

theorem descriptions_eq_iff {g h : Grammar} :
    g.descriptions = h.descriptions ↔ ∀ t, t ∈ g.terms ↔ t ∈ h.terms := by
  have hmem : ∀ (g : Grammar) (t : Term),
      t.text ∈ g.components.map Component.description ↔ t ∈ g.terms := by
    intro g t
    unfold Grammar.terms
    rw [List.mem_map, List.mem_map]
    exact ⟨fun ⟨c, hc, htext⟩ => ⟨c, hc, Term.text_injective htext⟩,
      fun ⟨c, hc, hterm⟩ => ⟨c, hc, congrArg Term.text hterm⟩⟩
  unfold descriptions
  rw [Table.setOf_eq_iff]
  constructor
  · exact fun hsame t => (hmem g t).symm.trans ((hsame t.text).trans (hmem h t))
  · intro hsame text
    -- a text that describes no component is in neither set
    constructor <;> intro htext <;> obtain ⟨c, -, rfl⟩ := List.mem_map.1 htext
    · exact (hmem h c.term).2 ((hsame _).1 ((hmem g c.term).1 htext))
    · exact (hmem g c.term).2 ((hsame _).2 ((hmem h c.term).1 htext))

/-- Two grammars have the same components where they have the same terms. -/
theorem sameComponents_iff {g h : Grammar} :
    g.sameComponents h = true ↔ ∀ t, t ∈ g.terms ↔ t ∈ h.terms :=
  beq_iff_eq.trans descriptions_eq_iff

end Grammar

end SymbolInduction
