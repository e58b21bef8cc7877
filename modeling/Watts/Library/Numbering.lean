import Mathlib.Data.List.Dedup
import Mathlib.Data.List.Perm.Lattice

/-! Numbering values in the order in which they first occur. -/

namespace Numbering

universe u

variable {α : Type u} [DecidableEq α]

/-- The values that are numbered after those of `vs`, each once, at the position of its number. -/
def number : List α → List α → List α
  | vs, [] => vs
  | vs, a :: as => number (if a ∈ vs then vs else vs ++ [a]) as

variable {vs as : List α} {a : α}

theorem number_cons_of_mem (h : a ∈ vs) : number vs (a :: as) = number vs as := by
  rw [number, if_pos h]

theorem number_cons_of_not_mem (h : a ∉ vs) : number vs (a :: as) = number (vs ++ [a]) as := by
  rw [number, if_neg h]

theorem number_append (vs as bs : List α) : number vs (as ++ bs) = number (number vs as) bs := by
  induction as generalizing vs with
  | nil => rfl
  | cons a as ih => exact ih _

theorem prefix_number (vs as : List α) : vs <+: number vs as := by
  induction as generalizing vs with
  | nil => exact List.prefix_refl vs
  | cons a as ih =>
      by_cases h : a ∈ vs
      · rw [number_cons_of_mem h]
        exact ih vs
      · rw [number_cons_of_not_mem h]
        exact (List.prefix_append vs [a]).trans (ih (vs ++ [a]))

/-- **A number is not given anew.** -/
theorem idxOf_number (h : a ∈ vs) (as : List α) : (number vs as).idxOf a = vs.idxOf a := by
  obtain ⟨rest, hrest⟩ := prefix_number vs as
  rw [← hrest, List.idxOf_append_of_mem h]

theorem mem_number : a ∈ number vs as ↔ a ∈ vs ∨ a ∈ as := by
  induction as generalizing vs with
  | nil => simp [number]
  | cons b as ih =>
      by_cases h : b ∈ vs
      · rw [number_cons_of_mem h, ih, List.mem_cons]
        constructor
        · rintro (hv | ha)
          · exact .inl hv
          · exact .inr (.inr ha)
        · rintro (hv | rfl | ha)
          · exact .inl hv
          · exact .inl h
          · exact .inr ha
      · rw [number_cons_of_not_mem h, ih, List.mem_append, List.mem_singleton, List.mem_cons, or_assoc]

theorem nodup_number (h : vs.Nodup) : (number vs as).Nodup := by
  induction as generalizing vs with
  | nil => exact h
  | cons a as ih =>
      by_cases ha : a ∈ vs
      · rw [number_cons_of_mem ha]
        exact ih h
      · rw [number_cons_of_not_mem ha]
        apply ih
        rw [List.nodup_append]
        refine ⟨h, List.nodup_singleton a, fun b hb c hc heq => ha ?_⟩
        rwa [← List.mem_singleton.mp hc, ← heq]

/-- There are as many numbers as different values. -/
theorem length_number (as : List α) : (number [] as).length = as.dedup.length := by
  apply List.Perm.length_eq
  apply (List.perm_ext_iff_of_nodup (nodup_number List.nodup_nil) (List.nodup_dedup as)).mpr
  intro a
  rw [mem_number, List.mem_dedup]
  simp

/-- Each position is the number of one value. -/
theorem exists_idxOf {k : Nat} (hk : k < (number [] as).length) :
    ∃ a ∈ as, (number [] as).idxOf a = k := by
  have hmem : (number [] as)[k] ∈ number [] as := List.getElem_mem hk
  refine ⟨(number [] as)[k], by simpa using mem_number.mp hmem, ?_⟩
  exact (nodup_number List.nodup_nil).idxOf_getElem k hk

end Numbering
