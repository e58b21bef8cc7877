import Mathlib.Logic.Function.Basic
import Mathlib.Tactic.Common

/-! Partial functions that are inverse to each other, as a pair of maps keeps them. -/

namespace PartialInverse

variable {α β : Type*} {f : α → Option β} {g : β → Option α}

/-- Each of the two is defined exactly where it undoes the other. -/
def Inverse (f : α → Option β) (g : β → Option α) : Prop :=
  ∀ a b, f a = some b ↔ g b = some a

namespace Inverse

/-- A function with an inverse is injective where it is defined. -/
theorem injective (h : Inverse f g) {a a' : α} {b : β} (ha : f a = some b) (ha' : f a' = some b) : a = a' := by
  have hg : g b = some a := (h a b).mp ha
  have hg' : g b = some a' := (h a' b).mp ha'
  exact Option.some.inj (hg.symm.trans hg')

variable [DecidableEq α] {a : α} {b : β}

/-- An entry on one side only is not undone by the other side. -/
theorem not_update_left (h : Inverse f g) (ha : f a = none) (b : β) : ¬ Inverse (Function.update f a (some b)) g := by
  intro hnew
  have hg : g b = some a := (hnew a b).mp (Function.update_self a (some b) f)
  rw [(h a b).mpr hg] at ha
  cases ha

variable [DecidableEq β]

/-- **A pair of new entries** keeps the two inverse. -/
theorem update (h : Inverse f g) (ha : f a = none) (hb : g b = none) :
    Inverse (Function.update f a (some b)) (Function.update g b (some a)) := by
  intro x y
  by_cases hx : x = a
  · subst hx
    by_cases hy : y = b
    · subst hy
      simp
    · have hne : ¬ b = y := fun heq => hy heq.symm
      have hout : ¬ g y = some x := fun hg => by simp [(h x y).mpr hg] at ha
      simp [Function.update_of_ne hy, hne, hout]
  · rw [Function.update_of_ne hx]
    by_cases hy : y = b
    · subst hy
      have hne : ¬ a = x := fun heq => hx heq.symm
      have hout : ¬ f x = some y := fun hf => by simp [(h x y).mp hf] at hb
      simp [hne, hout]
    · rw [Function.update_of_ne hy]
      exact h x y

/-- An entry under a key that the other side has already makes it forget the old one. -/
theorem not_update_of_some (h : Inverse f g) (ha : f a = none) {a' : α} (hb : g b = some a') :
    ¬ Inverse (Function.update f a (some b)) (Function.update g b (some a)) := by
  intro hnew
  have hold : f a' = some b := (h a' b).mpr hb
  have hne : a' ≠ a := by
    rintro rfl
    rw [ha] at hold
    cases hold
  have hg := (hnew a' b).mp (by rw [Function.update_of_ne hne, hold])
  rw [Function.update_self] at hg
  exact hne (Option.some.inj hg).symm

end Inverse

section TreeMap

variable {cmp : α → α → Ordering} [Std.TransCmp cmp]

theorem not_contains {m : Std.TreeMap α β cmp} {a : α} (h : m[a]? = none) : ¬ m.contains a = true := by
  rw [Std.TreeMap.contains_eq_isSome_getElem?, h]
  exact Bool.false_ne_true

theorem size_insert {m : Std.TreeMap α β cmp} {a : α} (h : m[a]? = none) (b : β) :
    (m.insert a b).size = m.size + 1 := by
  rw [Std.TreeMap.size_insert, if_neg]
  exact fun hmem => not_contains h (Std.TreeMap.mem_iff_contains.mp hmem)

variable [Std.LawfulEqCmp cmp] [DecidableEq α]

/-- Inserting into a map changes the function that it stands for at one point. -/
theorem getElem?_insert (m : Std.TreeMap α β cmp) (a : α) (b : β) :
    (fun k => (m.insert a b)[k]?) = Function.update (fun k => m[k]?) a (some b) := by
  funext k
  rw [Std.TreeMap.getElem?_insert, Function.update_apply]
  by_cases hk : k = a
  · rw [if_pos hk, if_pos (Std.LawfulEqCmp.compare_eq_iff_eq.mpr hk.symm)]
  · rw [if_neg hk, if_neg (fun hc => hk (Std.LawfulEqCmp.compare_eq_iff_eq.mp hc).symm)]

end TreeMap

end PartialInverse
