import Mathlib.Algebra.BigOperators.Group.List.Basic
import Mathlib.Algebra.Order.BigOperators.GroupWithZero.List
import Mathlib.Data.List.Nodup
import Mathlib.Tactic.Common
import Mathlib.Tactic.Ring

/-! Counting with digits of different bases, the first digit the least significant: from all zeros,
counting up passes every tuple of digits, each after as many steps as its value. -/

namespace Odometer

/-- The digits after the given ones; `none` after the last tuple. -/
def next : List Nat → List Nat → Option (List Nat)
  | n :: ns, d :: ds => if d + 1 < n then some ((d + 1) :: ds) else (next ns ds).map (0 :: ·)
  | _, _ => none

/-- The number that the digits stand for. -/
def value : List Nat → List Nat → Nat
  | n :: ns, d :: ds => d + n * value ns ds
  | _, _ => 0

/-- One digit below each base. -/
inductive InRange : List Nat → List Nat → Prop
  | nil : InRange [] []
  | cons {n d : Nat} {ns ds : List Nat} : d < n → InRange ns ds → InRange (n :: ns) (d :: ds)

def zeros (bases : List Nat) : List Nat :=
  bases.map fun _ => 0

/-- The digits after `k` steps. -/
def after (bases : List Nat) : Nat → Option (List Nat)
  | 0 => some (zeros bases)
  | k + 1 => (after bases k).bind (next bases)

variable {bases ds es : List Nat}

namespace InRange

theorem length_eq (h : InRange bases ds) : ds.length = bases.length := by
  induction h with
  | nil => rfl
  | cons _ _ ih => rw [List.length_cons, List.length_cons, ih]

theorem zeros (h : ∀ n ∈ bases, 0 < n) : InRange bases (zeros bases) := by
  induction bases with
  | nil => exact .nil
  | cons n ns ih => exact .cons (h n (.head _)) (ih fun m hm => h m (.tail _ hm))

theorem value_lt (h : InRange bases ds) : value bases ds < bases.prod := by
  induction h with
  | nil => exact Nat.one_pos
  | @cons n d ns ds hd _ ih =>
      rw [List.prod_cons]
      calc d + n * value ns ds
          < n + n * value ns ds := Nat.add_lt_add_right hd _
        _ = n * (value ns ds + 1) := by ring
        _ ≤ n * ns.prod := Nat.mul_le_mul_left n ih

/-- Digits are determined by their value. -/
theorem eq_of_value_eq (hd : InRange bases ds) (he : InRange bases es)
    (h : value bases ds = value bases es) : ds = es := by
  induction hd generalizing es with
  | nil =>
      cases he
      rfl
  | @cons n d ns ds hdn _ ih =>
      cases he with
      | @cons _ e _ es hen hes =>
          have hmod : (d + n * value ns ds) % n = (e + n * value ns es) % n := congrArg (· % n) h
          rw [Nat.add_mul_mod_self_left, Nat.add_mul_mod_self_left, Nat.mod_eq_of_lt hdn,
            Nat.mod_eq_of_lt hen] at hmod
          subst hmod
          have hmul : n * value ns ds = n * value ns es := Nat.add_left_cancel h
          rw [ih hes (Nat.eq_of_mul_eq_mul_left (Nat.zero_lt_of_lt hdn) hmul)]

/-- **Each step adds one**, and keeps the digits below their bases. -/
theorem next_eq (h : InRange bases ds) (hn : next bases ds = some es) :
    InRange bases es ∧ value bases es = value bases ds + 1 := by
  induction h generalizing es with
  | nil => cases hn
  | @cons n d ns ds hd hds ih =>
      unfold next at hn
      split_ifs at hn with hlt
      · cases hn
        refine ⟨.cons hlt hds, ?_⟩
        show d + 1 + n * value ns ds = d + n * value ns ds + 1
        omega
      · obtain ⟨es', hes', rfl⟩ := Option.map_eq_some_iff.mp hn
        obtain ⟨hr, hv⟩ := ih hes'
        refine ⟨.cons (Nat.zero_lt_of_lt hd) hr, ?_⟩
        have hdn : d + 1 = n := by omega
        calc 0 + n * value ns es'
            = n * value ns ds + n := by rw [hv]; ring
          _ = d + n * value ns ds + 1 := by omega

/-- Only the last tuple has no next one. -/
theorem next_eq_none (h : InRange bases ds) (hn : next bases ds = none) :
    value bases ds + 1 = bases.prod := by
  induction h with
  | nil => rfl
  | @cons n d ns ds hd _ ih =>
      unfold next at hn
      split_ifs at hn with hlt
      have hv := ih (Option.map_eq_none_iff.mp hn)
      have hdn : d + 1 = n := by omega
      rw [List.prod_cons, ← hv]
      show d + n * value ns ds + 1 = n * (value ns ds + 1)
      calc d + n * value ns ds + 1
          = d + 1 + n * value ns ds := by omega
        _ = n * (value ns ds + 1) := by rw [hdn]; ring

end InRange

theorem InRange.pos (h : InRange bases ds) : ∀ n ∈ bases, 0 < n := by
  induction h with
  | nil => exact fun _ hn => absurd hn List.not_mem_nil
  | cons hd _ ih =>
      intro n hn
      rcases List.mem_cons.mp hn with rfl | hn
      · exact Nat.zero_lt_of_lt hd
      · exact ih n hn

theorem value_zeros : value bases (zeros bases) = 0 := by
  induction bases with
  | nil => rfl
  | cons n ns ih =>
      show 0 + n * value ns (zeros ns) = 0
      rw [ih, Nat.mul_zero]

/-- After fewer steps than there are tuples, the digits stand for the number of steps. -/
theorem after_value (h : ∀ n ∈ bases, 0 < n) {k : Nat} (hk : k < bases.prod) :
    ∃ ds, after bases k = some ds ∧ InRange bases ds ∧ value bases ds = k := by
  induction k with
  | zero => exact ⟨_, rfl, .zeros h, value_zeros⟩
  | succ k ih =>
      obtain ⟨ds, hds, hr, hv⟩ := ih (Nat.lt_of_succ_lt hk)
      cases hn : next bases ds with
      | none =>
          have := hr.next_eq_none hn
          omega
      | some es =>
          obtain ⟨hr', hv'⟩ := hr.next_eq hn
          refine ⟨es, ?_, hr', by rw [hv', hv]⟩
          show (after bases k).bind (next bases) = some es
          rw [hds]
          exact hn

/-- **Every tuple is passed**, after as many steps as its value. -/
theorem after_value_eq (h : InRange bases ds) : after bases (value bases ds) = some ds := by
  obtain ⟨es, hes, hr, hv⟩ := after_value h.pos h.value_lt
  rw [hes, hr.eq_of_value_eq h hv]

/-! ### All tuples -/

/-- The tuples in the order in which they are passed. -/
def tuples (bases : List Nat) : List (List Nat) :=
  (List.range bases.prod).map fun k => (after bases k).getD []

theorem mem_tuples (h : ∀ n ∈ bases, 0 < n) : ds ∈ tuples bases ↔ InRange bases ds := by
  unfold tuples
  rw [List.mem_map]
  constructor
  · rintro ⟨k, hk, rfl⟩
    obtain ⟨es, hes, hr, _⟩ := after_value h (List.mem_range.mp hk)
    rw [hes]
    exact hr
  · intro hr
    refine ⟨value bases ds, List.mem_range.mpr hr.value_lt, ?_⟩
    rw [after_value_eq hr]
    rfl

/-- **No tuple is passed twice.** -/
theorem nodup_tuples (h : ∀ n ∈ bases, 0 < n) : (tuples bases).Nodup := by
  refine List.Nodup.map_on (fun j hj k hk heq => ?_) List.nodup_range
  obtain ⟨ds, hds, _, hv⟩ := after_value h (List.mem_range.mp hj)
  obtain ⟨es, hes, _, hv'⟩ := after_value h (List.mem_range.mp hk)
  rw [hds, hes, Option.getD_some, Option.getD_some] at heq
  rw [← hv, ← hv', heq]

theorem drop_tuples {k : Nat} (hk : k < bases.prod) (h : after bases k = some ds) :
    (tuples bases).drop k = ds :: (tuples bases).drop (k + 1) := by
  unfold tuples
  rw [List.drop_eq_getElem_cons (by rwa [List.length_map, List.length_range]), List.getElem_map,
    List.getElem_range, h]
  rfl

theorem drop_tuples_eq_nil {k : Nat} (hk : bases.prod ≤ k) : (tuples bases).drop k = [] := by
  unfold tuples
  apply List.drop_eq_nil_of_le
  rwa [List.length_map, List.length_range]

end Odometer
