import Mathlib.Logic.Function.Iterate

/-! A first-in first-out queue whose items add new items when they are processed.  No item is remembered,
so that the queue drains only if the items do not lead to one another without end. -/

namespace Queue

variable {α σ : Type*}

/-- An item with the number of items that lead to it from a first one. -/
structure Item (α : Type*) where
  val : α
  depth : Nat

/-- Process the item in front; the items that it leads to go behind the others.  Where `work` fails, the
queue is given up. -/
def step (work : σ → α → Option (σ × List α)) : List (Item α) × σ → List (Item α) × σ
  | ([], s) => ([], s)
  | (e :: queue, s) =>
    match work s e.val with
    | some (s', new) => (queue ++ new.map (⟨·, e.depth + 1⟩), s')
    | none => ([], s)

/-- The queue and the state after a number of items. -/
def after (work : σ → α → Option (σ × List α)) (k : Nat) (xs : List α) (s : σ) : List (Item α) × σ :=
  (step work)^[k] (xs.map (⟨·, 0⟩), s)

variable {work : σ → α → Option (σ × List α)}

@[simp] theorem step_nil (s : σ) : step work ([], s) = ([], s) :=
  rfl

theorem step_cons_some {e : Item α} {queue : List (Item α)} {s s' : σ} {new : List α}
    (h : work s e.val = some (s', new)) :
    step work (e :: queue, s) = (queue ++ new.map (⟨·, e.depth + 1⟩), s') := by
  simp only [step, h]

theorem step_cons_none {e : Item α} {queue : List (Item α)} {s : σ} (h : work s e.val = none) :
    step work (e :: queue, s) = ([], s) := by
  simp only [step, h]

theorem iterate_nil (k : Nat) (s : σ) : (step work)^[k] ([], s) = ([], s) :=
  Function.iterate_fixed (step_nil s) k

theorem after_succ (k : Nat) (xs : List α) (s : σ) :
    after work (k + 1) xs s = step work (after work k xs s) :=
  Function.iterate_succ_apply' _ k _

/-- An empty queue stays empty. -/
theorem after_eq_nil_of_le {n k : Nat} {xs : List α} {s : σ} (h : (after work n xs s).1 = [])
    (hnk : n ≤ k) : (after work k xs s).1 = [] := by
  obtain ⟨d, rfl⟩ := Nat.exists_eq_add_of_le' hnk
  have hn : after work n xs s = ([], (after work n xs s).2) := by rw [← h]
  unfold after at hn ⊢
  rw [Function.iterate_add_apply, hn, iterate_nil]

/-! ### Invariants of the items -/

/-- An item after a step was there before it, or the item in front led to it. -/
theorem mem_step {queue : List (Item α)} {s : σ} {e' : Item α} (h : e' ∈ (step work (queue, s)).1) :
    e' ∈ queue ∨ ∃ e ∈ queue, ∃ s' new, work s e.val = some (s', new) ∧
      ∃ y ∈ new, e' = ⟨y, e.depth + 1⟩ := by
  cases queue with
  | nil => exact .inl h
  | cons e queue =>
      cases hw : work s e.val with
      | none =>
          rw [step_cons_none hw] at h
          exact absurd h List.not_mem_nil
      | some r =>
          rw [step_cons_some hw] at h
          rcases List.mem_append.mp h with h | h
          · exact .inl (.tail _ h)
          · obtain ⟨y, hy, rfl⟩ := List.mem_map.mp h
            exact .inr ⟨e, .head _, r.1, r.2, hw, y, hy, rfl⟩

/-- What holds of the first items, and of the items that one with it leads to, holds of all. -/
theorem forall_after (P : Item α → Prop) {xs : List α} {s : σ} (hinit : ∀ x ∈ xs, P ⟨x, 0⟩)
    (hwork : ∀ s (e : Item α) s' new, P e → work s e.val = some (s', new) →
      ∀ y ∈ new, P ⟨y, e.depth + 1⟩) (k : Nat) : ∀ e ∈ (after work k xs s).1, P e := by
  induction k with
  | zero =>
      intro e he
      obtain ⟨x, hx, rfl⟩ := List.mem_map.mp he
      exact hinit x hx
  | succ k ih =>
      intro e' he'
      rw [after_succ] at he'
      rcases mem_step he' with he' | ⟨e, he, s', new, hw, y, hy, rfl⟩
      · exact ih e' he'
      · exact hwork _ e s' new (ih e he) hw y hy

/-- An item has no more items that lead to it than were processed. -/
theorem depth_le_after (k : Nat) {xs : List α} {s : σ} :
    ∀ e ∈ (after work k xs s).1, e.depth ≤ k := by
  induction k with
  | zero =>
      intro e he
      obtain ⟨x, _, rfl⟩ := List.mem_map.mp he
      exact Nat.le_refl 0
  | succ k ih =>
      intro e' he'
      rw [after_succ] at he'
      rcases mem_step he' with he' | ⟨e, he, _, _, _, y, _, rfl⟩
      · exact Nat.le_succ_of_le (ih e' he')
      · exact Nat.succ_le_succ (ih e he)

/-! ### When the queue drains -/

/-- The queue is empty at some time. -/
def Drains (work : σ → α → Option (σ × List α)) (xs : List α) (s : σ) : Prop :=
  ∃ k, (after work k xs s).1 = []

/-- No item has more than `K` items that lead to it. -/
def NestedWithin (work : σ → α → Option (σ × List α)) (xs : List α) (s : σ) (K : Nat) : Prop :=
  ∀ k, ∀ e ∈ (after work k xs s).1, e.depth ≤ K

/-- Once the items in front are processed, all items are one deeper. -/
theorem exists_deeper (d : Nat) (front behind : List (Item α)) (s : σ) (hfront : ∀ e ∈ front, d ≤ e.depth)
    (hbehind : ∀ e ∈ behind, d + 1 ≤ e.depth) :
    ∃ k, ∀ e ∈ ((step work)^[k] (front ++ behind, s)).1, d + 1 ≤ e.depth := by
  induction front generalizing behind s with
  | nil => exact ⟨0, hbehind⟩
  | cons e front ih =>
      cases hw : work s e.val with
      | none =>
          refine ⟨1, ?_⟩
          rw [Function.iterate_one, List.cons_append, step_cons_none hw]
          exact fun _ h => absurd h List.not_mem_nil
      | some r =>
          obtain ⟨k, hk⟩ := ih (behind ++ r.2.map (⟨·, e.depth + 1⟩)) r.1
            (fun e' he' => hfront e' (.tail _ he')) (fun e' he' => by
              rcases List.mem_append.mp he' with he' | he'
              · exact hbehind e' he'
              · obtain ⟨y, _, rfl⟩ := List.mem_map.mp he'
                exact Nat.succ_le_succ (hfront e (.head _)))
          refine ⟨k + 1, ?_⟩
          rw [Function.iterate_succ_apply, List.cons_append, step_cons_some hw, List.append_assoc]
          exact hk

theorem exists_after_deeper (xs : List α) (s : σ) (d : Nat) :
    ∃ k, ∀ e ∈ (after work k xs s).1, d ≤ e.depth := by
  induction d with
  | zero => exact ⟨0, fun _ _ => Nat.zero_le _⟩
  | succ d ih =>
      obtain ⟨k, hk⟩ := ih
      obtain ⟨k', hk'⟩ := @exists_deeper _ _ work d _ [] (after work k xs s).2 hk
        (fun _ h => absurd h List.not_mem_nil)
      refine ⟨k' + k, ?_⟩
      rw [List.append_nil] at hk'
      unfold after
      rw [Function.iterate_add_apply]
      exact hk'

/-- **The queue drains exactly when the items are nested within a bound**, generation after generation. -/
theorem drains_iff {xs : List α} {s : σ} : Drains work xs s ↔ ∃ K, NestedWithin work xs s K := by
  constructor
  · rintro ⟨n, hn⟩
    refine ⟨n, fun k e he => ?_⟩
    rcases Nat.le_total k n with hkn | hnk
    · exact Nat.le_trans (depth_le_after k e he) hkn
    · rw [after_eq_nil_of_le hn hnk] at he
      exact absurd he List.not_mem_nil
  · rintro ⟨K, hK⟩
    obtain ⟨k, hk⟩ := @exists_after_deeper _ _ work xs s (K + 1)
    refine ⟨k, List.eq_nil_iff_forall_not_mem.mpr fun e he => ?_⟩
    exact Nat.not_succ_le_self K (Nat.le_trans (hk e he) (hK k e he))

/-- Items with a rank that falls along the queue are nested within the rank of the first ones. -/
theorem nestedWithin_of_rank (rank : α → Nat) {xs : List α} {s : σ} {R : Nat}
    (hinit : ∀ x ∈ xs, rank x ≤ R)
    (hwork : ∀ s x s' new, work s x = some (s', new) → ∀ y ∈ new, rank y < rank x) :
    NestedWithin work xs s R := by
  intro k e he
  have hinv := @forall_after _ _ work (fun e => e.depth + rank e.val ≤ R) xs s
    (fun x hx => by
      rw [Nat.zero_add]
      exact hinit x hx)
    (fun t e t' new hrank hw y hy => by
      have hlt := hwork t e.val t' new hw y hy
      dsimp only
      omega) k e he
  exact Nat.le_trans (Nat.le_add_right _ _) hinv

end Queue
