import Mathlib.Algebra.Order.Ring.Int
import Mathlib.Data.List.Nodup
import Watts.Library.Flow

/-! Dominance as ancestry in the tree of immediate dominators, and depth-first search as reachability. -/

namespace Flow

variable {κ : Type*} {succ : κ → κ → Prop} {entry : κ}

/-- The end of a walk after another way to one of its nodes. -/
theorem Walk.replace {π : List κ} {b : κ} (h : Walk succ entry π b) :
    ∀ {π₁ : List κ} {c : κ} {π₂ : List κ}, π = π₁ ++ c :: π₂ → ∀ {start : κ} {ρ : List κ},
      Walk succ start ρ c → Walk succ start (ρ ++ c :: π₂) b := by
  induction h with
  | start =>
      intro π₁ c π₂ hπ
      simp at hπ
  | @step π d b _ hs ih =>
      intro π₁ c π₂ hπ start ρ hρ
      rcases List.eq_nil_or_concat π₂ with rfl | ⟨π₃, e, rfl⟩
      · obtain ⟨_, hd⟩ := List.append_inj' hπ rfl
        obtain rfl := List.singleton_inj.mp hd
        exact hρ.step hs
      · rw [List.concat_eq_append, ← List.cons_append, ← List.append_assoc] at hπ
        obtain ⟨hπ₁, hd⟩ := List.append_inj' hπ rfl
        obtain rfl := List.singleton_inj.mp hd
        rw [List.concat_eq_append, ← List.cons_append, ← List.append_assoc]
        exact (ih hπ₁ hρ).step hs

/-- A reachable node is reached by a walk that has not visited it before. -/
theorem Walk.exists_fresh {π : List κ} {b : κ} (h : Walk succ entry π b) :
    ∃ π', Walk succ entry π' b ∧ b ∉ π' := by
  by_cases hb : b ∈ π
  · obtain ⟨π₁, π₂, rfl, hnot⟩ := List.eq_append_cons_of_mem hb
    exact ⟨π₁, (h.split rfl).1, hnot⟩
  · exact ⟨π, h, hb⟩

theorem Dominates.refl (a : κ) : Dominates succ entry a a :=
  fun _ _ => .inr rfl

theorem Dominates.trans {a b c : κ} (hab : Dominates succ entry a b) (hbc : Dominates succ entry b c) :
    Dominates succ entry a c := by
  intro π hπ
  rcases hbc π hπ with hb | rfl
  · obtain ⟨π₁, π₂, rfl⟩ := List.append_of_mem hb
    left
    rcases hab π₁ (hπ.split rfl).1 with ha | rfl
    · exact List.mem_append_left _ ha
    · exact List.mem_append_right _ (.head _)
  · exact hab π hπ

theorem exists_last {α : Type*} {p : α → Prop} {l : List α} (h : ∃ x ∈ l, p x) :
    ∃ l₁ x l₂, l = l₁ ++ x :: l₂ ∧ p x ∧ ∀ y ∈ l₂, ¬ p y := by
  induction l with
  | nil =>
      obtain ⟨x, hx, _⟩ := h
      cases hx
  | cons z l ih =>
      by_cases hl : ∃ x ∈ l, p x
      · obtain ⟨l₁, x, l₂, rfl, hx, hlast⟩ := ih hl
        exact ⟨z :: l₁, x, l₂, rfl, hx, hlast⟩
      · obtain ⟨x, hx, hpx⟩ := h
        rcases List.mem_cons.mp hx with rfl | hx
        · exact ⟨[], x, l, rfl, hpx, fun y hy hpy => hl ⟨y, hy, hpy⟩⟩
        · exact absurd ⟨x, hx, hpx⟩ hl

/-- Of the other dominators of a node, the last one on a walk to it is the nearest. -/
theorem Walk.exists_immediate {π : List κ} {a b : κ} (h : Walk succ entry π b) (hne : a ≠ b)
    (hdom : Dominates succ entry a b) : ∃ c ∈ π, ImmediatelyDominates succ entry c b := by
  have ha : a ∈ π := (hdom π h).resolve_right hne
  obtain ⟨π₁, c, π₂, rfl, ⟨hcb, hc⟩, hlast⟩ :=
    exists_last (p := fun x => x ≠ b ∧ Dominates succ entry x b) ⟨a, ha, hne, hdom⟩
  refine ⟨c, List.mem_append_right _ (.head _), ⟨_, h⟩, hc, hcb, fun d hdb hd ρ hρ => ?_⟩
  by_contra hno
  rw [not_or] at hno
  -- a way to `c` around `d` leads on to `b` without `d`
  rcases List.mem_append.mp ((hd _ (h.replace rfl hρ)).resolve_right hdb) with hmem | hmem
  · exact hno.1 hmem
  · rcases List.mem_cons.mp hmem with rfl | hmem
    · exact hno.2 rfl
    · exact hlast d hmem ⟨hdb, hd⟩

theorem ImmediatelyDominates.reachable_left {a b : κ} (h : ImmediatelyDominates succ entry a b) :
    ∃ π, Walk succ entry π a := by
  obtain ⟨π, hπ⟩ := h.reachable
  obtain ⟨π₁, π₂, rfl⟩ := List.append_of_mem ((h.dominates π hπ).resolve_right h.ne)
  exact ⟨π₁, (hπ.split rfl).1⟩

/-- **Dominance is ancestry in the tree of immediate dominators.** -/
theorem dominates_iff_ancestor {a b : κ} (hb : ∃ π, Walk succ entry π b) :
    Dominates succ entry a b ↔ Relation.ReflTransGen (ImmediatelyDominates succ entry) a b := by
  constructor
  · obtain ⟨π, hπ⟩ := hb
    induction hlen : π.length using Nat.strongRecOn generalizing π b with
    | ind n ih =>
        intro hdom
        by_cases hab : a = b
        · rw [hab]
        · obtain ⟨c, hc, himm⟩ := hπ.exists_immediate hab hdom
          obtain ⟨π₁, π₂, rfl⟩ := List.append_of_mem hc
          have hlt : π₁.length < n := by
            rw [← hlen, List.length_append, List.length_cons]
            omega
          exact (ih _ hlt π₁ (hπ.split rfl).1 rfl (himm.nearest a hab hdom)).tail himm
  · intro h
    induction h with
    | refl => exact .refl a
    | tail _ himm ih => exact (ih himm.reachable_left).trans himm.dominates

/-! ### Depth-first search -/

section Search

variable [DecidableEq κ] {succs : κ → List κ}

/-- A search meets only what the stack leads to. -/
theorem dfs_sound {fuel : Nat} {stack visited found : List κ}
    (h : dfs succs fuel stack visited = some found) {b : κ} (hb : b ∈ found) :
    b ∈ visited ∨ ∃ a ∈ stack, Relation.ReflTransGen (fun x y => y ∈ succs x) a b := by
  induction fuel generalizing stack visited with
  | zero =>
      cases stack with
      | nil =>
          cases h
          exact .inl hb
      | cons cur stack => cases h
  | succ fuel ih =>
      cases stack with
      | nil =>
          cases h
          exact .inl hb
      | cons cur stack =>
          unfold dfs at h
          split_ifs at h with hcur
          · rcases ih h with hv | ⟨a, ha, hab⟩
            · exact .inl hv
            · exact .inr ⟨a, .tail _ ha, hab⟩
          · rcases ih h with hv | ⟨a, ha, hab⟩
            · rcases List.mem_cons.mp hv with rfl | hv
              · exact .inr ⟨b, .head _, .refl⟩
              · exact .inl hv
            · rcases List.mem_append.mp ha with ha | ha
              · exact .inr ⟨cur, .head _, .head (List.mem_reverse.mp ha) hab⟩
              · exact .inr ⟨a, .tail _ ha, hab⟩

/-- **A search from the successors of a node meets what the node reaches and nothing else.** -/
theorem dfs_iff {fuel : Nat} {found : List κ} {a b : κ}
    (h : dfs succs fuel (succs a).reverse [] = some found) :
    b ∈ found ↔ Relation.TransGen (fun x y => y ∈ succs x) a b := by
  refine ⟨fun hb => ?_, dfs_complete h⟩
  rcases dfs_sound h hb with hv | ⟨c, hc, hcb⟩
  · cases hv
  · exact Relation.TransGen.head'_iff.mpr ⟨c, List.mem_reverse.mp hc, hcb⟩

/-- The number of successors of the nodes that a search has still to meet. -/
def pending (succs : κ → List κ) (nodes visited : List κ) : Nat :=
  (nodes.map fun a => if a ∈ visited then 0 else (succs a).length).sum

theorem pending_le (a : κ) (nodes visited : List κ) :
    pending succs nodes (a :: visited) ≤ pending succs nodes visited := by
  induction nodes with
  | nil => exact Nat.le_refl _
  | cons b nodes ih =>
      unfold pending at ih ⊢
      rw [List.map_cons, List.map_cons, List.sum_cons, List.sum_cons]
      apply Nat.add_le_add _ ih
      by_cases hb : b ∈ visited
      · rw [if_pos (List.mem_cons_of_mem _ hb)]
        exact Nat.zero_le _
      · rw [if_neg hb]
        split_ifs
        · exact Nat.zero_le _
        · exact Nat.le_refl _

theorem pending_visit {nodes visited : List κ} {a : κ} (ha : a ∈ nodes) (hv : a ∉ visited) :
    pending succs nodes (a :: visited) + (succs a).length ≤ pending succs nodes visited := by
  induction nodes with
  | nil => cases ha
  | cons b nodes ih =>
      by_cases hba : b = a
      · subst hba
        have hle : pending succs nodes (b :: visited) ≤ pending succs nodes visited :=
          pending_le b nodes visited
        unfold pending at hle ⊢
        rw [List.map_cons, List.map_cons, List.sum_cons, List.sum_cons, if_pos List.mem_cons_self, if_neg hv]
        omega
      · have hrest := ih ((List.mem_cons.mp ha).resolve_left (Ne.symm hba))
        have hmem : b ∈ a :: visited ↔ b ∈ visited := by
          rw [List.mem_cons, or_iff_right hba]
        unfold pending at hrest ⊢
        rw [List.map_cons, List.map_cons, List.sum_cons, List.sum_cons]
        simp only [hmem] at hrest ⊢
        omega

/-- **A search of a finite graph ends.** -/
theorem dfs_terminates {nodes : List κ} (hclosed : ∀ a ∈ nodes, ∀ b ∈ succs a, b ∈ nodes) {fuel : Nat}
    {stack visited : List κ} (hstack : ∀ a ∈ stack, a ∈ nodes)
    (hfuel : stack.length + pending succs nodes visited ≤ fuel) :
    ∃ found, dfs succs fuel stack visited = some found := by
  induction fuel generalizing stack visited with
  | zero =>
      cases stack with
      | nil => exact ⟨visited, rfl⟩
      | cons cur stack => simp at hfuel
  | succ fuel ih =>
      cases stack with
      | nil => exact ⟨visited, rfl⟩
      | cons cur stack =>
          rw [List.length_cons] at hfuel
          have hcur := hstack cur (.head _)
          have hrest : ∀ a ∈ stack, a ∈ nodes := fun a ha => hstack a (.tail _ ha)
          unfold dfs
          split_ifs with hv
          · exact ih hrest (by omega)
          · refine ih (fun a ha => ?_) ?_
            · rcases List.mem_append.mp ha with ha | ha
              · exact hclosed cur hcur a (List.mem_reverse.mp ha)
              · exact hrest a ha
            · have hless : pending succs nodes (cur :: visited) + (succs cur).length ≤ pending succs nodes visited :=
                pending_visit hcur hv
              rw [List.length_append, List.length_reverse]
              omega

end Search

end Flow
