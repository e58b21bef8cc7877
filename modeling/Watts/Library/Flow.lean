import Mathlib.Logic.Relation
import Mathlib.Data.List.Basic
import Mathlib.Tactic.Common

/-! Walks through a directed graph from its entry, and dominance.  A walk is given by the nodes it has
left, in order, and the node it stands on. -/

namespace Flow

variable {κ : Type*} (succ : κ → κ → Prop) (entry : κ)

inductive Walk : List κ → κ → Prop
  | start : Walk [] entry
  | step {π : List κ} {a b : κ} : Walk π a → succ a b → Walk (π ++ [a]) b

/-- Every walk to `b` visits `a`. -/
def Dominates (a b : κ) : Prop :=
  ∀ π, Walk succ entry π b → a ∈ π ∨ a = b

/-- The nearest of the other dominators of a reachable node. -/
structure ImmediatelyDominates (a b : κ) : Prop where
  reachable : ∃ π, Walk succ entry π b
  dominates : Dominates succ entry a b
  ne : a ≠ b
  nearest : ∀ c, c ≠ b → Dominates succ entry c b → Dominates succ entry c a

/-- Every walk from `a` to a node that satisfies `exit` visits `b`, and there is one. -/
structure PostDominates (exit : κ → Prop) (b a : κ) : Prop where
  exits : ∃ e, exit e ∧ Relation.ReflTransGen succ a e
  visits : ∀ e, exit e → ∀ π, Walk succ a π e → b ∈ π ∨ b = e

variable {succ entry}

namespace Walk

/-- A walk passes through each node that it has left. -/
theorem split {π : List κ} {b : κ} (h : Walk succ entry π b) :
    ∀ {π₁ : List κ} {a : κ} {π₂ : List κ}, π = π₁ ++ a :: π₂ →
      Walk succ entry π₁ a ∧ Relation.TransGen succ a b := by
  induction h with
  | start =>
      intro π₁ a π₂ hπ
      simp at hπ
  | @step π c b hw hs ih =>
      intro π₁ a π₂ hπ
      rcases List.eq_nil_or_concat π₂ with hnil | ⟨π₃, d, hcons⟩
      · rw [hnil] at hπ
        obtain ⟨rfl, hc⟩ := List.append_inj' hπ rfl
        obtain rfl : c = a := by simpa using hc
        exact ⟨hw, .single hs⟩
      · rw [hcons, List.concat_eq_append, ← List.cons_append, ← List.append_assoc] at hπ
        obtain ⟨hπ₁, hd⟩ := List.append_inj' hπ rfl
        obtain rfl : c = d := by simpa using hd
        obtain ⟨hw', ha⟩ := ih hπ₁
        exact ⟨hw', ha.tail hs⟩

theorem transGen {π : List κ} {a b : κ} (h : Walk succ entry π b) (ha : a ∈ π) :
    Relation.TransGen succ a b := by
  obtain ⟨π₁, π₂, hπ⟩ := List.append_of_mem ha
  exact (h.split hπ).2

theorem reflTransGen {π : List κ} {b : κ} (h : Walk succ entry π b) :
    Relation.ReflTransGen succ entry b := by
  induction h with
  | start => exact .refl
  | step _ hs ih => exact ih.tail hs

theorem entry_mem {π : List κ} {b : κ} (h : Walk succ entry π b) : b = entry ∨ entry ∈ π := by
  induction h with
  | start => exact .inl rfl
  | step _ _ ih =>
      right
      rcases ih with rfl | ih
      · exact List.mem_append_right _ (.head _)
      · exact List.mem_append_left _ ih

/-- Every edge of the graph extends a walk. -/
theorem extend {π : List κ} {a b : κ} (h : Walk succ entry π a)
    (hab : Relation.ReflTransGen succ a b) : ∃ π', Walk succ entry (π ++ π') b := by
  induction hab with
  | refl => exact ⟨[], by rwa [List.append_nil]⟩
  | tail _ hs ih =>
      obtain ⟨π', h'⟩ := ih
      exact ⟨π' ++ [_], by rw [← List.append_assoc]; exact h'.step hs⟩

end Walk

theorem Walk.head {π : List κ} {b : κ} (h : Walk succ entry π b) :
    π = [] ∧ b = entry ∨ ∃ c π', succ entry c ∧ π = entry :: π' ∧ Walk succ c π' b := by
  induction h with
  | start => exact .inl ⟨rfl, rfl⟩
  | @step π a b _ hs ih =>
      right
      rcases ih with ⟨rfl, rfl⟩ | ⟨c, π', hc, rfl, hw⟩
      · exact ⟨b, [], hs, rfl, .start⟩
      · exact ⟨c, π' ++ [a], hc, rfl, hw.step hs⟩

section PostDominance

variable {exit : κ → Prop} {a b : κ}

theorem PostDominates.refl {e : κ} (he : exit e) (h : Relation.ReflTransGen succ a e) :
    PostDominates succ exit a a :=
  ⟨⟨e, he, h⟩, fun _ _ _ hπ => hπ.entry_mem.symm.imp_right Eq.symm⟩

/-- The only exit post-dominates every node that reaches it. -/
theorem PostDominates.of_only (hb : exit b) (honly : ∀ e, exit e → e = b)
    (h : Relation.ReflTransGen succ a b) : PostDominates succ exit b a :=
  ⟨⟨b, hb, h⟩, fun e he _ _ => .inr (honly e he).symm⟩

/-- A node with a single successor has the post-dominators of the successor. -/
theorem PostDominates.of_succ {c : κ} (hs : succ a c) (honly : ∀ d, succ a d → d = c) (hexit : ¬ exit a)
    (h : PostDominates succ exit b c) : PostDominates succ exit b a := by
  obtain ⟨⟨e, he, hce⟩, hvisits⟩ := h
  refine ⟨⟨e, he, .head hs hce⟩, fun e he π hπ => ?_⟩
  rcases hπ.head with ⟨_, rfl⟩ | ⟨d, π', hd, rfl, hw⟩
  · exact absurd he hexit
  · rw [honly d hd] at hw
    exact (hvisits e he π' hw).imp_left (List.mem_cons_of_mem _)

end PostDominance

/-- A successor of the entry is immediately dominated by it. -/
theorem ImmediatelyDominates.of_entry {b : κ} (hs : succ entry b) (hne : entry ≠ b) :
    ImmediatelyDominates succ entry entry b := by
  refine ⟨⟨[entry], .step .start hs⟩, fun π hπ => ?_, hne, fun d hd hdom => ?_⟩
  · exact .inl (hπ.entry_mem.resolve_left (Ne.symm hne))
  · rcases hdom _ (.step .start hs) with h | h
    · rw [List.mem_singleton.mp h]
      exact fun π hπ => hπ.entry_mem.symm.imp_right Eq.symm
    · exact absurd h hd

/-- A reachable node other than the entry with a single predecessor is immediately dominated by it. -/
theorem ImmediatelyDominates.of_pred {a b : κ} (ha : ∃ π, Walk succ entry π a) (hs : succ a b)
    (honly : ∀ c, succ c b → c = a) (hentry : b ≠ entry) (hne : a ≠ b) :
    ImmediatelyDominates succ entry a b := by
  obtain ⟨π₀, h₀⟩ := ha
  refine ⟨⟨_, h₀.step hs⟩, fun π hπ => ?_, hne, fun d hd hdom π hπ => ?_⟩
  · cases hπ with
    | start => exact absurd rfl hentry
    | step _ hc => exact .inl (honly _ hc ▸ List.mem_append_right _ (.head _))
  · rcases hdom _ (hπ.step hs) with h | h
    · exact (List.mem_append.mp h).imp_right List.mem_singleton.mp
    · exact absurd h hd

/-! ### Depth-first search -/

/-- The nodes met by a depth-first search: those on the stack and what they reach. -/
def dfs [DecidableEq κ] (succs : κ → List κ) : Nat → List κ → List κ → Option (List κ)
  | _, [], visited => some visited
  | 0, _ :: _, _ => none
  | fuel + 1, cur :: stack, visited =>
    if cur ∈ visited then dfs succs fuel stack visited
    else dfs succs fuel ((succs cur).reverse ++ stack) (cur :: visited)

/-- What a search has met is closed under successors up to what waits on the stack. -/
theorem dfs_closed [DecidableEq κ] {succs : κ → List κ} {fuel : Nat} {stack visited found : List κ}
    (h : dfs succs fuel stack visited = some found)
    (hinv : ∀ a ∈ visited, ∀ b ∈ succs a, b ∈ visited ∨ b ∈ stack) :
    (∀ a ∈ stack, a ∈ found) ∧ (∀ a ∈ visited, a ∈ found) ∧
      ∀ a ∈ found, ∀ b ∈ succs a, b ∈ found := by
  induction fuel generalizing stack visited with
  | zero =>
      cases stack with
      | nil =>
          cases h
          exact ⟨fun _ ha => absurd ha List.not_mem_nil, fun _ ha => ha,
            fun a ha b hb => (hinv a ha b hb).resolve_right List.not_mem_nil⟩
      | cons cur stack => cases h
  | succ fuel ih =>
      cases stack with
      | nil =>
          cases h
          exact ⟨fun _ ha => absurd ha List.not_mem_nil, fun _ ha => ha,
            fun a ha b hb => (hinv a ha b hb).resolve_right List.not_mem_nil⟩
      | cons cur stack =>
          unfold dfs at h
          split_ifs at h with hcur
          · obtain ⟨h₁, h₂, h₃⟩ := ih h fun a ha b hb => by
              rcases hinv a ha b hb with hb | hb
              · exact .inl hb
              · rcases List.mem_cons.mp hb with rfl | hb
                · exact .inl hcur
                · exact .inr hb
            refine ⟨fun a ha => ?_, h₂, h₃⟩
            rcases List.mem_cons.mp ha with rfl | ha
            · exact h₂ a hcur
            · exact h₁ a ha
          · obtain ⟨h₁, h₂, h₃⟩ := ih h fun a ha b hb => by
              rcases List.mem_cons.mp ha with rfl | ha
              · exact .inr (List.mem_append_left _ (List.mem_reverse.mpr hb))
              · rcases hinv a ha b hb with hb | hb
                · exact .inl (List.mem_cons_of_mem _ hb)
                · rcases List.mem_cons.mp hb with rfl | hb
                  · exact .inl List.mem_cons_self
                  · exact .inr (List.mem_append_right _ hb)
            refine ⟨fun a ha => ?_, fun a ha => h₂ a (List.mem_cons_of_mem _ ha), h₃⟩
            rcases List.mem_cons.mp ha with rfl | ha
            · exact h₂ a List.mem_cons_self
            · exact h₁ a (List.mem_append_right _ ha)

/-- **A search from the successors of a node meets everything that the node reaches.** -/
theorem dfs_complete [DecidableEq κ] {succs : κ → List κ} {fuel : Nat} {found : List κ} {a b : κ}
    (h : dfs succs fuel (succs a).reverse [] = some found)
    (hab : Relation.TransGen (fun x y => y ∈ succs x) a b) : b ∈ found := by
  obtain ⟨hstack, _, hclosed⟩ := dfs_closed h fun _ ha => absurd ha List.not_mem_nil
  induction hab with
  | single hs => exact hstack _ (List.mem_reverse.mpr hs)
  | tail _ hs ih => exact hclosed _ ih _ hs

end Flow
