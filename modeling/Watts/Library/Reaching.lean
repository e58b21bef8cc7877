import Watts.Library.Flow

/-! What is generated at some nodes of a graph and flows along the edges through the nodes that keep it:
the least solution of the equations of a forward data-flow problem, and the walks that it stands for. -/

namespace Flow

variable {κ : Type*}

/-- A datum is present at the end of a node: it is generated there, or it comes from a predecessor and is
kept. -/
inductive Reaches (succ : κ → κ → Prop) (gen keep : κ → Prop) : κ → Prop
  | gen {b : κ} : gen b → Reaches succ gen keep b
  | pass {a b : κ} : Reaches succ gen keep a → succ a b → keep b → Reaches succ gen keep b

variable {succ : κ → κ → Prop} {gen keep : κ → Prop}

/-- The walks from a node that generates a datum through nodes that keep it. -/
theorem reaches_iff_walk {b : κ} :
    Reaches succ gen keep b ↔
      ∃ a, gen a ∧ ∃ π, Walk succ a π b ∧ ∀ c ∈ (π ++ [b]).tail, keep c := by
  constructor
  · intro h
    induction h with
    | @gen b hb => exact ⟨b, hb, [], .start, fun _ hc => absurd hc List.not_mem_nil⟩
    | @pass a b _ hs hkeep ih =>
        obtain ⟨g, hg, π, hπ, hall⟩ := ih
        refine ⟨g, hg, π ++ [a], hπ.step hs, fun c hc => ?_⟩
        rw [List.tail_append_of_ne_nil (by simp)] at hc
        rcases List.mem_append.mp hc with hc | hc
        · exact hall c hc
        · rw [List.mem_singleton.mp hc]
          exact hkeep
  · rintro ⟨a, ha, π, hπ, hall⟩
    induction hπ with
    | start => exact .gen ha
    | @step π c b hw hs ih =>
        rw [List.tail_append_of_ne_nil (by simp)] at hall
        have hprev := ih fun d hd => hall d (List.mem_append_left _ hd)
        exact .pass hprev hs (hall b (List.mem_append_right _ (.head _)))

/-- What is generated and kept is in every solution of the equations. -/
theorem Reaches.of_closed (sol : κ → Prop) (hgen : ∀ b, gen b → sol b)
    (hpass : ∀ a b, sol a → succ a b → keep b → sol b) {b : κ} (h : Reaches succ gen keep b) : sol b := by
  induction h with
  | gen hb => exact hgen _ hb
  | pass _ hs hkeep ih => exact hpass _ _ ih hs hkeep

end Flow
