import Mathlib.Data.List.Induction
import Mathlib.Tactic.Common

/-! Runs of a labelled transition system: the events that lead from one state to another, in order. -/

namespace Runs

variable {σ ε : Type*} (step : σ → ε → σ → Prop)

inductive Run (s : σ) : List ε → σ → Prop
  | nil : Run s [] s
  | snoc {es : List ε} {t u : σ} {e : ε} : Run s es t → step t e u → Run s (es ++ [e]) u

variable {step}

namespace Run

theorem append {s t u : σ} {es es' : List ε} (h : Run step s es t) (h' : Run step t es' u) :
    Run step s (es ++ es') u := by
  induction h' with
  | nil =>
      rw [List.append_nil]
      exact h
  | snoc _ hstep ih =>
      rw [← List.append_assoc]
      exact .snoc ih hstep

/-- A run passes through a state after each part of its events. -/
theorem split {s u : σ} {es es' : List ε} (h : Run step s (es ++ es') u) :
    ∃ t, Run step s es t ∧ Run step t es' u := by
  induction es' using List.reverseRecOn generalizing u with
  | nil =>
      rw [List.append_nil] at h
      exact ⟨u, h, .nil⟩
  | append_singleton es' e ih =>
      rw [← List.append_assoc] at h
      generalize hall : es ++ es' ++ [e] = all at h
      cases h with
      | nil => simp at hall
      | @snoc es₀ t _ e₀ hr hstep =>
          obtain ⟨rfl, he⟩ := List.append_inj' hall rfl
          obtain rfl := List.singleton_inj.mp he
          obtain ⟨m, hm, hm'⟩ := ih hr
          exact ⟨m, hm, .snoc hm' hstep⟩

/-- The step at an event. -/
theorem split_event {s u : σ} {es es' : List ε} {e : ε} (h : Run step s (es ++ e :: es') u) :
    ∃ t t', Run step s es t ∧ step t e t' ∧ Run step t' es' u := by
  rw [← List.singleton_append, ← List.append_assoc] at h
  obtain ⟨t', h, h'⟩ := h.split
  generalize hall : es ++ [e] = all at h
  cases h with
  | nil => simp at hall
  | @snoc es₀ t _ e₀ hr hstep =>
      obtain ⟨rfl, he⟩ := List.append_inj' hall rfl
      obtain rfl := List.singleton_inj.mp he
      exact ⟨t, t', hr, hstep, h'⟩

/-- **The invariant rule**, with the events so far. -/
theorem invariant (I : List ε → σ → Prop) {s t : σ} {es : List ε} (hs : I [] s)
    (hstep : ∀ es t e u, I es t → step t e u → I (es ++ [e]) u) (h : Run step s es t) : I es t := by
  induction h with
  | nil => exact hs
  | snoc _ h ih => exact hstep _ _ _ _ ih h

/-- What every step keeps holds at the end, and at every event. -/
theorem preserves (P : σ → Prop) (Q : ε → Prop) {s t : σ} {es : List ε} (hs : P s)
    (hstep : ∀ t e u, P t → step t e u → P u ∧ Q e) (h : Run step s es t) : P t ∧ ∀ e ∈ es, Q e := by
  induction h with
  | nil => exact ⟨hs, fun _ he => absurd he List.not_mem_nil⟩
  | snoc _ h ih =>
      obtain ⟨hP, hQ⟩ := hstep _ _ _ ih.1 h
      refine ⟨hP, fun e he => ?_⟩
      rcases List.mem_append.mp he with he | he
      · exact ih.2 e he
      · rw [List.mem_singleton.mp he]
        exact hQ

end Run

end Runs
