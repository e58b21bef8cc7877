import Mathlib.Data.Finset.Card
import Mathlib.Algebra.BigOperators.Group.Finset.Basic
import Mathlib.Algebra.Order.BigOperators.Group.Finset
import Mathlib.Data.Set.Basic
import Mathlib.Tactic.Common
import Mathlib.Tactic.Linarith
import Mathlib.Tactic.Ring

/-! Worklist iterations that overwrite.  A worklist keeps one pending fact for each key; facts that
arrive while another is pending are joined with it.  A popped fact that is below the stored fact of
its key is dropped; any other popped fact replaces the stored one and its consequences are added to
the worklist.  The order in which keys are popped is arbitrary.

Nothing here asks the stored facts to grow.  A run is `Comparable` when every popped fact is
comparable with the stored fact it meets; the results that need growing facts assume that. -/

namespace Worklist

/-- What the iteration is about: an order test, a join, the initial stored fact, and the facts that
processing a fact at a key sends to other keys. -/
structure System (κ F : Type*) where
  le : F → F → Bool
  join : F → F → F
  bot : F
  post : κ → F → List (κ × F)

/-- The pending facts of the worklist and the stored facts. -/
structure State (κ F : Type*) where
  pending : κ → Option F
  stored : κ → F

/-- A popped fact, with the stored fact of its key at that time. -/
structure Pop (κ F : Type*) where
  key : κ
  fact : F
  old : F

variable {κ F : Type*} [DecidableEq κ]

namespace System

variable (S : System κ F)

/-- A popped fact is processed unless it is below the stored fact. -/
def Visits (p : Pop κ F) : Prop :=
  S.le p.fact p.old = false

/-- A popped fact is comparable when it is below or above the stored fact. -/
def Comparable (p : Pop κ F) : Prop :=
  S.le p.fact p.old ∨ S.le p.old p.fact

instance (p : Pop κ F) : Decidable (S.Visits p) :=
  inferInstanceAs (Decidable (_ = _))

instance (p : Pop κ F) : Decidable (S.Comparable p) :=
  inferInstanceAs (Decidable (_ ∨ _))

/-- Add one fact to the worklist. -/
def mergeOne (pending : κ → Option F) (k : κ) (f : F) : κ → Option F :=
  Function.update pending k (some (match pending k with
    | none => f
    | some g => S.join g f))

/-- Add facts to the worklist, one after the other. -/
def merge (pending : κ → Option F) : List (κ × F) → κ → Option F
  | [] => pending
  | (k, f) :: ps => merge (S.mergeOne pending k f) ps

/-- One iteration: pop a pending fact, and drop it or process it. -/
inductive Step : State κ F → Pop κ F → State κ F → Prop
  | skip {s : State κ F} {k : κ} {f : F} (hp : s.pending k = some f)
      (hle : S.le f (s.stored k) = true) :
      Step s ⟨k, f, s.stored k⟩ ⟨Function.update s.pending k none, s.stored⟩
  | visit {s : State κ F} {k : κ} {f : F} (hp : s.pending k = some f)
      (hle : S.le f (s.stored k) = false) :
      Step s ⟨k, f, s.stored k⟩
        ⟨S.merge (Function.update s.pending k none) (S.post k f), Function.update s.stored k f⟩

/-- A run, with the facts it popped in order. -/
inductive Run : State κ F → List (Pop κ F) → State κ F → Prop
  | nil (s : State κ F) : Run s [] s
  | snoc {s t u : State κ F} {ps : List (Pop κ F)} {p : Pop κ F} :
      Run s ps t → S.Step t p u → Run s (ps ++ [p]) u

/-- The laws of the order test that comparisons between facts rely on. -/
structure Preorder : Prop where
  le_refl : ∀ f, S.le f f
  le_trans : ∀ {f g h}, S.le f g → S.le g h → S.le f h
  bot_le : ∀ f, S.le S.bot f

/-- The join is an upper bound. -/
structure UpperJoin : Prop where
  le_join_left : ∀ f g, S.le f (S.join f g)
  le_join_right : ∀ f g, S.le g (S.join f g)

/-- The join is below every upper bound. -/
def LeastJoin : Prop :=
  ∀ {f g h}, S.le f h → S.le g h → S.le (S.join f g) h

end System

namespace System.Run

variable {S : System κ F}

theorem trans {s t u : State κ F} {ps qs : List (Pop κ F)} (h₁ : S.Run s ps t) (h₂ : S.Run t qs u) :
    S.Run s (ps ++ qs) u := by
  induction h₂ with
  | nil => simpa using h₁
  | snoc _ hstep ih => rw [← List.append_assoc]; exact .snoc ih hstep

theorem cons {s t u : State κ F} {p : Pop κ F} {ps : List (Pop κ F)} (h₁ : S.Step s p t)
    (h₂ : S.Run t ps u) : S.Run s (p :: ps) u := by
  simpa using trans (.snoc (.nil s) h₁) h₂

theorem split {s u : State κ F} {qs : List (Pop κ F)} :
    ∀ {ps : List (Pop κ F)}, S.Run s (ps ++ qs) u → ∃ t, S.Run s ps t ∧ S.Run t qs u := by
  induction qs using List.reverseRecOn generalizing u with
  | nil =>
      intro ps h
      exact ⟨u, by simpa using h, .nil u⟩
  | append_singleton qs q ih =>
      intro ps h
      rw [← List.append_assoc] at h
      generalize hl : (ps ++ qs) ++ [q] = l at h
      cases h with
      | nil => simp at hl
      | snoc hr hstep =>
          obtain ⟨rfl, hq⟩ := List.append_inj' hl rfl
          cases hq
          obtain ⟨t, h₁, h₂⟩ := ih hr
          exact ⟨t, h₁, .snoc h₂ hstep⟩

end System.Run

section Merge

variable {S : System κ F}

/-- An added fact is below the pending fact of its key, whatever is added later. -/
theorem merge_pending {R : F → F → Prop} (hrefl : ∀ f, R f f)
    (htrans : ∀ {f g h}, R f g → R g h → R f h) (hleft : ∀ f g, R f (S.join f g)) {k : κ} :
    ∀ (ps : List (κ × F)) (pending : κ → Option F) {f : F}, pending k = some f →
      ∃ g, S.merge pending ps k = some g ∧ R f g := by
  intro ps
  induction ps with
  | nil => exact fun pending f h => ⟨f, h, hrefl f⟩
  | cons p ps ih =>
      obtain ⟨k', f'⟩ := p
      intro pending f h
      by_cases hk : k = k'
      · subst hk
        have h1 : S.mergeOne pending k f' k = some (S.join f f') := by
          simp [System.mergeOne, h]
        obtain ⟨g, hg, hle⟩ := ih _ h1
        exact ⟨g, hg, htrans (hleft f f') hle⟩
      · have h1 : S.mergeOne pending k' f' k = some f := by
          simp [System.mergeOne, Function.update_of_ne hk, h]
        exact ih _ h1

theorem merge_added {R : F → F → Prop} (hrefl : ∀ f, R f f)
    (htrans : ∀ {f g h}, R f g → R g h → R f h) (hleft : ∀ f g, R f (S.join f g))
    (hright : ∀ f g, R g (S.join f g)) {k : κ} {f : F} :
    ∀ (ps : List (κ × F)) (pending : κ → Option F), (k, f) ∈ ps →
      ∃ g, S.merge pending ps k = some g ∧ R f g := by
  intro ps
  induction ps with
  | nil => exact fun _ h => absurd h List.not_mem_nil
  | cons p ps ih =>
      intro pending h
      rcases List.mem_cons.mp h with rfl | h
      · have h1 : ∃ g, S.mergeOne pending k f k = some g ∧ R f g := by
          cases hp : pending k with
          | none => exact ⟨f, by simp [System.mergeOne, hp], hrefl f⟩
          | some g => exact ⟨S.join g f, by simp [System.mergeOne, hp], hright g f⟩
        obtain ⟨g, hg, hle⟩ := h1
        obtain ⟨g', hg', hle'⟩ := merge_pending hrefl htrans hleft ps _ hg
        exact ⟨g', hg', htrans hle hle'⟩
      · exact ih _ h

/-- Whatever bounds the pending facts and the added ones, and is kept by the join, bounds the merged
worklist. -/
theorem merge_bounded {P : κ → F → Prop} (hjoin : ∀ k f g, P k f → P k g → P k (S.join f g)) :
    ∀ (ps : List (κ × F)) (pending : κ → Option F), (∀ k f, pending k = some f → P k f) →
      (∀ k f, (k, f) ∈ ps → P k f) → ∀ k f, S.merge pending ps k = some f → P k f := by
  intro ps
  induction ps with
  | nil => exact fun pending h _ => h
  | cons p ps ih =>
      obtain ⟨k', f'⟩ := p
      intro pending hpend hps
      refine ih _ (fun k f h => ?_) (fun k f h => hps k f (List.mem_cons_of_mem _ h))
      have hf' : P k' f' := hps k' f' List.mem_cons_self
      by_cases hk : k = k'
      · subst hk
        cases hp : pending k with
        | none =>
            simp only [System.mergeOne, hp, Function.update_self, Option.some.injEq] at h
            exact h ▸ hf'
        | some g =>
            simp only [System.mergeOne, hp, Function.update_self, Option.some.injEq] at h
            exact h ▸ hjoin k g f' (hpend k g hp) hf'
      · rw [System.mergeOne, Function.update_of_ne hk] at h
        exact hpend k f h

end Merge

section Coverage

variable {S : System κ F} {E : Type*}

/-- A concrete state is covered at a key by a worklist and a history when some pending fact or some
processed fact of the key, or the initial fact, contains it. -/
def Covered (γ : F → Set E) (S : System κ F) (s : State κ F) (ps : List (Pop κ F)) (k : κ) (σ : E) :
    Prop :=
  (∃ f, s.pending k = some f ∧ σ ∈ γ f) ∨ (∃ p ∈ ps, S.Visits p ∧ p.key = k ∧ σ ∈ γ p.fact) ∨
    σ ∈ γ S.bot

/-- The stored fact of a key is the initial one or one that was processed there. -/
theorem stored_visited {s₀ s : State κ F} {ps : List (Pop κ F)} (hinit : ∀ k, s₀.stored k = S.bot)
    (hrun : S.Run s₀ ps s) (k : κ) :
    s.stored k = S.bot ∨ ∃ p ∈ ps, S.Visits p ∧ p.key = k ∧ p.fact = s.stored k := by
  induction hrun with
  | nil => exact .inl (hinit k)
  | @snoc t u ps q hr hstep ih =>
      cases hstep with
      | skip hp hle =>
          rcases ih with h | ⟨p, hm, hp⟩
          · exact .inl h
          · exact .inr ⟨p, List.mem_append_left _ hm, hp⟩
      | @visit k' f hp hle =>
          by_cases hk : k = k'
          · subst hk
            exact .inr ⟨⟨k, f, t.stored k⟩, by simp, hle, rfl, by simp⟩
          · rcases ih with h | ⟨p, hm, hp⟩
            · exact .inl (by simpa [Function.update_of_ne hk] using h)
            · refine .inr ⟨p, List.mem_append_left _ hm, ?_⟩
              simpa [Function.update_of_ne hk] using hp

variable {γ : F → Set E} (hle : ∀ {f g}, S.le f g → γ f ⊆ γ g)
  (hleft : ∀ f g, γ f ⊆ γ (S.join f g)) (hright : ∀ f g, γ g ⊆ γ (S.join f g))

include hle hleft hright

omit hright in
/-- **Coverage is never lost.**  A state covered before a step is covered after it: dropping a fact
is justified by the stored one, which was itself processed. -/
theorem covered_step {s₀ s t : State κ F} {ps : List (Pop κ F)} {p : Pop κ F}
    (hinit : ∀ k, s₀.stored k = S.bot) (hrun : S.Run s₀ ps s) (hstep : S.Step s p t) {k : κ} {σ : E}
    (h : Covered γ S s ps k σ) : Covered γ S t (ps ++ [p]) k σ := by
  rcases h with ⟨f, hf, hσ⟩ | ⟨q, hq, hqv, hqk, hσ⟩ | hσ
  · cases hstep with
    | @skip k' f' hp hdrop =>
        by_cases hk : k = k'
        · subst hk
          have hff : f = f' := Option.some.inj (hf.symm.trans hp)
          subst hff
          have hst : σ ∈ γ (s.stored k) := hle hdrop hσ
          rcases stored_visited hinit hrun k with hb | ⟨q, hq, hqv, hqk, hqf⟩
          · exact .inr (.inr (hb ▸ hst))
          · exact .inr (.inl ⟨q, List.mem_append_left _ hq, hqv, hqk, hqf ▸ hst⟩)
        · exact .inl ⟨f, by simpa [Function.update_of_ne hk] using hf, hσ⟩
    | @visit k' f' hp hvis =>
        by_cases hk : k = k'
        · subst hk
          have hff : f = f' := Option.some.inj (hf.symm.trans hp)
          subst hff
          exact .inr (.inl ⟨⟨k, f, s.stored k⟩, by simp, hvis, rfl, hσ⟩)
        · have hf' : Function.update s.pending k' none k = some f := by
            simpa [Function.update_of_ne hk] using hf
          obtain ⟨g, hg, hfg⟩ := merge_pending (S := S) (R := fun f g => γ f ⊆ γ g)
            (fun _ => subset_rfl) (fun h₁ h₂ => h₁.trans h₂) hleft (S.post k' f') _ hf'
          exact .inl ⟨g, hg, hfg hσ⟩
  · exact .inr (.inl ⟨q, List.mem_append_left _ hq, hqv, hqk, hσ⟩)
  · exact .inr (.inr hσ)

omit hright in
theorem covered_run {s₀ s t : State κ F} {ps qs : List (Pop κ F)}
    (hinit : ∀ k, s₀.stored k = S.bot) (hrun : S.Run s₀ ps s) (hrest : S.Run s qs t) {k : κ} {σ : E}
    (h : Covered γ S s ps k σ) : Covered γ S t (ps ++ qs) k σ := by
  induction hrest with
  | nil => simpa using h
  | snoc hr hstep ih =>
      rw [← List.append_assoc]
      exact covered_step hle hleft hinit (hrun.trans hr) hstep ih

/-- **The consequences of a processed fact are covered** when the run ends with them. -/
theorem covered_post {s₀ s : State κ F} {ps : List (Pop κ F)} (hinit : ∀ k, s₀.stored k = S.bot)
    (hrun : S.Run s₀ ps s) {p : Pop κ F} (hp : p ∈ ps) (hv : S.Visits p) {k : κ} {g : F}
    (hg : (k, g) ∈ S.post p.key p.fact) {σ : E} (hσ : σ ∈ γ g) : Covered γ S s ps k σ := by
  induction hrun with
  | nil => exact absurd hp List.not_mem_nil
  | @snoc t u ps q hr hstep ih =>
      rcases List.mem_append.mp hp with hp | hp
      · exact covered_step hle hleft hinit hr hstep (ih hp)
      · rw [List.mem_singleton] at hp
        subst hp
        cases hstep with
        | skip hpend hdrop => exact absurd hv (by simp [System.Visits, hdrop])
        | visit hpend hvis =>
            obtain ⟨g', hg', hgg⟩ := merge_added (S := S) (R := fun f g => γ f ⊆ γ g)
              (fun _ => subset_rfl) (fun h₁ h₂ => h₁.trans h₂) hleft hright _
              (Function.update t.pending _ none) hg
            exact .inl ⟨g', hg', hgg hσ⟩

end Coverage

section Comparable

variable {S : System κ F}

/-- In a run of comparable pops the stored fact of every key is above all facts popped there. -/
theorem popped_le_stored (hS : S.Preorder) {s₀ s : State κ F} {ps : List (Pop κ F)}
    (hrun : S.Run s₀ ps s) (hcmp : ∀ p ∈ ps, S.Comparable p) :
    ∀ p ∈ ps, S.le p.fact (s.stored p.key) := by
  induction hrun with
  | nil => exact fun _ h => absurd h List.not_mem_nil
  | @snoc t u ps q hr hstep ih =>
      have ih := ih fun p hp => hcmp p (List.mem_append_left _ hp)
      have hq : S.Comparable q := hcmp q (by simp)
      intro p hp
      cases hstep with
      | skip hpend hdrop =>
          rcases List.mem_append.mp hp with hp | hp
          · exact ih p hp
          · rw [List.mem_singleton] at hp
            subst hp
            exact hdrop
      | @visit k f hpend hvis =>
          have hup : S.le (t.stored k) f := by
            rcases hq with h | h
            · exact absurd h (by simp [hvis])
            · exact h
          rcases List.mem_append.mp hp with hp | hp
          · by_cases hk : p.key = k
            · have hle : S.le p.fact (t.stored k) := hk ▸ ih p hp
              simpa [hk] using hS.le_trans hle hup
            · simpa [Function.update_of_ne hk] using ih p hp
          · rw [List.mem_singleton] at hp
            subst hp
            simpa using hS.le_refl f

/-- Conversely, if the stored facts are above all popped ones after a step, its pop was
comparable. -/
theorem comparable_of_popped_le (hS : S.Preorder) {s₀ s t : State κ F} {ps : List (Pop κ F)}
    {p : Pop κ F} (hinit : ∀ k, s₀.stored k = S.bot) (hrun : S.Run s₀ ps s) (hstep : S.Step s p t)
    (hup : ∀ q ∈ ps ++ [p], S.le q.fact (t.stored q.key)) : S.Comparable p := by
  cases hstep with
  | skip hpend hdrop => exact .inl hdrop
  | @visit k f hpend hvis =>
      refine .inr ?_
      rcases stored_visited hinit hrun k with hb | ⟨q, hq, _, hqk, hqf⟩
      · rw [hb]
        exact hS.bot_le f
      · have := hup q (List.mem_append_left _ hq)
        rw [hqk, hqf] at this
        simpa using this

/-- Each consequence of the stored facts is below the stored fact of its key or below a pending
fact, in a run of comparable pops. -/
theorem post_le_stored_or_pending (hS : S.Preorder) (hJ : S.UpperJoin) {s₀ s : State κ F}
    {ps : List (Pop κ F)} (hrun : S.Run s₀ ps s)
    (hcmp : ∀ p ∈ ps, S.Comparable p) {k k' : κ} {g : F}
    (hv : ∃ p ∈ ps, S.Visits p ∧ p.key = k) (hg : (k', g) ∈ S.post k (s.stored k)) :
    S.le g (s.stored k') ∨ ∃ h, s.pending k' = some h ∧ S.le g h := by
  induction hrun with
  | nil => exact absurd hv (by simp)
  | @snoc t u ps q hr hstep ih =>
      have ih := ih (fun p hp => hcmp p (List.mem_append_left _ hp))
      have hq : S.Comparable q := hcmp q (by simp)
      cases hstep with
      | @skip k₁ f hpend hdrop =>
          have hv' : ∃ p ∈ ps, S.Visits p ∧ p.key = k := by
            obtain ⟨p, hp, hpv, hpk⟩ := hv
            rcases List.mem_append.mp hp with hp | hp
            · exact ⟨p, hp, hpv, hpk⟩
            · rw [List.mem_singleton] at hp
              subst hp
              exact absurd hpv (by simp [System.Visits, hdrop])
          rcases ih hv' hg with h | ⟨h, hh, hgh⟩
          · exact .inl h
          · by_cases hk : k' = k₁
            · subst hk
              have : h = f := Option.some.inj (hh.symm.trans hpend)
              subst this
              exact .inl (hS.le_trans hgh hdrop)
            · exact .inr ⟨h, by simpa [Function.update_of_ne hk] using hh, hgh⟩
      | @visit k₁ f hpend hvis =>
          have hup : S.le (t.stored k₁) f := by
            rcases hq with h | h
            · exact absurd h (by simp [hvis])
            · exact h
          by_cases hk : k = k₁
          · subst hk
            simp only [Function.update_self] at hg
            exact .inr (merge_added (R := fun f g => S.le f g) hS.le_refl hS.le_trans hJ.le_join_left
              hJ.le_join_right _ _ hg)
          · simp only [Function.update_of_ne hk] at hg
            have hv' : ∃ p ∈ ps, S.Visits p ∧ p.key = k := by
              obtain ⟨p, hp, hpv, hpk⟩ := hv
              rcases List.mem_append.mp hp with hp | hp
              · exact ⟨p, hp, hpv, hpk⟩
              · rw [List.mem_singleton] at hp
                subst hp
                exact absurd hpk (Ne.symm hk)
            have hstored : ∀ h, S.le h (t.stored k') → S.le h (Function.update t.stored k₁ f k') := by
              intro h hh
              by_cases hk' : k' = k₁
              · subst hk'
                simpa using hS.le_trans hh hup
              · simpa [Function.update_of_ne hk'] using hh
            rcases ih hv' hg with h | ⟨h, hh, hgh⟩
            · exact .inl (hstored g h)
            · by_cases hk' : k' = k₁
              · subst hk'
                have : h = f := Option.some.inj (hh.symm.trans hpend)
                subst this
                exact .inl (by simpa using hgh)
              · have hh' : Function.update t.pending k₁ none k' = some h := by
                  simpa [Function.update_of_ne hk'] using hh
                obtain ⟨h', hh'', hle⟩ :=
                  merge_pending (R := fun f g => S.le f g) hS.le_refl hS.le_trans hJ.le_join_left
                    (S.post k₁ f) _ hh'
                exact .inr ⟨h', hh'', hS.le_trans hgh hle⟩

/-- **A run of comparable pops that empties the worklist ends in a post-fixpoint** at the keys that
were processed. -/
theorem post_le_stored (hS : S.Preorder) (hJ : S.UpperJoin) {s₀ s : State κ F} {ps : List (Pop κ F)}
    (hrun : S.Run s₀ ps s) (hend : ∀ k, s.pending k = none)
    (hcmp : ∀ p ∈ ps, S.Comparable p) {k k' : κ} {g : F}
    (hv : ∃ p ∈ ps, S.Visits p ∧ p.key = k) (hg : (k', g) ∈ S.post k (s.stored k)) :
    S.le g (s.stored k') := by
  rcases post_le_stored_or_pending hS hJ hrun hcmp hv hg with h | ⟨h, hh, _⟩
  · exact h
  · exact absurd hh (by simp [hend k'])

/-- The facts pending at the start are below the stored ones when a comparable run has emptied the
worklist. -/
theorem initial_le_stored (hS : S.Preorder) (hJ : S.UpperJoin) {s₀ s : State κ F}
    {ps : List (Pop κ F)} (hrun : S.Run s₀ ps s) (hend : ∀ k, s.pending k = none)
    (hcmp : ∀ p ∈ ps, S.Comparable p) {k : κ} {f : F} (hf : s₀.pending k = some f) :
    S.le f (s.stored k) := by
  have key : (∃ p ∈ ps, p.key = k ∧ S.le f p.fact) ∨ ∃ g, s.pending k = some g ∧ S.le f g := by
    clear hend hcmp
    induction hrun with
    | nil => exact .inr ⟨f, hf, hS.le_refl f⟩
    | @snoc t u ps q hr hstep ih =>
        rcases ih with ⟨p, hp, hpk, hle⟩ | ⟨g, hg, hle⟩
        · exact .inl ⟨p, List.mem_append_left _ hp, hpk, hle⟩
        · by_cases hk : q.key = k
          · refine .inl ⟨q, by simp, hk, ?_⟩
            have : q.fact = g := by
              cases hstep <;> cases hk <;> exact Option.some.inj (Eq.trans (Eq.symm ‹_›) hg)
            rwa [this]
          · cases hstep with
            | skip hpend _ =>
                exact .inr ⟨g, by simpa [Function.update_of_ne (Ne.symm hk)] using hg, hle⟩
            | @visit k₁ f₁ hpend _ =>
                have hg' : Function.update t.pending k₁ none k = some g := by
                  simpa [Function.update_of_ne (Ne.symm hk)] using hg
                obtain ⟨g', hg'', hle'⟩ :=
                  merge_pending (R := fun f g => S.le f g) hS.le_refl hS.le_trans hJ.le_join_left
                    (S.post k₁ f₁) _ hg'
                exact .inr ⟨g', hg'', hS.le_trans hle hle'⟩
  rcases key with ⟨p, hp, rfl, hle⟩ | ⟨g, hg, _⟩
  · exact hS.le_trans hle (popped_le_stored hS hrun hcmp p hp)
  · exact absurd hg (by simp [hend k])

end Comparable

section Bounded

variable {S : System κ F}

/-- Everything a run pops is below `st` if `st` bounds the initial facts, is closed under
processing, and the join is least. -/
theorem run_le (hS : S.Preorder) (hL : S.LeastJoin) (st : κ → F) {s₀ s : State κ F}
    {ps : List (Pop κ F)} (hinit : ∀ k f, s₀.pending k = some f → S.le f (st k))
    (hstored : ∀ k, s₀.stored k = S.bot)
    (hpost : ∀ k f, S.le f (st k) → S.le f S.bot = false → ∀ k' g, (k', g) ∈ S.post k f →
      S.le g (st k'))
    (hrun : S.Run s₀ ps s) :
    (∀ p ∈ ps, S.le p.fact (st p.key)) ∧ (∀ k f, s.pending k = some f → S.le f (st k)) ∧
      ∀ k, S.le (s.stored k) (st k) := by
  induction hrun with
  | nil => exact ⟨fun _ h => absurd h List.not_mem_nil, hinit, fun k => hstored k ▸ hS.bot_le _⟩
  | @snoc t u ps q hr hstep ih =>
      obtain ⟨hpop, hpend, hst⟩ := ih
      cases hstep with
      | @skip k f hp hdrop =>
          refine ⟨fun p hm => ?_, fun k' g hg => ?_, hst⟩
          · rcases List.mem_append.mp hm with hm | hm
            · exact hpop p hm
            · rw [List.mem_singleton] at hm
              subst hm
              exact hpend k f hp
          · by_cases hk : k' = k
            · subst hk
              simp at hg
            · exact hpend k' g (by simpa [Function.update_of_ne hk] using hg)
      | @visit k f hp hvis =>
          have hf : S.le f (st k) := hpend k f hp
          have hnb : S.le f S.bot = false := by
            cases hb : S.le f S.bot with
            | false => rfl
            | true => exact absurd (hS.le_trans hb (hS.bot_le (t.stored k))) (by simp [hvis])
          refine ⟨fun p hm => ?_, ?_, fun k' => ?_⟩
          · rcases List.mem_append.mp hm with hm | hm
            · exact hpop p hm
            · rw [List.mem_singleton] at hm
              subst hm
              exact hf
          · refine merge_bounded (P := fun k f => S.le f (st k)) (fun k f g => hL) _ _
              (fun k' g hg => ?_) (hpost k f hf hnb)
            by_cases hk : k' = k
            · subst hk
              simp at hg
            · exact hpend k' g (by simpa [Function.update_of_ne hk] using hg)
          · by_cases hk : k' = k
            · subst hk
              simpa using hf
            · simpa [Function.update_of_ne hk] using hst k'

end Bounded

section Termination

variable {S : System κ F}

/-- The keys and facts of a finite system: the pending facts stay inside. -/
structure Confined (S : System κ F) (keys : Finset κ) (facts : Finset F) (s : State κ F) : Prop where
  pending : ∀ k f, s.pending k = some f → k ∈ keys ∧ f ∈ facts

/-- A finite set of facts closed under what processing and joining produce. -/
structure Closed (S : System κ F) (keys : Finset κ) (facts : Finset F) : Prop where
  join : ∀ f ∈ facts, ∀ g ∈ facts, S.join f g ∈ facts
  post : ∀ k ∈ keys, ∀ f ∈ facts, ∀ k' g, (k', g) ∈ S.post k f → k' ∈ keys ∧ g ∈ facts

theorem Confined.step {keys : Finset κ} {facts : Finset F} (hC : Closed S keys facts)
    {s t : State κ F} {p : Pop κ F} (hs : Confined S keys facts s) (hstep : S.Step s p t) :
    Confined S keys facts t ∧ p.key ∈ keys ∧ p.fact ∈ facts := by
  have hupd : ∀ k : κ, ∀ k' f, Function.update s.pending k none k' = some f → k' ∈ keys ∧ f ∈ facts := by
    intro k k' f h
    by_cases hk : k' = k
    · subst hk
      simp at h
    · exact hs.pending k' f (by simpa [Function.update_of_ne hk] using h)
  cases hstep with
  | @skip k f hp _ => exact ⟨⟨hupd k⟩, hs.pending k f hp⟩
  | @visit k f hp _ =>
      obtain ⟨hk, hf⟩ := hs.pending k f hp
      refine ⟨⟨?_⟩, hk, hf⟩
      exact merge_bounded (P := fun k f => k ∈ keys ∧ f ∈ facts)
        (fun k f g h₁ h₂ => ⟨h₁.1, hC.join f h₁.2 g h₂.2⟩) _ _ (hupd k) (hC.post k hk f hf)

theorem Confined.run {keys : Finset κ} {facts : Finset F} (hC : Closed S keys facts)
    {s t : State κ F} {ps : List (Pop κ F)} (hs : Confined S keys facts s) (hrun : S.Run s ps t) :
    Confined S keys facts t := by
  induction hrun with
  | nil => exact hs
  | snoc _ hstep ih => exact (ih.step hC hstep).1

/-- How many facts are not yet below the stored fact of a key. -/
def room (S : System κ F) (facts : Finset F) (s : State κ F) (k : κ) : Nat :=
  (facts.filter fun f => S.le f (s.stored k) = false).card

/-- The measure of a state: room left at the keys, then pending facts. -/
def measure (S : System κ F) (keys : Finset κ) (facts : Finset F) (s : State κ F) : Nat :=
  (∑ k ∈ keys, room S facts s k) * (keys.card + 1) +
    (keys.filter fun k => (s.pending k).isSome).card

omit [DecidableEq κ] in
theorem pending_card_le (keys : Finset κ) (s : State κ F) :
    (keys.filter fun k => (s.pending k).isSome).card ≤ keys.card :=
  Finset.card_filter_le _ _

omit [DecidableEq κ] in
/-- No state of the finite system has a larger measure than this. -/
theorem measure_le (keys : Finset κ) (facts : Finset F) (s : State κ F) :
    measure S keys facts s ≤ keys.card * facts.card * (keys.card + 1) + keys.card := by
  have hroom : ∑ k ∈ keys, room S facts s k ≤ keys.card * facts.card := by
    rw [← Finset.sum_const_nat (fun _ _ => rfl)]
    exact Finset.sum_le_sum fun k _ => Finset.card_filter_le _ _
  exact Nat.add_le_add (Nat.mul_le_mul_right _ hroom) (pending_card_le keys s)

/-- Replacing the stored fact of a key by a larger one that was not below it leaves less room. -/
theorem room_visit_lt (hS : S.Preorder) {facts : Finset F} {s : State κ F} {k : κ} {f : F}
    (hf : f ∈ facts) (hvis : S.le f (s.stored k) = false) (hup : S.le (s.stored k) f)
    {pending : κ → Option F} :
    room S facts ⟨pending, Function.update s.stored k f⟩ k < room S facts s k := by
  refine Finset.card_lt_card (Finset.ssubset_iff_of_subset (fun g hg => ?_) |>.mpr ⟨f, ?_, ?_⟩)
  · simp only [Finset.mem_filter, Function.update_self] at hg ⊢
    refine ⟨hg.1, ?_⟩
    cases hb : S.le g (s.stored k) with
    | false => rfl
    | true => exact absurd (hS.le_trans hb hup) (by simp [hg.2])
  · simp [hf, hvis]
  · simp [hS.le_refl f]

theorem room_update_of_ne {facts : Finset F} {s : State κ F} {k k' : κ} {f : F} (hk : k' ≠ k)
    {pending : κ → Option F} :
    room S facts ⟨pending, Function.update s.stored k f⟩ k' = room S facts s k' := by
  simp [room, Function.update_of_ne hk]

/-- **A comparable step decreases the measure.** -/
theorem measure_step_lt (hS : S.Preorder) {keys : Finset κ} {facts : Finset F} {s t : State κ F}
    {p : Pop κ F} (hs : Confined S keys facts s) (hstep : S.Step s p t) (hcmp : S.Comparable p) :
    measure S keys facts t < measure S keys facts s := by
  cases hstep with
  | @skip k f hp hdrop =>
      have hk : k ∈ keys := (hs.pending k f hp).1
      have hlt : (keys.filter fun k' => (Function.update s.pending k none k').isSome).card <
          (keys.filter fun k' => (s.pending k').isSome).card := by
        refine Finset.card_lt_card (Finset.ssubset_iff_of_subset (fun k' hk' => ?_) |>.mpr ⟨k, ?_, ?_⟩)
        · simp only [Finset.mem_filter] at hk' ⊢
          refine ⟨hk'.1, ?_⟩
          by_cases he : k' = k
          · subst he
            simp at hk'
          · simpa [Function.update_of_ne he] using hk'.2
        · simp [hk, hp]
        · simp
      simp only [measure, room]
      omega
  | @visit k f hp hvis =>
      obtain ⟨hk, hf⟩ := hs.pending k f hp
      have hup : S.le (s.stored k) f := by
        rcases hcmp with h | h
        · exact absurd h (by simp [hvis])
        · exact h
      set u : State κ F :=
        ⟨S.merge (Function.update s.pending k none) (S.post k f), Function.update s.stored k f⟩ with hu
      have hsum : ∑ k' ∈ keys, room S facts u k' < ∑ k' ∈ keys, room S facts s k' := by
        refine Finset.sum_lt_sum (fun k' _ => ?_) ⟨k, hk, room_visit_lt hS hf hvis hup⟩
        by_cases he : k' = k
        · subst he
          exact (room_visit_lt hS hf hvis hup).le
        · exact (room_update_of_ne he).le
      have hcard := pending_card_le keys u
      have hmul : (∑ k' ∈ keys, room S facts u k' + 1) * (keys.card + 1) ≤
          (∑ k' ∈ keys, room S facts s k') * (keys.card + 1) := Nat.mul_le_mul_right _ hsum
      simp only [measure]
      rw [Nat.add_mul, Nat.one_mul] at hmul
      omega

/-- **A run of comparable pops over a finite closed set of facts is bounded** by the measure of its
start. -/
theorem run_length_le (hS : S.Preorder) {keys : Finset κ} {facts : Finset F}
    (hC : Closed S keys facts) {s t : State κ F} {ps : List (Pop κ F)} (hs : Confined S keys facts s)
    (hrun : S.Run s ps t) (hcmp : ∀ p ∈ ps, S.Comparable p) :
    ps.length + measure S keys facts t ≤ measure S keys facts s := by
  induction hrun with
  | nil => simp
  | snoc hr hstep ih =>
      have hle := ih (fun p hp => hcmp p (List.mem_append_left _ hp))
      have hlt := measure_step_lt hS (hs.run hC hr) hstep (hcmp _ (by simp))
      simp only [List.length_append, List.length_singleton]
      omega

end Termination

end Worklist
