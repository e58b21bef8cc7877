import Watts.BoxSound

/-! Facts as sets of states, where a state gives each Apron variable its value.  A manager is sound when
its operations lose no state and its queries answer yes only for all states, and its assignments and
joins are exact when they also add none.  Boxes are sound; the sets of states themselves are exact. -/

namespace Watts

open Intervals (Itv)

/-- The values of a linear expression in a state. -/
def LinExpr.Mem (e : LinExpr) (τ : Var → Int) (x : Int) : Prop :=
  ∃ k, e.cst.Mem k ∧ x = (e.terms.map fun t => t.1 * τ t.2).sum + k

/-- The value of a tree expression; the remainder has the sign of the dividend. -/
def TExpr.eval (τ : Var → Int) : TExpr → Int
  | .add op1 op2 => τ op1 + τ op2
  | .mul cst op => cst * τ op
  | .mod op cst => (τ op).tmod cst

namespace Apron

/-- The operations lose no state. -/
structure Sound (ap : Apron) (γ : ap.Abstract1 → Set (Var → Int)) : Prop where
  assignLinexpr : ∀ {a τ} v {e : LinExpr} {x : Int}, τ ∈ γ a → e.Mem τ x →
    Function.update τ v x ∈ γ (ap.assignLinexpr a v e)
  assignTexpr : ∀ {a τ} v (e : TExpr), τ ∈ γ a →
    Function.update τ v (e.eval τ) ∈ γ (ap.assignTexpr a v e)
  joinLeft : ∀ a b, γ a ⊆ γ (ap.join a b)
  joinRight : ∀ a b, γ b ⊆ γ (ap.join a b)
  satLincons : ∀ {a c τ}, ap.satLincons a c → τ ∈ γ a → c.Holds τ
  meetLincons : ∀ {a c τ}, τ ∈ γ a → c.Holds τ → τ ∈ γ (ap.meetLincons a c)

/-- The assignments and the joins lose no state and add none. -/
structure Exact (ap : Apron) (γ : ap.Abstract1 → Set (Var → Int)) : Prop where
  assignLinexpr : ∀ a v (e : LinExpr), γ (ap.assignLinexpr a v e) =
    {τ' | ∃ τ ∈ γ a, ∃ x, e.Mem τ x ∧ τ' = Function.update τ v x}
  assignTexpr : ∀ a v (e : TExpr), γ (ap.assignTexpr a v e) =
    {τ' | ∃ τ ∈ γ a, τ' = Function.update τ v (e.eval τ)}
  join : ∀ a b, γ (ap.join a b) = γ a ∪ γ b

/-- Each single state has a fact, whose queries are answered as in that state and to which a constant
is assigned exactly; a meet keeps only states of the fact that satisfy the constraint. -/
structure Sharp (ap : Apron) (γ : ap.Abstract1 → Set (Var → Int)) (only : (Var → Int) → ap.Abstract1) :
    Prop where
  mem_only : ∀ τ, τ ∈ γ (only τ)
  satLincons : ∀ {τ c}, c.Holds τ → ap.satLincons (only τ) c
  assignConst : ∀ {τ τ' v c}, τ' ∈ γ (ap.assignLinexpr (only τ) v ⟨[], .const c⟩) →
    τ' = Function.update τ v c
  meetLincons : ∀ {a c τ}, τ ∈ γ (ap.meetLincons a c) → τ ∈ γ a ∧ c.Holds τ

end Apron

theorem LinExpr.mem_const {τ : Var → Int} {c x : Int} : (⟨[], .const c⟩ : LinExpr).Mem τ x ↔ x = c := by
  unfold LinExpr.Mem
  constructor
  · rintro ⟨k, ⟨h₁, h₂⟩, rfl⟩
    have := h₁ c rfl
    have := h₂ c rfl
    simp only [List.map_nil, List.sum_nil]
    omega
  · rintro rfl
    exact ⟨x, by simp [Interval.const, Interval.Mem], by simp⟩

theorem LinExpr.mem_var {τ : Var → Int} {w : Var} {x : Int} :
    (⟨[(1, w)], .const 0⟩ : LinExpr).Mem τ x ↔ x = τ w := by
  unfold LinExpr.Mem
  constructor
  · rintro ⟨k, ⟨h₁, h₂⟩, rfl⟩
    have := h₁ 0 rfl
    have := h₂ 0 rfl
    simp only [List.map_cons, List.map_nil, List.sum_cons, List.sum_nil]
    omega
  · rintro rfl
    exact ⟨0, by simp [Interval.const, Interval.Mem], by simp⟩

theorem LinExpr.mem_interval {τ : Var → Int} {I : Interval} {x : Int} :
    (⟨[], I⟩ : LinExpr).Mem τ x ↔ I.Mem x := by
  unfold LinExpr.Mem
  simp

/-! ### Assignments of a value -/

/-- A fact is the other one after an assignment to a variable, whose value depends on the state. -/
def Assigns {ap : Apron} (f f' : LatticeFact ap) (v : Var) (val : (Var → Int) → Int) : Prop :=
  (∃ e : LinExpr, f' = ⟨ap.assignLinexpr f.absVals v e⟩ ∧ ∀ τ x, e.Mem τ x ↔ x = val τ) ∨
    ∃ e : TExpr, f' = ⟨ap.assignTexpr f.absVals v e⟩ ∧ ∀ τ, e.eval τ = val τ

section Assigns

variable {ap : Apron} {γ : ap.Abstract1 → Set (Var → Int)} {f f' : LatticeFact ap} {v : Var}
  {val : (Var → Int) → Int}

theorem Assigns.sound (h : Assigns f f' v val) (hS : ap.Sound γ) {τ : Var → Int}
    (hτ : τ ∈ γ f.absVals) : Function.update τ v (val τ) ∈ γ f'.absVals := by
  rcases h with ⟨e, rfl, he⟩ | ⟨e, rfl, he⟩
  · exact hS.assignLinexpr v hτ ((he τ _).mpr rfl)
  · rw [← he τ]
    exact hS.assignTexpr v e hτ

theorem Assigns.exact (h : Assigns f f' v val) (hE : ap.Exact γ) {τ' : Var → Int}
    (hτ' : τ' ∈ γ f'.absVals) : ∃ τ ∈ γ f.absVals, τ' = Function.update τ v (val τ) := by
  rcases h with ⟨e, rfl, he⟩ | ⟨e, rfl, he⟩
  · rw [hE.assignLinexpr] at hτ'
    obtain ⟨τ, hτ, x, hx, rfl⟩ := hτ'
    exact ⟨τ, hτ, by rw [(he τ x).mp hx]⟩
  · rw [hE.assignTexpr] at hτ'
    obtain ⟨τ, hτ, rfl⟩ := hτ'
    exact ⟨τ, hτ, by rw [he τ]⟩

theorem assigns_int (f : LatticeFact ap) (v : Var) (c : Int) :
    Assigns f (f.assignInt v c) v fun _ => c :=
  .inl ⟨_, rfl, fun _ _ => LinExpr.mem_const⟩

theorem assigns_var (f : LatticeFact ap) (v w : Var) : Assigns f (f.assignVar v w) v fun τ => τ w :=
  .inl ⟨_, rfl, fun _ _ => LinExpr.mem_var⟩

theorem assigns_addInt (f : LatticeFact ap) (v w : Var) (c : Int) :
    Assigns f (f.addInt v w c) v fun τ => τ w + c := by
  refine .inl ⟨_, rfl, fun τ x => ?_⟩
  constructor
  · rintro ⟨k, ⟨h₁, h₂⟩, rfl⟩
    have := h₁ c rfl
    have := h₂ c rfl
    simp only [List.map_cons, List.map_nil, List.sum_cons, List.sum_nil]
    omega
  · rintro rfl
    exact ⟨c, by simp [Interval.const, Interval.Mem], by simp⟩

theorem assigns_addVar (f : LatticeFact ap) (v w w' : Var) :
    Assigns f (f.addVar v w w') v fun τ => τ w + τ w' :=
  .inr ⟨_, rfl, fun _ => rfl⟩

theorem assigns_mul (f : LatticeFact ap) (v w : Var) (c : Int) :
    Assigns f (f.mul v w c) v fun τ => c * τ w :=
  .inr ⟨_, rfl, fun _ => rfl⟩

theorem assigns_mod (f : LatticeFact ap) (v w : Var) (c : Int) :
    Assigns f (f.mod v w c) v fun τ => (τ w).tmod c :=
  .inr ⟨_, rfl, fun _ => rfl⟩

end Assigns

/-! ### Boxes -/

namespace Box

/-- The states of an abstract value of the boxes. -/
def states : boxes.Abstract1 → Set (Var → Int)
  | none => ∅
  | some b => {τ | Mem τ b}

theorem mem_states {a : boxes.Abstract1} {τ : Var → Int} :
    τ ∈ states a ↔ ∃ b, a = some b ∧ Mem τ b := by
  cases a with
  | none => simp [states]
  | some b =>
      constructor
      · exact fun h => ⟨b, rfl, h⟩
      · rintro ⟨b', hb', h⟩
        cases hb'
        exact h

theorem states_mono {a b : boxes.Abstract1} (h : boxes.isLeq a b) : states a ⊆ states b := by
  intro τ hτ
  obtain ⟨x, rfl, hx⟩ := mem_states.mp hτ
  obtain ⟨y, rfl, hle⟩ := isLeq_some.mp h
  exact mem_of_leq hle hx

theorem mem_texpr {b : List Itv} {τ : Var → Int} (h : Mem τ b) (e : TExpr) :
    (texpr b e).Mem (e.eval τ) := by
  cases e with
  | add op1 op2 => exact Itv.mem_add (h op1) (h op2)
  | mul cst op => exact Itv.mem_scale cst (h op)
  | mod op cst =>
      simp only [texpr, TExpr.eval]
      split_ifs with hc
      · have hmod := Itv.mem_tmod hc (h op)
        rwa [Intervals.tmod_natAbs] at hmod
      · exact Itv.mem_top _

theorem sound : boxes.Sound states where
  assignLinexpr {a τ} v {e x} hτ hx := by
    obtain ⟨b, rfl, hb⟩ := mem_states.mp hτ
    obtain ⟨k, hk, rfl⟩ := hx
    obtain ⟨I, hI, hmem⟩ := ofInterval_isSome hk
    refine mem_states.mpr ⟨set b v ((terms b e.terms).add I), by simp [boxes, hI], ?_⟩
    exact mem_set hb v (Itv.mem_add (mem_terms hb e.terms) hmem)
  assignTexpr {a τ} v e hτ := by
    obtain ⟨b, rfl, hb⟩ := mem_states.mp hτ
    exact mem_states.mpr ⟨_, rfl, mem_set hb v (mem_texpr hb e)⟩
  joinLeft a b := states_mono (lattice.join_left a b)
  joinRight a b := states_mono (lattice.join_right a b)
  satLincons {a c τ} hs hτ := by
    obtain ⟨b, rfl, hb⟩ := mem_states.mp hτ
    exact holds_of_entails hb hs
  meetLincons {a c τ} hτ hc := by
    obtain ⟨b, rfl, hb⟩ := mem_states.mp hτ
    obtain ⟨b', hb', hmem⟩ := meetLincons_sound hb hc
    exact mem_states.mpr ⟨b', hb', hmem⟩

end Box

/-! ### Sets of states -/

open scoped Classical in
/-- The manager whose abstract values are the sets of states, with the best operations.  The bounds of
a variable are not computed. -/
noncomputable def stateSets : Apron where
  Abstract1 := Set (Var → Int)
  bottom := ∅
  top := Set.univ
  isLeq a b := decide (a ⊆ b)
  isEq a b := decide (a = b)
  isBottom a := decide (a = ∅)
  join a b := a ∪ b
  assignLinexpr a v e := {τ' | ∃ τ ∈ a, ∃ x, e.Mem τ x ∧ τ' = Function.update τ v x}
  assignTexpr a v e := {τ' | ∃ τ ∈ a, τ' = Function.update τ v (e.eval τ)}
  boundVariable _ _ := .range none none
  satLincons (a : Set (Var → Int)) c := decide (∀ τ ∈ a, c.Holds τ)
  meetLincons a c := {τ | τ ∈ a ∧ c.Holds τ}

namespace stateSets

theorem exact : stateSets.Exact id where
  assignLinexpr _ _ _ := rfl
  assignTexpr _ _ _ := rfl
  join _ _ := rfl

theorem sound : stateSets.Sound id where
  assignLinexpr _ _ _ hτ hx := ⟨_, hτ, _, hx, rfl⟩
  assignTexpr _ _ hτ := ⟨_, hτ, rfl⟩
  joinLeft _ _ _ hτ := .inl hτ
  joinRight _ _ _ hτ := .inr hτ
  satLincons hs hτ := (@of_decide_eq_true _ (Classical.propDecidable _) hs) _ hτ
  meetLincons hτ hc := ⟨hτ, hc⟩

/-- The set of one state. -/
def only (τ : Var → Int) : stateSets.Abstract1 :=
  Set.singleton τ

theorem sharp : stateSets.Sharp id only where
  mem_only _ := rfl
  satLincons h := by
    refine @decide_eq_true _ (Classical.propDecidable _) ?_
    rintro τ' rfl
    exact h
  assignConst h := by
    obtain ⟨τ, rfl, x, hx, rfl⟩ := h
    rw [LinExpr.mem_const.mp hx]
  meetLincons h := h

end stateSets

end Watts
