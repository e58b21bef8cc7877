import Watts.LoadModes
import Watts.WrapAround

/-! Atomic additions.  `r = atomicrmw add p, v` reads and writes as `r = load p; t = add r, v; store t, p` do,
except that only the addition of the sequence is reduced modulo `2^w`. -/

namespace Watts

open BBOps
open Box (eval eval_update)
open Fallible (bind_eq_ok)
open Intervals (Itv)

/-- The managers for which the two are compared: those whose assignments and joins are exact, and the boxes.
A manager that relates variables loses relations in the remainder (`ByteCounter.not_behavesLike_differences`). -/
inductive Apron.Precise : (ap : Apron) → (ap.Abstract1 → Set (Var → Int)) → Prop
  | exact {ap : Apron} {γ : ap.Abstract1 → Set (Var → Int)} (sound : ap.Sound γ) (exact : ap.Exact γ) : Precise ap γ
  | boxes : Precise boxes Box.states

variable {ap : Apron} {γ : ap.Abstract1 → Set (Var → Int)}

/-- Two facts give a variable the same values. -/
def SameValues (γ : ap.Abstract1 → Set (Var → Int)) (x : Var) (f g : LatticeFact ap) : Prop :=
  ∀ k, (∃ τ ∈ γ f.absVals, τ x = k) ↔ ∃ τ ∈ γ g.absVals, τ x = k

/-- Two facts have the same states, up to the value of one variable. -/
def SameUpTo (γ : ap.Abstract1 → Set (Var → Int)) (t : Var) (f g : LatticeFact ap) : Prop :=
  ∀ τ, (∃ k, Function.update τ t k ∈ γ f.absVals) ↔ ∃ k, Function.update τ t k ∈ γ g.absVals

theorem SameUpTo.sameValues {t : Var} {f g : LatticeFact ap} (h : SameUpTo γ t f g) {x : Var} (hx : x ≠ t) :
    SameValues γ x f g := by
  have hgen : ∀ {f g : LatticeFact ap},
      (∀ τ, (∃ k, Function.update τ t k ∈ γ f.absVals) → ∃ k, Function.update τ t k ∈ γ g.absVals) →
      ∀ k, (∃ τ ∈ γ f.absVals, τ x = k) → ∃ τ ∈ γ g.absVals, τ x = k := by
    rintro f g h k ⟨τ, hτ, rfl⟩
    obtain ⟨l, hl⟩ := h τ ⟨τ t, by rwa [Function.update_eq_self]⟩
    exact ⟨_, hl, Function.update_of_ne hx _ _⟩
  exact fun k => ⟨hgen (fun τ => (h τ).mp) k, hgen (fun τ => (h τ).mpr) k⟩

theorem SameUpTo.of_eq {t : Var} {f g : LatticeFact ap} (h : γ f.absVals = γ g.absVals) : SameUpTo γ t f g := by
  intro τ
  rw [h]

theorem SameUpTo.symm {t : Var} {f g : LatticeFact ap} (h : SameUpTo γ t f g) : SameUpTo γ t g f :=
  fun τ => (h τ).symm

theorem SameUpTo.trans {t : Var} {f g k : LatticeFact ap} (h₁ : SameUpTo γ t f g) (h₂ : SameUpTo γ t g k) :
    SameUpTo γ t f k :=
  fun τ => (h₁ τ).trans (h₂ τ)

/-! ### Terms -/

namespace LatticeFact

theorem assigns_addTerm (f : LatticeFact ap) (d n : Var) (u : Term) :
    Assigns f (f.addTerm d n u) d fun τ => τ n + eval τ u := by
  cases u with
  | var w => exact assigns_addVar f d n w
  | int c => exact assigns_addInt f d n c

end LatticeFact

/-! ### Boxes -/

namespace Box

variable {b b' : List Itv} {τ : Var → Int}

theorem mem_update (h : Mem τ b) {v : Var} {x : Int} (hx : (get b v).Mem x) :
    Mem (Function.update τ v x) b := by
  intro w
  by_cases hw : w = v
  · rw [hw, Function.update_self]
    exact hx
  · rw [Function.update_of_ne hw]
    exact h w

/-- A state of an updated box, with the updated variable back inside its old bounds. -/
theorem mem_of_set {v : Var} {I : Itv} {x : Int} (h : Mem τ (set b v I)) (hx : (get b v).Mem x) :
    Mem (Function.update τ v x) b := by
  intro w
  by_cases hw : w = v
  · rw [hw, Function.update_self]
    exact hx
  · have hmem := h w
    rw [get_set, if_neg hw] at hmem
    rwa [Function.update_of_ne hw]

/-- The bounds of a sum of two distinct summands are those of the sums of their values. -/
theorem mem_sum_iff {n : Var} {u : Term} (hu : u ≠ .var n) {z : Int} :
    (sum b n u).Mem z ↔ ∃ τ, Mem τ b ∧ z = τ n + eval τ u := by
  constructor
  · intro hz
    obtain ⟨τ, hτ⟩ := exists_mem b
    cases u with
    | var w =>
        obtain ⟨x, hx, hy⟩ := Itv.exists_of_mem_add hz
        have hne : n ≠ w := fun h => hu (h ▸ rfl)
        refine ⟨_, mem_update (mem_update hτ hx) hy, ?_⟩
        rw [eval, Function.update_self, Function.update_of_ne hne, Function.update_self]
        omega
    | int c =>
        obtain ⟨x, hx, hy⟩ := Itv.exists_of_mem_add hz
        refine ⟨_, mem_update hτ hx, ?_⟩
        rw [eval, Function.update_self, ← Itv.mem_const.mp hy]
        omega
  · rintro ⟨τ, hτ, rfl⟩
    cases u with
    | var w => exact Itv.mem_add (hτ n) (hτ w)
    | int c => exact Itv.mem_add (hτ n) (Itv.mem_const.mpr rfl)

theorem get_join (a b : List Itv) (v : Nat) : get (join a b) v = (get a v).join (get b v) := by
  refine Itv.eq_of_mem_iff fun x => ⟨fun h => ?_, fun h => Itv.le_iff.mp (le_get_join a b v) x h⟩
  exact Itv.le_iff.mp (get_join_le (Itv.join_left _ _) (Itv.join_right _ _)) x h

/-- Two boxes have the same states up to one variable when they bound the others alike. -/
theorem sameUpTo_some_iff {t : Var} :
    SameUpTo states t (⟨some b⟩ : LatticeFact boxes) ⟨some b'⟩ ↔ ∀ v, v ≠ t → get b v = get b' v := by
  constructor
  · intro h v hv
    have hgen : ∀ {b b' : List Itv}, SameUpTo states t (⟨some b⟩ : LatticeFact boxes) ⟨some b'⟩ →
        ∀ x, (get b v).Mem x → (get b' v).Mem x := by
      intro b b' h x hx
      obtain ⟨τ, hτ⟩ := exists_mem b
      have hval := (h.sameValues hv x).mp ⟨_, mem_update hτ hx, Function.update_self ..⟩
      obtain ⟨τ', hτ', rfl⟩ := hval
      exact hτ' v
    exact Itv.eq_of_mem_iff fun x => ⟨hgen h x, hgen h.symm x⟩
  · intro h
    have hgen : ∀ {b b' : List Itv}, (∀ v, v ≠ t → get b v = get b' v) → ∀ τ,
        (∃ k, Mem (Function.update τ t k) b) → ∃ k, Mem (Function.update τ t k) b' := by
      rintro b b' h τ ⟨k, hk⟩
      obtain ⟨x, hx⟩ := (get b' t).exists_mem
      refine ⟨x, fun v => ?_⟩
      by_cases hv : v = t
      · rw [hv, Function.update_self]
        exact hx
      · have hmem := hk v
        rwa [Function.update_of_ne hv, h v hv, ← Function.update_of_ne hv x τ] at hmem
    exact fun τ => ⟨hgen h τ, hgen (fun v hv => (h v hv).symm) τ⟩

/-- Facts with the same states up to one variable are both bottom or both not. -/
theorem cases_of_sameUpTo {t : Var} {f g : LatticeFact boxes} (h : SameUpTo states t f g) :
    (f = ⟨none⟩ ∧ g = ⟨none⟩) ∨ ∃ b b', f = ⟨some b⟩ ∧ g = ⟨some b'⟩ ∧ ∀ v, v ≠ t → get b v = get b' v := by
  have hne : ∀ {b : List Itv}, ¬ SameUpTo states t (⟨some b⟩ : LatticeFact boxes) ⟨none⟩ := by
    intro b h
    obtain ⟨τ, hτ⟩ := exists_mem b
    obtain ⟨k, hk⟩ := (h τ).mp ⟨τ t, by rwa [Function.update_eq_self]⟩
    exact hk
  obtain ⟨a⟩ := f
  obtain ⟨a'⟩ := g
  cases a with
  | none =>
      cases a' with
      | none => exact .inl ⟨rfl, rfl⟩
      | some b' => exact absurd h.symm hne
  | some b =>
      cases a' with
      | none => exact absurd h hne
      | some b' => exact .inr ⟨b, b', rfl, rfl, sameUpTo_some_iff.mp h⟩

end Box

/-! ### What the managers do -/

/-- The value is inside the modulus. -/
def InModulus (m x : Int) : Prop :=
  -(m.natAbs : Int) < x ∧ x < m.natAbs

theorem inModulus_tmod {m : Int} (hm : m ≠ 0) (x : Int) : InModulus m (x.tmod m) := by
  have hbounds := Intervals.tmod_bounds (Int.natAbs_pos.mpr hm) x
  rwa [Intervals.tmod_natAbs] at hbounds

theorem InModulus.tmod_eq {m x : Int} (h : InModulus m x) : x.tmod m = x := by
  rw [← Intervals.tmod_natAbs]
  exact Intervals.tmod_eq_self h.1 h.2

theorem Assigns.mem_iff {f g : LatticeFact ap} {v : Var} {val : (Var → Int) → Int} (hS : ap.Sound γ)
    (hE : ap.Exact γ) (h : Assigns f g v val) {τ' : Var → Int} :
    τ' ∈ γ g.absVals ↔ ∃ τ ∈ γ f.absVals, τ' = Function.update τ v (val τ) := by
  constructor
  · exact h.exact hE
  · rintro ⟨τ, hτ, rfl⟩
    exact h.sound hS hτ

/-- With exact assignments the remainder changes no state and the copy keeps the sum. -/
theorem through_exact (hS : ap.Sound γ) (hE : ap.Exact γ) {f : LatticeFact ap} {n p t : Var} {u : Term} {m : Int}
    (htp : t ≠ p) (hsum : ∀ τ ∈ γ f.absVals, InModulus m (τ n + eval τ u)) :
    SameUpTo γ t (((f.addTerm t n u).mod t t m).assignVar p t) (f.addTerm p n u) := by
  have hadd := f.assigns_addTerm t n u
  have hmod := assigns_mod (f.addTerm t n u) t t m
  have hcopy := assigns_var ((f.addTerm t n u).mod t t m) p t
  have hthree : ∀ {τ' : Var → Int}, τ' ∈ γ (((f.addTerm t n u).mod t t m).assignVar p t).absVals ↔
      ∃ τ ∈ γ f.absVals,
        τ' = Function.update (Function.update τ t (τ n + eval τ u)) p (τ n + eval τ u) := by
    intro τ'
    rw [hcopy.mem_iff hS hE]
    constructor
    · rintro ⟨_, h₂, rfl⟩
      obtain ⟨_, h₁, rfl⟩ := hmod.exact hE h₂
      obtain ⟨τ, hτ, rfl⟩ := hadd.exact hE h₁
      refine ⟨τ, hτ, ?_⟩
      rw [Function.update_self, Function.update_self, Function.update_idem, (hsum τ hτ).tmod_eq]
    · rintro ⟨τ, hτ, rfl⟩
      have h₂ := hmod.sound hS (hadd.sound hS hτ)
      rw [Function.update_self, Function.update_idem, (hsum τ hτ).tmod_eq] at h₂
      exact ⟨_, h₂, by rw [Function.update_self]⟩
  intro τ'
  constructor
  · rintro ⟨k, hk⟩
    obtain ⟨τ, hτ, heq⟩ := hthree.mp hk
    refine ⟨τ t, ((f.assigns_addTerm p n u).mem_iff hS hE).mpr ⟨τ, hτ, ?_⟩⟩
    calc Function.update τ' t (τ t)
        = Function.update (Function.update τ' t k) t (τ t) := (Function.update_idem _ _ _).symm
      _ = Function.update (Function.update τ t (τ t)) p (τ n + eval τ u) := by
          rw [heq, Function.update_comm htp.symm, Function.update_idem]
      _ = Function.update τ p (τ n + eval τ u) := by rw [Function.update_eq_self]
  · rintro ⟨k, hk⟩
    obtain ⟨τ, hτ, heq⟩ := ((f.assigns_addTerm p n u).mem_iff hS hE).mp hk
    refine ⟨τ n + eval τ u, hthree.mpr ⟨τ, hτ, ?_⟩⟩
    calc Function.update τ' t (τ n + eval τ u)
        = Function.update (Function.update τ' t k) t (τ n + eval τ u) := (Function.update_idem _ _ _).symm
      _ = Function.update (Function.update τ t (τ n + eval τ u)) p (τ n + eval τ u) := by
          rw [heq, Function.update_comm htp.symm]

namespace Box

/-- Bounds inside the modulus are not changed by the remainder. -/
theorem through {f : LatticeFact boxes} {n p t : Var} {u : Term} {m : Int} (hun : u ≠ .var n) (hm : m ≠ 0)
    (hsum : ∀ τ ∈ states f.absVals, InModulus m (τ n + eval τ u)) :
    SameUpTo states t (((f.addTerm t n u).mod t t m).assignVar p t) (f.addTerm p n u) := by
  obtain ⟨a⟩ := f
  cases a with
  | none =>
      rw [addTerm_none, addTerm_none]
      exact .of_eq rfl
  | some b =>
      have hpos : 0 < m.natAbs := Int.natAbs_pos.mpr hm
      have hle : (sum b n u).le (Itv.ball m.natAbs hpos) := by
        refine Itv.le_iff.mpr fun z hz => ?_
        obtain ⟨τ, hτ, rfl⟩ := (mem_sum_iff hun).mp hz
        exact Itv.mem_ball.mpr (hsum τ hτ)
      have htexpr : texpr (set b t (sum b n u)) (.mod t m) = sum b n u := by
        rw [texpr, dif_pos hpos, get_set, if_pos rfl, Itv.tmod_of_le hle]
      have hmod : (⟨some (set b t (sum b n u))⟩ : LatticeFact boxes).mod t t m =
          ⟨some (set (set b t (sum b n u)) t (sum b n u))⟩ :=
        congrArg (fun I => (⟨some (set (set b t (sum b n u)) t I)⟩ : LatticeFact boxes)) htexpr
      rw [addTerm_eq, addTerm_eq, hmod, assignVar_eq]
      refine sameUpTo_some_iff.mpr fun v hv => ?_
      simp only [get_set, if_neg hv, if_true]

end Box

namespace Apron.Precise

variable (hap : ap.Precise γ) {f g f' g' : LatticeFact ap} {r p d n t : Var} {u : Term} {m : Int}
include hap

theorem isSound : ap.Sound γ := by
  cases hap with
  | exact hS _ => exact hS
  | boxes => exact Box.sound

/-- The value of a copy is a value of the original. -/
theorem copied {τ' : Var → Int} (h : τ' ∈ γ (f.assignVar d n).absVals) : ∃ τ ∈ γ f.absVals, τ' d = τ n := by
  cases hap with
  | exact _ hE =>
      obtain ⟨τ, hτ, rfl⟩ := (assigns_var f d n).exact hE h
      exact ⟨τ, hτ, Function.update_self ..⟩
  | boxes =>
      obtain ⟨a⟩ := f
      cases a with
      | none => exact absurd h id
      | some b =>
          rw [Box.assignVar_eq] at h
          have hmem := h d
          rw [Box.get_set, if_pos rfl] at hmem
          obtain ⟨τ, hτ⟩ := Box.exists_mem b
          refine ⟨_, Box.mem_update hτ hmem, ?_⟩
          rw [Function.update_self]

/-- A remainder is inside the modulus. -/
theorem mod_inside (hm : m ≠ 0) {τ : Var → Int} (h : τ ∈ γ (f.mod d n m).absVals) : InModulus m (τ d) := by
  cases hap with
  | exact _ hE =>
      obtain ⟨τ, _, rfl⟩ := (assigns_mod f d n m).exact hE h
      rw [Function.update_self]
      exact inModulus_tmod hm _
  | boxes =>
      obtain ⟨a⟩ := f
      cases a with
      | none => exact absurd h id
      | some b =>
          have hpos : 0 < m.natAbs := Int.natAbs_pos.mpr hm
          have hmem : (Box.get (Box.set b d (Box.texpr b (.mod n m))) d).Mem (τ d) := h d
          rw [Box.get_set, if_pos rfl, Box.texpr, dif_pos hpos] at hmem
          exact Itv.mem_ball.mp (Itv.le_iff.mp (Itv.tmod_le_ball _ hpos) _ hmem)

/-- **A sum inside the modulus** is the same when it is added to another variable, reduced and copied. -/
theorem through (htp : t ≠ p) (hun : u ≠ .var n) (hm : m ≠ 0)
    (hsum : ∀ τ ∈ γ f.absVals, InModulus m (τ n + eval τ u)) :
    SameUpTo γ t (((f.addTerm t n u).mod t t m).assignVar p t) (f.addTerm p n u) := by
  cases hap with
  | exact hS hE => exact through_exact hS hE htp hsum
  | boxes => exact Box.through hun hm hsum

/-- Right after `r := p` a sum with `p` is the sum with `r`. -/
theorem ownSum (hrp : r ≠ p) :
    γ ((f.assignVar r p).addTerm p p u).absVals = γ ((f.assignVar r p).addTerm p r u).absVals := by
  cases hap with
  | exact hS hE =>
      have hval : ∀ τ' ∈ γ (f.assignVar r p).absVals, τ' p = τ' r := by
        intro τ' hτ'
        obtain ⟨τ, _, rfl⟩ := (assigns_var f r p).exact hE hτ'
        rw [Function.update_self, Function.update_of_ne hrp.symm]
      ext τ'
      rw [(LatticeFact.assigns_addTerm _ p p u).mem_iff hS hE, (LatticeFact.assigns_addTerm _ p r u).mem_iff hS hE]
      refine exists_congr fun τ => and_congr_right fun hτ => ?_
      rw [hval τ hτ]
  | boxes =>
      obtain ⟨a⟩ := f
      cases a with
      | none => rfl
      | some b =>
          rw [Box.assignVar_eq, Box.addTerm_eq, Box.addTerm_eq, Box.sum_assignVar]

theorem factJoin (h : SameUpTo γ t f g) (h' : SameUpTo γ t f' g') :
    SameUpTo γ t (f.factJoin f') (g.factJoin g') := by
  cases hap with
  | exact _ hE =>
      intro τ
      have hjoin : ∀ a b : LatticeFact ap, γ (a.factJoin b).absVals = γ a.absVals ∪ γ b.absVals :=
        fun a b => hE.join a.absVals b.absVals
      rw [hjoin, hjoin]
      simp only [Set.mem_union, exists_or, h τ, h' τ]
  | boxes =>
      rcases Box.cases_of_sameUpTo h with ⟨rfl, rfl⟩ | ⟨b, c, rfl, rfl, hbc⟩
      · exact h'
      rcases Box.cases_of_sameUpTo h' with ⟨rfl, rfl⟩ | ⟨b', c', rfl, rfl, hbc'⟩
      · exact h
      refine Box.sameUpTo_some_iff.mpr fun v hv => ?_
      rw [Box.get_join, Box.get_join, hbc v hv, hbc' v hv]

/-- A loaded value is one of the pointer. -/
theorem assignVar_reads (hur : u ≠ .var r) (hup : u ≠ .var p) {τ' : Var → Int}
    (h : τ' ∈ γ (f.assignVar r p).absVals) : ∃ τ ∈ γ f.absVals, τ' r = τ p ∧ eval τ' u = eval τ u := by
  cases hap with
  | exact _ hE =>
      obtain ⟨τ, hτ, rfl⟩ := (assigns_var f r p).exact hE h
      exact ⟨τ, hτ, Function.update_self .., eval_update hur _ _⟩
  | boxes =>
      obtain ⟨a⟩ := f
      cases a with
      | none => exact absurd h id
      | some b =>
          rw [Box.assignVar_eq] at h
          have hread := h r
          rw [Box.get_set, if_pos rfl] at hread
          obtain ⟨x, hx⟩ := (Box.get b r).exists_mem
          have hbox := Box.mem_of_set h hx
          refine ⟨_, Box.mem_update hbox hread, ?_, ?_⟩
          · rw [Function.update_self]
          · rw [eval_update hup, eval_update hur]

/-- A value loaded from an interval is in the interval. -/
theorem readInterval_reads (hur : u ≠ .var r) (hup : u ≠ .var p) {I : Interval} {τ' : Var → Int}
    (h : τ' ∈ γ (f.readInterval r p I).absVals) :
    ∃ τ ∈ γ f.absVals, I.Mem (τ' r) ∧ eval τ' u = eval τ u := by
  obtain ⟨τ₁, hτ₁, hread, hu⟩ := hap.assignVar_reads hur hup h
  have hI : τ₁ ∈ γ (ap.assignLinexpr f.absVals p ⟨[], I⟩) := hτ₁
  rw [hread, hu]
  cases hap with
  | exact _ hE =>
      rw [hE.assignLinexpr] at hI
      obtain ⟨τ, hτ, x, hx, rfl⟩ := hI
      refine ⟨τ, hτ, ?_, eval_update hup _ _⟩
      rw [Function.update_self]
      exact LinExpr.mem_interval.mp hx
  | boxes =>
      obtain ⟨a⟩ := f
      cases a with
      | none => exact absurd hI id
      | some b =>
          obtain ⟨b', hb', hmem⟩ := Box.mem_states.mp hI
          obtain ⟨J, hJ, rfl⟩ := Option.map_eq_some_iff.mp hb'
          have hp := hmem p
          rw [Box.get_set, if_pos rfl] at hp
          obtain ⟨x, hx⟩ := (Box.get b p).exists_mem
          refine ⟨_, Box.mem_of_set hmem hx, ?_, (eval_update hup _ _).symm⟩
          exact (Box.ofInterval_mem hJ _).mp (by simpa [Box.terms] using hp)

end Apron.Precise

/-! ### The loaded value -/

section Loaded

/-- The interval that a load with interference assigns to its pointer. -/
def readBounds (nonCombinInterfs : Bool) (f interf : LatticeFact ap) (p : Var) : Interval :=
  if nonCombinInterfs then (f.factJoin interf).getVarInterval p else interf.getVarInterval p

/-- The values that a load of `p` reads in a state of the fact. -/
def Reads (interf : Option (LatticeFact ap)) (nonCombinInterfs : Bool) (f : LatticeFact ap) (p : Var)
    (τ : Var → Int) (x : Int) : Prop :=
  match interf with
  | none => x = τ p
  | some k => (readBounds nonCombinInterfs f k p).Mem x

/-- The fact after a load. -/
def loadedFact (interf : Option (LatticeFact ap)) (nonCombinInterfs : Bool) (f : LatticeFact ap) (r p : Var) :
    LatticeFact ap :=
  match interf with
  | none => f.assignVar r p
  | some k => f.readInterval r p (readBounds nonCombinInterfs f k p)

variable {interf : Option (LatticeFact ap)} {nonCombinInterfs : Bool} {f : LatticeFact ap} {r p : Var} {u : Term}

theorem Apron.Precise.loadedFact_reads (hap : ap.Precise γ) (hur : u ≠ .var r) (hup : u ≠ .var p)
    {τ' : Var → Int} (h : τ' ∈ γ (loadedFact interf nonCombinInterfs f r p).absVals) :
    ∃ τ ∈ γ f.absVals, Reads interf nonCombinInterfs f p τ (τ' r) ∧ eval τ' u = eval τ u := by
  cases interf with
  | none => exact hap.assignVar_reads hur hup h
  | some k => exact hap.readInterval_reads hur hup h

theorem Apron.Sound.mem_loadedFact (hS : ap.Sound γ) (hrp : r ≠ p) (hur : u ≠ .var r) (hup : u ≠ .var p)
    {τ : Var → Int} (hτ : τ ∈ γ f.absVals) {x : Int} (hx : Reads interf nonCombinInterfs f p τ x) :
    ∃ τ' ∈ γ (loadedFact interf nonCombinInterfs f r p).absVals, τ' r = x ∧ τ' p = x ∧ eval τ' u = eval τ u := by
  cases interf with
  | none =>
      obtain rfl : x = τ p := hx
      refine ⟨_, (assigns_var f r p).sound hS hτ, Function.update_self .., ?_, eval_update hur _ _⟩
      exact Function.update_of_ne hrp.symm _ _
  | some k =>
      have hp := hS.assignLinexpr p hτ (LinExpr.mem_interval.mpr hx)
      refine ⟨_, (assigns_var _ r p).sound hS hp, ?_, ?_, ?_⟩
      · rw [Function.update_self, Function.update_self]
      · rw [Function.update_of_ne hrp.symm, Function.update_self]
      · rw [eval_update hur, eval_update hup]

end Loaded

/-! ### The two instruction sequences -/

/-- `r = load p; t = add r, v; store t, p` -/
def loadAddStore (rmw : Instruction) (ptr : Value) (v : Operand) (t s : Value) : List Instruction :=
  [{ rmw with kind := .load ptr }, { rmw with id := t, kind := .binary .add (.value rmw.id) v },
    ⟨s, .store (.value t) ptr, none, []⟩]

/-- The transfer functions of instructions one after the other. -/
def transferFuncs (cx : Ctx) (interf : InterfMap ap) (nonCombinInterfs : Bool) (is : List Instruction)
    (f : LatticeFact ap) (books : Books ap) : Except Stop (LatticeFact ap × Books ap) :=
  is.foldlM (fun s i => transferFunc cx interf nonCombinInterfs s.1 i s.2) (f, books)

/-- Both return, `r` and `p` have the same values, and the facts recorded for the stores are the same up to
`t`. -/
def BehavesLike (γ : ap.Abstract1 → Set (Var → Int)) (r p t : Var) (rmw s : Value)
    (atomic sequence : Except Stop (LatticeFact ap × Books ap)) : Prop :=
  ∃ A b B b', atomic = .ok (A, b) ∧ sequence = .ok (B, b') ∧ SameValues γ r A B ∧ SameValues γ p A B ∧
    ∃ F G, b.reachStores[rmw]? = some F ∧ b'.reachStores[s]? = some G ∧ SameUpTo γ t F G

section Sequences

variable {cx : Ctx} (interf : InterfMap ap) (nonCombinInterfs : Bool) {rmw : Instruction} {ptr t s : Value}
  {v : Operand} {w : Nat} {r p tv : Var} {u : Term}

/-- The variable to which the addition of the atomic instruction adds. -/
def summand (interf : Option (LatticeFact ap)) (r p : Var) : Var :=
  match interf with
  | none => p
  | some _ => r

theorem performAssignWithInterf_ok (hr : cx.v2n[rmw.id]? = some r) (hp : cx.v2n[ptr]? = some p)
    (f k : LatticeFact ap) : performAssignWithInterf cx.v2n nonCombinInterfs rmw.id ptr f k =
      .ok (f.readInterval r p (readBounds nonCombinInterfs f k p)) := by
  cases nonCombinInterfs with
  | true => exact performAssignWithInterf_true hr hp f k
  | false =>
      have hassign := performAssign_ok hr hp (f.assignInterval p (k.getVarInterval p))
      simp only [performAssignWithInterf, performCombinAssign, mapAtUnsafe_of_getElem? hp, bind, Except.bind]
      exact hassign

theorem transferFact_load_ok (hr : cx.v2n[rmw.id]? = some r) (hp : cx.v2n[ptr]? = some p) (f : LatticeFact ap) :
    transferFact cx interf nonCombinInterfs f { rmw with kind := .load ptr } =
      .ok (loadedFact interf[rmw.id]? nonCombinInterfs f r p) := by
  unfold transferFact
  dsimp only
  cases interf[rmw.id]? with
  | none => exact performAssign_ok hr hp f
  | some k => exact performAssignWithInterf_ok nonCombinInterfs hr hp f k

/-- **Both overloads**: the operand is added to the pointer or to the loaded register. -/
theorem transferFact_atomic_ok (hk : rmw.kind = .atomicRMW .add ptr v) (hr : cx.v2n[rmw.id]? = some r)
    (hp : cx.v2n[ptr]? = some p) (hu : v.term cx.v2n = .ok u) (f : LatticeFact ap) :
    transferFact cx interf nonCombinInterfs f rmw =
      .ok ((loadedFact interf[rmw.id]? nonCombinInterfs f r p).addTerm p (summand interf[rmw.id]? r p) u) := by
  unfold transferFact
  rw [hk]
  dsimp only
  cases interf[rmw.id]? with
  | none =>
      dsimp only
      rw [performAtomicRMW, performAssign_ok hr hp]
      exact performBinOp_term hu hp hp _
  | some k =>
      dsimp only
      rw [performAtomicRMWInterf, performAssignWithInterf_ok nonCombinInterfs hr hp]
      exact performBinOp_term hu hp hr _

theorem transferFact_add_ok (hw : rmw.bitWidth = some w) (hr : cx.v2n[rmw.id]? = some r)
    (ht : cx.v2n[t]? = some tv) (hu : v.term cx.v2n = .ok u) (f : LatticeFact ap) :
    transferFact cx interf nonCombinInterfs f { rmw with id := t, kind := .binary .add (.value rmw.id) v } =
      (modulus w).map fun m => (f.addTerm tv r u).mod tv tv m := by
  have hadd := performBinOp_term hu ht hr f
  simp only [transferFact, performBinOpMod, hadd, hw, mapAtUnsafe_of_getElem? ht, bind, Except.bind]
  cases modulus w <;> rfl

theorem transferFact_store_ok (hp : cx.v2n[ptr]? = some p) (ht : cx.v2n[t]? = some tv) (f : LatticeFact ap) :
    transferFact cx interf nonCombinInterfs f ⟨s, .store (.value t) ptr, none, []⟩ = .ok (f.assignVar p tv) :=
  performAssign_ok hp ht f

theorem transferFuncs_cons {i : Instruction} {is : List Instruction} {f g : LatticeFact ap} {books : Books ap}
    (h : transferFact cx interf nonCombinInterfs f i = .ok g) :
    transferFuncs cx interf nonCombinInterfs (i :: is) f books =
      transferFuncs cx interf nonCombinInterfs is g (record books f g i) := by
  rw [transferFuncs, List.foldlM_cons, transferFunc_ok.mpr ⟨h, rfl⟩]
  rfl

/-- The fact that the sequence stores. -/
def storedFact (interf : Option (LatticeFact ap)) (nonCombinInterfs : Bool) (f : LatticeFact ap) (r p t : Var)
    (u : Term) (m : Int) : LatticeFact ap :=
  (((loadedFact interf nonCombinInterfs f r p).addTerm t r u).mod t t m).assignVar p t

/-- The sequence returns when there is a modulus. -/
theorem transferFuncs_loadAddStore (hw : rmw.bitWidth = some w) (hr : cx.v2n[rmw.id]? = some r)
    (hp : cx.v2n[ptr]? = some p) (ht : cx.v2n[t]? = some tv) (hu : v.term cx.v2n = .ok u) (f : LatticeFact ap)
    (books : Books ap) :
    transferFuncs cx interf nonCombinInterfs (loadAddStore rmw ptr v t s) f books = (modulus w).map fun m =>
      let k := storedFact interf[rmw.id]? nonCombinInterfs f r p tv u m
      (k, { books with reachStores := updateReachStores books.reachStores s k }) := by
  rw [loadAddStore, transferFuncs_cons interf nonCombinInterfs (transferFact_load_ok interf nonCombinInterfs hr hp f)]
  have hadd := transferFact_add_ok interf nonCombinInterfs hw hr ht hu
    (loadedFact interf[rmw.id]? nonCombinInterfs f r p)
  cases hm : modulus w with
  | error e =>
      rw [hm] at hadd
      rw [transferFuncs, List.foldlM_cons, transferFunc, hadd]
      rfl
  | ok m =>
      rw [hm] at hadd
      rw [transferFuncs_cons interf nonCombinInterfs hadd,
        transferFuncs_cons interf nonCombinInterfs (transferFact_store_ok interf nonCombinInterfs hp ht _)]
      rfl

end Sequences

theorem modulus_ok {w : Nat} {m : Int} (h : modulus w = .ok m) : w < 64 ∧ m.natAbs = 2 ^ w := by
  by_cases hlt : w < 63
  · rw [(modulus_eq_iff w).mpr hlt] at h
    cases h
    refine ⟨by omega, ?_⟩
    rw [Int.natAbs_pow]
    rfl
  · by_cases hw : w = 63
    · subst hw
      cases h
      decide
    · rw [modulus, if_neg (by omega)] at h
      cases h

theorem modulus_isOk {w : Nat} (h : w < 64) : ∃ m, modulus w = .ok m :=
  ⟨_, if_pos h⟩

theorem getElem?_updateReachStores (m : Std.TreeMap Value (LatticeFact ap)) (i : Value) (f : LatticeFact ap) :
    (updateReachStores m i f)[i]? = some ((m[i]?.map f.factJoin).getD f) := by
  unfold updateReachStores joinInto
  cases m[i]? <;> simp

/-- Facts that are the same up to a variable are recorded as such. -/
theorem Apron.Precise.recorded (hap : ap.Precise γ) {m m' : Std.TreeMap Value (LatticeFact ap)} {i j : Value} {t : Var}
    {f g : LatticeFact ap} (hold : Option.Rel (SameUpTo γ t) m[i]? m'[j]?) (h : SameUpTo γ t f g) :
    ∃ F G, (updateReachStores m i f)[i]? = some F ∧ (updateReachStores m' j g)[j]? = some G ∧ SameUpTo γ t F G := by
  refine ⟨_, _, getElem?_updateReachStores m i f, getElem?_updateReachStores m' j g, ?_⟩
  cases hi : m[i]? with
  | none =>
      cases hj : m'[j]? with
      | none => exact h
      | some b =>
          rw [hi, hj] at hold
          cases hold
  | some a =>
      cases hj : m'[j]? with
      | none =>
          rw [hi, hj] at hold
          cases hold
      | some b =>
          rw [hi, hj] at hold
          cases hold with
          | some hab => exact hap.factJoin h hab

/-! ### The comparison -/

/-- Every sum of a value that the load reads and the operand fits the width. -/
def SumsFit (γ : ap.Abstract1 → Set (Var → Int)) (interf : Option (LatticeFact ap)) (nonCombinInterfs : Bool)
    (f : LatticeFact ap) (p : Var) (u : Term) (w : Nat) : Prop :=
  ∀ τ ∈ γ f.absVals, ∀ x, Reads interf nonCombinInterfs f p τ x → -(2 ^ w) < x + eval τ u ∧ x + eval τ u < 2 ^ w

section Comparison

variable {cx : Ctx} {interf : InterfMap ap} {nonCombinInterfs : Bool} {rmw : Instruction} {ptr t s : Value}
  {v : Operand} {w : Nat} {r p tv : Var} {u : Term} {f : LatticeFact ap} {books books' : Books ap} {m : Int}

theorem inModulus_iff (hm : m.natAbs = 2 ^ w) (x : Int) : InModulus m x ↔ -(2 ^ w) < x ∧ x < 2 ^ w := by
  unfold InModulus
  rw [hm]
  push_cast
  rfl

/-- The facts of sums inside the modulus are the same up to `t`. -/
theorem Apron.Precise.sameUpTo_storedFact (hap : ap.Precise γ) (hrp : r ≠ p) (htp : tv ≠ p) (hur : u ≠ .var r)
    (hup : u ≠ .var p) (hm : m ≠ 0) {interf : Option (LatticeFact ap)}
    (hfit : ∀ τ ∈ γ f.absVals, ∀ x, Reads interf nonCombinInterfs f p τ x → InModulus m (x + eval τ u)) :
    SameUpTo γ tv ((loadedFact interf nonCombinInterfs f r p).addTerm p (summand interf r p) u)
      (storedFact interf nonCombinInterfs f r p tv u m) := by
  have hown : γ ((loadedFact interf nonCombinInterfs f r p).addTerm p (summand interf r p) u).absVals =
      γ ((loadedFact interf nonCombinInterfs f r p).addTerm p r u).absVals := by
    cases interf with
    | none => exact hap.ownSum hrp
    | some k => rfl
  refine (SameUpTo.of_eq hown).trans (hap.through htp hur hm fun τ' hτ' => ?_).symm
  obtain ⟨τ, hτ, hread, heval⟩ := hap.loadedFact_reads hur hup hτ'
  rw [heval]
  exact hfit τ hτ _ hread

/-- The atomic addition gives its pointer every sum. -/
theorem Apron.Sound.mem_atomic (hS : ap.Sound γ) (hrp : r ≠ p) (hur : u ≠ .var r) (hup : u ≠ .var p)
    {interf : Option (LatticeFact ap)} {τ : Var → Int} (hτ : τ ∈ γ f.absVals) {x : Int}
    (hx : Reads interf nonCombinInterfs f p τ x) :
    ∃ τ' ∈ γ ((loadedFact interf nonCombinInterfs f r p).addTerm p (summand interf r p) u).absVals,
      τ' p = x + eval τ u := by
  obtain ⟨τ₁, hτ₁, hr, hp, hu⟩ := hS.mem_loadedFact hrp hur hup hτ hx
  refine ⟨_, (LatticeFact.assigns_addTerm _ p (summand interf r p) u).sound hS hτ₁, ?_⟩
  rw [Function.update_self, hu]
  cases interf with
  | none => rw [summand, hp]
  | some k => rw [summand, hr]

/-- The sequence gives its pointer only values inside the modulus. -/
theorem Apron.Precise.storedFact_inside (hap : ap.Precise γ) (hm : m ≠ 0) {interf : Option (LatticeFact ap)}
    {τ : Var → Int} (hτ : τ ∈ γ (storedFact interf nonCombinInterfs f r p tv u m).absVals) : InModulus m (τ p) := by
  obtain ⟨τ₁, hτ₁, heq⟩ := hap.copied hτ
  rw [heq]
  exact hap.mod_inside hm hτ₁

variable (hap : ap.Precise γ) (hk : rmw.kind = .atomicRMW .add ptr v) (hw : rmw.bitWidth = some w)
  (hr : cx.v2n[rmw.id]? = some r) (hp : cx.v2n[ptr]? = some p) (ht : cx.v2n[t]? = some tv)
  (hu : v.term cx.v2n = .ok u) (hrp : r ≠ p) (htr : tv ≠ r) (htp : tv ≠ p) (hur : u ≠ .var r) (hup : u ≠ .var p)
include hap hk hw hr hp ht hu hrp hur hup

include htr htp in
theorem behavesLike_of_sumsFit (hold : Option.Rel (SameUpTo γ tv) books.reachStores[rmw.id]? books'.reachStores[s]?)
    (hlt : w < 64) (hfit : SumsFit γ interf[rmw.id]? nonCombinInterfs f p u w) :
    BehavesLike γ r p tv rmw.id s (transferFunc cx interf nonCombinInterfs f rmw books)
      (transferFuncs cx interf nonCombinInterfs (loadAddStore rmw ptr v t s) f books') := by
  obtain ⟨m, hm⟩ := modulus_isOk hlt
  have habs := (modulus_ok hm).2
  have hne : m ≠ 0 := by
    rintro rfl
    have hpos := Nat.two_pow_pos w
    omega
  have hsame := hap.sameUpTo_storedFact (r := r) hrp htp hur hup hne
    fun τ hτ x hx => (inModulus_iff habs _).mpr (hfit τ hτ x hx)
  have hseq := transferFuncs_loadAddStore interf nonCombinInterfs (s := s) hw hr hp ht hu f books'
  rw [hm] at hseq
  refine ⟨_, _, _, _, transferFunc_ok.mpr ⟨transferFact_atomic_ok interf nonCombinInterfs hk hr hp hu f, rfl⟩, hseq,
    hsame.sameValues htr.symm, hsame.sameValues htp.symm, ?_⟩
  rw [record, hk]
  exact hap.recorded hold hsame

theorem sumsFit_of_behavesLike
    (h : BehavesLike γ r p tv rmw.id s (transferFunc cx interf nonCombinInterfs f rmw books)
      (transferFuncs cx interf nonCombinInterfs (loadAddStore rmw ptr v t s) f books')) :
    w < 64 ∧ SumsFit γ interf[rmw.id]? nonCombinInterfs f p u w := by
  obtain ⟨A, b, B, b', hatomic, hseq, _, hvalues, _⟩ := h
  rw [transferFuncs_loadAddStore interf nonCombinInterfs hw hr hp ht hu] at hseq
  have hA := (transferFunc_ok.mp hatomic).1
  rw [transferFact_atomic_ok interf nonCombinInterfs hk hr hp hu] at hA
  cases hA
  cases hm : modulus w with
  | error e =>
      rw [hm] at hseq
      cases hseq
  | ok m =>
      rw [hm] at hseq
      cases hseq
      obtain ⟨hlt, habs⟩ := modulus_ok hm
      have hne : m ≠ 0 := by
        rintro rfl
        have hpos := Nat.two_pow_pos w
        omega
      refine ⟨hlt, fun τ hτ x hx => ?_⟩
      obtain ⟨τ', hτ', heq⟩ := (hvalues _).mp (hap.isSound.mem_atomic hrp hur hup hτ hx)
      rw [← inModulus_iff habs, ← heq]
      exact hap.storedFact_inside hne hτ'

end Comparison

/-- **Atomic additions.**  The atomic instruction behaves like the load, the addition and the store exactly when
there is a modulus and every sum is inside it. -/
theorem atomicAdd_behavesLike_iff {ap : Apron} {γ : ap.Abstract1 → Set (Var → Int)} (hap : ap.Precise γ) (cx : Ctx)
    (interf : InterfMap ap) (nonCombinInterfs : Bool) (rmw : Instruction) (ptr : Value) (v : Operand)
    (hk : rmw.kind = .atomicRMW .add ptr v) (w : Nat) (hw : rmw.bitWidth = some w) (t s : Value) (r p tv : Var)
    (u : Term) (hr : cx.v2n[rmw.id]? = some r) (hp : cx.v2n[ptr]? = some p) (ht : cx.v2n[t]? = some tv)
    (hu : v.term cx.v2n = .ok u) (hrp : r ≠ p) (htr : tv ≠ r) (htp : tv ≠ p) (hur : u ≠ .var r) (hup : u ≠ .var p)
    (f : LatticeFact ap) (books books' : Books ap)
    (hold : Option.Rel (SameUpTo γ tv) books.reachStores[rmw.id]? books'.reachStores[s]?) :
    BehavesLike γ r p tv rmw.id s (transferFunc cx interf nonCombinInterfs f rmw books)
        (transferFuncs cx interf nonCombinInterfs (loadAddStore rmw ptr v t s) f books') ↔
      w < 64 ∧ SumsFit γ interf[rmw.id]? nonCombinInterfs f p u w :=
  ⟨sumsFit_of_behavesLike hap hk hw hr hp ht hu hrp hur hup, fun ⟨hlt, hfit⟩ =>
    behavesLike_of_sumsFit hap hk hw hr hp ht hu hrp htr htp hur hup hold hlt hfit⟩

namespace ByteCounter

/-- `store i8 100, p; %3 = atomicrmw add p, 100; %1 = atomicrmw add p, 100; return`, with `p` at 0 -/
def main : Function :=
  .ofBlocks 10 [.ofInstrs 11 [⟨4, .store (.constantInt ⟨8, 100⟩) 0, none, []⟩,
    ⟨3, .atomicRMW .add 0 (.constantInt ⟨8, 100⟩), some 8, []⟩,
    ⟨1, .atomicRMW .add 0 (.constantInt ⟨8, 100⟩), some 8, []⟩] ⟨5, .ret, none, []⟩]

def cx : Ctx :=
  .single main 4

def rmw : Instruction :=
  ⟨1, .atomicRMW .add 0 (.constantInt ⟨8, 100⟩), some 8, []⟩

/-- The fact at the second addition: `p` is 200. -/
def fact : LatticeFact boxes :=
  ⟨some [.const 200, .top, .top, .const 100]⟩

def interf : InterfMap boxes :=
  .ofList [(1, fact)]

theorem mem_fact : (fun v => if v = 3 then 100 else 200) ∈ Box.states fact.absVals := by
  intro v
  match v with
  | 0 => exact Itv.mem_const.mpr rfl
  | 1 => exact Itv.mem_top _
  | 2 => exact Itv.mem_top _
  | 3 => exact Itv.mem_const.mpr rfl
  | n + 4 =>
      rw [Box.get_of_length_le (Nat.le_add_left 4 n)]
      exact Itv.mem_top _

theorem not_sumsFit {interf : Option (LatticeFact boxes)} {nonCombinInterfs : Bool}
    (h : Reads interf nonCombinInterfs fact 0 (fun v => if v = 3 then 100 else 200) 200) :
    ¬ SumsFit Box.states interf nonCombinInterfs fact 0 (.int 100) 8 :=
  fun hfit => absurd (hfit _ mem_fact 200 h).2 (by decide)

/-- **`200 + 100` is `300` after the atomic addition and `44` after the sequence**, with and without
interference. -/
theorem not_behavesLike :
    (transferFuncs cx {} false (main.instrs.take 2) (⟨some []⟩ : LatticeFact boxes) {}).toOption.map (·.1) =
        some fact ∧
      ¬ BehavesLike Box.states 1 0 2 1 6 (transferFunc cx {} false fact rmw {})
        (transferFuncs cx {} false (loadAddStore rmw 0 (.constantInt ⟨8, 100⟩) 2 6) fact {}) ∧
      ¬ BehavesLike Box.states 1 0 2 1 6 (transferFunc cx interf false fact rmw {})
        (transferFuncs cx interf false (loadAddStore rmw 0 (.constantInt ⟨8, 100⟩) 2 6) fact {}) ∧
      ¬ BehavesLike Box.states 1 0 2 1 6 (transferFunc cx interf true fact rmw {})
        (transferFuncs cx interf true (loadAddStore rmw 0 (.constantInt ⟨8, 100⟩) 2 6) fact {}) := by
  have hno : ∀ (interf : InterfMap boxes) (nonCombinInterfs : Bool),
      Reads interf[rmw.id]? nonCombinInterfs fact 0 (fun v => if v = 3 then 100 else 200) 200 →
      ¬ BehavesLike Box.states 1 0 2 1 6 (transferFunc cx interf nonCombinInterfs fact rmw {})
        (transferFuncs cx interf nonCombinInterfs (loadAddStore rmw 0 (.constantInt ⟨8, 100⟩) 2 6) fact {}) := by
    intro interf nonCombinInterfs hread h
    have hfits := sumsFit_of_behavesLike (v := .constantInt ⟨8, 100⟩) (u := .int 100) .boxes rfl rfl rfl rfl rfl rfl
      (by decide) nofun nofun h
    exact not_sumsFit hread hfits.2
  refine ⟨rfl, hno {} false rfl, hno interf false ?_, hno interf true ?_⟩
  · show (readBounds false fact fact 0).Mem 200
    exact ⟨by rintro _ ⟨⟩; decide, by rintro _ ⟨⟩; decide⟩
  · show (readBounds true fact fact 0).Mem 200
    exact ⟨by rintro _ ⟨⟩; decide, by rintro _ ⟨⟩; decide⟩

/-- The first addition behaves like its sequence. -/
theorem behavesLike_first :
    BehavesLike Box.states 1 0 2 1 6 (transferFunc cx {} false ⟨some [.const 100]⟩ rmw {})
      (transferFuncs cx {} false (loadAddStore rmw 0 (.constantInt ⟨8, 100⟩) 2 6)
        (⟨some [.const 100]⟩ : LatticeFact boxes) {}) := by
  refine (atomicAdd_behavesLike_iff .boxes cx {} false rmw 0 (.constantInt ⟨8, 100⟩) rfl 8 rfl 2 6 1 0 2 (.int 100)
    rfl rfl rfl rfl (by decide) (by decide) (by decide) nofun nofun ⟨some [.const 100]⟩ {} {} .none).mpr
    ⟨by decide, ?_⟩
  rintro τ hτ x rfl
  have hmem : τ 0 = 100 := Itv.mem_const.mp (hτ 0)
  rw [hmem, eval]
  decide

/-- `%1 = atomicrmw add p, 1` -/
def count : Instruction :=
  ⟨1, .atomicRMW .add 0 (.constantInt ⟨8, 1⟩), some 8, []⟩

/-- In the other threads `p` is between 0 and 5. -/
def counted : LatticeFact differences :=
  ⟨some ⟨[(Itv.const 0).join (.const 5)], []⟩⟩

def countInterf : InterfMap differences :=
  .ofList [(1, counted)]

def unknown : LatticeFact differences :=
  ⟨some ⟨[], []⟩⟩

/-- The fact after the atomic addition: the difference of `p` and `r` is 1. -/
def atomicFact : LatticeFact differences :=
  ⟨some ⟨[(Itv.const 1).join (.const 6), (Itv.const 0).join (.const 5)], [⟨0, 1, .const 1⟩]⟩⟩

/-- The fact after the sequence, in which the remainder has forgotten it. -/
def sequenceFact : LatticeFact differences :=
  ⟨some ⟨[(Itv.const 1).join (.const 6), (Itv.const 0).join (.const 5), (Itv.const 1).join (.const 6)],
    [⟨0, 2, .const 0⟩]⟩⟩

/-- `r = 0` and `p = t = 6` -/
def apart (v : Var) : Int :=
  if v = 1 then 0 else 6

theorem apart_mem_sequenceFact : apart ∈ Zone.states sequenceFact.absVals := by
  refine ⟨fun v => ?_, fun d hd => ?_⟩
  · rcases v with _ | _ | _ | n
    · exact Itv.mem_join_const (by decide) (by decide)
    · exact Itv.mem_join_const (by decide) (by decide)
    · exact Itv.mem_join_const (by decide) (by decide)
    · rw [Box.get_of_length_le (Nat.le_add_left 3 n)]
      exact Itv.mem_top _
  · rw [List.mem_singleton.mp hd]
    exact Itv.mem_const.mpr rfl

theorem not_sameUpTo_apart : ¬ SameUpTo Zone.states 2 atomicFact sequenceFact := by
  intro h
  obtain ⟨k, hk⟩ := (h apart).mpr ⟨6, by
    rw [show Function.update apart 2 6 = apart from Function.update_eq_self 2 apart]
    exact apart_mem_sequenceFact⟩
  have hdiff := Itv.mem_const.mp (hk.2 ⟨0, 1, .const 1⟩ (.head _))
  rw [Function.update_of_ne (by decide), Function.update_of_ne (by decide)] at hdiff
  exact absurd hdiff (by decide)

/-- **In a relational manager the sums can fit and the facts recorded still differ.** -/
theorem not_behavesLike_differences : differences.Sound Zone.states ∧
    SumsFit Zone.states countInterf[count.id]? false unknown 0 (.int 1) 8 ∧
    ¬ BehavesLike Zone.states 1 0 2 1 6 (transferFunc cx countInterf false unknown count {})
      (transferFuncs cx countInterf false (loadAddStore count 0 (.constantInt ⟨8, 1⟩) 2 6) unknown {}) := by
  refine ⟨Zone.sound, fun τ _ x hx => ?_, ?_⟩
  · obtain ⟨hinf, hsup⟩ : (readBounds false unknown counted 0).Mem x := hx
    have hl := hinf 0 rfl
    have hu := hsup 5 rfl
    rw [eval]
    omega
  · rintro ⟨A, b, B, b', hatomic, hseq, _, _, F, G, hF, hG, hsame⟩
    have hatomic' : transferFunc cx countInterf false unknown count {} =
        .ok (atomicFact, { reachStores := .insert ∅ 1 atomicFact }) := rfl
    have hseq' : transferFuncs cx countInterf false (loadAddStore count 0 (.constantInt ⟨8, 1⟩) 2 6) unknown {} =
        .ok (sequenceFact, { reachStores := .insert ∅ 6 sequenceFact }) := rfl
    cases hatomic'.symm.trans hatomic
    cases hseq'.symm.trans hseq
    cases hF
    cases hG
    exact not_sameUpTo_apart hsame

end ByteCounter

end Watts
