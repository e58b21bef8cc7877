import Watts.StateSets
import Watts.Library.Fallible

/-! Phi nodes.  The transfer function joins the incoming values into a fact whose result variable has
been assigned the empty interval.  No state has a value for that variable, so nothing is left for the
assignments that follow. -/

namespace Watts

open BBOps

variable {ap : Apron} {γ : ap.Abstract1 → Set (Var → Int)} {v2n : NameMap}

/-- An incoming value that the transfer function accepts: a constant that fits an `int` and is no truth
value, or a named comparison. -/
def Incoming.Handled (v2n : NameMap) : Incoming → Prop
  | .constantInt ci => ci.bits ≠ 1 ∧ -(2 ^ 31) ≤ ci.val.toInt ∧ ci.val.toInt < 2 ^ 31
  | .cmpInst cmp => ∃ n, v2n[cmp]? = some n
  | .other => False

/-- The value of an incoming value in a state. -/
def Incoming.Value (v2n : NameMap) (τ : Var → Int) : Incoming → Int → Prop
  | .constantInt ci, x => x = ci.val.toInt
  | .cmpInst cmp, x => ∃ n, v2n[cmp]? = some n ∧ x = τ n
  | .other, _ => False

/-- The transfer function of a phi node returns, and its result has every state that takes the value
of one of the incoming values. -/
def PhiCovers (γ : ap.Abstract1 → Set (Var → Int)) (v2n : NameMap) (phi : Value)
    (incoming : List Incoming) (f : LatticeFact ap) : Prop :=
  ∃ f' n, performPhiInst v2n phi incoming f = .ok f' ∧ v2n[phi]? = some n ∧
    ∀ τ ∈ γ f.absVals, ∀ v ∈ incoming, ∀ x, v.Value v2n τ x → Function.update τ n x ∈ γ f'.absVals

theorem mapAtUnsafe_of_getElem? {α : Type} {m : Std.TreeMap Value α} {k : Value} {a : α}
    (h : m[k]? = some a) : mapAtUnsafe m k = .ok a := by
  unfold mapAtUnsafe
  rw [h]

theorem getConstantIntUnsafe_of_range {ci : ConstantInt} (h₁ : -(2 ^ 31) ≤ ci.val.toInt)
    (h₂ : ci.val.toInt < 2 ^ 31) : getConstantIntUnsafe ci = .ok ci.val.toInt :=
  if_pos ⟨h₁, h₂⟩

/-- An assignment leaves a fact without states as it is. -/
theorem Apron.Exact.assign_empty (hE : ap.Exact γ) {a : ap.Abstract1} (h : γ a = ∅) (v : Var)
    (e : LinExpr) : γ (ap.assignLinexpr a v e) = ∅ := by
  rw [hE.assignLinexpr]
  refine Set.eq_empty_of_forall_notMem ?_
  rintro τ' ⟨τ, hτ, _⟩
  rw [h] at hτ
  exact hτ

/-- The empty interval leaves no state. -/
theorem setBottom_empty (hE : ap.Exact γ) (f : LatticeFact ap) (n : Var) :
    γ (f.setBottom n).absVals = ∅ := by
  show γ (ap.assignLinexpr f.absVals n ⟨[], .bottom⟩) = ∅
  rw [hE.assignLinexpr]
  refine Set.eq_empty_of_forall_notMem ?_
  rintro τ' ⟨τ, _, x, hx, _⟩
  exact LinExpr.mem_interval.mp hx

/-- **One incoming value** adds nothing to a fact without states. -/
theorem joinIncoming_empty (hE : ap.Exact γ) {n : Var} {ret : LatticeFact ap} {v : Incoming}
    (hv : v.Handled v2n) (h : γ ret.absVals = ∅) :
    ∃ ret', joinIncoming v2n n ret v = .ok ret' ∧ γ ret'.absVals = ∅ := by
  have hjoin : ∀ e, γ (ret.factJoin ⟨ap.assignLinexpr ret.absVals n e⟩).absVals = ∅ := by
    intro e
    show γ (ap.join ret.absVals (ap.assignLinexpr ret.absVals n e)) = ∅
    rw [hE.join, hE.assign_empty h, h, Set.union_empty]
  cases v with
  | constantInt ci =>
      refine ⟨_, ?_, hjoin ⟨[], .const ci.val.toInt⟩⟩
      unfold joinIncoming
      dsimp only
      rw [getConstantIntUnsafe_of_range hv.2.1 hv.2.2]
      rfl
  | cmpInst cmp =>
      obtain ⟨m, hm⟩ := hv
      refine ⟨_, ?_, hjoin ⟨[(1, m)], .const 0⟩⟩
      unfold joinIncoming
      dsimp only
      rw [mapAtUnsafe_of_getElem? hm]
      rfl
  | other => exact absurd hv id

/-- **The result of a phi node has no states.** -/
theorem performPhiInst_empty (hE : ap.Exact γ) {phi : Value} {n : Var} (hphi : v2n[phi]? = some n)
    {incoming : List Incoming} (hin : ∀ v ∈ incoming, v.Handled v2n) (f : LatticeFact ap) :
    ∃ f', performPhiInst v2n phi incoming f = .ok f' ∧ γ f'.absVals = ∅ := by
  have hfold : ∀ ret : LatticeFact ap, γ ret.absVals = ∅ →
      ∃ f', incoming.foldlM (joinIncoming v2n n) ret = .ok f' ∧ γ f'.absVals = ∅ := by
    induction incoming with
    | nil => exact fun ret h => ⟨ret, rfl, h⟩
    | cons v incoming ih =>
        intro ret h
        obtain ⟨ret', hret', hempty⟩ := joinIncoming_empty hE (n := n) (hin v List.mem_cons_self) h
        obtain ⟨f', hf', hres⟩ := ih (fun w hw => hin w (List.mem_cons_of_mem _ hw)) ret' hempty
        exact ⟨f', Fallible.foldlM_cons_eq_ok.mpr ⟨ret', hret', hf'⟩, hres⟩
  obtain ⟨f', hf', hempty⟩ := hfold (f.setBottom n) (setBottom_empty hE f n)
  refine ⟨f', ?_, hempty⟩
  unfold performPhiInst
  rw [mapAtUnsafe_of_getElem? hphi]
  exact hf'

theorem Incoming.Handled.value {v : Incoming} (h : v.Handled v2n) (τ : Var → Int) :
    ∃ x, v.Value v2n τ x := by
  cases v with
  | constantInt ci => exact ⟨_, rfl⟩
  | cmpInst cmp =>
      obtain ⟨n, hn⟩ := h
      exact ⟨_, n, hn, rfl⟩
  | other => exact absurd h id

/-- **Phi nodes.**  With exact assignments and joins a phi node covers its incoming values exactly when
there is no state to cover. -/
theorem performPhiInst_covers_iff (hE : ap.Exact γ) (phi : Value) (hphi : (v2n[phi]?).isSome)
    (incoming : List Incoming) (hne : incoming ≠ []) (hin : ∀ v ∈ incoming, v.Handled v2n)
    (f : LatticeFact ap) : PhiCovers γ v2n phi incoming f ↔ γ f.absVals = ∅ := by
  obtain ⟨n, hn⟩ := Option.isSome_iff_exists.mp hphi
  obtain ⟨f', hf', hempty⟩ := performPhiInst_empty hE hn hin f
  constructor
  · rintro ⟨f'', m, hf'', hm, hcovers⟩
    obtain rfl : f'' = f' := Except.ok.inj (hf''.symm.trans hf')
    refine Set.eq_empty_of_forall_notMem fun τ hτ => ?_
    obtain ⟨v, hv⟩ := List.exists_mem_of_ne_nil incoming hne
    obtain ⟨x, hx⟩ := (hin v hv).value τ
    have hmem := hcovers τ hτ v hv x hx
    rw [hempty] at hmem
    exact hmem
  · intro hnone
    refine ⟨f', n, hf', hn, fun τ hτ => ?_⟩
    rw [hnone] at hτ
    exact absurd hτ (Set.notMem_empty τ)

namespace PhiOfConstant

/-- `phi i32 [5, entry]` -/
def incoming : List Incoming :=
  [.constantInt ⟨32, 5⟩]

theorem handled : ∀ v ∈ incoming, v.Handled (Box.numbered 1) := by
  intro v hv
  rw [List.mem_singleton.mp hv]
  exact ⟨by decide, by decide, by decide⟩

theorem not_covers : ¬ @PhiCovers stateSets id (Box.numbered 1) 0 incoming ⟨Set.univ⟩ := by
  have hphi : (Box.numbered 1)[(0 : Value)]? = some 0 := rfl
  obtain ⟨f', hf', hempty⟩ := performPhiInst_empty stateSets.exact hphi handled ⟨Set.univ⟩
  rintro ⟨f'', n, hf'', _, hcovers⟩
  obtain rfl : f'' = f' := Except.ok.inj (hf''.symm.trans hf')
  have hmem := hcovers (fun _ => 0) (Set.mem_univ _) _ (.head _) 5 rfl
  rw [hempty] at hmem
  exact hmem

theorem performPhiInst_covers_empty :
    @PhiCovers stateSets id (Box.numbered 1) 0 incoming ⟨(∅ : Set (Var → Int))⟩ :=
  (performPhiInst_covers_iff stateSets.exact 0 rfl incoming (by simp [incoming]) handled
    ⟨(∅ : Set (Var → Int))⟩).mpr rfl

end PhiOfConstant

end Watts
