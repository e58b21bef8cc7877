import Watts.WrapAround

/-! A comparison and the branch on it.  The constraint `x - c ⋈ 0` takes the negated constant in an
`int`, so for the smallest `int` it compares `x` with `2^31`.  Where that constraint is used for an
inequality test it is only too strong, but as a disequality test and as a refinement it loses states. -/

namespace Watts

open BBOps LatticeFact
open Box (eval Comparable createSubConstr_holds consHolds Names)

variable {ap : Apron} {γ : ap.Abstract1 → Set (Var → Int)} {v2n : NameMap}

/-! ### What a query says of the states -/

/-- Not two constants, and a constant on the right fits an `int`. -/
def Term.Orderable (a b : Term) : Prop :=
  match a, b with
  | .int _, .int _ => False
  | .var _, .int c => -(2 ^ 31) ≤ c ∧ c < 2 ^ 31
  | _, _ => True

/-- An inequality constraint is never too weak, also for the smallest `int`. -/
theorem ge_of_supeq {a b : Term} (h : a.Orderable b) {τ : Var → Int}
    (hc : (createSubConstr a b .supeq).Holds τ) : eval τ a ≥ eval τ b := by
  cases a <;> cases b <;>
    simp only [Term.Orderable, createSubConstr, LinCons.Holds, eval, cInt, Int.bmod, List.map_cons,
      List.map_nil, List.sum_cons, List.sum_nil] at h hc ⊢ <;>
    omega

theorem gt_of_sup {a b : Term} (h : a.Orderable b) {τ : Var → Int}
    (hc : (createSubConstr a b .sup).Holds τ) : eval τ a > eval τ b := by
  cases a <;> cases b <;>
    simp only [Term.Orderable, createSubConstr, LinCons.Holds, eval, cInt, Int.bmod, List.map_cons,
      List.map_nil, List.sum_cons, List.sum_nil] at h hc ⊢ <;>
    omega

section Queries

variable (hS : ap.Sound γ) {f : LatticeFact ap} {τ : Var → Int} (hτ : τ ∈ γ f.absVals) {a b : Term}
  (hab : a.Orderable b) (hba : b.Orderable a)
include hS hτ

theorem isGeq_sound (hab : a.Orderable b) (h : f.isGeq a b) : eval τ a ≥ eval τ b :=
  ge_of_supeq hab (hS.satLincons h hτ)

theorem isGT_sound (hab : a.Orderable b) (h : f.isGT a b) : eval τ a > eval τ b :=
  gt_of_sup hab (hS.satLincons h hτ)

include hab hba

/-- Equality is tested as two inequalities with octagons; otherwise the difference must not overflow. -/
theorem isEq_sound {useOctG : Bool} (hcmp : useOctG = false → Comparable a b) (h : f.isEq useOctG a b) :
    eval τ a = eval τ b := by
  cases useOctG with
  | false => exact (createSubConstr_holds (hcmp rfl) τ .eq).mp (hS.satLincons h hτ)
  | true =>
      simp only [isEq, isLeq, if_true, Bool.and_eq_true] at h
      have h₁ := isGeq_sound hS hτ hab h.1
      have h₂ := isGeq_sound hS hτ hba h.2
      omega

theorem isNEq_sound {useOctG : Bool} (hcmp : useOctG = false → Comparable a b)
    (h : f.isNEq useOctG a b) : eval τ a ≠ eval τ b := by
  cases useOctG with
  | false => exact (createSubConstr_holds (hcmp rfl) τ .diseq).mp (hS.satLincons h hτ)
  | true =>
      simp only [isNEq, isLT, if_true] at h
      by_cases hlt : f.isGT b a
      · have := isGT_sound hS hτ hba hlt
        omega
      · simp only [hlt, Bool.false_eq_true, if_false] at h
        have := isGT_sound hS hτ hab h
        omega

end Queries

/-! ### The result of a comparison -/

/-- The value of a truth value in a fact. -/
def truth (b : Bool) : Int :=
  if b then 1 else 0

theorem assignTrueFalse_sound (hS : ap.Sound γ) {f : LatticeFact ap} {τ : Var → Int} (hτ : τ ∈ γ f.absVals)
    (n : Var) {setTrue setFalse b : Bool} (hb : if b then setTrue = true else setFalse = true) :
    ∃ f', f.assignTrueFalse n setTrue setFalse = .ok f' ∧ Function.update τ n (truth b) ∈ γ f'.absVals := by
  have hint : ∀ c, Function.update τ n c ∈ γ (f.assignInt n c).absVals :=
    fun c => (assigns_int f n c).sound hS hτ
  have hboth : Function.update τ n (truth b) ∈
      γ (f.assignInterval n (.range (some 0) (some 1))).absVals := by
    refine hS.assignLinexpr n hτ (LinExpr.mem_interval.mpr ?_)
    cases b <;> simp [Interval.Mem, truth]
  unfold assignTrueFalse
  cases b with
  | true =>
      obtain rfl : setTrue = true := hb
      cases setFalse with
      | true => exact ⟨_, rfl, hboth⟩
      | false => exact ⟨_, rfl, hint 1⟩
  | false =>
      obtain rfl : setFalse = true := hb
      cases setTrue with
      | true => exact ⟨_, rfl, hboth⟩
      | false => exact ⟨_, rfl, hint 0⟩

/-- The common body of the comparisons returns, and covers the truth value that the queries allow. -/
theorem assignCmp_sound (hS : ap.Sound γ) {f : LatticeFact ap} {τ : Var → Int} (hτ : τ ∈ γ f.absVals)
    (n : Var) {sat unsat b : Bool} {P : Prop} (hsat : sat = true → P) (hunsat : unsat = true → ¬ P)
    (hb : P ↔ b = true) :
    ∃ f', f.assignCmp n sat unsat = .ok f' ∧ Function.update τ n (truth b) ∈ γ f'.absVals := by
  rw [Preserved.assignCmp_eq]
  refine assignTrueFalse_sound hS hτ n ?_
  cases b with
  | true =>
      have hP := hb.mpr rfl
      cases unsat with
      | true => exact absurd hP (hunsat rfl)
      | false => exact Bool.or_true _
  | false =>
      have hP : ¬ P := fun h => absurd (hb.mp h) (by decide)
      cases sat with
      | true => exact absurd (hsat rfl) hP
      | false => exact Bool.or_true _

/-- The predicates that the pass handles; a disequality needs the variable on the left. -/
def Predicate.Handled (pred : Predicate) (a : Term) : Prop :=
  pred.Signed = true ∧ (pred = .ne → ∃ v, a = .var v)

/-- **A comparison covers its truth value**, for equality tests without octagons when the difference
does not overflow. -/
theorem cmpTerms_sound (hS : ap.Sound γ) {useOctG : Bool} {f : LatticeFact ap} {τ : Var → Int}
    (hτ : τ ∈ γ f.absVals) (n : Var) {pred : Predicate} {s t : Term} (hp : pred.Handled s)
    (hst : s.Orderable t) (hts : t.Orderable s)
    (hcmp : pred = .eq ∨ pred = .ne → useOctG = false → Comparable s t) {b : Bool}
    (hb : pred.Holds (eval τ s) (eval τ t) ↔ b = true) :
    ∃ f', cmpTerms useOctG f n pred s t = .ok f' ∧ Function.update τ n (truth b) ∈ γ f'.absVals := by
  cases pred with
  | eq =>
      exact assignCmp_sound hS hτ n (fun h => isEq_sound hS hτ hst hts (hcmp (.inl rfl)) h)
        (fun h => isNEq_sound hS hτ hst hts (hcmp (.inl rfl)) h) hb
  | ne =>
      obtain ⟨v, rfl⟩ := hp.2 rfl
      exact assignCmp_sound hS hτ n (fun h => isNEq_sound hS hτ hst hts (hcmp (.inr rfl)) h)
        (fun h => not_not_intro (isEq_sound hS hτ hst hts (hcmp (.inr rfl)) h)) hb
  | sgt =>
      exact assignCmp_sound hS hτ n (fun h => isGT_sound hS hτ hst h)
        (fun h => not_lt.mpr (isGeq_sound hS hτ hts h)) hb
  | sge =>
      exact assignCmp_sound hS hτ n (fun h => isGeq_sound hS hτ hst h)
        (fun h => not_le.mpr (isGT_sound hS hτ hts h)) hb
  | slt =>
      exact assignCmp_sound hS hτ n (fun h => isGT_sound hS hτ hts h)
        (fun h => not_lt.mpr (isGeq_sound hS hτ hst h)) hb
  | sle =>
      exact assignCmp_sound hS hτ n (fun h => isGeq_sound hS hτ hts h)
        (fun h => not_le.mpr (isGT_sound hS hτ hst h)) hb
  | _ => cases hp.1

/-! ### The refinement at the branch -/

/-- A constraint that can be expressed keeps the states in which it holds. -/
theorem meetConstr_sound (hS : ap.Sound γ) {f : LatticeFact ap} {τ : Var → Int} (hτ : τ ∈ γ f.absVals)
    {s t : Term} (hst : Comparable s t) {ty : ConsType} (hc : consHolds ty (eval τ s) (eval τ t)) :
    τ ∈ γ (f.meetAndFreeConstr (createSubConstr s t ty)).absVals := by
  refine hS.meetLincons hτ ?_
  rw [createSubConstr_holds hst]
  cases ty <;> exact hc

theorem meetConstrTy_sound (hS : ap.Sound γ) {useOctG : Bool} {f : LatticeFact ap} {τ : Var → Int}
    (hτ : τ ∈ γ f.absVals) {s t : Term} (hst : Comparable s t)
    (hts : useOctG = true → Comparable t s) {ty : ConsType} (hc : consHolds ty (eval τ s) (eval τ t)) :
    τ ∈ γ (f.meetConstrTy useOctG s t ty).absVals := by
  cases ty with
  | supeq => exact meetConstr_sound hS hτ hst hc
  | sup => exact meetConstr_sound hS hτ hst hc
  | eq =>
      cases useOctG with
      | false => exact meetConstr_sound hS hτ hst hc
      | true =>
          have hle : consHolds .supeq (eval τ t) (eval τ s) := le_of_eq hc
          have hge : consHolds .supeq (eval τ s) (eval τ t) := ge_of_eq hc
          exact meetConstr_sound hS (meetConstr_sound hS hτ (hts rfl) hle) hst hge
  | diseq =>
      cases useOctG with
      | false => exact meetConstr_sound hS hτ hst hc
      | true =>
          rcases lt_or_gt_of_ne hc with hlt | hgt
          · have hc' : consHolds .sup (eval τ t) (eval τ s) := hlt
            exact hS.joinLeft _ _ (meetConstr_sound hS hτ (hts rfl) hc')
          · have hc' : consHolds .sup (eval τ s) (eval τ t) := hgt
            exact hS.joinRight _ _ (meetConstr_sound hS hτ hst hc')

/-- The constraint of a branch: whether the operands change places, and its type. -/
def Predicate.refinement : Predicate → Bool → Bool × ConsType
  | .eq, true | .ne, false => (false, .eq)
  | .eq, false | .ne, true => (false, .diseq)
  | .sgt, true | .ugt, true | .sle, false | .ule, false => (false, .sup)
  | .sgt, false | .ugt, false | .sle, true | .ule, true => (true, .supeq)
  | .sge, true | .uge, true | .slt, false | .ult, false => (false, .supeq)
  | .sge, false | .uge, false | .slt, true | .ult, true => (true, .sup)

/-- The refinement of a fact at a branch, on named operands. -/
def refineBranch (useOctG : Bool) (f : LatticeFact ap) (pred : Predicate) (s t : Term) (dir : Bool) :
    LatticeFact ap :=
  match pred.refinement dir with
  | (false, ty) => f.meetConstrTy useOctG s t ty
  | (true, ty) => f.meetConstrTy useOctG t s ty

theorem constrainICmp_eq {useOctG : Bool} {f : LatticeFact ap} {op0 op1 : Operand} {s t : Term}
    (hs : Names v2n op0 s) (ht : Names v2n op1 t) (hst : s.Orderable t) (pred : Predicate) (dir : Bool) :
    f.constrainICmp useOctG pred op0 op1 dir v2n = .ok (refineBranch useOctG f pred s t dir) := by
  have hfact : ∀ {op op' : Operand} {u w : Term} (ty : ConsType), Names v2n op u → Names v2n op' w →
      (∀ c c', ¬ (u = .int c ∧ w = .int c')) →
      f.constrainFact useOctG op op' ty v2n = .ok (f.meetConstrTy useOctG u w ty) := by
    intro op op' u w ty hu hw hne
    cases op with
    | constantInt ci =>
        cases u with
        | var m => exact absurd hu id
        | int c =>
            cases op' with
            | constantInt ci' =>
                cases w with
                | var m => exact absurd hw id
                | int c' => exact absurd ⟨rfl, rfl⟩ (hne c c')
            | value v =>
                cases w with
                | int c' => exact absurd hw id
                | var m =>
                    simp only [constrainFact, show getConstantIntUnsafe ci = .ok c from hu,
                      Operand.valueToStringUnsafe, mapAtUnsafe_of_getElem? hw, bind, Except.bind]
                    rfl
            | _ => cases w <;> exact absurd hw id
    | value v =>
        cases u with
        | int c => exact absurd hu id
        | var m =>
            cases op' with
            | constantInt ci =>
                cases w with
                | var m' => exact absurd hw id
                | int c =>
                    simp only [constrainFact, show getConstantIntUnsafe ci = .ok c from hw,
                      Operand.valueToStringUnsafe, mapAtUnsafe_of_getElem? hu, bind, Except.bind]
                    rfl
            | value v' =>
                cases w with
                | int c => exact absurd hw id
                | var m' =>
                    simp only [constrainFact, Operand.valueToStringUnsafe, mapAtUnsafe_of_getElem? hu,
                      mapAtUnsafe_of_getElem? hw, bind, Except.bind]
                    rfl
            | _ => cases w <;> exact absurd hw id
    | _ => cases u <;> exact absurd hu id
  have hne : ∀ c c', ¬ (s = .int c ∧ t = .int c') := by
    rintro c c' ⟨rfl, rfl⟩
    exact hst
  have hne' : ∀ c c', ¬ (t = .int c ∧ s = .int c') := fun c c' h => hne c' c ⟨h.2, h.1⟩
  cases pred <;> cases dir <;>
    first
    | exact hfact _ hs ht hne
    | exact hfact _ ht hs hne'

/-- What a predicate says is what its refinement says. -/
theorem refinement_holds {pred : Predicate} (hp : pred.Signed = true) {x y : Int} {b : Bool}
    (hb : pred.Holds x y ↔ b = true) :
    if (pred.refinement b).1 then consHolds (pred.refinement b).2 y x
    else consHolds (pred.refinement b).2 x y := by
  cases pred <;> cases b <;>
    simp [Predicate.Signed, Predicate.Holds, Predicate.refinement, consHolds] at hp hb ⊢ <;>
    omega

theorem refineBranch_sound (hS : ap.Sound γ) {useOctG : Bool} {f : LatticeFact ap} {τ : Var → Int}
    (hτ : τ ∈ γ f.absVals) {s t : Term} {pred : Predicate} (hp : pred.Signed = true) {b : Bool}
    (hst : (pred.refinement b).1 = false ∨ useOctG = true → Comparable s t)
    (hts : (pred.refinement b).1 = true ∨ useOctG = true → Comparable t s)
    (hb : pred.Holds (eval τ s) (eval τ t) ↔ b = true) : τ ∈ γ (refineBranch useOctG f pred s t b).absVals := by
  have hc := refinement_holds hp hb
  unfold refineBranch
  generalize pred.refinement b = r at hst hts hc
  obtain ⟨swapped, ty⟩ := r
  cases swapped with
  | false => exact meetConstrTy_sound hS hτ (hst (.inl rfl)) (fun h => hts (.inr h)) hc
  | true => exact meetConstrTy_sound hS hτ (hts (.inl rfl)) (fun h => hst (.inr h)) hc

/-- The branch on the truth value itself. -/
theorem constrainVarTF_sound (hS : ap.Sound γ) (useOctG : Bool) {f : LatticeFact ap} {τ : Var → Int}
    (hτ : τ ∈ γ f.absVals) {n : Var} {b : Bool} (hb : τ n = truth b) :
    τ ∈ γ (f.constrainVarTF useOctG n b).absVals := by
  have hst : Comparable (.var n) (.int (if b then 1 else 0)) := by cases b <;> simp [Comparable]
  have hts : Comparable (.int (if b then 1 else 0)) (.var n) := trivial
  have hc : consHolds .eq (eval τ (.var n)) (eval τ (.int (if b then 1 else 0))) := hb
  exact meetConstrTy_sound hS hτ hst (fun _ => hts) hc

/-! ### Both together -/

/-- The refinement at the branch on a comparison, with the option that adds the predicate. -/
def refineCmp (opts : Options) (f : LatticeFact ap) (n : Var) (pred : Predicate) (s t : Term)
    (b : Bool) : LatticeFact ap :=
  (if opts.constrICmp then refineBranch opts.useOctG f pred s t b else f).constrainVarTF opts.useOctG n b

theorem constrainTF_eq {opts : Options} {f : LatticeFact ap} {dst : Value} {n : Var}
    (hn : v2n[dst]? = some n) {op0 op1 : Operand} {s t : Term} (hs : Names v2n op0 s)
    (ht : Names v2n op1 t) (hst : s.Orderable t) (pred : Predicate) (b : Bool) :
    f.constrainTF opts (.icmp dst pred op0 op1) b v2n = .ok (refineCmp opts f n pred s t b) := by
  unfold LatticeFact.constrainTF refineCmp
  rw [show (Condition.icmp dst pred op0 op1).val = dst from rfl, mapAtUnsafe_of_getElem? hn]
  cases opts.constrICmp with
  | true =>
      simp only [bind, Except.bind, constrainICmp_eq hs ht hst]
      rfl
  | false => rfl

theorem performAssignCmp_eq {useOctG : Bool} {f : LatticeFact ap} {dst : Value} {n : Var}
    (hn : v2n[dst]? = some n) {op0 op1 : Operand} {s t : Term} (hs : Names v2n op0 s)
    (ht : Names v2n op1 t) (hmixed : (∃ m c, s = .var m ∧ t = .int c) ∨ ∃ c m, s = .int c ∧ t = .var m)
    (pred : Predicate) :
    performAssignCmp useOctG v2n dst op0 op1 f pred = cmpTerms useOctG f n pred s t := by
  have hdst := mapAtUnsafe_of_getElem? hn
  rcases hmixed with ⟨m, c, rfl, rfl⟩ | ⟨c, m, rfl, rfl⟩
  · cases op0 with
    | value v =>
        cases op1 with
        | constantInt ci =>
            simp only [performAssignCmp, show getConstantIntUnsafe ci = .ok c from ht, hdst,
              mapAtUnsafe_of_getElem? hs, bind, Except.bind]
        | _ => exact absurd ht id
    | _ => exact absurd hs id
  · cases op0 with
    | constantInt ci =>
        cases op1 with
        | value v =>
            simp only [performAssignCmp, show getConstantIntUnsafe ci = .ok c from hs, hdst,
              mapAtUnsafe_of_getElem? ht, bind, Except.bind]
        | _ => exact absurd ht id
    | _ => exact absurd hs id

/-- The comparisons that lose no state: the smallest `int` may be compared with only where its
negation is not needed. -/
def CmpSafe (opts : Options) (pred : Predicate) : Term → Term → Prop
  | .var _, .int c => c = -(2 ^ 31) →
      opts.constrICmp = false ∧ (pred = .eq ∨ pred = .ne → opts.useOctG = true)
  | .int c, .var _ => c = -(2 ^ 31) → opts.constrICmp = true → pred = .eq ∧ opts.useOctG = false
  | _, _ => True

/-- The comparison returns, and the state keeps its truth value through it and through the branch. -/
def CmpKeptAt (γ : ap.Abstract1 → Set (Var → Int)) (opts : Options) (n : Var) (pred : Predicate)
    (s t : Term) (f : LatticeFact ap) (τ : Var → Int) (b : Bool) : Prop :=
  ∃ f₁, cmpTerms opts.useOctG f n pred s t = .ok f₁ ∧
    Function.update τ n (truth b) ∈ γ f₁.absVals ∧
    Function.update τ n (truth b) ∈ γ (refineCmp opts f₁ n pred s t b).absVals

/-- In every fact of a sound manager, every state keeps its truth value. -/
def CmpKept (opts : Options) (n : Var) (pred : Predicate) (s t : Term) : Prop :=
  ∀ (ap : Apron) (γ : ap.Abstract1 → Set (Var → Int)), ap.Sound γ →
    ∀ (f : LatticeFact ap) (τ : Var → Int) (b : Bool), τ ∈ γ f.absVals →
      (pred.Holds (eval τ s) (eval τ t) ↔ b = true) → CmpKeptAt γ opts n pred s t f τ b

/-- A variable other than the destination, and a constant that fits an `int`. -/
def CmpTerms (n : Var) : Term → Term → Prop
  | .var m, .int c => m ≠ n ∧ -(2 ^ 31) ≤ c ∧ c < 2 ^ 31
  | .int c, .var m => m ≠ n ∧ -(2 ^ 31) ≤ c ∧ c < 2 ^ 31
  | _, _ => False

theorem CmpTerms.orderable {n : Var} {s t : Term} (h : CmpTerms n s t) :
    s.Orderable t ∧ t.Orderable s := by
  cases s <;> cases t <;> simp only [CmpTerms, Term.Orderable] at h ⊢
  · exact ⟨h.2, trivial⟩
  · exact ⟨trivial, h.2⟩

theorem CmpTerms.eval_update {n : Var} {s t : Term} (h : CmpTerms n s t) (τ : Var → Int) (x : Int) :
    eval (Function.update τ n x) s = eval τ s ∧ eval (Function.update τ n x) t = eval τ t := by
  cases s <;> cases t <;> simp only [CmpTerms] at h
  · exact ⟨Function.update_of_ne h.1 _ _, rfl⟩
  · exact ⟨rfl, Function.update_of_ne h.1 _ _⟩

theorem cmpTerms_sound_of_safe (hS : ap.Sound γ) {opts : Options} {n : Var} {pred : Predicate} {s t : Term}
    (hterms : CmpTerms n s t) (hp : pred.Handled s) (hsafe : CmpSafe opts pred s t) {f : LatticeFact ap}
    {τ : Var → Int} (hτ : τ ∈ γ f.absVals) {b : Bool} (hb : pred.Holds (eval τ s) (eval τ t) ↔ b = true) :
    ∃ f', cmpTerms opts.useOctG f n pred s t = .ok f' ∧ Function.update τ n (truth b) ∈ γ f'.absVals := by
  obtain ⟨hst, hts⟩ := hterms.orderable
  refine cmpTerms_sound hS hτ n hp hst hts ?_ hb
  intro heq hoct
  cases s <;> cases t <;> simp only [CmpTerms, CmpSafe, Comparable] at hterms hsafe ⊢
  by_contra hc
  obtain ⟨_, hoct'⟩ := hsafe (by omega)
  rw [hoct' heq] at hoct
  cases hoct

/-- The branch keeps a state whose truth value is the one of the comparison. -/
theorem refineCmp_sound (hS : ap.Sound γ) {opts : Options} {n : Var} {pred : Predicate} {s t : Term}
    (hterms : CmpTerms n s t) (hp : pred.Handled s) (hsafe : CmpSafe opts pred s t) {f : LatticeFact ap}
    {τ : Var → Int} (hτ : τ ∈ γ f.absVals) {b : Bool} (hn : τ n = truth b)
    (hb : pred.Holds (eval τ s) (eval τ t) ↔ b = true) : τ ∈ γ (refineCmp opts f n pred s t b).absVals := by
  refine constrainVarTF_sound hS opts.useOctG ?_ hn
  cases hconstr : opts.constrICmp with
  | false => exact hτ
  | true =>
      refine refineBranch_sound hS hτ hp.1 ?_ ?_ hb
      · intro _
        cases s <;> cases t <;> simp only [CmpTerms, CmpSafe, Comparable, hconstr] at hterms hsafe ⊢
        by_contra hc
        exact absurd (hsafe (by omega)).1 (by simp)
      · intro hswap
        cases s <;> cases t <;> simp only [CmpTerms, CmpSafe, Comparable, hconstr] at hterms hsafe ⊢
        by_contra hc
        obtain ⟨rfl, hoct⟩ := hsafe (by omega) trivial
        rw [hoct] at hswap
        cases b <;> simp [Predicate.refinement] at hswap

theorem cmpKept_of_safe {opts : Options} {n : Var} {pred : Predicate} {s t : Term}
    (hterms : CmpTerms n s t) (hp : pred.Handled s) (hsafe : CmpSafe opts pred s t) :
    CmpKept opts n pred s t := by
  intro ap γ hS f τ b hτ hb
  obtain ⟨f₁, hf₁, hmem⟩ := cmpTerms_sound_of_safe hS hterms hp hsafe hτ hb
  obtain ⟨heval₁, heval₂⟩ := hterms.eval_update τ (truth b)
  refine ⟨f₁, hf₁, hmem, refineCmp_sound hS hterms hp hsafe hmem (Function.update_self ..) ?_⟩
  rw [heval₁, heval₂]
  exact hb

/-! ### The smallest `int` -/

/-- The constraint that `x` compares with the smallest `int` compares it with `2^31`. -/
theorem le_of_holds_min {m : Var} (ty : ConsType) (hty : ty ≠ .diseq) {τ : Var → Int}
    (h : (createSubConstr (.var m) (.int (-(2 ^ 31))) ty).Holds τ) : 2 ^ 31 ≤ τ m := by
  cases ty <;>
    simp only [createSubConstr, LinCons.Holds, cInt, Int.bmod, List.map_cons, List.map_nil,
      List.sum_cons, List.sum_nil] at h <;>
    first
    | omega
    | exact absurd rfl hty

/-- The state in which one variable is set and the others are zero. -/
def single (m : Var) (x : Int) : Var → Int :=
  Function.update (fun _ => 0) m x

@[simp] theorem single_self (m : Var) (x : Int) : single m x m = x :=
  Function.update_self _ _ _

theorem update_single {m n : Var} (hmn : m ≠ n) (x y : Int) : Function.update (single m x) n y m = x := by
  rw [Function.update_of_ne hmn]
  exact single_self m x

/-- Queries that decide a comparison. -/
theorem assignCmp_of_decided {f : LatticeFact ap} {n : Var} {sat unsat b : Bool} {P : Prop}
    (hsat : sat = true ↔ P) (hunsat : unsat = true ↔ ¬ P) (hb : P ↔ b = true) :
    f.assignCmp n sat unsat = .ok (f.assignInt n (truth b)) := by
  rw [hb] at hsat hunsat
  cases b <;> cases sat <;> cases unsat <;> simp at hsat hunsat <;> rfl

section Sharp

variable {only : (Var → Int) → ap.Abstract1} (hS : ap.Sound γ) (hsharp : ap.Sharp γ only)
include hsharp

include hS in
theorem isSat_only {τ : Var → Int} {c : LinCons} :
    (⟨only τ⟩ : LatticeFact ap).isSat c = true ↔ c.Holds τ :=
  ⟨fun h => hS.satLincons h (hsharp.mem_only τ), hsharp.satLincons⟩

theorem assignInt_only {τ τ' : Var → Int} {n : Var} {c : Int}
    (h : τ' ∈ γ ((⟨only τ⟩ : LatticeFact ap).assignInt n c).absVals) : τ' = Function.update τ n c :=
  hsharp.assignConst h

/-- What is left of a fact by a refinement with the smallest `int`. -/
theorem le_of_mem_meetConstrTy {useOctG : Bool} {f : LatticeFact ap} {τ : Var → Int} {m : Var}
    {ty : ConsType} (hty : ty ≠ .diseq)
    (h : τ ∈ γ (f.meetConstrTy useOctG (.var m) (.int (-(2 ^ 31))) ty).absVals) : 2 ^ 31 ≤ τ m := by
  cases ty with
  | supeq => exact le_of_holds_min .supeq hty (hsharp.meetLincons h).2
  | sup => exact le_of_holds_min .sup hty (hsharp.meetLincons h).2
  | eq =>
      cases useOctG with
      | false => exact le_of_holds_min .eq hty (hsharp.meetLincons h).2
      | true => exact le_of_holds_min .supeq (by decide) (hsharp.meetLincons h).2
  | diseq => exact absurd rfl hty

theorem le_of_mem_meetEq {f : LatticeFact ap} {τ : Var → Int} {m : Var}
    (h : τ ∈ γ (f.meetConstrTy true (.int (-(2 ^ 31))) (.var m) .eq).absVals) : 2 ^ 31 ≤ τ m :=
  le_of_holds_min .supeq (by decide) (hsharp.meetLincons (hsharp.meetLincons h).1).2

theorem mem_of_constrainVarTF {useOctG : Bool} {f : LatticeFact ap} {τ : Var → Int} {n : Var} {b : Bool}
    (h : τ ∈ γ (f.constrainVarTF useOctG n b).absVals) : τ ∈ γ f.absVals := by
  cases useOctG with
  | false => exact (hsharp.meetLincons h).1
  | true => exact (hsharp.meetLincons (hsharp.meetLincons h).1).1

theorem CmpKeptAt.refineBranch {opts : Options} {n : Var} {pred : Predicate} {s t : Term}
    {f : LatticeFact ap} {τ : Var → Int} {b : Bool} (h : CmpKeptAt γ opts n pred s t f τ b)
    (hconstr : opts.constrICmp = true) : ∃ f₁ : LatticeFact ap,
      Function.update τ n (truth b) ∈ γ (refineBranch opts.useOctG f₁ pred s t b).absVals := by
  obtain ⟨f₁, _, _, hmem⟩ := h
  have hleft := mem_of_constrainVarTF hsharp hmem
  rw [hconstr, if_pos rfl] at hleft
  exact ⟨f₁, hleft⟩

/-- A refinement with the smallest `int` loses the states in which the variable is an `int`. -/
theorem not_mem_meetConstrTy {useOctG : Bool} {f : LatticeFact ap} {m n : Var} (hmn : m ≠ n) {ty : ConsType}
    (hty : ty ≠ .diseq) {x : Int} (hx : x < 2 ^ 31) (y : Int) : Function.update (single m x) n y ∉
      γ (f.meetConstrTy useOctG (.var m) (.int (-(2 ^ 31))) ty).absVals := by
  intro hmem
  have hle := le_of_mem_meetConstrTy hsharp hty hmem
  rw [update_single hmn] at hle
  omega

include hS in
/-- The disequality test is certain of the smallest `int`, also where the variable has that value. -/
theorem isNEq_min (m : Var) :
    (⟨only (single m (-(2 ^ 31)))⟩ : LatticeFact ap).isNEq false (.var m) (.int (-(2 ^ 31))) = true ∧
    (⟨only (single m (-(2 ^ 31)))⟩ : LatticeFact ap).isEq false (.var m) (.int (-(2 ^ 31))) = false := by
  constructor
  · refine (isSat_only hS hsharp).mpr ?_
    simp [createSubConstr, LinCons.Holds, cInt, Int.bmod]
  · rw [← Bool.not_eq_true]
    intro hsat
    have hholds := (isSat_only hS hsharp).mp hsat
    simp [createSubConstr, LinCons.Holds, cInt, Int.bmod] at hholds

include hS in
theorem safe_of_keptAt_var {opts : Options} {m n : Var} {c : Int} {pred : Predicate} (hmn : m ≠ n)
    (hp : pred.Handled (.var m)) (h : ∀ (x : Int) (b : Bool), (pred.Holds x c ↔ b = true) →
      CmpKeptAt γ opts n pred (.var m) (.int c) ⟨only (single m x)⟩ (single m x) b) :
    CmpSafe opts pred (.var m) (.int c) := by
  rintro rfl
  -- the state that the refinement loses, for each predicate
  have hlost : ∀ (x : Int) (b : Bool) (ty : ConsType), x < 2 ^ 31 → pred.refinement b = (false, ty) →
      ty ≠ .diseq → (pred.Holds x (-(2 ^ 31)) ↔ b = true) → opts.constrICmp = false := by
    intro x b ty hx href hty hb
    by_contra hconstr
    obtain ⟨f₁, hleft⟩ := (h x b hb).refineBranch hsharp (by simpa using hconstr)
    unfold Watts.refineBranch at hleft
    rw [href] at hleft
    exact not_mem_meetConstrTy hsharp hmn hty hx _ hleft
  refine ⟨?_, fun heq => ?_⟩
  · cases pred with
    | eq => exact hlost (-(2 ^ 31)) true .eq (by decide) rfl (by decide) (by simp [Predicate.Holds])
    | ne => exact hlost (-(2 ^ 31)) false .eq (by decide) rfl (by decide) (by simp [Predicate.Holds])
    | sgt => exact hlost 0 true .sup (by decide) rfl (by decide) (by simp [Predicate.Holds])
    | sge => exact hlost 0 true .supeq (by decide) rfl (by decide) (by simp [Predicate.Holds])
    | slt => exact hlost 0 false .supeq (by decide) rfl (by decide) (by simp [Predicate.Holds])
    | sle => exact hlost 0 false .sup (by decide) rfl (by decide) (by simp [Predicate.Holds])
    | _ => cases hp.1
  · by_contra hoct
    have hoct : opts.useOctG = false := by simpa using hoct
    obtain ⟨hneq, hnoteq⟩ := isNEq_min hS hsharp m
    rcases heq with rfl | rfl
    · obtain ⟨f₁, hf₁, hmem, _⟩ := h (-(2 ^ 31)) true (by simp [Predicate.Holds])
      unfold cmpTerms icmpEq at hf₁
      dsimp only at hf₁
      rw [hoct, hneq, hnoteq] at hf₁
      cases hf₁
      have hn := congrFun (assignInt_only hsharp hmem) n
      simp [truth] at hn
    · obtain ⟨f₁, hf₁, hmem, _⟩ := h (-(2 ^ 31)) false (by simp [Predicate.Holds])
      unfold cmpTerms icmpNEq at hf₁
      dsimp only at hf₁
      rw [hoct, hneq, hnoteq] at hf₁
      cases hf₁
      have hn := congrFun (assignInt_only hsharp hmem) n
      simp [truth] at hn

theorem safe_of_keptAt_int {opts : Options} {m n : Var} {c : Int} {pred : Predicate} (hmn : m ≠ n)
    (hp : pred.Handled (.int c)) (h : ∀ (x : Int) (b : Bool), (pred.Holds c x ↔ b = true) →
      CmpKeptAt γ opts n pred (.int c) (.var m) ⟨only (single m x)⟩ (single m x) b) :
    CmpSafe opts pred (.int c) (.var m) := by
  rintro rfl hconstr
  have hlost : ∀ (x : Int) (b : Bool) (ty : ConsType), x < 2 ^ 31 → pred.refinement b = (true, ty) →
      ty ≠ .diseq → ¬ (pred.Holds (-(2 ^ 31)) x ↔ b = true) := by
    intro x b ty hx href hty hb
    obtain ⟨f₁, hleft⟩ := (h x b hb).refineBranch hsharp hconstr
    unfold Watts.refineBranch at hleft
    rw [href] at hleft
    exact not_mem_meetConstrTy hsharp hmn hty hx _ hleft
  cases pred with
  | eq =>
      refine ⟨rfl, ?_⟩
      by_contra hoct
      have hoct : opts.useOctG = true := by simpa using hoct
      obtain ⟨f₁, hleft⟩ := (h (-(2 ^ 31)) true (by simp [Predicate.Holds])).refineBranch hsharp hconstr
      rw [hoct] at hleft
      have hle := le_of_mem_meetEq hsharp hleft
      rw [update_single hmn] at hle
      omega
  | ne =>
      obtain ⟨v, hv⟩ := hp.2 rfl
      cases hv
  | sgt => exact absurd (by simp [Predicate.Holds]) (hlost 0 false .supeq (by decide) rfl (by decide))
  | sge => exact absurd (by simp [Predicate.Holds]) (hlost 0 false .sup (by decide) rfl (by decide))
  | slt => exact absurd (by simp [Predicate.Holds]) (hlost 0 true .sup (by decide) rfl (by decide))
  | sle => exact absurd (by simp [Predicate.Holds]) (hlost 0 true .supeq (by decide) rfl (by decide))
  | _ => cases hp.1

include hS in
/-- **Nothing else is safe**, already on single states with one variable set. -/
theorem safe_of_keptAt {opts : Options} {n : Var} {pred : Predicate} {s t : Term}
    (hterms : CmpTerms n s t) (hp : pred.Handled s)
    (h : ∀ m, s = .var m ∨ t = .var m → ∀ (x : Int) (b : Bool),
      (pred.Holds (eval (single m x) s) (eval (single m x) t) ↔ b = true) →
        CmpKeptAt γ opts n pred s t ⟨only (single m x)⟩ (single m x) b) : CmpSafe opts pred s t := by
  have heval : ∀ (m : Var) (x : Int), eval (single m x) (.var m) = x := single_self
  cases s with
  | var m =>
      cases t with
      | var m' => trivial
      | int c =>
          refine safe_of_keptAt_var hS hsharp hterms.1 hp fun x b hb => h m (.inl rfl) x b ?_
          rw [heval]
          exact hb
  | int c =>
      cases t with
      | int c' => trivial
      | var m =>
          refine safe_of_keptAt_int hsharp hterms.1 hp fun x b hb => h m (.inr rfl) x b ?_
          rw [heval]
          exact hb

include hS in
/-- On a single state a comparison is decided. -/
theorem cmpTerms_only (useOctG : Bool) {τ : Var → Int} (n : Var) {pred : Predicate} {s t : Term}
    (hp : pred.Handled s) (hst : Comparable s t) (hts : Comparable t s) {b : Bool}
    (hb : pred.Holds (eval τ s) (eval τ t) ↔ b = true) :
    cmpTerms useOctG (⟨only τ⟩ : LatticeFact ap) n pred s t =
      .ok ((⟨only τ⟩ : LatticeFact ap).assignInt n (truth b)) := by
  have hsat : ∀ {u w : Term} (ty : ConsType), Comparable u w →
      ((⟨only τ⟩ : LatticeFact ap).isSat (createSubConstr u w ty) = true ↔
        consHolds ty (eval τ u) (eval τ w)) := by
    intro u w ty huw
    rw [isSat_only hS hsharp, createSubConstr_holds huw]
    cases ty <;> rfl
  have hgeq : ∀ {u w : Term}, Comparable u w →
      ((⟨only τ⟩ : LatticeFact ap).isGeq u w = true ↔ eval τ u ≥ eval τ w) := hsat .supeq
  have hgt : ∀ {u w : Term}, Comparable u w →
      ((⟨only τ⟩ : LatticeFact ap).isGT u w = true ↔ eval τ u > eval τ w) := hsat .sup
  have heq : (⟨only τ⟩ : LatticeFact ap).isEq useOctG s t = true ↔ eval τ s = eval τ t := by
    cases useOctG with
    | false => exact hsat .eq hst
    | true =>
        simp only [isEq, isLeq, if_true, Bool.and_eq_true, hgeq hst, hgeq hts]
        omega
  have hneq : (⟨only τ⟩ : LatticeFact ap).isNEq useOctG s t = true ↔ eval τ s ≠ eval τ t := by
    cases useOctG with
    | false => exact hsat .diseq hst
    | true =>
        have hor : (⟨only τ⟩ : LatticeFact ap).isNEq true s t =
            ((⟨only τ⟩ : LatticeFact ap).isGT t s || (⟨only τ⟩ : LatticeFact ap).isGT s t) := by
          unfold isNEq isLT
          cases (⟨only τ⟩ : LatticeFact ap).isGT t s <;> rfl
        rw [hor, Bool.or_eq_true, hgt hts, hgt hst]
        omega
  cases pred with
  | eq => exact assignCmp_of_decided heq hneq hb
  | ne =>
      obtain ⟨v, rfl⟩ := hp.2 rfl
      exact assignCmp_of_decided hneq (heq.trans not_ne_iff.symm) hb
  | sgt => exact assignCmp_of_decided (hgt hst) ((hgeq hts).trans not_lt.symm) hb
  | sge => exact assignCmp_of_decided (hgeq hst) ((hgt hts).trans not_le.symm) hb
  | slt => exact assignCmp_of_decided (hgt hts) ((hgeq hst).trans not_lt.symm) hb
  | sle => exact assignCmp_of_decided (hgeq hts) ((hgt hst).trans not_le.symm) hb
  | _ => cases hp.1

end Sharp

theorem safe_of_kept {opts : Options} {n : Var} {pred : Predicate} {s t : Term}
    (hterms : CmpTerms n s t) (hp : pred.Handled s) (h : CmpKept opts n pred s t) :
    CmpSafe opts pred s t :=
  safe_of_keptAt stateSets.sound stateSets.sharp hterms hp fun _ _ _ b hb =>
    h stateSets id stateSets.sound _ _ b rfl hb

/-! ### Operands -/

theorem Operand.eval_eq {op : Operand} {t : Term} (h : Names v2n op t) (τ : Var → Int) :
    op.eval v2n τ = Box.eval τ t := by
  cases op with
  | constantInt ci =>
      cases t with
      | int c => exact (Box.getConstantIntUnsafe_ok h).1.symm
      | var m => exact absurd h id
  | value v =>
      cases t with
      | int c => exact absurd h id
      | var m => exact Operand.eval_value h τ
  | _ => cases t <;> exact absurd h id

/-- In every fact of a sound manager, every state keeps its truth value through the comparison and
through the branch on it. -/
def DirectionsKept (opts : Options) (v2n : NameMap) (dst : Value) (n : Var) (pred : Predicate)
    (op0 op1 : Operand) : Prop :=
  ∀ (ap : Apron) (γ : ap.Abstract1 → Set (Var → Int)), ap.Sound γ →
    ∀ (f : LatticeFact ap) (τ : Var → Int) (b : Bool), τ ∈ γ f.absVals →
      (pred.Holds (op0.eval v2n τ) (op1.eval v2n τ) ↔ b = true) →
      ∃ f₁ f₂, performAssignCmp opts.useOctG v2n dst op0 op1 f pred = .ok f₁ ∧
        Function.update τ n (truth b) ∈ γ f₁.absVals ∧
        f₁.constrainTF opts (.icmp dst pred op0 op1) b v2n = .ok f₂ ∧
        Function.update τ n (truth b) ∈ γ f₂.absVals

/-- **Comparisons.**  A comparison with a constant and the branch on it lose no feasible direction
exactly when the smallest `int` is not negated where that matters. -/
theorem directionsKept_iff (opts : Options) (v2n : NameMap) (dst : Value) (n : Var)
    (hn : v2n[dst]? = some n) (pred : Predicate) (op0 op1 : Operand) (s t : Term)
    (hs : Names v2n op0 s) (ht : Names v2n op1 t) (hterms : CmpTerms n s t) (hp : pred.Handled s) :
    DirectionsKept opts v2n dst n pred op0 op1 ↔ CmpSafe opts pred s t := by
  have hmixed : (∃ m c, s = .var m ∧ t = .int c) ∨ ∃ c m, s = .int c ∧ t = .var m := by
    cases s <;> cases t <;> simp [CmpTerms] at hterms ⊢
  have hkept : DirectionsKept opts v2n dst n pred op0 op1 ↔ CmpKept opts n pred s t := by
    unfold DirectionsKept CmpKept
    refine forall_congr' fun ap => forall_congr' fun γ => forall_congr' fun _ => forall_congr' fun f =>
      forall_congr' fun τ => forall_congr' fun b => forall_congr' fun _ => ?_
    rw [Operand.eval_eq hs, Operand.eval_eq ht, performAssignCmp_eq hn hs ht hmixed]
    refine forall_congr' fun _ => exists_congr fun f₁ => ?_
    rw [constrainTF_eq hn hs ht hterms.orderable.1]
    constructor
    · rintro ⟨f₂, hf₁, hmem, hf₂, hmem'⟩
      cases hf₂
      exact ⟨hf₁, hmem, hmem'⟩
    · rintro ⟨hf₁, hmem, hmem'⟩
      exact ⟨_, hf₁, hmem, rfl, hmem'⟩
  rw [hkept]
  exact ⟨safe_of_kept hterms hp, cmpKept_of_safe hterms hp⟩

namespace SmallestInt

/-- `-2147483648` -/
def min : Operand :=
  i32 (-(2 ^ 31))

/-- The fact that the value `0` is the smallest `int`. -/
def isMin : LatticeFact boxes :=
  ⟨some [.const (-(2 ^ 31))]⟩

theorem mem_isMin : (fun _ => -(2 ^ 31)) ∈ Box.states isMin.absVals := by
  intro v
  by_cases hv : v = 0
  · subst hv
    exact Intervals.Itv.mem_const.mpr rfl
  · rw [Box.get_of_length_le (Nat.pos_of_ne_zero hv)]
    exact Intervals.Itv.mem_top _

/-- **`x == -2147483648` is found to be false where it is true.** -/
theorem direction_lost :
    ¬ DirectionsKept { useBoxG := true } (Box.numbered 2) 1 1 .eq (.value 0) min := by
  intro h
  obtain ⟨f₁, _, hf₁, hmem, _⟩ := h boxes Box.states Box.sound isMin (fun _ => -(2 ^ 31)) true mem_isMin
    (by simp [Predicate.Holds, Operand.eval, min, i32])
  have hres : performAssignCmp false (Box.numbered 2) 1 (.value 0) min isMin .eq =
      .ok ⟨some [.const (-(2 ^ 31)), .const 0]⟩ := by
    rfl
  rw [hres] at hf₁
  cases hf₁
  have hval := Intervals.Itv.mem_const.mp (hmem 1)
  rw [Function.update_self] at hval
  cases hval

theorem directionsKept_five :
    DirectionsKept { useBoxG := true } (Box.numbered 2) 1 1 .eq (.value 0) (i32 5) :=
  (directionsKept_iff { useBoxG := true } (Box.numbered 2) 1 1 rfl .eq (.value 0) (i32 5) (.var 0) (.int 5)
    rfl rfl ⟨by decide, by decide, by decide⟩ ⟨rfl, by simp⟩).mpr (by simp [CmpSafe])

end SmallestInt

end Watts
