import Watts.Box
import Watts.Semantics

/-! Boxes over-approximate the memory accesses, comparisons and branches of integer programs.  The
meaning of the other instructions plays no role here; arithmetic wraps around in the program but not
in a fact. -/

namespace Watts

open Intervals (Itv)

/-- What a predicate says of two integers; the unsigned ones compare modulo `2^64`. -/
def Predicate.Holds : Predicate → Int → Int → Prop
  | .eq, x, y => x = y
  | .ne, x, y => x ≠ y
  | .sgt, x, y => x > y
  | .sge, x, y => x ≥ y
  | .slt, x, y => x < y
  | .sle, x, y => x ≤ y
  | .ugt, x, y => x % 2 ^ 64 > y % 2 ^ 64
  | .uge, x, y => x % 2 ^ 64 ≥ y % 2 ^ 64
  | .ult, x, y => x % 2 ^ 64 < y % 2 ^ 64
  | .ule, x, y => x % 2 ^ 64 ≤ y % 2 ^ 64

/-- The predicates whose meaning the pass follows. -/
def Predicate.Signed : Predicate → Bool
  | .ugt | .uge | .ult | .ule => false
  | _ => true

namespace Registers

def operand (σ : Env) : Operand → Int → Prop
  | .constantInt ci, x => x = ci.val.toInt
  | .constantPointerNull, x => x = 0
  | .constantExpr (some ci), x => x = ci.val.toInt
  | .constantExpr none, _ => True
  | .value v, x => x = σ v

/-- The result of a binary operator on two integers. -/
def binary (bits : Nat) : BinaryOps → Int → Int → Int → Prop
  | .add, x, y, z => z = (x + y).bmod (2 ^ bits)
  | .mul, x, y, z => z = (x * y).bmod (2 ^ bits)
  | _, _, _, _ => True

/-- The result of an instruction that does not access memory. -/
def result (i : Instruction) (σ : Env) (z : Int) : Prop :=
  match i.kind with
  | .icmp pred op0 op1 => ∃ x y, operand σ op0 x ∧ operand σ op1 y ∧
      (pred.Holds x y ∧ z = 1 ∨ ¬ pred.Holds x y ∧ z = 0)
  | .binary op op0 op1 => ∃ x y, operand σ op0 x ∧ operand σ op1 y ∧
      binary (i.bitWidth.getD 64) op x y z
  | .cast src => operand σ src z
  | .alloca => z = σ i.id
  | _ => True

end Registers

/-- The meaning of the instructions on integer registers. -/
def registers : Semantics where
  operand := Registers.operand
  exec i σ σ' := ∃ z, Registers.result i σ z ∧ σ' = Function.update σ i.id z
  rmw i σ v w := match i.kind with
    | .atomicRMW .add _ val => ∃ x, Registers.operand σ val x ∧ w = v + x
    | _ => True
  branch cond σ dir := match cond with
    | .value v => σ v = if dir then 1 else 0
    | .icmp ic pred op0 op1 => (σ ic = if dir then 1 else 0) ∧
        ∃ x y, Registers.operand σ op0 x ∧ Registers.operand σ op1 y ∧ (pred.Holds x y ↔ dir = true)

namespace Box

/-- Different values have different names. -/
def NamesInjective (v2n : NameMap) : Prop :=
  ∀ (v w : Value) (n : Var), v2n[v]? = some n → v2n[w]? = some n → v = w

/-- A state of the program and values of the names agree. -/
def Named (v2n : NameMap) (σ : Env) (τ : Var → Int) : Prop :=
  ∀ (v : Value) (n : Var), v2n[v]? = some n → σ v = τ n

/-- The states whose named values lie in the box. -/
def γ (v2n : NameMap) (f : LatticeFact boxes) : Set Env :=
  {σ | ∃ b τ, f.absVals = some b ∧ Mem τ b ∧ Named v2n σ τ}

theorem mem_of_leq {a b : List Itv} (h : leq a b) {τ : Var → Int} (hτ : Mem τ a) : Mem τ b :=
  fun v => Itv.le_iff.mp (leq_iff.mp h v) _ (hτ v)

theorem γ_mono {v2n : NameMap} {f g : LatticeFact boxes} (h : f.leq g) : γ v2n f ⊆ γ v2n g := by
  rintro σ ⟨a, τ, ha, hτ, hn⟩
  obtain ⟨⟨⟩⟩ := f
  · cases ha
  · cases ha
    obtain ⟨b, hb, hle⟩ := isLeq_some.mp h
    exact ⟨b, τ, hb, mem_of_leq hle hτ, hn⟩

/-- The boxes as sets of program states. -/
def concretisation (v2n : NameMap) : Concretisation boxes where
  γ := γ v2n
  leq_sound := γ_mono
  join_left f g := γ_mono (lattice.join_left f.absVals g.absVals)
  join_right f g := γ_mono (lattice.join_right f.absVals g.absVals)
  bottom_empty := by
    refine Set.eq_empty_of_forall_notMem ?_
    rintro σ ⟨b, τ, hb, _⟩
    cases hb

variable {v2n : NameMap}

theorem mapAtUnsafe_ok {α : Type} {m : Std.TreeMap Value α} {k : Value} {a : α}
    (h : mapAtUnsafe m k = .ok a) : m[k]? = some a := by
  unfold mapAtUnsafe at h
  split at h
  · next hk => exact hk.trans (congrArg some (Except.ok.inj h))
  · cases h

theorem Named.update (hinj : NamesInjective v2n) {σ : Env} {τ : Var → Int} (h : Named v2n σ τ)
    {v : Value} {n : Var} (hv : v2n[v]? = some n) (x : Int) :
    Named v2n (Function.update σ v x) (Function.update τ n x) := by
  intro w m hw
  by_cases hwv : w = v
  · subst hwv
    obtain rfl : n = m := Option.some.inj (hv.symm.trans hw)
    rw [Function.update_self, Function.update_self]
  · have hmn : m ≠ n := by
      rintro rfl
      exact hwv (hinj w v m hw hv)
    rw [Function.update_of_ne hwv, Function.update_of_ne hmn]
    exact h w m hw

theorem mem_set {b : List Itv} {τ : Var → Int} (h : Mem τ b) (n : Var) {I : Itv} {x : Int}
    (hx : I.Mem x) : Mem (Function.update τ n x) (set b n I) := by
  intro w
  rw [get_set]
  by_cases hw : w = n
  · subst hw
    rw [if_pos rfl, Function.update_self]
    exact hx
  · rw [if_neg hw, Function.update_of_ne hw]
    exact h w

/-! ### Assignments -/

/-- Assigning a linear expression. -/
theorem assignLinexpr_sound (hinj : NamesInjective v2n) {f : LatticeFact boxes} {σ : Env}
    (hσ : σ ∈ γ v2n f) {v : Value} {n : Var} (hv : v2n[v]? = some n) (e : LinExpr) {x : Int}
    (hx : ∀ τ, Named v2n σ τ → e.cst.Mem (x - (e.terms.map fun t => t.1 * τ t.2).sum)) :
    Function.update σ v x ∈ γ v2n ⟨boxes.assignLinexpr f.absVals n e⟩ := by
  obtain ⟨b, τ, hb, hτ, hn⟩ := hσ
  obtain ⟨J, hJ, hmem⟩ := ofInterval_isSome (hx τ hn)
  have hxm := Itv.mem_add (mem_terms hτ e.terms) hmem
  rw [Int.add_comm, Int.sub_add_cancel] at hxm
  refine ⟨set b n ((terms b e.terms).add J), Function.update τ n x, ?_, mem_set hτ n hxm,
    hn.update hinj hv x⟩
  simp [boxes, hb, hJ]

theorem assignInterval_sound (hinj : NamesInjective v2n) {f : LatticeFact boxes} {σ : Env}
    (hσ : σ ∈ γ v2n f) {v : Value} {n : Var} (hv : v2n[v]? = some n) {I : Interval} {x : Int}
    (hx : I.Mem x) : Function.update σ v x ∈ γ v2n (f.assignInterval n I) :=
  assignLinexpr_sound hinj hσ hv ⟨[], I⟩ fun _ _ => by simpa using hx

theorem assignInt_sound (hinj : NamesInjective v2n) {f : LatticeFact boxes} {σ : Env}
    (hσ : σ ∈ γ v2n f) {v : Value} {n : Var} (hv : v2n[v]? = some n) (c : Int) :
    Function.update σ v c ∈ γ v2n (f.assignInt n c) :=
  assignInterval_sound hinj hσ hv (by simp [Interval.const, Interval.Mem])

theorem assignVar_sound (hinj : NamesInjective v2n) {f : LatticeFact boxes} {σ : Env}
    (hσ : σ ∈ γ v2n f) {v w : Value} {n m : Var} (hv : v2n[v]? = some n) (hw : v2n[w]? = some m) :
    Function.update σ v (σ w) ∈ γ v2n (f.assignVar n m) :=
  assignLinexpr_sound hinj hσ hv ⟨[(1, m)], .const 0⟩ fun τ hτ => by
    simp [Interval.const, Interval.Mem, hτ w m hw]

theorem performAssign_sound (hinj : NamesInjective v2n) {f f' : LatticeFact boxes} {σ : Env}
    (hσ : σ ∈ γ v2n f) {dst : Value} {src : Operand} {x : Int} (hx : Registers.operand σ src x)
    (h : BBOps.performAssign v2n dst src f = .ok f') : Function.update σ dst x ∈ γ v2n f' := by
  unfold BBOps.performAssign at h
  cases hd : mapAtUnsafe v2n dst with
  | error e => simp [hd, bind, Except.bind] at h
  | ok n =>
      have hdst := mapAtUnsafe_ok hd
      have hconst : ∀ ci : ConstantInt, x = ci.val.toInt → ∀ g,
          (do return f.assignInt n (← getConstantIntUnsafe ci)) = Except.ok g →
            Function.update σ dst x ∈ γ v2n g := by
        intro ci hci g hg
        unfold getConstantIntUnsafe at hg
        split_ifs at hg
        · cases hg
          exact hci ▸ assignInt_sound hinj hσ hdst _
        · cases hg
      simp only [hd, bind, Except.bind] at h
      cases src with
      | constantInt ci => exact hconst ci hx f' h
      | constantPointerNull =>
          cases h
          exact hx ▸ assignInt_sound hinj hσ hdst 0
      | constantExpr folded =>
          cases folded with
          | none => cases h
          | some ci => exact hconst ci hx f' h
      | value w =>
          cases hw : mapAtUnsafe v2n w with
          | error e => simp [hw] at h
          | ok m =>
              simp only [hw, pure, Except.pure, Except.ok.injEq] at h
              subst h
              exact hx ▸ assignVar_sound hinj hσ hdst (mapAtUnsafe_ok hw)

/-- What the bounds of a variable say. -/
theorem getVarInterval_mem {f : LatticeFact boxes} {σ : Env} (hσ : σ ∈ γ v2n f) {v : Value} {n : Var}
    (hv : v2n[v]? = some n) : (f.getVarInterval n).Mem (σ v) := by
  obtain ⟨b, τ, hb, hτ, hn⟩ := hσ
  rw [hn v n hv]
  unfold LatticeFact.getVarInterval
  rw [hb]
  exact hτ n

/-- A load with interference reads the interfering value, or in the other mode the thread's own. -/
theorem performAssignWithInterf_sound (hinj : NamesInjective v2n) {nc : Bool}
    {f f' itf : LatticeFact boxes} {σ : Env} (hσ : σ ∈ γ v2n f) {dst ptr : Value} {x : Int}
    (hx : (∃ ρ ∈ γ v2n itf, x = ρ ptr) ∨ (nc = true ∧ x = σ ptr))
    (h : BBOps.performAssignWithInterf v2n nc dst ptr f itf = .ok f') :
    Function.update (Function.update σ ptr x) dst x ∈ γ v2n f' := by
  have hread : ∀ p I, v2n[ptr]? = some p → I.Mem x →
      BBOps.performAssign v2n dst (.value ptr) (f.assignInterval p I) = .ok f' →
        Function.update (Function.update σ ptr x) dst x ∈ γ v2n f' := fun p I hp hI hg =>
    performAssign_sound hinj (assignInterval_sound hinj hσ hp hI)
      (show Registers.operand (Function.update σ ptr x) (.value ptr) x by
        simp [Registers.operand]) hg
  unfold BBOps.performAssignWithInterf at h
  cases nc with
  | false =>
      obtain ⟨ρ, hρ, rfl⟩ := hx.resolve_right (by simp)
      unfold BBOps.performCombinAssign at h
      cases hp : mapAtUnsafe v2n ptr with
      | error e => simp [hp, bind, Except.bind] at h
      | ok p =>
          simp only [hp, bind, Except.bind, Bool.not_false, if_true] at h
          have hp := mapAtUnsafe_ok hp
          exact hread p _ hp (getVarInterval_mem hρ hp) h
  | true =>
      unfold BBOps.performNonCombinAssign at h
      cases hp : v2n[ptr]? with
      | none => simp [hp] at h
      | some p =>
          simp only [hp, Bool.not_true, Bool.false_eq_true, if_false] at h
          refine hread p _ hp ?_ h
          rcases hx with ⟨ρ, hρ, rfl⟩ | ⟨_, rfl⟩
          · exact getVarInterval_mem ((concretisation v2n).join_right f itf hρ) hp
          · exact getVarInterval_mem ((concretisation v2n).join_left f itf hσ) hp

/-! ### Comparisons -/

/-- The value of a named operand. -/
def eval (τ : Var → Int) : Term → Int
  | .var v => τ v
  | .int c => c

theorem eval_update {u : Term} {v : Var} (h : u ≠ .var v) (τ : Var → Int) (x : Int) :
    eval (Function.update τ v x) u = eval τ u := by
  cases u with
  | int c => rfl
  | var w =>
      have hne : w ≠ v := fun heq => h (heq ▸ rfl)
      exact Function.update_of_ne hne _ _

/-- The operands of comparisons and branches for which the difference does not overflow an `int`. -/
def Comparable (a b : Term) : Prop :=
  match a, b with
  | .int _, .int _ => False
  | .var _, .int c => -(2 ^ 31) < c ∧ c < 2 ^ 31
  | _, _ => True

theorem createSubConstr_holds {a b : Term} (h : Comparable a b) (τ : Var → Int) (ty : ConsType) :
    (LatticeFact.createSubConstr a b ty).Holds τ ↔ match ty with
      | .eq => eval τ a = eval τ b
      | .supeq => eval τ a ≥ eval τ b
      | .sup => eval τ a > eval τ b
      | .diseq => eval τ a ≠ eval τ b := by
  cases a <;> cases b <;> cases ty <;>
    simp only [Comparable, LatticeFact.createSubConstr, LinCons.Holds, eval, cInt, Int.bmod,
      List.map_cons, List.map_nil, List.sum_cons, List.sum_nil] at h ⊢ <;>
    omega

theorem isSat_holds {f : LatticeFact boxes} {b : List Itv} (hb : f.absVals = some b) {τ : Var → Int}
    (hτ : Mem τ b) {c : LinCons} (h : f.isSat c) : c.Holds τ := by
  unfold LatticeFact.isSat at h
  rw [hb] at h
  exact holds_of_entails hτ h

/-- Setting truth values covers the value of a proposition when the value is among them. -/
theorem assignTrueFalse_sound (hinj : NamesInjective v2n) {f f' : LatticeFact boxes} {σ : Env}
    (hσ : σ ∈ γ v2n f) {dst : Value} {n : Var} (hv : v2n[dst]? = some n) {setTrue setFalse : Bool}
    {z : Int} (hz : z = 1 ∧ setTrue = true ∨ z = 0 ∧ setFalse = true)
    (h : f.assignTrueFalse n setTrue setFalse = .ok f') : Function.update σ dst z ∈ γ v2n f' := by
  unfold LatticeFact.assignTrueFalse at h
  cases setTrue <;> cases setFalse <;> simp at h hz <;> subst h
  · exact hz ▸ assignInt_sound hinj hσ hv 0
  · exact hz ▸ assignInt_sound hinj hσ hv 1
  · refine assignInterval_sound hinj hσ hv ?_
    simp only [Interval.Mem, Option.mem_def, Option.some.injEq, forall_eq']
    omega

/-- The common body of the comparisons, for a query and its negation. -/
theorem assignCmp_sound (hinj : NamesInjective v2n) {f f' : LatticeFact boxes} {σ : Env}
    (hσ : σ ∈ γ v2n f) {dst : Value} {n : Var} (hv : v2n[dst]? = some n) {sat unsat : Bool} {P : Prop}
    {z : Int} (hsat : sat = true → P) (hunsat : unsat = true → ¬ P) (hz : P ∧ z = 1 ∨ ¬ P ∧ z = 0)
    (h : f.assignCmp n sat unsat = .ok f') : Function.update σ dst z ∈ γ v2n f' := by
  rw [Preserved.assignCmp_eq] at h
  refine assignTrueFalse_sound hinj hσ hv ?_ h
  rcases hz with ⟨hP, rfl⟩ | ⟨hP, rfl⟩
  · cases unsat with
    | true => exact absurd hP (hunsat rfl)
    | false => simp
  · cases sat with
    | true => exact absurd (hsat rfl) hP
    | false => simp

theorem isEq_holds {useOctG : Bool} {f : LatticeFact boxes} {b : List Itv}
    (hb : f.absVals = some b) {τ : Var → Int} (hτ : Mem τ b) {s t : Term} (hst : Comparable s t)
    (hts : useOctG = true → Comparable t s) (h : f.isEq useOctG s t) : eval τ s = eval τ t := by
  cases useOctG with
  | false => exact (createSubConstr_holds hst τ .eq).mp (isSat_holds hb hτ h)
  | true =>
      simp only [LatticeFact.isEq, LatticeFact.isLeq, if_true, Bool.and_eq_true] at h
      have h₁ := (createSubConstr_holds hst τ .supeq).mp (isSat_holds hb hτ h.1)
      have h₂ := (createSubConstr_holds (hts rfl) τ .supeq).mp (isSat_holds hb hτ h.2)
      dsimp only at h₁ h₂
      omega

theorem isNEq_holds {useOctG : Bool} {f : LatticeFact boxes} {b : List Itv}
    (hb : f.absVals = some b) {τ : Var → Int} (hτ : Mem τ b) {s t : Term} (hst : Comparable s t)
    (hts : useOctG = true → Comparable t s) (h : f.isNEq useOctG s t) : eval τ s ≠ eval τ t := by
  cases useOctG with
  | false => exact (createSubConstr_holds hst τ .diseq).mp (isSat_holds hb hτ h)
  | true =>
      simp only [LatticeFact.isNEq, LatticeFact.isLT, if_true] at h
      by_cases hlt : f.isGT t s
      · have := (createSubConstr_holds (hts rfl) τ .sup).mp (isSat_holds hb hτ hlt)
        dsimp only at this
        omega
      · simp only [hlt, Bool.false_eq_true, if_false] at h
        have := (createSubConstr_holds hst τ .sup).mp (isSat_holds hb hτ h)
        dsimp only at this
        omega

/-- The comparison of two operands, one of them a variable. -/
theorem cmpTerms_sound (hinj : NamesInjective v2n) {useOctG : Bool} {f f' : LatticeFact boxes}
    {σ : Env} {b : List Itv} {τ : Var → Int} (hb : f.absVals = some b) (hτ : Mem τ b)
    (hn : Named v2n σ τ) {dst : Value} {n : Var} (hv : v2n[dst]? = some n) {s t : Term}
    (hst : Comparable s t) (hts : Comparable t s) {pred : Predicate} {z : Int}
    (hz : pred.Holds (eval τ s) (eval τ t) ∧ z = 1 ∨ ¬ pred.Holds (eval τ s) (eval τ t) ∧ z = 0)
    (h : BBOps.cmpTerms useOctG f n pred s t = .ok f') : Function.update σ dst z ∈ γ v2n f' := by
  have hσ : σ ∈ γ v2n f := ⟨b, τ, hb, hτ, hn⟩
  have hgeq : ∀ {u w : Term}, Comparable u w → f.isGeq u w = true → eval τ u ≥ eval τ w :=
    fun hc hq => (createSubConstr_holds hc τ .supeq).mp (isSat_holds hb hτ hq)
  have hgt : ∀ {u w : Term}, Comparable u w → f.isGT u w = true → eval τ u > eval τ w :=
    fun hc hq => (createSubConstr_holds hc τ .sup).mp (isSat_holds hb hτ hq)
  cases pred with
  | eq =>
      exact assignCmp_sound hinj hσ hv (fun hq => isEq_holds hb hτ hst (fun _ => hts) hq)
        (fun hq => isNEq_holds hb hτ hst (fun _ => hts) hq) hz h
  | ne =>
      cases s with
      | int c => cases h
      | var v =>
          exact assignCmp_sound hinj hσ hv (fun hq => isNEq_holds hb hτ hst (fun _ => hts) hq)
            (fun hq => not_not_intro (isEq_holds hb hτ hst (fun _ => hts) hq)) hz h
  | sgt =>
      exact assignCmp_sound hinj hσ hv (fun hq => hgt hst hq)
        (fun hq => not_lt.mpr (hgeq hts hq)) hz h
  | sge =>
      exact assignCmp_sound hinj hσ hv (fun hq => hgeq hst hq)
        (fun hq => not_le.mpr (hgt hts hq)) hz h
  | slt =>
      exact assignCmp_sound hinj hσ hv (fun hq => hgt hts hq)
        (fun hq => not_lt.mpr (hgeq hst hq)) hz h
  | sle =>
      exact assignCmp_sound hinj hσ hv (fun hq => hgeq hts hq)
        (fun hq => not_le.mpr (hgt hst hq)) hz h
  | _ => cases h

/-- A constant that can be negated in an `int`. -/
def SmallConst : Operand → Bool
  | .constantInt ci => decide (ci.val.toInt ≠ -(2 ^ 31))
  | _ => true

theorem getConstantIntUnsafe_ok {ci : ConstantInt} {c : Int} (h : getConstantIntUnsafe ci = .ok c) :
    c = ci.val.toInt ∧ -(2 ^ 31) ≤ c ∧ c < 2 ^ 31 := by
  unfold getConstantIntUnsafe at h
  split_ifs at h with hr
  cases h
  exact ⟨rfl, hr⟩

theorem performAssignCmp_sound (hinj : NamesInjective v2n) {useOctG : Bool}
    {f f' : LatticeFact boxes} {σ : Env} (hσ : σ ∈ γ v2n f) {dst : Value} {op0 op1 : Operand}
    (h₀ : SmallConst op0) (h₁ : SmallConst op1) {pred : Predicate} {x y z : Int}
    (hx : Registers.operand σ op0 x) (hy : Registers.operand σ op1 y)
    (hz : pred.Holds x y ∧ z = 1 ∨ ¬ pred.Holds x y ∧ z = 0)
    (h : BBOps.performAssignCmp useOctG v2n dst op0 op1 f pred = .ok f') :
    Function.update σ dst z ∈ γ v2n f' := by
  obtain ⟨b, τ, hb, hτ, hn⟩ := hσ
  unfold BBOps.performAssignCmp at h
  split at h
  · next ci v1 =>
      cases hc : getConstantIntUnsafe ci with
      | error e => simp [hc, bind, Except.bind] at h
      | ok c =>
          cases hd : mapAtUnsafe v2n dst with
          | error e => simp [hc, hd, bind, Except.bind] at h
          | ok n =>
              cases hv : mapAtUnsafe v2n v1 with
              | error e => simp [hc, hd, hv, bind, Except.bind] at h
              | ok m =>
                  simp only [hc, hd, hv, bind, Except.bind] at h
                  obtain ⟨hcv, hlo, hhi⟩ := getConstantIntUnsafe_ok hc
                  have hne : c ≠ -(2 ^ 31) := hcv ▸ of_decide_eq_true h₀
                  have hxc : x = eval τ (.int c) := hx.trans hcv.symm
                  have hyv : y = eval τ (.var m) := hy.trans (hn v1 m (mapAtUnsafe_ok hv))
                  rw [hxc, hyv] at hz
                  have hcmp : Comparable (.var m) (.int c) := ⟨by omega, hhi⟩
                  have hcmp' : Comparable (.int c) (.var m) := trivial
                  exact cmpTerms_sound hinj hb hτ hn (mapAtUnsafe_ok hd) hcmp' hcmp hz h
  · next v0 ci =>
      cases hc : getConstantIntUnsafe ci with
      | error e => simp [hc, bind, Except.bind] at h
      | ok c =>
          cases hd : mapAtUnsafe v2n dst with
          | error e => simp [hc, hd, bind, Except.bind] at h
          | ok n =>
              cases hv : mapAtUnsafe v2n v0 with
              | error e => simp [hc, hd, hv, bind, Except.bind] at h
              | ok m =>
                  simp only [hc, hd, hv, bind, Except.bind] at h
                  obtain ⟨hcv, hlo, hhi⟩ := getConstantIntUnsafe_ok hc
                  have hne : c ≠ -(2 ^ 31) := hcv ▸ of_decide_eq_true h₁
                  have hyc : y = eval τ (.int c) := hy.trans hcv.symm
                  have hxv : x = eval τ (.var m) := hx.trans (hn v0 m (mapAtUnsafe_ok hv))
                  rw [hxv, hyc] at hz
                  have hcmp : Comparable (.var m) (.int c) := ⟨by omega, hhi⟩
                  have hcmp' : Comparable (.int c) (.var m) := trivial
                  exact cmpTerms_sound hinj hb hτ hn (mapAtUnsafe_ok hd) hcmp hcmp' hz h
  · cases h
  · cases h
  · cases h

/-! ### Branches -/

/-- A constraint with at most one variable keeps the states in which it holds. -/
theorem meetLincons_sound {b : List Itv} {τ : Var → Int} (hτ : Mem τ b) {c : LinCons}
    (hc : c.Holds τ) : ∃ b', meetLincons b c = some b' ∧ Mem τ b' := by
  have hset : ∀ (v : Nat) {I : Itv}, I.Mem (τ v) → Mem τ (set b v I) := fun v I hI => by
    have := mem_set hτ v hI
    rwa [Function.update_eq_self] at this
  have heq : ∀ {v : Nat} {k : Int}, τ v = k →
      ∃ I, ((get b v).atLeast k >>= fun J => J.atMost k) = some I ∧ I.Mem (τ v) := by
    intro v k hk
    obtain ⟨J, hJ, hm⟩ := Itv.atLeast_isSome (hτ v) hk.ge
    obtain ⟨I, hI, hm⟩ := Itv.atMost_isSome hm hk.le
    exact ⟨I, Option.bind_eq_some_iff.mpr ⟨J, hJ, hI⟩, hm⟩
  obtain ⟨ty, ts, cst⟩ := c
  unfold meetLincons
  split
  · next k v hts =>
      simp only at hts
      subst hts
      simp only [LinCons.Holds, List.map_cons, List.map_nil, List.sum_cons, List.sum_nil] at hc
      dsimp only
      by_cases h₁ : k = 1
      · subst h₁
        rw [if_pos rfl]
        have hr : ∃ I, restrictUp (get b v) (-cst) ty = some I ∧ I.Mem (τ v) := by
          cases ty with
          | eq => exact heq (by dsimp only at hc; omega)
          | supeq => exact Itv.atLeast_isSome (hτ v) (by dsimp only at hc; omega)
          | sup => exact Itv.atLeast_isSome (hτ v) (by dsimp only at hc; omega)
          | diseq => exact ⟨_, Itv.without_isSome (hτ v) (by dsimp only at hc; omega), hτ v⟩
        obtain ⟨I, hI, hm⟩ := hr
        exact ⟨_, by rw [hI]; rfl, hset v hm⟩
      · rw [if_neg h₁]
        by_cases h₂ : k = -1
        · subst h₂
          rw [if_pos rfl]
          have hr : ∃ I, restrictDown (get b v) cst ty = some I ∧ I.Mem (τ v) := by
            cases ty with
            | eq => exact heq (by dsimp only at hc; omega)
            | supeq => exact Itv.atMost_isSome (hτ v) (by dsimp only at hc; omega)
            | sup => exact Itv.atMost_isSome (hτ v) (by dsimp only at hc; omega)
            | diseq => exact ⟨_, Itv.without_isSome (hτ v) (by dsimp only at hc; omega), hτ v⟩
          obtain ⟨I, hI, hm⟩ := hr
          exact ⟨_, by rw [hI]; rfl, hset v hm⟩
        · rw [if_neg h₂]
          exact ⟨b, rfl, hτ⟩
  · exact ⟨b, rfl, hτ⟩

/-- What a constraint type says of two integers. -/
def consHolds : ConsType → Int → Int → Prop
  | .eq, x, y => x = y
  | .supeq, x, y => x ≥ y
  | .sup, x, y => x > y
  | .diseq, x, y => x ≠ y

/-- A fact that contains a state with some values of its names. -/
def Holds (v2n : NameMap) (σ : Env) (τ : Var → Int) (f : LatticeFact boxes) : Prop :=
  ∃ b, f.absVals = some b ∧ Mem τ b ∧ Named v2n σ τ

theorem Holds.meet {σ : Env} {τ : Var → Int} {f : LatticeFact boxes} (h : Holds v2n σ τ f)
    {s t : Term} (hst : Comparable s t) {ty : ConsType} (hc : consHolds ty (eval τ s) (eval τ t)) :
    Holds v2n σ τ (f.meetAndFreeConstr (LatticeFact.createSubConstr s t ty)) := by
  obtain ⟨b, hb, hτ, hn⟩ := h
  have hcons : (LatticeFact.createSubConstr s t ty).Holds τ := by
    rw [createSubConstr_holds hst]
    cases ty <;> exact hc
  obtain ⟨b', hb', hτ'⟩ := meetLincons_sound hτ hcons
  refine ⟨b', ?_, hτ', hn⟩
  show boxes.meetLincons f.absVals _ = some b'
  rw [hb]
  exact hb'

theorem Holds.join_left {σ : Env} {τ : Var → Int} {f : LatticeFact boxes} (h : Holds v2n σ τ f)
    (g : LatticeFact boxes) : Holds v2n σ τ (f.factJoin g) := by
  obtain ⟨b, hb, hτ, hn⟩ := h
  have hle : f.leq (f.factJoin g) := lattice.join_left f.absVals g.absVals
  unfold LatticeFact.leq at hle
  rw [hb] at hle
  obtain ⟨b', hb', hle⟩ := isLeq_some.mp hle
  exact ⟨b', hb', mem_of_leq hle hτ, hn⟩

theorem Holds.join_right {σ : Env} {τ : Var → Int} {g : LatticeFact boxes} (h : Holds v2n σ τ g)
    (f : LatticeFact boxes) : Holds v2n σ τ (f.factJoin g) := by
  obtain ⟨b, hb, hτ, hn⟩ := h
  have hle : g.leq (f.factJoin g) := lattice.join_right f.absVals g.absVals
  unfold LatticeFact.leq at hle
  rw [hb] at hle
  obtain ⟨b', hb', hle⟩ := isLeq_some.mp hle
  exact ⟨b', hb', mem_of_leq hle hτ, hn⟩

theorem meetConstrTy_sound {useOctG : Bool} {f : LatticeFact boxes} {σ : Env} {τ : Var → Int}
    (h : Holds v2n σ τ f) {s t : Term} (hst : Comparable s t)
    (hts : Comparable t s) {ty : ConsType}
    (hc : consHolds ty (eval τ s) (eval τ t)) : Holds v2n σ τ (f.meetConstrTy useOctG s t ty) := by
  cases ty with
  | supeq => exact h.meet hst hc
  | sup => exact h.meet hst hc
  | eq =>
      cases useOctG with
      | false => exact h.meet hst hc
      | true =>
          have hle : consHolds .supeq (eval τ t) (eval τ s) := le_of_eq hc
          have hge : consHolds .supeq (eval τ s) (eval τ t) := ge_of_eq hc
          exact (h.meet hts hle).meet hst hge
  | diseq =>
      cases useOctG with
      | false => exact h.meet hst hc
      | true =>
          rcases lt_or_gt_of_ne hc with hlt | hgt
          · have hc' : consHolds .sup (eval τ t) (eval τ s) := hlt
            exact (h.meet hts hc').join_left _
          · have hc' : consHolds .sup (eval τ s) (eval τ t) := hgt
            exact (h.meet hst hc').join_right _

/-- An operand and the term that the pass makes of it. -/
def Names (v2n : NameMap) : Operand → Term → Prop
  | .constantInt ci, .int c => getConstantIntUnsafe ci = .ok c
  | .value v, .var n => v2n[v]? = some n
  | _, _ => False

theorem Names.eval_eq {op : Operand} {t : Term} (h : Names v2n op t) {σ : Env} {τ : Var → Int}
    (hn : Named v2n σ τ) {x : Int} (hx : Registers.operand σ op x) : x = eval τ t := by
  cases op with
  | constantInt ci =>
      cases t with
      | int c => exact hx.trans (getConstantIntUnsafe_ok h).1.symm
      | var n => exact absurd h id
  | value v =>
      cases t with
      | int c => exact absurd h id
      | var n => exact hx.trans (hn v n h)
  | _ => cases t <;> exact absurd h id

theorem Names.comparable {op0 op1 : Operand} {s t : Term} (hs : Names v2n op0 s)
    (ht : Names v2n op1 t) (hsmall : SmallConst op1)
    (hne : ∀ c c', ¬ (s = .int c ∧ t = .int c')) : Comparable s t := by
  cases s with
  | int c =>
      cases t with
      | int c' => exact absurd ⟨rfl, rfl⟩ (hne c c')
      | var m => trivial
  | var n =>
      cases t with
      | var m => trivial
      | int c =>
          cases op1 with
          | constantInt ci =>
              obtain ⟨hc, hlo, hhi⟩ := getConstantIntUnsafe_ok ht
              have hcn : c ≠ -(2 ^ 31) := hc ▸ of_decide_eq_true hsmall
              exact ⟨by omega, hhi⟩
          | _ => exact absurd ht id

theorem valueToStringUnsafe_ok {op : Operand} {n : Var} (h : op.valueToStringUnsafe v2n = .ok n) :
    Names v2n op (.var n) := by
  cases op with
  | value v => exact mapAtUnsafe_ok h
  | _ => cases h

/-- What `constrainFact` does when it returns. -/
theorem constrainFact_ok {useOctG : Bool} {f f' : LatticeFact boxes} {op0 op1 : Operand}
    {ty : ConsType} (h : f.constrainFact useOctG op0 op1 ty v2n = .ok f') :
    ∃ s t, Names v2n op0 s ∧ Names v2n op1 t ∧ (∀ c c', ¬ (s = .int c ∧ t = .int c')) ∧
      f' = f.meetConstrTy useOctG s t ty := by
  unfold LatticeFact.constrainFact at h
  split at h
  · cases h
  · next ci _ =>
      cases hc : getConstantIntUnsafe ci with
      | error e => simp [hc, bind, Except.bind] at h
      | ok c =>
          cases hv : op1.valueToStringUnsafe v2n with
          | error e => simp [hc, hv, bind, Except.bind] at h
          | ok m =>
              simp only [hc, hv, bind, Except.bind, pure, Except.pure, Except.ok.injEq] at h
              exact ⟨.int c, .var m, hc, valueToStringUnsafe_ok hv, by simp, h.symm⟩
  · next ci _ =>
      cases hc : getConstantIntUnsafe ci with
      | error e => simp [hc, bind, Except.bind] at h
      | ok c =>
          cases hv : op0.valueToStringUnsafe v2n with
          | error e => simp [hc, hv, bind, Except.bind] at h
          | ok m =>
              simp only [hc, hv, bind, Except.bind, pure, Except.pure, Except.ok.injEq] at h
              exact ⟨.var m, .int c, valueToStringUnsafe_ok hv, hc, by simp, h.symm⟩
  ·
      cases hv : op0.valueToStringUnsafe v2n with
      | error e => simp [hv, bind, Except.bind] at h
      | ok n =>
          cases hw : op1.valueToStringUnsafe v2n with
          | error e => simp [hv, hw, bind, Except.bind] at h
          | ok m =>
              simp only [hv, hw, bind, Except.bind, pure, Except.pure, Except.ok.injEq] at h
              exact ⟨.var n, .var m, valueToStringUnsafe_ok hv, valueToStringUnsafe_ok hw, by simp,
                h.symm⟩

theorem constrainFact_sound {useOctG : Bool} {f f' : LatticeFact boxes} {σ : Env} {τ : Var → Int}
    (hf : Holds v2n σ τ f) {op0 op1 : Operand} (h₀ : SmallConst op0) (h₁ : SmallConst op1) {x y : Int}
    (hx : Registers.operand σ op0 x) (hy : Registers.operand σ op1 y) {ty : ConsType}
    (hc : consHolds ty x y) (h : f.constrainFact useOctG op0 op1 ty v2n = .ok f') :
    Holds v2n σ τ f' := by
  obtain ⟨s, t, hs, ht, hne, rfl⟩ := constrainFact_ok h
  have hn : Named v2n σ τ := by
    obtain ⟨_, _, _, hn⟩ := hf
    exact hn
  rw [hs.eval_eq hn hx, ht.eval_eq hn hy] at hc
  exact meetConstrTy_sound hf (hs.comparable ht h₁ hne)
    (ht.comparable hs h₀ fun c c' hcc => hne c' c ⟨hcc.2, hcc.1⟩) hc

/-- Constraining with the predicate of a signed comparison. -/
theorem constrainICmp_sound {useOctG : Bool} {f f' : LatticeFact boxes} {σ : Env} {τ : Var → Int}
    (hf : Holds v2n σ τ f) {op0 op1 : Operand} (h₀ : SmallConst op0) (h₁ : SmallConst op1) {x y : Int}
    (hx : Registers.operand σ op0 x) (hy : Registers.operand σ op1 y) {pred : Predicate}
    (hsign : pred.Signed) {dir : Bool} (hp : pred.Holds x y ↔ dir = true)
    (h : f.constrainICmp useOctG pred op0 op1 dir v2n = .ok f') : Holds v2n σ τ f' := by
  have hfwd : ∀ ty, consHolds ty x y → f.constrainFact useOctG op0 op1 ty v2n = .ok f' →
      Holds v2n σ τ f' := fun _ hc h => constrainFact_sound hf h₀ h₁ hx hy hc h
  have hbwd : ∀ ty, consHolds ty y x → f.constrainFact useOctG op1 op0 ty v2n = .ok f' →
      Holds v2n σ τ f' := fun _ hc h => constrainFact_sound hf h₁ h₀ hy hx hc h
  cases pred with
  | eq =>
      cases dir with
      | true => exact hfwd .eq (hp.mpr rfl) h
      | false => exact hfwd .diseq (fun he => Bool.false_ne_true (hp.mp he)) h
  | ne =>
      cases dir with
      | true => exact hfwd .diseq (hp.mpr rfl) h
      | false => exact hfwd .eq (not_not.mp fun he => Bool.false_ne_true (hp.mp he)) h
  | sgt =>
      cases dir with
      | true => exact hfwd .sup (hp.mpr rfl) h
      | false => exact hbwd .supeq (not_lt.mp fun he => Bool.false_ne_true (hp.mp he)) h
  | sge =>
      cases dir with
      | true => exact hfwd .supeq (hp.mpr rfl) h
      | false => exact hbwd .sup (not_le.mp fun he => Bool.false_ne_true (hp.mp he)) h
  | slt =>
      cases dir with
      | true => exact hbwd .sup (hp.mpr rfl) h
      | false => exact hfwd .supeq (not_lt.mp fun he => Bool.false_ne_true (hp.mp he)) h
  | sle =>
      cases dir with
      | true => exact hbwd .supeq (hp.mpr rfl) h
      | false => exact hfwd .sup (not_le.mp fun he => Bool.false_ne_true (hp.mp he)) h
  | _ => cases hsign

/-- The conditions whose meaning the pass follows. -/
def PlainCondition : Condition → Bool
  | .value _ => true
  | .icmp _ pred op0 op1 => pred.Signed && SmallConst op0 && SmallConst op1

theorem constrainTF_sound {opts : Options} {f f' : LatticeFact boxes} {σ : Env} (hσ : σ ∈ γ v2n f)
    {cond : Condition} (hplain : PlainCondition cond) {dir : Bool}
    (hbr : registers.branch cond σ dir) (h : f.constrainTF opts cond dir v2n = .ok f') :
    σ ∈ γ v2n f' := by
  obtain ⟨b, τ, hb, hτ, hn⟩ := hσ
  have hf : Holds v2n σ τ f := ⟨b, hb, hτ, hn⟩
  unfold LatticeFact.constrainTF at h
  cases hv : mapAtUnsafe v2n cond.val with
  | error e => simp [hv, bind, Except.bind] at h
  | ok n =>
      have hval : σ cond.val = if dir then 1 else 0 := by
        cases cond with
        | value v => exact hbr
        | icmp ic pred op0 op1 => exact hbr.1
      have hvar : ∀ g, Holds v2n σ τ g →
          Holds v2n σ τ (g.constrainVarTF opts.useOctG n dir) := by
        intro g hg
        have hc : consHolds .eq (eval τ (.var n)) (eval τ (.int (if dir then 1 else 0))) := by
          show τ n = _
          rw [← hn _ n (mapAtUnsafe_ok hv), hval]
          rfl
        have hcmp : Comparable (.var n) (.int (if dir then 1 else 0)) := by
          cases dir <;> simp [Comparable]
        have hcmp' : Comparable (.int (if dir then 1 else 0)) (.var n) := trivial
        exact meetConstrTy_sound hg hcmp hcmp' hc
      simp only [hv, bind, Except.bind] at h
      split at h
      · next ic pred op0 op1 _ =>
          simp only [PlainCondition, Bool.and_eq_true] at hplain
          obtain ⟨⟨hsign, h₀⟩, h₁⟩ := hplain
          obtain ⟨_, x, y, hx, hy, hp⟩ := hbr
          cases hi : f.constrainICmp opts.useOctG pred op0 op1 dir v2n with
          | error e => simp [hi] at h
          | ok g =>
              simp only [hi, pure, Except.pure, Except.ok.injEq] at h
              subst h
              obtain ⟨b', hb', hτ', hn'⟩ :=
                hvar g (constrainICmp_sound hf h₀ h₁ hx hy hsign hp hi)
              exact ⟨b', τ, hb', hτ', hn'⟩
      · cases h
        obtain ⟨b', hb', hτ', hn'⟩ := hvar f hf
        exact ⟨b', τ, hb', hτ', hn'⟩

/-! ### Functions -/

/-- The instructions whose meaning the pass follows: memory accesses, comparisons with small
constants, calls and branches on them. -/
def Plain (i : Instruction) : Bool :=
  match i.kind with
  | .alloca | .store .. | .load _ | .call _ => true
  | .icmp _ op0 op1 => SmallConst op0 && SmallConst op1
  | .condBr cond _ _ => PlainCondition cond
  | .br _ | .ret | .unreachable => true
  | _ => false

/-- **The transfer functions of plain instructions are sound.** -/
theorem soundTransfer (cx : Ctx) (hinj : NamesInjective cx.v2n) (interf : InterfMap boxes)
    (F : Function) (hplain : ∀ i ∈ F.instrs, Plain i) :
    (concretisation cx.v2n).SoundTransfer registers cx interf F := by
  intro i hi f f' σ σ' hσ hstep h
  have hp := hplain i hi
  unfold BBOps.transferFact at h
  cases hstep with
  | alloca hk =>
      rw [hk] at h
      cases h
      exact hσ
  | store hk hv =>
      rw [hk] at h
      exact performAssign_sound hinj hσ hv h
  | @load ptr _ hk hr =>
      rw [hk] at h
      dsimp only at h
      unfold Concretisation.Reads at hr
      split at h
      · next hi =>
          rw [hi] at hr
          subst hr
          rw [Function.update_eq_self]
          have hx : Registers.operand σ (.value ptr) (σ ptr) := rfl
          exact performAssign_sound hinj hσ hx h
      · next itf hi =>
          rw [hi] at hr
          exact performAssignWithInterf_sound hinj hσ hr h
  | rmw hk _ _ => simp [Plain, hk] at hp
  | cmpXchg hk _ _ => simp [Plain, hk] at hp
  | call hk =>
      rw [hk] at h
      dsimp only at h
      split at h
      case h_4 => split_ifs at h; cases h; exact hσ
      case h_8 => cases h
      all_goals
        cases h
        exact hσ
  | other hs hl hc hx =>
      obtain ⟨z, hz, rfl⟩ := hx
      cases hk : i.kind with
      | alloca =>
          rw [hk] at h
          cases h
          have hz : z = σ i.id := by simpa only [Registers.result, hk] using hz
          rwa [hz, Function.update_eq_self]
      | icmp pred op0 op1 =>
          rw [hk] at h
          simp only [Plain, hk, Bool.and_eq_true] at hp
          simp only [Registers.result, hk] at hz
          obtain ⟨x, y, hx, hy, hz⟩ := hz
          exact performAssignCmp_sound hinj hσ hp.1 hp.2 hx hy hz h
      | call callee => simp [Instruction.isCall, hk] at hc
      | load ptr => simp [Instruction.getLoadPtr, hk] at hl
      | store val ptr => simp [Instruction.getStorePtr, hk] at hs
      | br _ | condBr _ _ _ | ret | unreachable =>
          rw [hk] at h
          cases h
      | _ => simp [Plain, hk] at hp

/-- **The branch refinements of plain instructions are sound.** -/
theorem soundBranch (cx : Ctx) (F : Function) (hplain : ∀ i ∈ F.instrs, Plain i) :
    (concretisation cx.v2n).SoundBranch registers cx F := by
  intro i hi cond t e hk f f' σ dir hσ hbr h
  have hp := hplain i hi
  unfold Plain at hp
  rw [hk] at hp
  exact constrainTF_sound hσ hp hbr h

/-! ### Contexts -/

/-- The values below `k`, each named by its own number. -/
def numbered (k : Nat) : NameMap :=
  (List.range k).foldl (fun m v => m.insert v v) {}

theorem numbered_getElem? (k v : Nat) : (numbered k)[v]? = if v < k then some v else none := by
  unfold numbered
  induction k with
  | zero => simp
  | succ k ih =>
      rw [List.range_succ, List.foldl_append, List.foldl_cons, List.foldl_nil,
        Std.TreeMap.getElem?_insert, ih]
      by_cases hk : k = v
      · simp [hk]
      · rw [if_neg (by simpa using hk)]
        by_cases hv : v < k
        · rw [if_pos hv, if_pos (by omega)]
        · rw [if_neg hv, if_neg (by omega)]

/-- With numbered values, the states of a box are those whose values lie in its bounds. -/
theorem mem_numbered {k : Nat} {b : List Itv} {σ : Env} (h : Mem σ b) :
    σ ∈ (concretisation (numbered k)).γ ⟨some b⟩ := by
  refine ⟨b, σ, rfl, h, fun v n hn => ?_⟩
  rw [numbered_getElem?] at hn
  split_ifs at hn
  rw [Option.some.inj hn]

/-- A box of single values holds a state with these values. -/
theorem mem_consts (cs : List Int) {σ : Env} (h : ∀ v (hv : v < cs.length), σ v = cs[v]) :
    Mem σ (cs.map Itv.const) := by
  intro v
  unfold get
  rw [List.getD_eq_getElem?_getD, List.getElem?_map]
  by_cases hv : v < cs.length
  · rw [List.getElem?_eq_getElem hv]
    exact Itv.mem_const.mpr (h v hv)
  · rw [List.getElem?_eq_none (Nat.le_of_not_lt hv)]
    exact Itv.mem_top _

theorem numbered_injective (k : Nat) : NamesInjective (numbered k) := by
  intro v w n hv hw
  rw [numbered_getElem?] at hv hw
  split_ifs at hv hw
  exact (Option.some.inj hv).trans (Option.some.inj hw).symm

end Box

/-- The context of a module with one function, whose values are numbered. -/
def Ctx.single (F : Function) (k : Nat) : Ctx where
  opts := {}
  module := ⟨[F], [], none, by simp, by simpa [Function.instrs] using F.instrs_nodup⟩
  v2n := Box.numbered k
  assertSlice_eq := rfl

/-- The context of a module, whose values are numbered, without slicing. -/
def Ctx.ofModule (M : Module) (k : Nat) (opts : Options) : Ctx where
  opts := { opts with assertSliceG := false }
  module := M
  v2n := Box.numbered k
  assertSlice_eq := rfl

/-- An `i32` constant. -/
def i32 (c : Int) : Operand :=
  .constantInt ⟨32, BitVec.ofInt 32 c⟩

end Watts
