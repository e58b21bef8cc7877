import Watts.PhiNodes

/-! Additions and multiplications of fixed width.  The transfer function reduces the unbounded result
modulo `2^w`; the remainder has the sign of the dividend, so it is the two's-complement result exactly
when it is in the signed range. -/

namespace Watts

open BBOps

/-- The integers that `w` bits represent. -/
def InSigned (w : Nat) (x : Int) : Prop :=
  -(2 ^ (w - 1)) ≤ x ∧ x < 2 ^ (w - 1)

instance (w : Nat) (x : Int) : Decidable (InSigned w x) :=
  inferInstanceAs (Decidable (_ ∧ _))

/-- The remainder is the two's-complement value when it is in range. -/
theorem tmod_eq_bmod_iff {w : Nat} (hw : 0 < w) (z : Int) :
    z.tmod (2 ^ w) = z.bmod (2 ^ w) ↔ InSigned w (z.tmod (2 ^ w)) := by
  have hpow : (2 : Int) ^ w = 2 * 2 ^ (w - 1) := by
    rw [← pow_succ']
    congr 1
    omega
  have hcast : ((2 ^ w : Nat) : Int) = 2 ^ w := by push_cast; rfl
  have hpos : (0 : Int) < 2 ^ (w - 1) := by positivity
  unfold InSigned
  constructor
  · intro h
    rw [h]
    have hlow := Int.le_bmod (x := z) (m := 2 ^ w) (by positivity)
    have hhigh := Int.bmod_lt (x := z) (m := 2 ^ w) (by positivity)
    rw [hcast] at hlow hhigh
    omega
  · rintro ⟨hlow, hhigh⟩
    have hcong : (z.tmod (2 ^ w)).bmod (2 ^ w) = z.bmod (2 ^ w) := by
      rw [Int.tmod_def, ← hcast, Int.sub_mul_bmod_self_left]
    rw [← hcong]
    exact (Int.bmod_eq_of_le_mul_two (by rw [hcast]; omega) (by rw [hcast]; omega)).symm

theorem modulus_eq_iff (w : Nat) : modulus w = .ok (2 ^ w) ↔ w < 63 := by
  unfold modulus
  constructor
  · intro h
    by_contra hge
    by_cases hw : w = 63
    · subst hw
      revert h
      decide
    · rw [if_neg (by omega)] at h
      cases h
  · intro hlt
    have hle : (2 : Int) ^ w ≤ 2 ^ 62 := pow_le_pow_right₀ (by norm_num) (by omega)
    have hpos : (0 : Int) < 2 ^ w := by positivity
    rw [if_pos (by omega), Int.bmod_eq_of_le_mul_two]
    · push_cast
      omega
    · push_cast
      omega

/-- The unbounded result of the operators that the pass handles. -/
def BinaryOps.apply : BinaryOps → Int → Int → Int
  | .mul, x, y => x * y
  | _, x, y => x + y

/-- The value of a named operand or a constant in a state. -/
def Operand.eval (v2n : NameMap) (τ : Var → Int) : Operand → Int
  | .constantInt ci => ci.val.toInt
  | .value v => τ (v2n[v]?.getD 0)
  | _ => 0

/-- The operands that the transfer function accepts: a named variable and a constant that fits an
`int`, or for an addition two named variables. -/
def BinaryOps.Handles (v2n : NameMap) (opTy : BinaryOps) : Operand → Operand → Prop
  | .constantInt ci, .value v =>
    -(2 ^ 31) ≤ ci.val.toInt ∧ ci.val.toInt < 2 ^ 31 ∧ ∃ n, v2n[v]? = some n
  | .value v, .constantInt ci =>
    -(2 ^ 31) ≤ ci.val.toInt ∧ ci.val.toInt < 2 ^ 31 ∧ ∃ n, v2n[v]? = some n
  | .value v, .value w => opTy = .add ∧ (∃ n, v2n[v]? = some n) ∧ ∃ n, v2n[w]? = some n
  | _, _ => False

variable {ap : Apron} {γ : ap.Abstract1 → Set (Var → Int)} {v2n : NameMap}

theorem Operand.eval_value {v : Value} {n : Var} (h : v2n[v]? = some n) (τ : Var → Int) :
    (Operand.value v).eval v2n τ = τ n := by
  show τ (v2n[v]?.getD 0) = τ n
  rw [h]
  rfl

/-- The operation without reduction assigns the unbounded result. -/
theorem performBinOp_assigns {opTy : BinaryOps} (hop : opTy = .add ∨ opTy = .mul) {dst : Value}
    {n : Var} (hn : v2n[dst]? = some n) {op0 op1 : Operand} (hops : opTy.Handles v2n op0 op1)
    (f : LatticeFact ap) : ∃ f', performBinOp v2n opTy dst op0 op1 f = .ok f' ∧
      Assigns f f' n fun τ => opTy.apply (op0.eval v2n τ) (op1.eval v2n τ) := by
  have hdst := mapAtUnsafe_of_getElem? hn
  cases op0 with
  | constantInt ci =>
      cases op1 with
      | value v =>
          obtain ⟨h₁, h₂, m, hm⟩ := hops
          have hci := getConstantIntUnsafe_of_range h₁ h₂
          have hv := mapAtUnsafe_of_getElem? hm
          simp only [performBinOp, hdst, hci, Operand.valueToStringUnsafe, hv, Operand.eval_value hm,
            bind, Except.bind]
          rcases hop with rfl | rfl
          · refine ⟨_, rfl, ?_⟩
            simp only [BinaryOps.apply, Operand.eval, Int.add_comm ci.val.toInt]
            exact assigns_addInt f n m ci.val.toInt
          · exact ⟨_, rfl, assigns_mul f n m ci.val.toInt⟩
      | _ => exact absurd hops id
  | value v =>
      cases op1 with
      | constantInt ci =>
          obtain ⟨h₁, h₂, m, hm⟩ := hops
          have hci := getConstantIntUnsafe_of_range h₁ h₂
          have hv := mapAtUnsafe_of_getElem? hm
          simp only [performBinOp, hdst, hci, Operand.valueToStringUnsafe, hv, Operand.eval_value hm,
            bind, Except.bind]
          rcases hop with rfl | rfl
          · exact ⟨_, rfl, assigns_addInt f n m ci.val.toInt⟩
          · refine ⟨_, rfl, ?_⟩
            simp only [BinaryOps.apply, Operand.eval, Int.mul_comm _ ci.val.toInt]
            exact assigns_mul f n m ci.val.toInt
      | value w =>
          obtain ⟨rfl, ⟨m, hm⟩, k, hk⟩ := hops
          have hv := mapAtUnsafe_of_getElem? hm
          have hw := mapAtUnsafe_of_getElem? hk
          simp only [performBinOp, hdst, Operand.valueToStringUnsafe, hv, hw, Operand.eval_value hm,
            Operand.eval_value hk, bind, Except.bind]
          exact ⟨_, rfl, assigns_addVar f n m k⟩
      | _ => exact absurd hops id
  | _ => exact absurd hops id

/-- The reduction is one more assignment. -/
theorem performBinOpMod_eq {opTy : BinaryOps} {i : Instruction} {w : Nat} (hw : i.bitWidth = some w)
    {n : Var} (hn : v2n[i.id]? = some n) {m : Int} (hm : modulus w = .ok m) {op0 op1 : Operand}
    {f f' : LatticeFact ap} (h : performBinOp v2n opTy i.id op0 op1 f = .ok f') :
    performBinOpMod v2n opTy i op0 op1 f = .ok (f'.mod n n m) := by
  simp only [performBinOpMod, h, hw, hm, mapAtUnsafe_of_getElem? hn, bind, Except.bind]
  rfl

/-- The transfer function reduces by `2^w`, returns, and its result has the state in which the
destination holds the two's-complement result, for every sound manager. -/
def WrapCovered (v2n : NameMap) (opTy : BinaryOps) (i : Instruction) (op0 op1 : Operand) (w : Nat)
    (n : Var) (τ : Var → Int) : Prop :=
  modulus w = .ok (2 ^ w) ∧
    ∀ (ap : Apron) (γ : ap.Abstract1 → Set (Var → Int)), ap.Sound γ →
      ∀ f : LatticeFact ap, τ ∈ γ f.absVals → ∃ f', performBinOpMod v2n opTy i op0 op1 f = .ok f' ∧
        Function.update τ n ((opTy.apply (op0.eval v2n τ) (op1.eval v2n τ)).bmod (2 ^ w)) ∈ γ f'.absVals

/-- **Fixed width.**  The two's-complement result of an addition or multiplication is covered exactly
when the modulus fits a `long int` and the remainder is in the signed range. -/
theorem performBinOpMod_covers_iff (v2n : NameMap) (opTy : BinaryOps) (hop : opTy = .add ∨ opTy = .mul)
    (i : Instruction) (w : Nat) (hw : i.bitWidth = some w) (hpos : 0 < w) (n : Var)
    (hn : v2n[i.id]? = some n) (op0 op1 : Operand) (hops : opTy.Handles v2n op0 op1) (τ : Var → Int) :
    WrapCovered v2n opTy i op0 op1 w n τ ↔ w < 63 ∧
      InSigned w ((opTy.apply (op0.eval v2n τ) (op1.eval v2n τ)).tmod (2 ^ w)) := by
  unfold WrapCovered
  rw [modulus_eq_iff, ← tmod_eq_bmod_iff hpos]
  refine and_congr_right fun hlt => ?_
  have hm := (modulus_eq_iff w).mpr hlt
  constructor
  · intro h
    -- the set of the state alone has one result
    obtain ⟨f', hf', hmem⟩ := h stateSets id stateSets.sound ⟨Set.singleton τ⟩ rfl
    obtain ⟨f₁, hf₁, hassign⟩ := performBinOp_assigns hop hn hops
      (⟨Set.singleton τ⟩ : LatticeFact stateSets)
    rw [performBinOpMod_eq hw hn hm hf₁] at hf'
    cases hf'
    obtain ⟨τ₁, hτ₁, heq⟩ := (assigns_mod f₁ n n (2 ^ w)).exact stateSets.exact hmem
    obtain ⟨τ₂, rfl, rfl⟩ := hassign.exact stateSets.exact hτ₁
    have hval := congrFun heq n
    simp only [Function.update_self] at hval
    exact hval.symm
  · intro heq ap γ hS f hτ
    obtain ⟨f₁, hf₁, hassign⟩ := performBinOp_assigns hop hn hops f
    refine ⟨_, performBinOpMod_eq hw hn hm hf₁, ?_⟩
    have hmod := (assigns_mod f₁ n n (2 ^ w)).sound hS (hassign.sound hS hτ)
    rw [Function.update_self, Function.update_idem, heq] at hmod
    exact hmod

namespace ByteAdd

/-- `add i8 %0, 100` -/
def add : Instruction :=
  ⟨1, .binary .add (.value 0) (.constantInt ⟨8, 100⟩), some 8, []⟩

/-- **`100 + 100` is `-56` in eight bits, and only `200` is found.** -/
theorem hundred_not_covered :
    ¬ WrapCovered (Box.numbered 2) .add add (.value 0) (.constantInt ⟨8, 100⟩) 8 1 (fun _ => 100) := by
  rintro ⟨_, h⟩
  obtain ⟨f', hf', hmem⟩ := h boxes Box.states Box.sound ⟨some [.const 100]⟩ (by
    intro v
    by_cases hv : v = 0
    · subst hv
      exact Intervals.Itv.mem_const.mpr rfl
    · rw [Box.get_of_length_le (Nat.pos_of_ne_zero hv)]
      exact Intervals.Itv.mem_top _)
  have hres : performBinOpMod (Box.numbered 2) .add add (.value 0) (.constantInt ⟨8, 100⟩)
      (⟨some [.const 100]⟩ : LatticeFact boxes) = .ok ⟨some [.const 100, .const 200]⟩ := by
    rfl
  rw [hres] at hf'
  cases hf'
  have hval := Intervals.Itv.mem_const.mp (hmem 1)
  rw [Function.update_self] at hval
  revert hval
  decide

theorem performBinOpMod_covers_small :
    WrapCovered (Box.numbered 2) .add add (.value 0) (.constantInt ⟨8, 100⟩) 8 1 (fun _ => 20) :=
  (performBinOpMod_covers_iff (Box.numbered 2) .add (.inl rfl) add 8 rfl (by decide) 1 rfl (.value 0)
    (.constantInt ⟨8, 100⟩) ⟨by decide, by decide, 0, rfl⟩ (fun _ => 20)).mpr ⟨by decide, by decide⟩

end ByteAdd

end Watts
