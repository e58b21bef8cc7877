import Watts.Environment
import Watts.LoadKinds
import Watts.PostFixpoint

/-! The programs that the pass supports, as a test that can be run on a program, and the ways in which the
pass can still stop on one of them. -/

namespace Watts

open Fallible (FailsIn Yields)
open Worklist (Pop)

/-! ### Supported instructions -/

/-- The signed value fits an `int`. -/
def ConstantInt.fits (ci : ConstantInt) : Bool :=
  decide (-(2 ^ 31) ≤ ci.val.toInt) && decide (ci.val.toInt < 2 ^ 31)

namespace Operand

variable (v2n : NameMap)

/-- An operand that `performAssign` copies. -/
def assignable : Operand → Bool
  | .constantInt ci | .constantExpr (some ci) => ci.fits
  | .constantPointerNull => true
  | .constantExpr none => false
  | .value v => v2n.contains v

/-- An `int` or a variable. -/
def isTerm : Operand → Bool
  | .constantInt ci => ci.fits
  | .value v => v2n.contains v
  | _ => false

def isConstantInt : Operand → Bool
  | .constantInt _ => true
  | _ => false

/-- An operand of a logic operation; `one` is the reading of the constant true on its side. -/
def isTruthValue (one : Int) : Operand → Bool
  | .constantInt ci => ci.val.toInt == 0 || ci.val.toInt == one
  | .value v => v2n.contains v
  | _ => false

end Operand

/-- The operands and the operation of `performBinOp`: a constant with a sum or a product, or two variables
with a sum. -/
def BinaryOps.supported (v2n : NameMap) (op : BinaryOps) (op0 op1 : Operand) : Bool :=
  op0.isTerm v2n && op1.isTerm v2n && !(op0.isConstantInt && op1.isConstantInt) &&
    (op == .add || op == .mul && (op0.isConstantInt || op1.isConstantInt))

/-- The operands and the predicate of `performAssignCmp`: exactly one is constant, and on the right when the
test is for inequality. -/
def Predicate.supported (v2n : NameMap) (pred : Predicate) (op0 op1 : Operand) : Bool :=
  op0.isTerm v2n && op1.isTerm v2n && (op0.isConstantInt != op1.isConstantInt) &&
    match pred with
    | .ne => !op0.isConstantInt
    | .eq | .sgt | .sge | .slt | .sle => true
    | _ => false

def Incoming.supported (v2n : NameMap) : Incoming → Bool
  | .constantInt ci => ci.fits
  | .cmpInst v => v2n.contains v
  | .other => false

/-- The function that a call starts has a body. -/
def Module.hasBody (M : Module) (f : FuncId) : Bool :=
  (M.func? f).any fun F => !F.blocks.isEmpty

namespace Instruction

variable (cx : Ctx)

/-- An instruction before a terminator that the transfer function handles.  An `atomicrmw` is only handled
where all loads read the join of their sources. -/
def supported (i : Instruction) : Bool :=
  match i.kind with
  | .alloca => true
  | .store val ptr => val.assignable cx.v2n && cx.v2n.contains ptr
  | .load ptr => cx.v2n.contains i.id && cx.v2n.contains ptr
  | .icmp pred op0 op1 => cx.v2n.contains i.id && pred.supported cx.v2n op0 op1
  | .call callee =>
    match callee with
    | .pthreadCreate _ f _ => f.any cx.module.hasBody
    | .other => false
    | _ => true
  | .binary op op0 op1 =>
    cx.v2n.contains i.id &&
      match op with
      | .add | .mul => i.bitWidth.any (· < 64) && op.supported cx.v2n op0 op1
      | .xor =>
        if i.bitWidth = some 1 then op0.isTruthValue cx.v2n 1 && op1.isTruthValue cx.v2n (-1) else op0 == op1
      | .other => false
  | .cast src => cx.v2n.contains i.id && src.assignable cx.v2n
  | .phi incoming => cx.v2n.contains i.id && incoming.all fun v => v.supported cx.v2n
  | .atomicRMW op ptr val =>
    cx.opts.noCombinsG && cx.v2n.contains i.id && cx.v2n.contains ptr && val.isTerm cx.v2n && op == .add
  | _ => false

/-- A terminator that the pass handles. -/
def supportedTerminator (t : Instruction) : Bool :=
  match t.kind with
  | .br _ | .ret | .unreachable => true
  | .condBr cond trueSucc falseSucc =>
    cx.v2n.contains cond.val && trueSucc != falseSucc &&
      match cond with
      | .icmp _ _ op0 op1 =>
        !cx.opts.constrICmp ||
          op0.isTerm cx.v2n && op1.isTerm cx.v2n && !(op0.isConstantInt && op1.isConstantInt)
      | .value _ => true
  | _ => false

end Instruction

def Function.supported (cx : Ctx) (F : Function) : Bool :=
  F.blocks.all fun b => b.body.all (·.supported cx) && b.terminator.supportedTerminator cx

/-- There is an initializer, and an integer in it fits an `int`. -/
def GlobalVariable.supported (v2n : NameMap) (g : GlobalVariable) : Bool :=
  match g.initializer with
  | none => false
  | some (.constantInt ci) => v2n.contains g.id && ci.fits
  | some .other => true

/-- A program that the pass supports: there is a `main`, and all instructions and globals are supported. -/
def Ctx.supported (cx : Ctx) : Bool :=
  cx.module.main.any cx.module.hasBody && cx.module.functions.all (·.supported cx) &&
    cx.module.globals.all (·.supported cx.v2n)

/-! ### The transfer functions return -/

section Operands

variable {ap : Apron} {α : Type} {P : Stop → Prop} {v2n : NameMap} {f : LatticeFact ap}

theorem exists_getElem?_of_contains {m : Std.TreeMap Value α} {key : Value} (h : m.contains key = true) :
    ∃ a, m[key]? = some a := by
  rw [Std.TreeMap.contains_eq_isSome_getElem?] at h
  exact Option.isSome_iff_exists.mp h

theorem mapAtUnsafe_failsIn {m : Std.TreeMap Value α} {key : Value} (h : m.contains key = true) :
    FailsIn P (mapAtUnsafe m key) := by
  unfold mapAtUnsafe
  obtain ⟨a, ha⟩ := exists_getElem?_of_contains h
  rw [ha]
  exact .ok a

theorem getConstantIntUnsafe_failsIn {ci : ConstantInt} (h : ci.fits = true) : FailsIn P (getConstantIntUnsafe ci) := by
  unfold ConstantInt.fits at h
  unfold getConstantIntUnsafe
  rw [Bool.and_eq_true, decide_eq_true_eq, decide_eq_true_eq] at h
  rw [if_pos h]
  exact .ok _

theorem valueToStringUnsafe_failsIn {op : Operand} (h : op.isTerm v2n = true) (hc : op.isConstantInt = false) :
    FailsIn P (op.valueToStringUnsafe v2n) := by
  cases op with
  | value v => exact mapAtUnsafe_failsIn h
  | constantInt ci => cases hc
  | _ => cases h

theorem constrainFact_failsIn {useOctG : Bool} {op0 op1 : Operand} {cons : ConsType} (h0 : op0.isTerm v2n = true)
    (h1 : op1.isTerm v2n = true) (hc : (op0.isConstantInt && op1.isConstantInt) = false) :
    FailsIn P (f.constrainFact useOctG op0 op1 cons v2n) := by
  cases op0 with
  | constantInt ci0 =>
      cases op1 with
      | constantInt ci1 => cases hc
      | value v1 =>
          exact .bind (getConstantIntUnsafe_failsIn h0) fun _ => .bind (mapAtUnsafe_failsIn h1) fun _ => .ok _
      | _ => cases h1
  | value v0 =>
      cases op1 with
      | constantInt ci1 =>
          exact .bind (getConstantIntUnsafe_failsIn h1) fun _ => .bind (mapAtUnsafe_failsIn h0) fun _ => .ok _
      | value v1 => exact .bind (mapAtUnsafe_failsIn h0) fun _ => .bind (mapAtUnsafe_failsIn h1) fun _ => .ok _
      | _ => cases h1
  | _ => cases h0

theorem constrainTF_failsIn {opts : Options} {cond : Condition} (tf : Bool) (hv : v2n.contains cond.val = true)
    (hc : ∀ ic pred op0 op1, cond = .icmp ic pred op0 op1 → opts.constrICmp = true →
      op0.isTerm v2n = true ∧ op1.isTerm v2n = true ∧ (op0.isConstantInt && op1.isConstantInt) = false) :
    FailsIn P (f.constrainTF opts cond tf v2n) := by
  refine .bind (mapAtUnsafe_failsIn hv) fun vstr => ?_
  cases hopt : opts.constrICmp with
  | false => exact .ok _
  | true =>
      cases cond with
      | value v => exact .ok _
      | icmp ic pred op0 op1 =>
          obtain ⟨h0, h1, h01⟩ := hc ic pred op0 op1 rfl hopt
          have h10 : (op1.isConstantInt && op0.isConstantInt) = false := by rw [Bool.and_comm, h01]
          refine FailsIn.bind ?_ fun _ => .ok _
          unfold LatticeFact.constrainICmp
          cases pred <;> cases tf <;>
            first | exact constrainFact_failsIn h0 h1 h01 | exact constrainFact_failsIn h1 h0 h10

end Operands

namespace BBOps

variable {ap : Apron} {P : Stop → Prop} {v2n : NameMap} {f interf : LatticeFact ap} {useOctG : Bool}

theorem performAssign_failsIn {dst : Value} {src : Operand} (hd : v2n.contains dst = true)
    (hs : src.assignable v2n = true) : FailsIn P (performAssign v2n dst src f) := by
  refine .bind (mapAtUnsafe_failsIn hd) fun toVar => ?_
  cases src with
  | constantInt ci => exact .bind (getConstantIntUnsafe_failsIn hs) fun _ => .ok _
  | constantPointerNull => exact .ok _
  | constantExpr folded =>
      cases folded with
      | some ci => exact .bind (getConstantIntUnsafe_failsIn hs) fun _ => .ok _
      | none => cases hs
  | value v => exact .bind (mapAtUnsafe_failsIn hs) fun _ => .ok _

theorem performPhiInst_failsIn {phi : Value} {incoming : List Incoming} (hd : v2n.contains phi = true)
    (hin : incoming.all (·.supported v2n) = true) : FailsIn P (performPhiInst v2n phi incoming f) := by
  refine .bind (mapAtUnsafe_failsIn hd) fun toStr => .foldlM (fun v hv ret => ?_) _
  have hv := List.all_eq_true.mp hin v hv
  cases v with
  | constantInt ci => exact .bind (getConstantIntUnsafe_failsIn hv) fun _ => .ok _
  | cmpInst cmp => exact .bind (mapAtUnsafe_failsIn hv) fun _ => .ok _
  | other => cases hv

theorem performAssignWithInterf_failsIn (nonCombinInterfs : Bool) {dst ptr : Value} (hd : v2n.contains dst = true)
    (hp : v2n.contains ptr = true) :
    FailsIn P (performAssignWithInterf v2n nonCombinInterfs dst ptr f interf) := by
  cases nonCombinInterfs with
  | false => exact .bind (mapAtUnsafe_failsIn hp) fun _ => performAssign_failsIn hd hp
  | true =>
      change FailsIn P (performNonCombinAssign v2n dst ptr f interf)
      unfold performNonCombinAssign
      obtain ⟨p, hptr⟩ := exists_getElem?_of_contains hp
      rw [hptr]
      exact performAssign_failsIn hd hp

theorem performBinOp_failsIn {opTy : BinaryOps} {dst : Value} {op0 op1 : Operand} (hd : v2n.contains dst = true)
    (h : opTy.supported v2n op0 op1 = true) : FailsIn P (performBinOp v2n opTy dst op0 op1 f) := by
  unfold BinaryOps.supported at h
  simp only [Bool.and_eq_true, Bool.or_eq_true, beq_iff_eq, Bool.not_eq_true'] at h
  obtain ⟨⟨⟨h0, h1⟩, h01⟩, hop⟩ := h
  refine .bind (mapAtUnsafe_failsIn hd) fun toStr => ?_
  cases op0 with
  | constantInt ci0 =>
      cases op1 with
      | constantInt ci1 => cases h01
      | value v1 =>
          refine .bind (getConstantIntUnsafe_failsIn h0) fun _ => .bind (valueToStringUnsafe_failsIn h1 rfl) fun _ => ?_
          rcases hop with rfl | ⟨rfl, _⟩ <;> exact .ok _
      | _ => cases h1
  | value v0 =>
      cases op1 with
      | constantInt ci1 =>
          refine .bind (getConstantIntUnsafe_failsIn h1) fun _ => .bind (valueToStringUnsafe_failsIn h0 rfl) fun _ => ?_
          rcases hop with rfl | ⟨rfl, _⟩ <;> exact .ok _
      | value v1 =>
          rcases hop with rfl | ⟨_, hc | hc⟩
          · exact .bind (valueToStringUnsafe_failsIn h0 rfl) fun _ =>
              .bind (valueToStringUnsafe_failsIn h1 rfl) fun _ => .ok _
          · cases hc
          · cases hc
      | _ => cases h1
  | _ => cases h0

theorem performBinOpMod_failsIn {opTy : BinaryOps} {i : Instruction} {op0 op1 : Operand}
    (hd : v2n.contains i.id = true) (hbw : i.bitWidth.any (· < 64) = true)
    (h : opTy.supported v2n op0 op1 = true) : FailsIn P (performBinOpMod v2n opTy i op0 op1 f) := by
  refine .bind (performBinOp_failsIn hd h) fun tmp => ?_
  cases hw : i.bitWidth with
  | none =>
      rw [hw] at hbw
      cases hbw
  | some bw =>
      rw [hw] at hbw
      refine FailsIn.bind ?_ fun bw2 => .bind (mapAtUnsafe_failsIn hd) fun _ => .ok _
      unfold modulus
      rw [if_pos (of_decide_eq_true hbw)]
      exact .ok _

/-- An operand of a logic operation may have at least one truth value. -/
theorem logicOperand_ok {one : Int} {msg : String} {op : Operand} (hone : one = 1 ∨ one = -1)
    (h : op.isTruthValue v2n one = true) :
    ∃ r, logicOperand useOctG v2n one msg f op = .ok r ∧ (r.1 || r.2) = true := by
  cases op with
  | constantInt ci =>
      unfold Operand.isTruthValue at h
      rw [Bool.or_eq_true, beq_iff_eq, beq_iff_eq] at h
      have hfits : getConstantIntUnsafe ci = .ok ci.val.toInt := by
        unfold getConstantIntUnsafe
        exact if_pos (by omega)
      change ∃ r, (getConstantIntUnsafe ci >>= _) = .ok r ∧ _
      rw [hfits, Fallible.ok_bind]
      rcases h with h | h
      · exact ⟨(true, false), if_pos h, rfl⟩
      · refine ⟨(false, true), ?_, rfl⟩
        rw [if_neg (by omega), if_pos h]
        rfl
  | value v =>
      obtain ⟨x, hx⟩ := exists_getElem?_of_contains h
      have hname : (Operand.value v).valueToStringUnsafe v2n = .ok x := by
        change mapAtUnsafe v2n v = .ok x
        unfold mapAtUnsafe
        rw [hx]
      change ∃ r, ((Operand.value v).valueToStringUnsafe v2n >>= _) = .ok r ∧ _
      rw [hname, Fallible.ok_bind]
      dsimp only
      by_cases hz : (f.isEq useOctG (.var x) (.int 0) || f.isEq useOctG (.var x) (.int 1)) = true
      · refine ⟨_, if_neg ?_, hz⟩
        rw [hz]
        decide
      · refine ⟨(true, true), if_pos ?_, rfl⟩
        rw [Bool.not_eq_true] at hz
        rw [hz]
        rfl
  | _ => cases h

theorem performLogicOp_failsIn {i : Instruction} {op0 op1 : Operand} (hd : v2n.contains i.id = true)
    (h : (if i.bitWidth = some 1 then op0.isTruthValue v2n 1 && op1.isTruthValue v2n (-1) else op0 == op1) = true) :
    FailsIn P (performLogicOp useOctG v2n .xor i op0 op1 f) := by
  obtain ⟨toVar, hto⟩ := exists_getElem?_of_contains hd
  unfold performLogicOp
  rw [hto]
  dsimp only
  by_cases hbw : i.bitWidth = some 1
  · rw [if_pos hbw, Bool.and_eq_true] at h
    rw [if_neg (not_not_intro hbw)]
    obtain ⟨⟨z0, o0⟩, hr0, h0⟩ := logicOperand_ok (.inl rfl) h.1
    obtain ⟨⟨z1, o1⟩, hr1, h1⟩ := logicOperand_ok (.inr rfl) h.2
    rw [hr0, Fallible.ok_bind]
    dsimp only
    rw [hr1, Fallible.ok_bind]
    cases z0 <;> cases o0 <;> cases z1 <;> cases o1 <;>
      first | exact .ok _ | exact absurd h0 (by decide) | exact absurd h1 (by decide)
  · rw [if_neg hbw, beq_iff_eq] at h
    rw [if_pos hbw, if_pos ⟨rfl, h⟩]
    exact .ok _

theorem assignCmp_failsIn {dst : Var} (sat unsat : Bool) : FailsIn P (f.assignCmp dst sat unsat) := by
  cases sat <;> cases unsat <;> exact .ok _

theorem performAssignCmp_failsIn {dst : Value} {op0 op1 : Operand} {pred : Predicate} (hd : v2n.contains dst = true)
    (h : pred.supported v2n op0 op1 = true) : FailsIn P (performAssignCmp useOctG v2n dst op0 op1 f pred) := by
  unfold Predicate.supported at h
  simp only [Bool.and_eq_true] at h
  obtain ⟨⟨⟨h0, h1⟩, h01⟩, hpred⟩ := h
  cases op0 with
  | constantInt ci0 =>
      cases op1 with
      | value v1 =>
          refine .bind (getConstantIntUnsafe_failsIn h0) fun _ => .bind (mapAtUnsafe_failsIn hd) fun _ =>
            .bind (mapAtUnsafe_failsIn h1) fun _ => ?_
          cases pred with
          | eq | sgt | sge | slt | sle => exact assignCmp_failsIn _ _
          | _ => cases hpred
      | constantInt ci1 => cases h01
      | _ => cases h1
  | value v0 =>
      cases op1 with
      | constantInt ci1 =>
          refine .bind (getConstantIntUnsafe_failsIn h1) fun _ => .bind (mapAtUnsafe_failsIn hd) fun _ =>
            .bind (mapAtUnsafe_failsIn h0) fun _ => ?_
          cases pred with
          | ne | eq | sgt | sge | slt | sle => exact assignCmp_failsIn _ _
          | _ => cases hpred
      | value v1 => cases h01
      | _ => cases h1
  | _ => cases h0

theorem performAtomicRMWInterf_failsIn (nonCombinInterfs : Bool) {rmw ptr : Value} {op : RMWOp} {val : Operand}
    (hr : v2n.contains rmw = true) (hp : v2n.contains ptr = true) (hval : val.isTerm v2n = true) (hop : op = .add) :
    FailsIn P (performAtomicRMWInterf v2n nonCombinInterfs rmw op ptr val f interf) := by
  subst hop
  refine .bind (performAssignWithInterf_failsIn nonCombinInterfs hr hp) fun inWithRet => ?_
  refine performBinOp_failsIn hp ?_
  rw [BinaryOps.supported, hval]
  simp [Operand.isTerm, Operand.isConstantInt, hr]

theorem performAtomicRMW_failsIn {rmw ptr : Value} {op : RMWOp} {val : Operand} (hr : v2n.contains rmw = true)
    (hp : v2n.contains ptr = true) (hval : val.isTerm v2n = true) (hop : op = .add) :
    FailsIn P (performAtomicRMW v2n rmw op ptr val f) := by
  subst hop
  refine .bind (performAssign_failsIn hr hp) fun inWithRet => ?_
  refine performBinOp_failsIn hp ?_
  rw [BinaryOps.supported, hval]
  simp [Operand.isTerm, Operand.isConstantInt, hp]

/-- A supported instruction is executed, unless it reports an error that is reached with bottom. -/
theorem transferFact_failsIn {cx : Ctx} (interf : InterfMap ap) (nonCombinInterfs : Bool)
    (hbot : f.isBottom = true → P (.abort "error reached with bottom")) {i : Instruction}
    (hi : i.supported cx = true) : FailsIn P (transferFact cx interf nonCombinInterfs f i) := by
  unfold Instruction.supported at hi
  unfold transferFact
  cases hk : i.kind with
  | alloca => exact .ok _
  | store val ptr =>
      rw [hk] at hi
      rw [Bool.and_eq_true] at hi
      exact performAssign_failsIn hi.2 hi.1
  | load ptr =>
      rw [hk] at hi
      rw [Bool.and_eq_true] at hi
      dsimp only
      cases interf[i.id]? with
      | none => exact performAssign_failsIn hi.1 hi.2
      | some itf => exact performAssignWithInterf_failsIn nonCombinInterfs hi.1 hi.2
  | icmp pred op0 op1 =>
      rw [hk] at hi
      rw [Bool.and_eq_true] at hi
      exact performAssignCmp_failsIn hi.1 hi.2
  | call callee =>
      rw [hk] at hi
      cases callee with
      | assertFail =>
          dsimp only
          split_ifs with hf
          · exact .error (hbot hf)
          · exact .ok _
      | other => cases hi
      | _ => exact .ok _
  | binary op op0 op1 =>
      rw [hk] at hi
      rw [Bool.and_eq_true] at hi
      cases op with
      | add | mul =>
          have hop := (Bool.and_eq_true _ _).mp hi.2
          exact performBinOpMod_failsIn hi.1 hop.1 hop.2
      | xor => exact performLogicOp_failsIn hi.1 hi.2
      | other => cases hi.2
  | cast src =>
      rw [hk] at hi
      rw [Bool.and_eq_true] at hi
      exact performAssign_failsIn hi.1 hi.2
  | phi incoming =>
      rw [hk] at hi
      rw [Bool.and_eq_true] at hi
      exact performPhiInst_failsIn hi.1 hi.2
  | atomicRMW op ptr val =>
      rw [hk] at hi
      simp only [Bool.and_eq_true, beq_iff_eq] at hi
      obtain ⟨⟨⟨⟨_, hr⟩, hp⟩, hval⟩, hop⟩ := hi
      dsimp only
      cases interf[i.id]? with
      | some itf => exact performAtomicRMWInterf_failsIn nonCombinInterfs hr hp hval hop
      | none => exact performAtomicRMW_failsIn hr hp hval hop
  | _ =>
      rw [hk] at hi
      cases hi

theorem outFacts_failsIn {cx : Ctx} {t : Instruction} (endFact : LatticeFact ap)
    (ht : t.supportedTerminator cx = true) : FailsIn P (outFacts cx t endFact) := by
  unfold Instruction.supportedTerminator at ht
  unfold outFacts
  cases hk : t.kind with
  | br succ => exact .ok _
  | ret | unreachable => exact .ok _
  | condBr cond trueSucc falseSucc =>
      rw [hk] at ht
      simp only [Bool.and_eq_true, bne_iff_ne] at ht
      obtain ⟨⟨hv, hne⟩, hc⟩ := ht
      have hcond : ∀ ic pred op0 op1, cond = .icmp ic pred op0 op1 → cx.opts.constrICmp = true →
          op0.isTerm cx.v2n = true ∧ op1.isTerm cx.v2n = true ∧ (op0.isConstantInt && op1.isConstantInt) = false := by
        rintro ic pred op0 op1 rfl hopt
        simp only [hopt, Bool.not_true, Bool.false_or, Bool.and_eq_true, Bool.not_eq_true'] at hc
        exact ⟨hc.1.1, hc.1.2, hc.2⟩
      refine .bind (constrainTF_failsIn true hv hcond) fun trueF =>
        .bind (constrainTF_failsIn false hv hcond) fun falseF => ?_
      rw [if_neg hne]
      exact .ok _
  | _ =>
      rw [hk] at ht
      cases ht

end BBOps

/-! ### Invariants of the facts -/

section FactInv

variable {ap : Apron}

/-- Every fact of the map is one of `I`. -/
def AllFacts (I : LatticeFact ap → Prop) (m : Std.TreeMap Value (LatticeFact ap)) : Prop :=
  ∀ (v : Value) f, m[v]? = some f → I f

theorem allFacts_empty (I : LatticeFact ap → Prop) : AllFacts I {} := by
  intro v f hf
  simp at hf

/-- A property that the facts have where they are visited and that the instructions keep, and the stops that it
leaves. -/
structure FactInv (cx : Ctx) (I : LatticeFact ap → Prop) (P : Stop → Prop) : Prop where
  visited : ∀ {f old : LatticeFact ap}, f.leq old = false → I f
  factJoin : ∀ {f g : LatticeFact ap}, I f → I g → I (f.factJoin g)
  transferFact : ∀ {interf : InterfMap ap} (nonCombinInterfs : Bool) {f : LatticeFact ap} {i : Instruction},
    AllFacts I interf → I f → i ∈ cx.module.instrs → i.supported cx = true →
      Yields P I (BBOps.transferFact cx interf nonCombinInterfs f i)
  stable : ∀ {f : LatticeFact ap}, I f → f.isBottom = true → P (.abort "reachable bottom fact")

namespace BBOps

variable {cx : Ctx} {I : LatticeFact ap → Prop} {P : Stop → Prop}

theorem record_allFacts (hI : ∀ {f g : LatticeFact ap}, I f → I g → I (f.factJoin g)) {books : Books ap}
    (hb : AllFacts I books.reachStores) (fIn : LatticeFact ap) {fOut : LatticeFact ap} (hf : I fOut)
    (i : Instruction) : AllFacts I (record books fIn fOut i).reachStores := by
  have hjoin : AllFacts I (updateReachStores books.reachStores i.id fOut) :=
    joinInto_bounded (P := fun _ f => I f) (fun _ _ _ => hI) hb hf
  unfold record
  cases i.kind with
  | store val ptr => exact hjoin
  | atomicRMW op ptr val => exact hjoin
  | call callee => cases callee <;> exact hb
  | _ => exact hb

theorem runTransferFuncs_yields (hI : FactInv cx I P) {interf : InterfMap ap} (hinterf : AllFacts I interf)
    (nonCombinInterfs : Bool) {b : BasicBlock} {inFact : LatticeFact ap} (hin : I inFact) {books : Books ap}
    (hbooks : AllFacts I books.reachStores)
    (hb : ∀ i ∈ b.body, i ∈ cx.module.instrs ∧ i.supported cx = true)
    (ht : b.terminator.supportedTerminator cx = true) :
    Yields P (fun r => AllFacts I r.2.reachStores) (runTransferFuncs cx interf nonCombinInterfs b inFact books) := by
  have hbody : Yields P (fun r => I r.1 ∧ AllFacts I r.2.reachStores)
      (runBody cx interf nonCombinInterfs b.body inFact books) := by
    refine .foldlM (I := fun r : LatticeFact ap × Books ap => I r.1 ∧ AllFacts I r.2.reachStores)
      (fun i hi s hs => ?_) ⟨hin, hbooks⟩
    rw [stepInst_eq]
    refine .bind (hI.transferFact nonCombinInterfs hinterf hs.1 (hb i hi).1 (hb i hi).2) fun f hf => ?_
    exact .ok ⟨hf, record_allFacts hI.factJoin hs.2 s.1 hf i⟩
  refine .bind hbody fun r hr => .bind (Q := fun _ => True) ⟨outFacts_failsIn r.1 ht, fun _ _ => trivial⟩ fun _ _ => ?_
  exact .ok hr.2

end BBOps

end FactInv

/-! ### The worklist loop returns or runs forever -/

section Loop

variable {ap : Apron} {o : BlockOrder} {cx : Ctx} {interf : InterfMap ap} {F : Function}
  {I : LatticeFact ap → Prop} {P : Stop → Prop}

/-- Facts wait only at blocks of the function, and each of its blocks has a stored fact. -/
structure LoopState.Inside (F : Function) (s : LoopState o ap) : Prop where
  pending : ∀ b f, s.worklist[b]? = some f → b ∈ F.blocks.map BasicBlock.id
  stored : ∀ b ∈ F.blocks.map BasicBlock.id, (s.analState[b]?).isSome = true

theorem LoopState.Inside.iter {s t : LoopState o ap} {p : Pop BlockId (LatticeFact ap)} (hs : s.Inside F)
    (h : LoopState.Iter cx interf F s p t) : t.Inside F := by
  have herase : ∀ b f, Function.update s.abs.pending p.key none b = some f → b ∈ F.blocks.map BasicBlock.id := by
    intro b f hb
    by_cases hkey : b = p.key
    · rw [hkey, Function.update_self] at hb
      cases hb
    · rw [Function.update_of_ne hkey] at hb
      exact hs.pending b f hb
  refine ⟨fun b f hb => ?_, fun b hb => (h.keys b).trans (hs.stored b hb)⟩
  have hb : t.abs.pending b = some f := hb
  obtain ⟨_, _, B, hB, ⟨_, _, ht⟩ | ⟨_, outs, hrun, ht⟩⟩ := h.cases
  · rw [ht] at hb
    exact herase b f hb
  · rw [ht] at hb
    have hsucc := runTransferFuncs_succ (Function.block?_mem hB).1 hrun
    exact Worklist.merge_bounded (P := fun b _ => b ∈ F.blocks.map BasicBlock.id) (fun _ _ _ hb _ => hb) outs _ herase
      (fun b f hp => hsucc (b, f) hp) b f hb

theorem initLoop_inside {first : BasicBlock} (hfirst : first ∈ F.blocks) (entryFact : LatticeFact ap)
    (books : Books ap) : (initLoop o F first entryFact books).Inside F := by
  refine ⟨fun b f hb => ?_, fun b hb => ?_⟩
  · have hb : (initLoop o F first entryFact books).abs.pending b = some f := hb
    rw [initLoop_pending] at hb
    split_ifs at hb with hid
    exact hid ▸ List.mem_map_of_mem hfirst
  · rw [initLoop, initBBs_getElem?, if_pos hb]
    rfl

/-- The ways in which an analysis fails, but for the stops of `P`. -/
def LoopStop.In (P : Stop → Prop) (e : LoopStop) : Prop :=
  e = .outOfFuel ∨ ∃ s, P s ∧ e = .stop s

theorem Function.supported_block (hF : F.supported cx = true) {B : BasicBlock} (hB : B ∈ F.blocks) :
    (∀ i ∈ B.body, i.supported cx = true) ∧ B.terminator.supportedTerminator cx = true := by
  have h := (Bool.and_eq_true _ _).mp (List.all_eq_true.mp hF B hB)
  exact ⟨List.all_eq_true.mp h.1, h.2⟩

theorem analyzeIter_yields (hI : FactInv cx I P) (hinterf : AllFacts I interf) (hmod : F ∈ cx.module.functions)
    (hF : F.supported cx = true) {cur : BlockId × LatticeFact ap} {rest : List (BlockId × LatticeFact ap)}
    {s : LoopState o ap} (hs : s.Inside F) (hbooks : AllFacts I s.books.reachStores)
    (hpop : s.worklist.toList = cur :: rest) :
    Yields P (fun t => AllFacts I t.books.reachStores) (analyzeIter cx interf F cur s) := by
  have hpend : s.worklist[cur.1]? = some cur.2 :=
    Std.TreeMap.mem_toList_iff_getElem?_eq_some.mp (hpop ▸ List.mem_cons_self)
  have hmem := hs.pending cur.1 cur.2 hpend
  obtain ⟨old, hold⟩ := Option.isSome_iff_exists.mp (hs.stored cur.1 hmem)
  obtain ⟨B, hB⟩ := Option.isSome_iff_exists.mp (Function.block?_isSome.mpr hmem)
  have hBF := (Function.block?_mem hB).1
  obtain ⟨hbody, hterm⟩ := Function.supported_block hF hBF
  have hinstrs : ∀ i ∈ B.body, i ∈ cx.module.instrs ∧ i.supported cx = true := fun i hi =>
    ⟨Module.mem_instrs.mpr ⟨F, hmod, Function.mem_instrs.mpr ⟨B, hBF, BasicBlock.mem_instrs.mpr (.inl hi)⟩⟩,
      hbody i hi⟩
  unfold analyzeIter
  rw [hold, hB]
  dsimp only
  split_ifs with hle
  · exact .ok hbooks
  · have hvisited := hI.visited (Bool.not_eq_true _ ▸ hle)
    exact .bind (BBOps.runTransferFuncs_yields hI hinterf cx.opts.noCombinsG hvisited hbooks hinstrs hterm)
      fun _ hr => .ok hr

theorem analyzeLoop_yields (hI : FactInv cx I P) (hinterf : AllFacts I interf) (hmod : F ∈ cx.module.functions)
    (hF : F.supported cx = true) {fuel : Nat} {s : LoopState o ap} (hs : s.Inside F)
    (hbooks : AllFacts I s.books.reachStores) :
    Yields (LoopStop.In P) (fun t => AllFacts I t.books.reachStores) (analyzeLoop cx interf F fuel s) := by
  induction fuel generalizing s with
  | zero =>
      unfold analyzeLoop
      cases s.worklist.toList with
      | nil => exact .ok hbooks
      | cons cur rest => exact .error (.inl rfl)
  | succ fuel ih =>
      unfold analyzeLoop
      cases hpop : s.worklist.toList with
      | nil => exact .ok hbooks
      | cons cur rest =>
          dsimp only
          have hiter := analyzeIter_yields hI hinterf hmod hF hs hbooks hpop
          cases hi : analyzeIter cx interf F cur s with
          | error e => exact .error (.inr ⟨e, hiter.fails e hi, rfl⟩)
          | ok s' => exact ih (hs.iter (.mk hpop hi)) (hiter.returns s' hi)

/-- **The analysis of a supported function returns**, unless its loop does not end or the invariant leaves a
stop. -/
theorem analyzeFunc_yields (hI : FactInv cx I P) (hinterf : AllFacts I interf) (hmod : F ∈ cx.module.functions)
    (hF : F.supported cx = true) (hblocks : F.blocks ≠ []) {books : Books ap} (hbooks : AllFacts I books.reachStores)
    {entryFact : LatticeFact ap} {mergeInterfs : Bool} {fuel : Nat} :
    Yields (LoopStop.In P) (fun r => AllFacts I r.2.reachStores)
      (analyzeFunc o cx interf books entryFact F mergeInterfs fuel) := by
  unfold analyzeFunc
  cases hb : F.blocks with
  | nil => exact absurd hb hblocks
  | cons first rest =>
      have hinside : (initLoop o F first entryFact books).Inside F :=
        initLoop_inside (hb ▸ List.mem_cons_self) entryFact books
      exact .bind (analyzeLoop_yields hI hinterf hmod hF hinside hbooks) fun _ hs => .ok hs

end Loop

end Watts
