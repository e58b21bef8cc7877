import Watts.AtomicAdds
import Watts.Box
import Watts.PassStops

/-! Bottom facts.  An assignment of a value to a variable leaves a fact that is not bottom so.  Of the
instructions, only a phi node assigns the empty interval. -/

namespace Watts

open Fallible (Returns)

/-! ### Assumptions on Apron -/

/-- The expression has a value in every state. -/
def TExpr.Defined : TExpr → Prop
  | .mod _ cst => cst ≠ 0
  | _ => True

/-- What is not bottom has values for its variables, and assigning a value to one keeps it so. -/
structure Apron.KeepsStates (ap : Apron) : Prop where
  isBottom_iff : ∀ a, ap.isBottom a = true ↔ ap.isLeq a ap.bottom = true
  top : ap.isBottom ap.top = false
  assignLinexpr : ∀ {a} v ts {I : Interval} {x : Int}, ap.isBottom a = false → I.Mem x →
    ap.isBottom (ap.assignLinexpr a v ⟨ts, I⟩) = false
  assignTexpr : ∀ {a} v {e : TExpr}, ap.isBottom a = false → e.Defined → ap.isBottom (ap.assignTexpr a v e) = false
  boundVariable : ∀ {a} v, ap.isBottom a = false → ∃ x, (ap.boundVariable a v).Mem x

theorem Box.keepsStates : boxes.KeepsStates where
  isBottom_iff a := by cases a <;> simp [boxes]
  top := rfl
  assignLinexpr {a} v ts I x ha hx := by
    cases a with
    | none => cases ha
    | some b =>
        obtain ⟨J, hJ, _⟩ := ofInterval_isSome hx
        simp [boxes, hJ]
  assignTexpr {a} v e ha _ := by
    cases a with
    | none => cases ha
    | some b => rfl
  boundVariable {a} v ha := by
    cases a with
    | none => cases ha
    | some b => exact (get b v).exists_mem

section Facts

variable {ap : Apron} (hK : ap.KeepsStates) {f g : LatticeFact ap}

include hK

namespace LatticeFact

theorem assignInterval_nonBottom (hf : f.isBottom = false) (v : Var) {I : Interval} {x : Int} (hx : I.Mem x) :
    (f.assignInterval v I).isBottom = false :=
  hK.assignLinexpr v [] hf hx

theorem assignInt_nonBottom (hf : f.isBottom = false) (dst : Var) (c : Int) : (f.assignInt dst c).isBottom = false :=
  hK.assignLinexpr dst [] hf (x := c) (by simp [Interval.const, Interval.Mem])

theorem assignVar_nonBottom (hf : f.isBottom = false) (dst src : Var) : (f.assignVar dst src).isBottom = false :=
  hK.assignLinexpr dst [(1, src)] hf (x := 0) (by simp [Interval.const, Interval.Mem])

theorem addInt_nonBottom (hf : f.isBottom = false) (dst op : Var) (c : Int) : (f.addInt dst op c).isBottom = false :=
  hK.assignLinexpr dst [(1, op)] hf (x := c) (by simp [Interval.const, Interval.Mem])

theorem factJoin_nonBottom (hL : ap.Lattice) (hf : f.isBottom = false) : (f.factJoin g).isBottom = false := by
  rw [← Bool.not_eq_true, isBottom, hK.isBottom_iff]
  intro h
  have hbot : ap.isBottom f.absVals = true := (hK.isBottom_iff _).mpr (hL.leq_trans (hL.join_left _ g.absVals) h)
  rw [show ap.isBottom f.absVals = false from hf] at hbot
  cases hbot

theorem assignTrueFalse_nonBottom (hf : f.isBottom = false) (dst : Var) (setTrue setFalse : Bool) :
    Returns (fun f' => f'.isBottom = false) (f.assignTrueFalse dst setTrue setFalse) := by
  unfold assignTrueFalse
  split_ifs
  · exact .ok (assignInterval_nonBottom hK hf dst (x := 0) (by simp [Interval.Mem]))
  · exact .ok (assignInt_nonBottom hK hf dst 1)
  · exact .ok (assignInt_nonBottom hK hf dst 0)
  · exact .error _

theorem assignCmp_nonBottom (hf : f.isBottom = false) (dst : Var) (sat unsat : Bool) :
    Returns (fun f' => f'.isBottom = false) (f.assignCmp dst sat unsat) := by
  unfold assignCmp
  split_ifs <;> exact assignTrueFalse_nonBottom hK hf dst _ _

end LatticeFact

end Facts

namespace BBOps

open LatticeFact

variable {ap : Apron} (hK : ap.KeepsStates) {f interf : LatticeFact ap} {v2n : NameMap} {useOctG : Bool}

include hK

theorem performAssign_nonBottom (hf : f.isBottom = false) (dst : Value) (src : Operand) :
    Returns (fun f' => f'.isBottom = false) (performAssign v2n dst src f) := by
  refine .bind_any fun toVar => ?_
  cases src with
  | constantInt ci => exact .bind_any fun c => .ok (assignInt_nonBottom hK hf toVar c)
  | constantPointerNull => exact .ok (assignInt_nonBottom hK hf toVar 0)
  | constantExpr folded =>
      cases folded with
      | some ci => exact .bind_any fun c => .ok (assignInt_nonBottom hK hf toVar c)
      | none => exact .error _
  | value v => exact .bind_any fun src => .ok (assignVar_nonBottom hK hf toVar src)

theorem performAssignWithInterf_nonBottom (hL : ap.Lattice) (hf : f.isBottom = false)
    (hinterf : interf.isBottom = false) (nonCombinInterfs : Bool) (dst ptr : Value) :
    Returns (fun f' => f'.isBottom = false) (performAssignWithInterf v2n nonCombinInterfs dst ptr f interf) := by
  cases nonCombinInterfs with
  | false =>
      refine .bind_any fun p => ?_
      obtain ⟨x, hx⟩ := hK.boundVariable p hinterf
      exact performAssign_nonBottom hK (assignInterval_nonBottom hK hf p hx) dst _
  | true =>
      change Returns _ (performNonCombinAssign v2n dst ptr f interf)
      unfold performNonCombinAssign
      cases v2n[ptr]? with
      | none => exact .error _
      | some p =>
          obtain ⟨x, hx⟩ := hK.boundVariable p (factJoin_nonBottom hK hL (g := interf) hf)
          exact performAssign_nonBottom hK (assignInterval_nonBottom hK hf p hx) dst _

theorem performBinOp_nonBottom (hf : f.isBottom = false) (opTy : BinaryOps) (dst : Value) (op0 op1 : Operand) :
    Returns (fun f' => f'.isBottom = false) (performBinOp v2n opTy dst op0 op1 f) := by
  refine .bind_any fun toStr => ?_
  cases op0 with
  | constantInt ci0 =>
      cases op1 with
      | constantInt ci1 => exact .error _
      | _ =>
          refine .bind_any fun c => .bind_any fun op => ?_
          cases opTy with
          | add => exact .ok (addInt_nonBottom hK hf toStr op c)
          | mul => exact .ok (hK.assignTexpr toStr hf trivial)
          | _ => exact .error _
  | _ =>
      cases op1 with
      | constantInt ci1 =>
          refine .bind_any fun c => .bind_any fun op => ?_
          cases opTy with
          | add => exact .ok (addInt_nonBottom hK hf toStr op c)
          | mul => exact .ok (hK.assignTexpr toStr hf trivial)
          | _ => exact .error _
      | _ =>
          cases opTy with
          | add => exact .bind_any fun _ => .bind_any fun _ => .ok (hK.assignTexpr toStr hf trivial)
          | _ => exact .error _

theorem performBinOpMod_nonBottom (hf : f.isBottom = false) (opTy : BinaryOps) (i : Instruction) (op0 op1 : Operand) :
    Returns (fun f' => f'.isBottom = false) (performBinOpMod v2n opTy i op0 op1 f) := by
  refine .bind (performBinOp_nonBottom hK hf opTy i.id op0 op1) fun tmp htmp => ?_
  cases i.bitWidth with
  | none => exact .error _
  | some bw =>
      refine .bind (Q := fun m => m ≠ 0) (fun m hm hzero => ?_) fun m hm => .bind_any fun toStr => .ok ?_
      · have habs := (modulus_ok hm).2
        rw [hzero] at habs
        exact absurd habs.symm (Nat.pow_pos (by decide)).ne'
      · exact hK.assignTexpr toStr htmp hm

theorem performLogicOp_nonBottom (hf : f.isBottom = false) (opTy : BinaryOps) (i : Instruction) (op0 op1 : Operand) :
    Returns (fun f' => f'.isBottom = false) (performLogicOp useOctG v2n opTy i op0 op1 f) := by
  unfold performLogicOp
  cases v2n[i.id]? with
  | none => exact .error _
  | some toVar =>
      dsimp only
      split_ifs
      · exact .ok (assignInt_nonBottom hK hf toVar 0)
      · exact .error _
      · refine .bind_any fun r0 => .bind_any fun r1 => ?_
        cases opTy with
        | xor =>
            dsimp only
            split_ifs
            · exact .error _
            · exact assignTrueFalse_nonBottom hK hf toVar _ _
        | _ => exact .error _

theorem performAssignCmp_nonBottom (hf : f.isBottom = false) (dst : Value) (op0 op1 : Operand) (pred : Predicate) :
    Returns (fun f' => f'.isBottom = false) (performAssignCmp useOctG v2n dst op0 op1 f pred) := by
  have hterms : ∀ (dst : Var) (t0 t1 : Term),
      Returns (fun f' => f'.isBottom = false) (cmpTerms useOctG f dst pred t0 t1) := by
    intro dst t0 t1
    cases pred with
    | ne =>
        cases t0 with
        | var v => exact assignCmp_nonBottom hK hf dst _ _
        | int c => exact .error _
    | eq | sgt | sge | slt | sle => exact assignCmp_nonBottom hK hf dst _ _
    | _ => exact .error _
  cases op0 with
  | constantInt ci0 =>
      cases op1 with
      | value v1 => exact .bind_any fun _ => .bind_any fun _ => .bind_any fun _ => hterms _ _ _
      | _ => exact .error _
  | value v0 =>
      cases op1 with
      | constantInt ci1 => exact .bind_any fun _ => .bind_any fun _ => .bind_any fun _ => hterms _ _ _
      | _ => exact .error _
  | _ => cases op1 <;> exact .error _

end BBOps

/-- The instruction is a phi node. -/
def Instruction.isPhi (i : Instruction) : Bool :=
  match i.kind with
  | .phi _ => true
  | _ => false

section Transfer

open BBOps

variable {ap : Apron} (hK : ap.KeepsStates) (hL : ap.Lattice)

include hK hL

/-- **Only phi nodes make a fact bottom** between the branches, when no interference is bottom. -/
theorem transferFact_nonBottom (cx : Ctx) {interf : InterfMap ap}
    (hinterf : ∀ (l : Value) itf, interf[l]? = some itf → itf.isBottom = false) (nonCombinInterfs : Bool)
    {f : LatticeFact ap} (hf : f.isBottom = false) {i : Instruction} (hi : i.isPhi = false) :
    Returns (fun f' => f'.isBottom = false) (transferFact cx interf nonCombinInterfs f i) := by
  unfold transferFact
  cases hk : i.kind with
  | alloca => exact .ok hf
  | store val ptr => exact performAssign_nonBottom hK hf ptr val
  | load ptr =>
      dsimp only
      cases hl : interf[i.id]? with
      | none => exact performAssign_nonBottom hK hf i.id _
      | some itf => exact performAssignWithInterf_nonBottom hK hL hf (hinterf i.id itf hl) nonCombinInterfs i.id ptr
  | icmp pred op0 op1 => exact performAssignCmp_nonBottom hK hf i.id op0 op1 pred
  | call callee =>
      cases callee with
      | assertFail =>
          dsimp only
          split_ifs
          · exact .error _
          · exact .ok hf
      | other => exact .error _
      | _ => exact .ok hf
  | binary op op0 op1 =>
      cases op with
      | add => exact performBinOpMod_nonBottom hK hf .add i op0 op1
      | mul => exact performBinOpMod_nonBottom hK hf .mul i op0 op1
      | xor => exact performLogicOp_nonBottom hK hf .xor i op0 op1
      | other => exact .error _
  | cast src => exact performAssign_nonBottom hK hf i.id src
  | phi incoming =>
      unfold Instruction.isPhi at hi
      rw [hk] at hi
      cases hi
  | atomicRMW op ptr val =>
      dsimp only
      cases hl : interf[i.id]? with
      | some itf =>
          refine .bind (performAssignWithInterf_nonBottom hK hL hf (hinterf i.id itf hl) nonCombinInterfs i.id ptr)
            fun g hg => ?_
          cases op with
          | add => exact performBinOp_nonBottom hK hg .add ptr _ val
          | other => exact .error _
      | none =>
          refine .bind (performAssign_nonBottom hK hf i.id _) fun g hg => ?_
          cases op with
          | add => exact performBinOp_nonBottom hK hg .add ptr _ val
          | other => exact .error _
  | _ => exact .error _

/-- In a program without phi nodes, the visited facts are not bottom and stay so. -/
theorem FactInv.nonBottom {cx : Ctx} (hphi : ∀ i ∈ cx.module.instrs, i.isPhi = false) :
    FactInv cx (fun f : LatticeFact ap => f.isBottom = false) (fun _ => False) where
  visited {f old} hle := by
    -- what is bottom is below the stored fact
    rw [← Bool.not_eq_true, LatticeFact.isBottom, hK.isBottom_iff]
    intro h
    rw [LatticeFact.leq, hL.leq_trans h (hL.bottom_leq _)] at hle
    cases hle
  factJoin hf _ := LatticeFact.factJoin_nonBottom hK hL hf
  transferFact {interf} nonCombinInterfs {f i} hinterf hf hmem hi :=
    ⟨transferFact_failsIn interf nonCombinInterfs (fun h => by rw [hf] at h; cases h) hi,
      transferFact_nonBottom hK hL cx hinterf nonCombinInterfs hf (hphi i hmem)⟩
  stable hf h := by
    rw [hf] at h
    cases h

end Transfer

end Watts
