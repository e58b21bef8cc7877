import Watts.AnalyzeRuns
import Watts.ApronLaws

/-! One walk through the transfer functions: a relation that the operations of Apron preserve is
preserved by every instruction, by every branch refinement and by the execution of a block. -/

namespace Watts

open LatticeFact

variable {ap : Apron}

/-- A variable, or a constant that fits an `int`. -/
def Term.InRange : Term → Prop
  | .var _ => True
  | .int c => -(2 ^ 31) ≤ c ∧ c < 2 ^ 31

theorem getConstantIntUnsafe_range {ci : ConstantInt} {c : Int}
    (h : getConstantIntUnsafe ci = .ok c) : (Term.int c).InRange := by
  unfold getConstantIntUnsafe at h
  split_ifs at h with hr
  cases h
  exact hr

namespace LatticeFact

theorem geq_lt_exclusive {a b : Term} (ha : a.InRange) (hb : b.InRange) (σ : Var → Int) :
    (createSubConstr a b .supeq).Holds σ → ¬ (createSubConstr b a .sup).Holds σ := by
  cases a <;> cases b <;>
    simp only [createSubConstr, LinCons.Holds, Term.InRange, cInt, Int.bmod, List.map_cons,
      List.map_nil, List.sum_cons, List.sum_nil] at ha hb ⊢ <;>
    omega

theorem gt_leq_exclusive {a b : Term} (ha : a.InRange) (hb : b.InRange) (σ : Var → Int) :
    (createSubConstr a b .sup).Holds σ → ¬ (createSubConstr b a .supeq).Holds σ :=
  fun h h' => geq_lt_exclusive hb ha σ h' h

theorem eq_diseq_exclusive {a b : Term} (σ : Var → Int) :
    (createSubConstr a b .eq).Holds σ → ¬ (createSubConstr a b .diseq).Holds σ := by
  cases a <;> cases b <;> exact fun h h' => h' h

/-- A fact that entails more constraints answers more queries. -/
structure AnswersMore (useOctG : Bool) (f g : LatticeFact ap) : Prop where
  geq : ∀ a b, g.isGeq a b → f.isGeq a b
  gt : ∀ a b, g.isGT a b → f.isGT a b
  eq : ∀ a b, g.isEq useOctG a b → f.isEq useOctG a b
  neq : ∀ a b, g.isNEq useOctG a b → f.isNEq useOctG a b

theorem answersMore {f g : LatticeFact ap} (useOctG : Bool) (h : ∀ c, g.isSat c → f.isSat c) :
    AnswersMore useOctG f g := by
  have hgeq : ∀ a b, g.isGeq a b → f.isGeq a b := fun a b => h _
  have hgt : ∀ a b, g.isGT a b → f.isGT a b := fun a b => h _
  refine ⟨hgeq, hgt, fun a b hq => ?_, fun a b hq => ?_⟩
  · cases useOctG with
    | false => exact h _ hq
    | true =>
        simp only [isEq, isLeq, if_true, Bool.and_eq_true] at hq ⊢
        exact ⟨hgeq _ _ hq.1, hgeq _ _ hq.2⟩
  · cases useOctG with
    | false => exact h _ hq
    | true =>
        simp only [isNEq, isLT, if_true] at hq ⊢
        by_cases hl : g.isGT b a
        · simp [hgt _ _ hl]
        · simp only [hl, Bool.false_eq_true, if_false] at hq
          simp [hgt _ _ hq]

end LatticeFact

/-- What a related pair of interferences says of a variable, alone and joined with related facts. -/
structure InterfRelated (R : LatticeFact ap → LatticeFact ap → Prop) (k k' : LatticeFact ap) : Prop where
  bound : ∀ v, (k.getVarInterval v).Sub (k'.getVarInterval v)
  joinBound : ∀ {f g : LatticeFact ap} v, R f g → f.leq ⟨ap.bottom⟩ ∨
    ((f.factJoin k).getVarInterval v).Sub ((g.factJoin k').getVarInterval v)

/-- Two maps with related interferences at the same loads. -/
structure InterfsRelated (R : LatticeFact ap → LatticeFact ap → Prop) (m m' : InterfMap ap) : Prop where
  none : ∀ {l : Value}, m[l]? = Option.none → m'[l]? = Option.none
  some : ∀ {l : Value} {k}, m[l]? = Option.some k → ∃ k', m'[l]? = Option.some k' ∧ InterfRelated R k k'

namespace Preserved

variable {R : LatticeFact ap → LatticeFact ap → Prop} (hR : Preserved R) {useOctG : Bool}
  {f g : LatticeFact ap}
include hR

theorem answers (useOctG : Bool) (h : R f g) : f.leq ⟨ap.bottom⟩ ∨ AnswersMore useOctG f g :=
  (hR.sat h).imp_right (answersMore useOctG)

theorem geq_lt {a b : Term} (ha : a.InRange) (hb : b.InRange) (h : R f g) (h₁ : f.isGeq a b)
    (h₂ : f.isLT a b) : f.leq ⟨ap.bottom⟩ :=
  hR.exclusive _ _ h (geq_lt_exclusive ha hb) h₁ h₂

theorem gt_leq {a b : Term} (ha : a.InRange) (hb : b.InRange) (h : R f g) (h₁ : f.isGT a b)
    (h₂ : f.isLeq a b) : f.leq ⟨ap.bottom⟩ :=
  hR.exclusive _ _ h (gt_leq_exclusive ha hb) h₁ h₂

theorem eq_neq {a b : Term} (ha : a.InRange) (hb : b.InRange) (h : R f g)
    (h₁ : f.isEq useOctG a b) (h₂ : f.isNEq useOctG a b) : f.leq ⟨ap.bottom⟩ := by
  cases useOctG with
  | false => exact hR.exclusive _ _ h eq_diseq_exclusive h₁ h₂
  | true =>
      simp only [isEq, isNEq, if_true, Bool.and_eq_true] at h₁ h₂
      by_cases hl : f.isLT a b
      · exact hR.geq_lt ha hb h h₁.1 hl
      · simp only [hl, Bool.false_eq_true, if_false] at h₂
        exact hR.gt_leq ha hb h h₂ h₁.2

/-- Every comparison that the pass handles is preserved. -/
theorem cmpTerms {a b : Term} (ha : a.InRange) (hb : b.InRange) (v : Var) (pred : Predicate)
    (h : R f g) : Related R (BBOps.cmpTerms useOctG f v pred a b)
      (BBOps.cmpTerms useOctG g v pred a b) := by
  have hq := hR.answers useOctG h
  cases pred with
  | eq =>
      exact hR.assignCmp v h (hq.imp_right fun q => ⟨q.eq a b, q.neq a b⟩) (hR.eq_neq ha hb h)
  | ne =>
      cases a with
      | int c => exact .errorLeft
      | var w =>
          exact hR.assignCmp v h (hq.imp_right fun q => ⟨q.neq _ b, q.eq _ b⟩)
            fun h₁ h₂ => hR.eq_neq ha hb h h₂ h₁
  | sgt =>
      exact hR.assignCmp v h (hq.imp_right fun q => ⟨q.gt a b, q.geq b a⟩) (hR.gt_leq ha hb h)
  | sge =>
      exact hR.assignCmp v h (hq.imp_right fun q => ⟨q.geq a b, q.gt b a⟩) (hR.geq_lt ha hb h)
  | slt =>
      exact hR.assignCmp v h (hq.imp_right fun q => ⟨q.gt b a, q.geq a b⟩)
        fun h₁ h₂ => hR.geq_lt ha hb h h₂ h₁
  | sle =>
      exact hR.assignCmp v h (hq.imp_right fun q => ⟨q.geq b a, q.gt a b⟩)
        fun h₁ h₂ => hR.gt_leq ha hb h h₂ h₁
  | _ => exact .errorLeft

theorem meetConstrTy (a b : Term) (c : ConsType) (h : R f g) :
    R (f.meetConstrTy useOctG a b c) (g.meetConstrTy useOctG a b c) := by
  have hm : ∀ {f g : LatticeFact ap} (c : LinCons), R f g →
      R (f.meetAndFreeConstr c) (g.meetAndFreeConstr c) := fun c => hR.meetLincons c
  cases c with
  | supeq => exact hm _ h
  | sup => exact hm _ h
  | eq =>
      cases useOctG with
      | false => exact hm _ h
      | true => exact hm _ (hm _ h)
  | diseq =>
      cases useOctG with
      | false => exact hm _ h
      | true => exact hR.join (hm _ h) (hm _ h)

theorem constrainVarTF (v : Var) (tf : Bool) (h : R f g) :
    R (f.constrainVarTF useOctG v tf) (g.constrainVarTF useOctG v tf) :=
  hR.meetConstrTy (.var v) (.int (if tf then 1 else 0)) .eq h

theorem constrainFact (op0 op1 : Operand) (c : ConsType) (v2n : NameMap) (h : R f g) :
    Related R (f.constrainFact useOctG op0 op1 c v2n) (g.constrainFact useOctG op0 op1 c v2n) := by
  unfold LatticeFact.constrainFact
  split
  · exact .errorLeft
  all_goals
    exact .bindSame fun _ _ => .bindSame fun _ _ => .ok (hR.meetConstrTy _ _ c h)

theorem constrainICmp (pred : Predicate) (op0 op1 : Operand) (tf : Bool) (v2n : NameMap)
    (h : R f g) : Related R (f.constrainICmp useOctG pred op0 op1 tf v2n)
      (g.constrainICmp useOctG pred op0 op1 tf v2n) := by
  unfold LatticeFact.constrainICmp
  cases pred <;> cases tf <;> exact hR.constrainFact _ _ _ v2n h

/-- The refinement at a branch is preserved. -/
theorem constrainTF (opts : Options) (cond : Condition) (tf : Bool) (v2n : NameMap) (h : R f g) :
    Related R (f.constrainTF opts cond tf v2n) (g.constrainTF opts cond tf v2n) := by
  refine .bindSame fun vstr _ => ?_
  split
  · exact .bind (hR.constrainICmp _ _ _ tf v2n h) fun a b hab => .ok (hR.constrainVarTF vstr tf hab)
  · exact .ok (hR.constrainVarTF vstr tf h)

theorem performAssign (v2n : NameMap) (dst : Value) (src : Operand) (h : R f g) :
    Related R (BBOps.performAssign v2n dst src f) (BBOps.performAssign v2n dst src g) := by
  refine .bindSame fun toVar _ => ?_
  cases src with
  | constantInt ci => exact .bindSame fun c _ => .ok (hR.assignInt toVar c h)
  | constantPointerNull => exact .ok (hR.assignInt toVar 0 h)
  | constantExpr folded =>
      cases folded with
      | none => exact .errorLeft
      | some ci => exact .bindSame fun c _ => .ok (hR.assignInt toVar c h)
  | value v => exact .bindSame fun w _ => .ok (hR.assignVar toVar w h)

theorem performPhiInst (v2n : NameMap) (phi : Value) (incoming : List Incoming) (h : R f g) :
    Related R (BBOps.performPhiInst v2n phi incoming f) (BBOps.performPhiInst v2n phi incoming g) := by
  refine .bindSame fun toStr _ => ?_
  refine Related.foldlM (fun a b v hab => ?_) incoming (hR.assignInterval toStr h .rfl)
  cases v with
  | constantInt ci => exact .bindSame fun c _ => .ok (hR.join hab (hR.assignInt toStr c hab))
  | cmpInst w => exact .bindSame fun w' _ => .ok (hR.join hab (hR.assignVar toStr w' hab))
  | other => exact .errorLeft

theorem interfs_refl (m : InterfMap ap) : InterfsRelated R m m :=
  ⟨id, fun {_ k} hk => ⟨k, hk, fun _ => .rfl, hR.joinBound k⟩⟩

theorem performAssignWithInterf (v2n : NameMap) (nc : Bool) (dst ptr : Value)
    {interf interf' : LatticeFact ap} (hi : InterfRelated R interf interf') (h : R f g) :
    Related R (BBOps.performAssignWithInterf v2n nc dst ptr f interf)
      (BBOps.performAssignWithInterf v2n nc dst ptr g interf') := by
  cases nc with
  | false =>
      exact .bindSame fun p _ => hR.performAssign v2n dst _ (hR.assignInterval p h (hi.bound p))
  | true =>
      unfold BBOps.performAssignWithInterf BBOps.performNonCombinAssign
      simp only [Bool.not_true, Bool.false_eq_true, if_false]
      split
      · exact .errorLeft
      · next p _ =>
          refine hR.performAssign v2n dst _ ?_
          rcases hi.joinBound p h with hb | hsub
          · exact hR.ofBottom (hR.bottomAssign _ _ hb)
          · exact hR.assignInterval p h hsub

theorem performBinOp (v2n : NameMap) (opTy : BinaryOps) (dst : Value) (op0 op1 : Operand)
    (h : R f g) : Related R (BBOps.performBinOp v2n opTy dst op0 op1 f)
      (BBOps.performBinOp v2n opTy dst op0 op1 g) := by
  refine .bindSame fun toStr _ => ?_
  split
  · exact .errorLeft
  · refine .bindSame fun c _ => .bindSame fun v _ => ?_
    cases opTy with
    | add => exact .ok (hR.assignLinexpr toStr [(1, v)] h .rfl)
    | mul => exact .ok (hR.assignTexpr toStr (.mul c v) h)
    | _ => exact .errorLeft
  · refine .bindSame fun c _ => .bindSame fun v _ => ?_
    cases opTy with
    | add => exact .ok (hR.assignLinexpr toStr [(1, v)] h .rfl)
    | mul => exact .ok (hR.assignTexpr toStr (.mul c v) h)
    | _ => exact .errorLeft
  · cases opTy with
    | add => exact .bindSame fun v _ => .bindSame fun w _ => .ok (hR.assignTexpr toStr (.add v w) h)
    | _ => exact .errorLeft

theorem performBinOpMod (v2n : NameMap) (opTy : BinaryOps) (i : Instruction) (op0 op1 : Operand)
    (h : R f g) : Related R (BBOps.performBinOpMod v2n opTy i op0 op1 f)
      (BBOps.performBinOpMod v2n opTy i op0 op1 g) := by
  refine .bind (hR.performBinOp v2n opTy i.id op0 op1 h) fun a b hab => ?_
  cases i.bitWidth with
  | none => exact .errorLeft
  | some bw =>
      exact .bindSame fun c _ => .bindSame fun v _ => .ok (hR.assignTexpr v (.mod v c) hab)

/-- The truth values of an operand: fewer in the smaller fact. -/
theorem logicOperand (v2n : NameMap) (one : Int) (msg : String) (op : Operand) (h : R f g) :
    Related (fun a b => f.leq ⟨ap.bottom⟩ ∨ ((a.1 → b.1) ∧ (a.2 → b.2)))
      (BBOps.logicOperand useOctG v2n one msg f op) (BBOps.logicOperand useOctG v2n one msg g op) := by
  unfold BBOps.logicOperand
  split
  · refine .bindSame fun c _ => ?_
    split_ifs
    · exact .ok (.inr ⟨id, id⟩)
    · exact .ok (.inr ⟨id, id⟩)
    · exact .errorLeft
  · refine .bindSame fun v _ => ?_
    have h0 : (Term.int 0).InRange := by simp [Term.InRange]
    have h1 : (Term.int 1).InRange := by simp [Term.InRange]
    rcases hR.answers useOctG h with hb | hq
    · intro a b _ _
      exact .inl hb
    · have hq0 := hq.eq (.var v) (.int 0)
      have hq1 := hq.eq (.var v) (.int 1)
      have hex : f.isEq useOctG (.var v) (.int 0) → f.isEq useOctG (.var v) (.int 1) →
          f.leq ⟨ap.bottom⟩ := by
        intro e0 e1
        cases useOctG with
        | false =>
            refine hR.exclusive _ _ h (fun σ => ?_) e0 e1
            simp only [createSubConstr, LinCons.Holds, cInt, Int.bmod, List.map_cons, List.map_nil,
              List.sum_cons, List.sum_nil]
            omega
        | true =>
            simp only [isEq, isLeq, isGeq, if_true, Bool.and_eq_true] at e0 e1
            refine hR.exclusive _ _ h (fun σ => ?_) e0.2 e1.1
            simp only [createSubConstr, LinCons.Holds, cInt, Int.bmod, List.map_cons, List.map_nil,
              List.sum_cons, List.sum_nil]
            omega
      intro a b ha hb
      by_cases hboth : f.isEq useOctG (.var v) (.int 0) = true ∧
          f.isEq useOctG (.var v) (.int 1) = true
      · exact .inl (hex hboth.1 hboth.2)
      · right
        revert ha hb hq0 hq1 hboth
        generalize f.isEq useOctG (.var v) (.int 0) = f0
        generalize f.isEq useOctG (.var v) (.int 1) = f1
        generalize g.isEq useOctG (.var v) (.int 0) = g0
        generalize g.isEq useOctG (.var v) (.int 1) = g1
        cases f0 <;> cases f1 <;> cases g0 <;> cases g1 <;>
          simp [pure, Except.pure] <;> rintro rfl rfl <;> simp

theorem performLogicOp (v2n : NameMap) (opTy : BinaryOps) (i : Instruction) (op0 op1 : Operand)
    (h : R f g) : Related R (BBOps.performLogicOp useOctG v2n opTy i op0 op1 f)
      (BBOps.performLogicOp useOctG v2n opTy i op0 op1 g) := by
  unfold BBOps.performLogicOp
  cases v2n[i.id]? with
  | none => exact .errorLeft
  | some toVar =>
      dsimp only
      split_ifs
      · exact .ok (hR.assignInt toVar 0 h)
      · exact .errorLeft
      · refine .bind (hR.logicOperand v2n 1 _ op0 h) fun a b hab => ?_
        refine .bind (hR.logicOperand v2n (-1) _ op1 h) fun a' b' hab' => ?_
        obtain ⟨a0, a1⟩ := a
        obtain ⟨b0, b1⟩ := b
        obtain ⟨a0', a1'⟩ := a'
        obtain ⟨b0', b1'⟩ := b'
        cases opTy with
        | xor =>
            have hle : f.leq ⟨ap.bottom⟩ ∨
                ((((a1 && a0') || (a0 && a1')) → ((b1 && b0') || (b0 && b1'))) ∧
                  (((a0 && a0') || (a1 && a1')) → ((b0 && b0') || (b1 && b1')))) := by
              rcases hab with hb | ⟨h₁, h₂⟩
              · exact .inl hb
              · rcases hab' with hb | ⟨h₃, h₄⟩
                · exact .inl hb
                · right
                  simp only [Bool.or_eq_true, Bool.and_eq_true]
                  simp only at h₁ h₂ h₃ h₄
                  tauto
            intro x y hx hy
            dsimp only at hx hy
            split_ifs at hx
            · cases hx
            · split_ifs at hy
              · cases hy
              · exact hR.assignTrueFalse toVar h hle x y hx hy
        | _ => exact .errorLeft

theorem performAssignCmp (v2n : NameMap) (dst : Value) (op0 op1 : Operand) (pred : Predicate)
    (h : R f g) : Related R (BBOps.performAssignCmp useOctG v2n dst op0 op1 f pred)
      (BBOps.performAssignCmp useOctG v2n dst op0 op1 g pred) := by
  unfold BBOps.performAssignCmp
  split
  · exact .bindSame fun c hc => .bindSame fun v _ => .bindSame fun w _ =>
      hR.cmpTerms (b := .var w) (getConstantIntUnsafe_range hc) trivial v pred h
  · exact .bindSame fun c hc => .bindSame fun v _ => .bindSame fun w _ =>
      hR.cmpTerms (a := .var w) trivial (getConstantIntUnsafe_range hc) v pred h
  · exact .errorLeft
  · exact .errorLeft
  · exact .errorLeft

/-- **Every transfer function preserves the relation.** -/
theorem transferFact (cx : Ctx) {interf interf' : InterfMap ap} (hI : InterfsRelated R interf interf')
    (nc : Bool) (i : Instruction) (h : R f g) :
    Related R (BBOps.transferFact cx interf nc f i) (BBOps.transferFact cx interf' nc g i) := by
  unfold BBOps.transferFact
  split
  · exact .ok h
  · exact hR.performAssign _ _ _ h
  · cases hm : interf[i.id]? with
    | none =>
        rw [hI.none hm]
        exact hR.performAssign _ _ _ h
    | some itf =>
        obtain ⟨itf', hm', hi⟩ := hI.some hm
        rw [hm']
        exact hR.performAssignWithInterf _ nc _ _ hi h
  · exact hR.performAssignCmp _ _ _ _ _ h
  · split
    · exact .ok h
    · exact .ok h
    · exact .ok h
    · split_ifs
      · exact .errorLeft
      · exact .errorLeft
      · exact .errorRight
      · exact .ok h
    · exact .ok h
    · exact .ok h
    · exact .ok h
    · exact .errorLeft
  · split
    · exact hR.performBinOpMod _ _ i _ _ h
    · exact hR.performBinOpMod _ _ i _ _ h
    · exact hR.performLogicOp _ _ i _ _ h
    · exact .errorLeft
  · exact hR.performAssign _ _ _ h
  · exact hR.performPhiInst _ _ _ h
  · next op ptr val _ =>
      cases hm : interf[i.id]? with
      | none =>
          rw [hI.none hm]
          refine .bind (hR.performAssign cx.v2n i.id (.value ptr) h) fun a b hab => ?_
          cases op with
          | add => exact hR.performBinOp _ _ _ _ _ hab
          | other => exact .errorLeft
      | some itf =>
          obtain ⟨itf', hm', hi⟩ := hI.some hm
          rw [hm']
          refine .bind (hR.performAssignWithInterf cx.v2n nc i.id ptr hi h) fun a b hab => ?_
          cases op with
          | add => exact hR.performBinOp _ _ _ _ _ hab
          | other => exact .errorLeft
  · exact .errorLeft

theorem runBody (cx : Ctx) {interf interf' : InterfMap ap} (hI : InterfsRelated R interf interf')
    (nc : Bool) (is : List Instruction) (h : R f g) (bk bk' : Books ap) :
    Related (fun a b => R a.1 b.1) (BBOps.runBody cx interf nc is f bk)
      (BBOps.runBody cx interf' nc is g bk') := by
  induction is generalizing f g bk bk' with
  | nil => exact .ok h
  | cons i is ih =>
      intro a b ha hb
      obtain ⟨f', hf', ha⟩ := BBOps.runBody_cons.mp ha
      obtain ⟨g', hg', hb⟩ := BBOps.runBody_cons.mp hb
      exact ih (hR.transferFact cx hI nc i h f' g' hf' hg') _ _ a b ha hb

/-- The facts sent to the successors are related one by one. -/
theorem outFacts (cx : Ctx) (t : Instruction) (h : R f g) :
    Related (List.Forall₂ fun a b => a.1 = b.1 ∧ R a.2 b.2) (BBOps.outFacts cx t f)
      (BBOps.outFacts cx t g) := by
  unfold BBOps.outFacts
  split
  · exact .ok (.cons ⟨rfl, h⟩ .nil)
  · refine .bind (hR.constrainTF _ _ true _ h) fun a b hab => ?_
    refine .bind (hR.constrainTF _ _ false _ h) fun a' b' hab' => ?_
    split_ifs
    · exact .errorLeft
    · exact .ok (.cons ⟨rfl, hab⟩ (.cons ⟨rfl, hab'⟩ .nil))
  · exact .ok .nil
  · exact .ok .nil
  · exact .errorLeft

/-- **Executing a block preserves the relation.** -/
theorem runTransferFuncs (cx : Ctx) {interf interf' : InterfMap ap}
    (hI : InterfsRelated R interf interf') (nc : Bool) (B : BasicBlock) (h : R f g) (bk bk' : Books ap) :
    Related (fun a b => List.Forall₂ (fun x y => x.1 = y.1 ∧ R x.2 y.2) a.1 b.1)
      (BBOps.runTransferFuncs cx interf nc B f bk)
      (BBOps.runTransferFuncs cx interf' nc B g bk') := by
  rintro ⟨outs, bk₁⟩ ⟨outs', bk₁'⟩ ha hb
  obtain ⟨e, he, ho⟩ := BBOps.runTransferFuncs_ok.mp ha
  obtain ⟨e', he', ho'⟩ := BBOps.runTransferFuncs_ok.mp hb
  exact hR.outFacts cx B.terminator (hR.runBody cx hI nc B.body h bk bk' _ _ he he') _ _ ho ho'

end Preserved

end Watts
