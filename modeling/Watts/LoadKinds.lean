import Watts.EmptyInterferences
import Watts.SliceDecisions

/-! The kinds of loads and stores.  Whether an instruction loads or stores is decided in five places: by
`getLoads`, by the transfer function, by the recorded stores, by `loadStoreSameVal` and by the search for the
previous stores.  All but the last agree on the instructions that the transfer function accepts. -/

namespace Watts

open Fallible (FailsIn bind_eq_ok bind_eq_error foldlM_eq_error)

/-- The failures on a kind of load or store that is not handled: of the search for the previous stores, and of
the comparison of a store with a load. -/
def unhandledKinds : List Stop :=
  [.abort "[ERROR] getPreviousStoreWithCreate: unimplemented instruction type: ",
    .abort "loadStoreSameVal: unhandled load type sub StoreInst",
    .abort "loadStoreSameVal: unhandled load type sub atomicrmw",
    .abort "loadStoreSameVal: unhandled store type"]

/-! ### The abstract interpreter does not stop that way -/

/-- The computation may fail, but not on a kind of load or store. -/
abbrev FailsElsewhere {α : Type} (x : Except Stop α) : Prop :=
  FailsIn (· ∉ unhandledKinds) x

/-- The same, for a computation with a loop. -/
abbrev LoopFailsElsewhere {α : Type} (x : Except LoopStop α) : Prop :=
  FailsIn (fun e => ∀ s ∈ unhandledKinds, e ≠ .stop s) x

theorem FailsElsewhere.lift {α : Type} {x : Except Stop α} (h : FailsElsewhere x) :
    LoopFailsElsewhere (liftStop x) := by
  cases x with
  | ok a => exact .ok a
  | error e => exact FailsIn.error fun s hs heq => h e rfl (LoopStop.stop.inj heq ▸ hs)

section Interpreter

variable {ap : Apron} {f : LatticeFact ap} {v2n : NameMap} {useOctG : Bool}

theorem mapAtUnsafe_failsElsewhere {α : Type} (m : Std.TreeMap Value α) (key : Value) :
    FailsElsewhere (mapAtUnsafe m key) := by
  unfold mapAtUnsafe
  cases m[key]? with
  | some a => exact .ok a
  | none => exact .error (by decide)

theorem getConstantIntUnsafe_failsElsewhere (ci : ConstantInt) : FailsElsewhere (getConstantIntUnsafe ci) := by
  unfold getConstantIntUnsafe
  split_ifs
  · exact .ok _
  · exact .error (by decide)

theorem valueToStringUnsafe_failsElsewhere (op : Operand) : FailsElsewhere (op.valueToStringUnsafe v2n) := by
  cases op with
  | value v => exact mapAtUnsafe_failsElsewhere v2n v
  | _ => exact .error (by decide)

theorem assignCmp_failsElsewhere (dst : Var) (sat unsat : Bool) : FailsElsewhere (f.assignCmp dst sat unsat) := by
  cases sat <;> cases unsat <;> exact .ok _

theorem constrainFact_failsElsewhere (op0 op1 : Operand) (cons : ConsType) :
    FailsElsewhere (f.constrainFact useOctG op0 op1 cons v2n) := by
  cases op0 with
  | constantInt ci0 =>
      cases op1 with
      | constantInt ci1 => exact .error (by decide)
      | _ =>
          exact .bind (getConstantIntUnsafe_failsElsewhere ci0) fun _ =>
            .bind (valueToStringUnsafe_failsElsewhere _) fun _ => .ok _
  | _ =>
      cases op1 with
      | constantInt ci1 =>
          exact .bind (getConstantIntUnsafe_failsElsewhere ci1) fun _ =>
            .bind (valueToStringUnsafe_failsElsewhere _) fun _ => .ok _
      | _ =>
          exact .bind (valueToStringUnsafe_failsElsewhere _) fun _ =>
            .bind (valueToStringUnsafe_failsElsewhere _) fun _ => .ok _

theorem constrainTF_failsElsewhere (opts : Options) (cond : Condition) (tf : Bool) :
    FailsElsewhere (f.constrainTF opts cond tf v2n) := by
  refine .bind (mapAtUnsafe_failsElsewhere v2n cond.val) fun vstr => ?_
  cases opts.constrICmp with
  | false => exact .ok _
  | true =>
      cases cond with
      | value v => exact .ok _
      | icmp ic pred op0 op1 =>
          refine FailsIn.bind ?_ fun _ => .ok _
          unfold LatticeFact.constrainICmp
          cases pred <;> cases tf <;> exact constrainFact_failsElsewhere _ _ _

end Interpreter

namespace BBOps

variable {ap : Apron} {f interf : LatticeFact ap} {v2n : NameMap} {useOctG : Bool}

theorem performAssign_failsElsewhere (dst : Value) (src : Operand) : FailsElsewhere (performAssign v2n dst src f) := by
  refine .bind (mapAtUnsafe_failsElsewhere v2n dst) fun toVar => ?_
  cases src with
  | constantInt ci => exact .bind (getConstantIntUnsafe_failsElsewhere ci) fun _ => .ok _
  | constantPointerNull => exact .ok _
  | constantExpr folded =>
      cases folded with
      | some ci => exact .bind (getConstantIntUnsafe_failsElsewhere ci) fun _ => .ok _
      | none => exact .error (by decide)
  | value v => exact .bind (mapAtUnsafe_failsElsewhere v2n v) fun _ => .ok _

theorem performPhiInst_failsElsewhere (phi : Value) (incoming : List Incoming) :
    FailsElsewhere (performPhiInst v2n phi incoming f) := by
  refine .bind (mapAtUnsafe_failsElsewhere v2n phi) fun toStr => .foldlM (fun v _ ret => ?_) _
  cases v with
  | constantInt ci => exact .bind (getConstantIntUnsafe_failsElsewhere ci) fun _ => .ok _
  | cmpInst cmp => exact .bind (mapAtUnsafe_failsElsewhere v2n cmp) fun _ => .ok _
  | other => exact .error (by decide)

theorem performAssignWithInterf_failsElsewhere (nonCombinInterfs : Bool) (dst ptr : Value) :
    FailsElsewhere (performAssignWithInterf v2n nonCombinInterfs dst ptr f interf) := by
  cases nonCombinInterfs with
  | false => exact .bind (mapAtUnsafe_failsElsewhere v2n ptr) fun _ => performAssign_failsElsewhere dst _
  | true =>
      change FailsElsewhere (performNonCombinAssign v2n dst ptr f interf)
      unfold performNonCombinAssign
      cases v2n[ptr]? with
      | none => exact .error (by decide)
      | some p => exact performAssign_failsElsewhere dst _

theorem performBinOp_failsElsewhere (opTy : BinaryOps) (dst : Value) (op0 op1 : Operand) :
    FailsElsewhere (performBinOp v2n opTy dst op0 op1 f) := by
  refine .bind (mapAtUnsafe_failsElsewhere v2n dst) fun toStr => ?_
  cases op0 with
  | constantInt ci0 =>
      cases op1 with
      | constantInt ci1 => exact .error (by decide)
      | _ =>
          refine .bind (getConstantIntUnsafe_failsElsewhere ci0) fun _ =>
            .bind (valueToStringUnsafe_failsElsewhere _) fun _ => ?_
          cases opTy <;> first | exact .ok _ | exact .error (by decide)
  | _ =>
      cases op1 with
      | constantInt ci1 =>
          refine .bind (getConstantIntUnsafe_failsElsewhere ci1) fun _ =>
            .bind (valueToStringUnsafe_failsElsewhere _) fun _ => ?_
          cases opTy <;> first | exact .ok _ | exact .error (by decide)
      | _ =>
          cases opTy with
          | add =>
              exact .bind (valueToStringUnsafe_failsElsewhere _) fun _ =>
                .bind (valueToStringUnsafe_failsElsewhere _) fun _ => .ok _
          | _ => exact .error (by decide)

theorem performBinOpMod_failsElsewhere (opTy : BinaryOps) (i : Instruction) (op0 op1 : Operand) :
    FailsElsewhere (performBinOpMod v2n opTy i op0 op1 f) := by
  refine .bind (performBinOp_failsElsewhere opTy i.id op0 op1) fun tmp => ?_
  cases i.bitWidth with
  | none => exact .error (by decide)
  | some bw =>
      refine FailsIn.bind ?_ fun bw2 => .bind (mapAtUnsafe_failsElsewhere v2n i.id) fun _ => .ok _
      unfold modulus
      split_ifs
      · exact .ok _
      · exact .error nofun

theorem logicOperand_failsElsewhere (one : Int) {msg : String} (op : Operand)
    (hmsg : .abort msg ∉ unhandledKinds) :
    FailsElsewhere (logicOperand useOctG v2n one msg f op) := by
  have hvar : FailsElsewhere (do
      let v ← op.valueToStringUnsafe v2n
      let eq0 := f.isEq useOctG (.var v) (.int 0)
      let eq1 := f.isEq useOctG (.var v) (.int 1)
      if !(eq0 || eq1) then return (true, true)
      else return (eq0, eq1)) := by
    refine .bind (valueToStringUnsafe_failsElsewhere op) fun v => ?_
    dsimp only
    split_ifs <;> exact .ok _
  cases op with
  | constantInt ci =>
      refine .bind (getConstantIntUnsafe_failsElsewhere ci) fun cval => ?_
      split_ifs
      · exact .ok _
      · exact .ok _
      · exact .error hmsg
  | _ => exact hvar

theorem performLogicOp_failsElsewhere (opTy : BinaryOps) (i : Instruction) (op0 op1 : Operand) :
    FailsElsewhere (performLogicOp useOctG v2n opTy i op0 op1 f) := by
  unfold performLogicOp
  cases v2n[i.id]? with
  | none => exact .error (by decide)
  | some toVar =>
      dsimp only
      split_ifs
      · exact .ok _
      · exact .error (by decide)
      · refine .bind (logicOperand_failsElsewhere 1 op0 (by decide)) fun r0 =>
          .bind (logicOperand_failsElsewhere (-1) op1 (by decide)) fun r1 => ?_
        cases opTy with
        | xor =>
            obtain ⟨z0, o0⟩ := r0
            obtain ⟨z1, o1⟩ := r1
            cases z0 <;> cases o0 <;> cases z1 <;> cases o1 <;> first | exact .ok _ | exact .error (by decide)
        | _ => exact .error (by decide)

theorem performAssignCmp_failsElsewhere (dst : Value) (op0 op1 : Operand) (pred : Predicate) :
    FailsElsewhere (performAssignCmp useOctG v2n dst op0 op1 f pred) := by
  have hterms : ∀ (dst : Var) (t0 t1 : Term), FailsElsewhere (cmpTerms useOctG f dst pred t0 t1) := by
    intro dst t0 t1
    cases pred with
    | ne =>
        cases t0 with
        | var v => exact assignCmp_failsElsewhere dst _ _
        | int c => exact .error (by decide)
    | eq | sgt | sge | slt | sle => exact assignCmp_failsElsewhere dst _ _
    | _ => exact .error (by decide)
  cases op0 with
  | constantInt ci0 =>
      cases op1 with
      | value v1 =>
          exact .bind (getConstantIntUnsafe_failsElsewhere ci0) fun _ =>
            .bind (mapAtUnsafe_failsElsewhere v2n dst) fun _ =>
              .bind (mapAtUnsafe_failsElsewhere v2n v1) fun _ => hterms _ _ _
      | _ => exact .error (by decide)
  | value v0 =>
      cases op1 with
      | constantInt ci1 =>
          exact .bind (getConstantIntUnsafe_failsElsewhere ci1) fun _ =>
            .bind (mapAtUnsafe_failsElsewhere v2n dst) fun _ =>
              .bind (mapAtUnsafe_failsElsewhere v2n v0) fun _ => hterms _ _ _
      | _ => exact .error (by decide)
  | _ => cases op1 <;> exact .error (by decide)

theorem performAtomicRMWInterf_failsElsewhere (nonCombinInterfs : Bool) (rmw : Value) (op : RMWOp) (ptr : Value)
    (val : Operand) : FailsElsewhere (performAtomicRMWInterf v2n nonCombinInterfs rmw op ptr val f interf) := by
  refine .bind (performAssignWithInterf_failsElsewhere nonCombinInterfs rmw ptr) fun inWithRet => ?_
  cases op with
  | add => exact performBinOp_failsElsewhere .add ptr _ val
  | other => exact .error (by decide)

theorem performAtomicRMW_failsElsewhere (rmw : Value) (op : RMWOp) (ptr : Value) (val : Operand) :
    FailsElsewhere (performAtomicRMW v2n rmw op ptr val f) := by
  refine .bind (performAssign_failsElsewhere rmw _) fun inWithRet => ?_
  cases op with
  | add => exact performBinOp_failsElsewhere .add ptr _ val
  | other => exact .error (by decide)

theorem transferFact_failsElsewhere (cx : Ctx) (interf : InterfMap ap) (nonCombinInterfs : Bool)
    (f : LatticeFact ap) (i : Instruction) : FailsElsewhere (transferFact cx interf nonCombinInterfs f i) := by
  unfold transferFact
  cases i.kind with
  | alloca => exact .ok _
  | store val ptr => exact performAssign_failsElsewhere ptr val
  | load ptr =>
      dsimp only
      cases interf[i.id]? with
      | none => exact performAssign_failsElsewhere i.id _
      | some itf => exact performAssignWithInterf_failsElsewhere nonCombinInterfs i.id ptr
  | icmp pred op0 op1 => exact performAssignCmp_failsElsewhere i.id op0 op1 pred
  | call callee =>
      cases callee with
      | assertFail =>
          dsimp only
          split_ifs
          · exact .error (by decide)
          · exact .ok _
      | other => exact .error (by decide)
      | _ => exact .ok _
  | binary op op0 op1 =>
      cases op with
      | add => exact performBinOpMod_failsElsewhere .add i op0 op1
      | mul => exact performBinOpMod_failsElsewhere .mul i op0 op1
      | xor => exact performLogicOp_failsElsewhere .xor i op0 op1
      | other => exact .error (by decide)
  | cast src => exact performAssign_failsElsewhere i.id src
  | phi incoming => exact performPhiInst_failsElsewhere i.id incoming
  | atomicRMW op ptr val =>
      dsimp only
      cases interf[i.id]? with
      | some itf => exact performAtomicRMWInterf_failsElsewhere nonCombinInterfs i.id op ptr val
      | none => exact performAtomicRMW_failsElsewhere i.id op ptr val
  | _ => exact .error (by decide)

theorem runTransferFuncs_failsElsewhere (cx : Ctx) (interf : InterfMap ap) (nonCombinInterfs : Bool)
    (b : BasicBlock) (inFact : LatticeFact ap) (books : Books ap) :
    FailsElsewhere (runTransferFuncs cx interf nonCombinInterfs b inFact books) := by
  have hbody : FailsElsewhere (runBody cx interf nonCombinInterfs b.body inFact books) := by
    refine .foldlM (fun i _ s => ?_) _
    unfold stepInst
    split_ifs
    · exact .ok _
    · exact .bind (transferFact_failsElsewhere cx interf nonCombinInterfs s.1 i) fun _ => .ok _
  refine .bind hbody fun r => FailsIn.bind ?_ fun _ => .ok _
  unfold outFacts
  cases b.terminator.kind with
  | br succ => exact .ok _
  | condBr cond trueSucc falseSucc =>
      refine .bind (constrainTF_failsElsewhere cx.opts cond true) fun trueF =>
        .bind (constrainTF_failsElsewhere cx.opts cond false) fun falseF => ?_
      split_ifs
      · exact .error (by decide)
      · exact .ok _
  | ret | unreachable => exact .ok _
  | _ => exact .error (by decide)

end BBOps

section Loop

variable {ap : Apron} {o : BlockOrder} {cx : Ctx} {interf : InterfMap ap} {F : Function}

theorem analyzeLoop_failsElsewhere {fuel : Nat} {s : LoopState o ap} :
    LoopFailsElsewhere (analyzeLoop cx interf F fuel s) := by
  induction fuel generalizing s with
  | zero =>
      unfold analyzeLoop
      cases s.worklist.toList with
      | nil => exact .ok _
      | cons cur rest => exact FailsIn.error fun u _ hu => LoopStop.noConfusion hu
  | succ fuel ih =>
      unfold analyzeLoop
      cases s.worklist.toList with
      | nil => exact .ok _
      | cons cur rest =>
          have hiter : FailsElsewhere (analyzeIter cx interf F cur s) := by
            unfold analyzeIter
            cases s.analState[cur.1]? with
            | none => exact .error (by decide)
            | some oldFact =>
                cases F.block? cur.1 with
                | none => exact .error (by decide)
                | some B =>
                    dsimp only
                    split_ifs
                    · exact .ok _
                    · exact .bind (BBOps.runTransferFuncs_failsElsewhere cx interf cx.opts.noCombinsG B cur.2 s.books)
                        fun _ => .ok _
          dsimp only
          cases hi : analyzeIter cx interf F cur s with
          | error e => exact FailsIn.error fun u hu heq => hiter e hi (LoopStop.stop.inj heq ▸ hu)
          | ok s' => exact ih

/-- **The abstract interpreter does not search for previous stores.** -/
theorem analyzeFunc_failsElsewhere {books : Books ap} {entryFact : LatticeFact ap} {mergeInterfs : Bool}
    {fuel : Nat} :
    LoopFailsElsewhere (analyzeFunc o cx interf books entryFact F mergeInterfs fuel) := by
  unfold analyzeFunc
  cases F.blocks with
  | nil => exact FailsElsewhere.lift (x := .error (.abort "[ERROR] function has no body")) (.error (by decide))
  | cons first rest => exact .bind analyzeLoop_failsElsewhere fun _ => .ok _

end Loop

/-! ### The search for the previous stores -/

section PreviousStores

variable {M : Module} {fuel : Nat}

theorem reachBlock_failsElsewhere (F : Function) (s : ReachState) (B : BasicBlock) :
    FailsElsewhere (reachBlock F s B) := by
  have hpreds : FailsElsewhere (reachingPreds F s B) := by
    refine .foldlM (fun pred _ curReach => ?_) _
    exact .bind (mapAtUnsafe_failsElsewhere s.reachOut pred.id) fun _ => .ok _
  have hkill : ∀ v curSt, FailsElsewhere (killStore v curSt) := by
    intro v curSt
    unfold killStore
    cases curSt.getStorePtr with
    | none => exact .error (by decide)
    | some stPtr =>
        dsimp only
        split_ifs
        · exact .error (by decide)
        · exact .ok _
  have hforM : ∀ {α : Type} (g : α → Except Stop Unit) (as : List α), (∀ a, FailsElsewhere (g a)) →
      FailsElsewhere (as.forM g) := by
    intro α g as hg
    induction as with
    | nil => exact .ok _
    | cons a as ih => exact .bind (hg a) fun _ => ih
  refine .bind hpreds fun curReach => .bind (hforM _ _ fun v => hforM _ _ fun curSt => hkill v curSt) fun _ =>
    .bind (mapAtUnsafe_failsElsewhere s.reachOut B.id) fun oldReach => ?_
  split_ifs <;> exact .ok _

theorem reachLoop_failsElsewhere {F : Function} {s : ReachState} : LoopFailsElsewhere (reachLoop F fuel s) := by
  induction fuel generalizing s with
  | zero => exact FailsIn.error fun u _ hu => LoopStop.noConfusion hu
  | succ fuel ih =>
      have hpass : FailsElsewhere (F.blocks.foldlM (reachBlock F) { s with updated := false }) :=
        .foldlM (fun B _ s => reachBlock_failsElsewhere F s B) _
      refine FailsIn.bind hpass.lift fun s' => ?_
      split_ifs
      · exact ih
      · exact .ok _

theorem getPreviousStores_failsElsewhere (i : Instruction) (v : Value) :
    LoopFailsElsewhere (getPreviousStores M i v fuel) := by
  unfold getPreviousStores
  cases M.parent? i with
  | none =>
      exact FailsElsewhere.lift (x := .error (.undefinedBehaviour "instruction outside the module"))
        (.error (by decide))
  | some p =>
      dsimp only
      cases prevStore p.2 i v with
      | some st => exact .ok _
      | none =>
          have hreach : LoopFailsElsewhere (getReachingStores p.1 fuel) :=
            .bind reachLoop_failsElsewhere fun _ => .ok _
          exact .bind hreach fun reach => .bind (mapAtUnsafe_failsElsewhere reach p.2.id).lift fun _ => .ok _

theorem getPreviousStoresWithCreate_failsElsewhere {i : Instruction} {v : Value} (hi : i.kind = .load v)
    (cre : Option Instruction) : LoopFailsElsewhere (getPreviousStoresWithCreate M i cre fuel) := by
  unfold getPreviousStoresWithCreate
  rw [hi]
  refine .bind (getPreviousStores_failsElsewhere i v) fun ret => ?_
  cases ret with
  | cons st sts => exact .ok _
  | nil =>
      cases cre with
      | none => exact .ok _
      | some cre => exact getPreviousStores_failsElsewhere cre v

end PreviousStores

/-! ### Accepted instructions -/

namespace Instruction

/-- A load instruction or an `atomicrmw`. -/
def LoadsOrUpdates (i : Instruction) : Prop :=
  (∃ p, i.kind = .load p) ∨ ∃ op p v, i.kind = .atomicRMW op p v

/-- A store instruction or an `atomicrmw`. -/
def StoresOrUpdates (i : Instruction) : Prop :=
  (∃ v p, i.kind = .store v p) ∨ ∃ op p v, i.kind = .atomicRMW op p v

end Instruction

/-- On these kinds `loadStoreSameVal` decides. -/
theorem loadStoreSameVal_ok {si li : Instruction} (hs : si.StoresOrUpdates) (hl : li.LoadsOrUpdates) :
    ∃ same, loadStoreSameVal si li = .ok same := by
  unfold loadStoreSameVal
  rcases hs with ⟨v, p, hs⟩ | ⟨op, p, v, hs⟩ <;> rcases hl with ⟨q, hl⟩ | ⟨op', q, v', hl⟩ <;>
    exact ⟨p == q, by rw [hs, hl]⟩

section Accepted

variable (ap : Apron) (cx : Ctx)

/-- The transfer function returns on an instruction, from some fact. -/
def Accepts (i : Instruction) : Prop :=
  ∃ (interf : InterfMap ap) (nonCombinInterfs : Bool) (f : LatticeFact ap) (books : Books ap)
    (r : LatticeFact ap × Books ap), BBOps.transferFunc cx interf nonCombinInterfs f i books = .ok r

/-- The transfer function returns on each instruction that it is applied to: those before the terminators. -/
def AcceptsProgram : Prop :=
  ∀ F ∈ cx.module.functions, ∀ b ∈ F.blocks, ∀ i ∈ b.body, Accepts ap cx i

/-- The transfer function records a fact at an instruction for which there was none. -/
def RecordsStore (s : Value) : Prop :=
  ∃ i ∈ cx.module.instrs, ∃ (interf : InterfMap ap) (nonCombinInterfs : Bool) (f : LatticeFact ap)
    (books : Books ap) (r : LatticeFact ap × Books ap),
    BBOps.transferFunc cx interf nonCombinInterfs f i books = .ok r ∧ s ∉ books.reachStores ∧ s ∈ r.2.reachStores

variable {ap cx}

/-- Stores that the transfer function has recorded. -/
def ReachStores.Recorded (cx : Ctx) (rStores : ReachStores ap) : Prop :=
  ∀ (g : FuncId) st, rStores[g]? = some st → ∀ s ∈ st, RecordsStore ap cx s

theorem Accepts.loadsOrUpdates {i : Instruction} (h : Accepts ap cx i) (hl : i.isSomeLoad = true) :
    i.LoadsOrUpdates := by
  obtain ⟨interf, nonCombinInterfs, f, books, r, hr⟩ := h
  obtain ⟨newF, hfact, _⟩ := bind_eq_ok.mp hr
  unfold BBOps.transferFact at hfact
  unfold Instruction.isSomeLoad at hl
  cases hk : i.kind with
  | load p => exact .inl ⟨p, hk⟩
  | atomicRMW op p v => exact .inr ⟨op, p, v, hk⟩
  | atomicCmpXchg p =>
      rw [hk] at hfact
      cases hfact
  | _ =>
      rw [hk] at hl
      cases hl

theorem RecordsStore.storesOrUpdates {s : Value} (h : RecordsStore ap cx s) :
    ∃ i, cx.module.instr? s = some i ∧ i.StoresOrUpdates := by
  obtain ⟨i, hi, interf, nonCombinInterfs, f, books, r, hr, hno, hs⟩ := h
  obtain ⟨newF, _, hr⟩ := bind_eq_ok.mp hr
  cases hr
  have hid : s ∈ BBOps.updateReachStores books.reachStores i.id newF → cx.module.instr? s = some i := by
    intro hmem
    obtain rfl := (BBOps.mem_joinInto.mp hmem).resolve_right hno
    exact Module.instr?_id hi
  unfold BBOps.record at hs
  cases hk : i.kind with
  | store v p =>
      rw [hk] at hs
      exact ⟨i, hid hs, .inl ⟨v, p, hk⟩⟩
  | atomicRMW op p v =>
      rw [hk] at hs
      exact ⟨i, hid hs, .inr ⟨op, p, v, hk⟩⟩
  | call callee =>
      rw [hk] at hs
      cases callee <;> exact absurd hs hno
  | _ =>
      rw [hk] at hs
      exact absurd hs hno

/-- No load is a terminator. -/
theorem Function.mem_getLoads_body {F : Function} {l : Instruction} (hl : l ∈ F.getLoads) :
    l.isSomeLoad = true ∧ ∃ b ∈ F.blocks, l ∈ b.body := by
  obtain ⟨hmem, hload⟩ := List.mem_filter.mp hl
  obtain ⟨b, hb, hlb⟩ := Function.mem_instrs.mp hmem
  refine ⟨hload, b, hb, (BasicBlock.mem_instrs.mp hlb).resolve_right fun hterm => ?_⟩
  have hter : l.isTerminator = true := hterm ▸ b.terminator_is
  unfold Instruction.isSomeLoad at hload
  unfold Instruction.isTerminator at hter
  cases hk : l.kind <;> rw [hk] at hload hter <;>
    first | exact absurd hload Bool.false_ne_true | exact absurd hter Bool.false_ne_true

/-- **`loadStoreSameVal` handles what the transfer function accepts**, so that the interferences of recorded
stores are always found. -/
theorem getInterferingStores_ok (haccepts : AcceptsProgram ap cx) {F : Function} (hF : F ∈ cx.module.functions)
    {rStores : ReachStores ap} (hrec : rStores.Recorded cx) :
    ∃ m, getInterferingStores cx.module F rStores = .ok m := by
  have hstore : ∀ l ∈ F.getLoads, ∀ s, RecordsStore ap cx s → ∀ ret,
      ∃ ret', addInterferingStore cx.module l ret s = .ok ret' := by
    intro l hl s hs ret
    obtain ⟨hload, b, hb, hbody⟩ := Function.mem_getLoads_body hl
    obtain ⟨si, hsi, hstores⟩ := hs.storesOrUpdates
    obtain ⟨same, hsame⟩ := loadStoreSameVal_ok hstores ((haccepts F hF b hb l hbody).loadsOrUpdates hload)
    unfold addInterferingStore
    rw [hsi]
    dsimp only
    rw [hsame]
    cases same <;> exact ⟨_, rfl⟩
  have hother : ∀ other ∈ rStores.toList, ∀ ret, ∃ ret', addInterferingStores cx.module F ret other = .ok ret' := by
    intro other hother ret
    have hget := Std.TreeMap.mem_toList_iff_getElem?_eq_some.mp hother
    have hkeys : ∀ l ∈ F.getLoads, ∀ ret, ∃ ret',
        other.2.keys.foldlM (addInterferingStore cx.module l) ret = .ok ret' :=
      fun l hl ret => Fallible.foldlM_total
        (fun s hs => hstore l hl s (hrec _ _ hget s (Std.TreeMap.mem_keys.mp hs))) ret
    unfold addInterferingStores
    split_ifs
    · exact ⟨ret, rfl⟩
    · exact Fallible.foldlM_total hkeys ret
  exact Fallible.foldlM_total hother {}

end Accepted

/-! ### The choices of a permutation -/

section Choices

variable {ap : Apron} {o : BlockOrder} {cx : Ctx} {z3 : Solver} {rules : List Rule} {F : Function}
  {createSite : Option Instruction} {stFacts : StoreFacts ap} {fuel : Nat}

/-- Nothing stops one choice: the previous stores of a load that reads the value of its own thread are found,
and the chosen store of another thread has a fact. -/
def GoesThrough (cx : Ctx) (createSite : Option Instruction) (stFacts : StoreFacts ap) (fuel : Nat)
    (p : (Value × List Value) × Nat) : Prop :=
  match p.2 with
  | 0 => ∃ li ∈ cx.module.instrs, li.id = p.1.1 ∧
      ∃ ss, getPreviousStoresWithCreate cx.module li createSite fuel = .ok ss
  | idx + 1 => ∃ st, p.1.2[idx]? = some st ∧ st ∈ stFacts

/-- The permutation lets an `atomicrmw` read the value of its own thread, and nothing stops the test before it
gets there. -/
structure ReadsOwnUpdate (cx : Ctx) (createSite : Option Instruction) (stFacts : StoreFacts ap) (fuel : Nat)
    (interfs : LoadStores) (perm : List Nat) : Prop where
  length : perm.length = interfs.size
  reads : ∃ done p rest, interfs.toList.zip perm = done ++ p :: rest ∧ p.2 = 0 ∧
    (∃ li ∈ cx.module.instrs, li.id = p.1.1 ∧ ∃ op ptr val, li.kind = .atomicRMW op ptr val) ∧
    ∀ q ∈ done, GoesThrough cx createSite stFacts fuel q

theorem addChoice_ok_iff {p : (Value × List Value) × Nat} (c : Choices ap) :
    (∃ c', addChoice cx createSite stFacts fuel c p = .ok c') ↔ GoesThrough cx createSite stFacts fuel p := by
  obtain ⟨⟨l, sts⟩, n⟩ := p
  unfold addChoice GoesThrough
  cases n with
  | zero =>
      dsimp only
      constructor
      · rintro ⟨c', h⟩
        cases hl : cx.module.instr? l with
        | none =>
            rw [hl] at h
            cases h
        | some li =>
            rw [hl] at h
            obtain ⟨ss, hss, _⟩ := bind_eq_ok.mp h
            obtain ⟨hmem, hid⟩ := Module.instr?_mem hl
            exact ⟨li, hmem, hid, ss, hss⟩
      · rintro ⟨li, hli, rfl, ss, hss⟩
        rw [Module.instr?_id hli]
        dsimp only
        rw [hss]
        rcases ss with _ | ⟨s, _ | ⟨s', ss⟩⟩ <;> exact ⟨_, rfl⟩
  | succ idx =>
      dsimp only
      cases sts[idx]? with
      | none => simp
      | some st =>
          have hmem : st ∈ stFacts ↔ (stFacts[st]?).isSome := Std.TreeMap.mem_iff_isSome_getElem?
          cases hf : stFacts[st]? <;> simp [hf, hmem]

/-- **A choice fails on its kind** where an `atomicrmw` is to read the value of its own thread, and nowhere
else. -/
theorem addChoice_unhandled_iff {li : Instruction} (hli : li ∈ cx.module.instrs) (hl : li.LoadsOrUpdates)
    {sts : List Value} {n : Nat} (c : Choices ap) :
    (∃ e ∈ unhandledKinds, addChoice cx createSite stFacts fuel c ((li.id, sts), n) = .error (.stop e)) ↔
      n = 0 ∧ ∃ op ptr val, li.kind = .atomicRMW op ptr val := by
  unfold addChoice
  cases n with
  | zero =>
      dsimp only
      rw [Module.instr?_id hli]
      dsimp only
      constructor
      · rintro ⟨e, he, h⟩
        rcases hl with ⟨p, hk⟩ | hk
        · exfalso
          rcases bind_eq_error.mp h with h | ⟨ss, _, h⟩
          · exact getPreviousStoresWithCreate_failsElsewhere hk createSite _ h e he rfl
          · rcases ss with _ | ⟨s, _ | ⟨s', ss⟩⟩ <;> cases h
        · exact ⟨rfl, hk⟩
      · rintro ⟨_, op, ptr, val, hk⟩
        refine ⟨_, .head _, bind_eq_error.mpr (.inl ?_)⟩
        unfold getPreviousStoresWithCreate
        rw [hk]
  | succ idx =>
      refine iff_of_false ?_ (fun h => Nat.succ_ne_zero idx h.1)
      rintro ⟨e, he, h⟩
      dsimp only at h
      cases hst : sts[idx]? with
      | none =>
          rw [hst] at h
          cases h
          exact absurd he (by decide)
      | some st =>
          rw [hst] at h
          dsimp only at h
          cases hf : stFacts[st]? with
          | none =>
              rw [hf] at h
              cases h
              exact absurd he (by decide)
          | some f =>
              rw [hf] at h
              cases h

/-- The choices of a permutation, for loads that the search can be asked about. -/
theorem gatherChoices_unhandled_iff {interfs : LoadStores} {perm : List Nat}
    (hloads : ∀ p ∈ interfs.toList, ∃ li ∈ cx.module.instrs, li.id = p.1 ∧ li.LoadsOrUpdates) :
    (∃ e ∈ unhandledKinds, gatherChoices cx createSite perm interfs stFacts fuel = .error (.stop e)) ↔
      ReadsOwnUpdate cx createSite stFacts fuel interfs perm := by
  unfold gatherChoices
  constructor
  · rintro ⟨e, he, h⟩
    split_ifs at h with hlen
    · cases h
      exact absurd he (by decide)
    obtain ⟨done, ⟨⟨l, sts⟩, n⟩, rest, c, hzip, hdone, hp⟩ := foldlM_eq_error.mp h
    have hmem : ((l, sts), n) ∈ interfs.toList.zip perm := hzip ▸ List.mem_append_right _ (.head _)
    obtain ⟨li, hli, rfl, hl⟩ := hloads (l, sts) (List.of_mem_zip hmem).1
    obtain ⟨rfl, hk⟩ := (addChoice_unhandled_iff hli hl c).mp ⟨e, he, hp⟩
    refine ⟨not_not.mp hlen, done, _, rest, hzip, rfl, ⟨li, hli, rfl, hk⟩, fun q hq => ?_⟩
    obtain ⟨c₁, c₂, hstep⟩ := Fallible.foldlM_step_ok hdone hq
    exact (addChoice_ok_iff c₁).mp ⟨c₂, hstep⟩
  · rintro ⟨hlen, done, ⟨⟨l, sts⟩, n⟩, rest, hzip, hn, ⟨li, hli, hid, hk⟩, hdone⟩
    obtain rfl : n = 0 := hn
    obtain rfl : li.id = l := hid
    rw [if_neg (not_not.mpr hlen)]
    obtain ⟨c, hc⟩ := Fallible.foldlM_total (fun q hq c => (addChoice_ok_iff c).mpr (hdone q hq)) ({} : Choices ap)
    obtain ⟨e, he, hp⟩ := (addChoice_unhandled_iff hli (.inr hk) c).mpr ⟨rfl, hk⟩
    exact ⟨e, he, foldlM_eq_error.mpr ⟨done, _, rest, c, hzip, hc, hp⟩⟩

/-- The test of a permutation fails on a kind when the gathering of its choices does. -/
theorem testCurPerm_unhandled_iff {e : Stop} (he : e ∈ unhandledKinds) {interfs : LoadStores} {perm : List Nat}
    {entryFact : LatticeFact ap} {s : PermState ap} :
    testCurPerm o cx z3 rules F createSite perm interfs stFacts entryFact fuel s = .error (.stop e) ↔
      gatherChoices cx createSite perm interfs stFacts fuel = .error (.stop e) := by
  constructor
  · intro h
    rcases bind_eq_error.mp h with h | ⟨c, _, h⟩
    · exact h
    exfalso
    dsimp only at h
    split_ifs at h
    · cases h
    · rcases bind_eq_error.mp h with h | ⟨_, _, h⟩
      · exact analyzeFunc_failsElsewhere _ h e he rfl
      · cases h
  · intro h
    exact bind_eq_error.mpr (.inl h)

end Choices

/-! ### Loads that survive the exploration -/

section Survival

variable {ap : Apron} (o : BlockOrder) (cx : Ctx) (z3 : Solver) (rules : List Rule) (F : Function)
  (rStores : ReachStores ap) (createSite : Option Instruction) (perm : List Nat) (stFacts : StoreFacts ap)
  (entryFact : LatticeFact ap) (fuel : Nat) (s : PermState ap)

/-- The exploration does not stop at a kind of load or store: neither do the interferences of a thread, nor
does the test of a permutation of them. -/
def HandlesKinds : Prop :=
  ∀ e ∈ unhandledKinds, getInterferingStores cx.module F rStores ≠ .error e ∧
    ∀ interfs, getInterferingStores cx.module F rStores = .ok interfs →
      testCurPerm o cx z3 rules F createSite perm interfs stFacts entryFact fuel s ≠ .error (.stop e)

/-- **Which loads survive the exploration.**  All kinds that the transfer function accepts do, unless the
permutation lets an `atomicrmw` read the value of its own thread. -/
theorem handlesKinds_iff (haccepts : AcceptsProgram ap cx) (hF : F ∈ cx.module.functions)
    (hrec : rStores.Recorded cx) :
    HandlesKinds o cx z3 rules F rStores createSite perm stFacts entryFact fuel s ↔
      ∀ interfs, getInterferingStores cx.module F rStores = .ok interfs →
        ¬ ReadsOwnUpdate cx createSite stFacts fuel interfs perm := by
  obtain ⟨interfs, hinterfs⟩ := getInterferingStores_ok haccepts hF hrec
  have hloads : ∀ p ∈ interfs.toList, ∃ li ∈ cx.module.instrs, li.id = p.1 ∧ li.LoadsOrUpdates := by
    intro p hp
    have hget := Std.TreeMap.mem_toList_iff_getElem?_eq_some.mp hp
    obtain ⟨st, hst⟩ := List.exists_mem_of_ne_nil p.2 (getInterferingStores_inhabited hinterfs p.1 p.2 hget)
    obtain ⟨_, _, _, _, _, li, hli, hid, _⟩ :=
      (getInterferingStores_hasPair hinterfs p.1 st).mp ⟨p.2, hget, hst⟩
    obtain ⟨hload, b, hb, hbody⟩ := Function.mem_getLoads_body hli
    exact ⟨li, Module.mem_instrs.mpr ⟨F, hF, (List.mem_filter.mp hli).1⟩, hid,
      (haccepts F hF b hb li hbody).loadsOrUpdates hload⟩
  rw [HandlesKinds, hinterfs]
  constructor
  · intro h interfs' heq hreads
    cases heq
    obtain ⟨e, he, hgather⟩ := (gatherChoices_unhandled_iff hloads).mpr hreads
    exact (h e he).2 interfs rfl ((testCurPerm_unhandled_iff he).mpr hgather)
  · intro h e he
    refine ⟨fun heq => (by cases heq), fun interfs' heq htest => ?_⟩
    cases heq
    exact h interfs rfl ((gatherChoices_unhandled_iff hloads).mp ⟨e, he, (testCurPerm_unhandled_iff he).mp htest⟩)

end Survival

namespace UpdateOfShared

def create : Instruction := ⟨20, .call (.pthreadCreate 40 (some 1) []), none, []⟩
def store : Instruction := ⟨10, .store (i32 1) 0, none, []⟩
def update : Instruction := ⟨2, .atomicRMW .add 0 (i32 1), some 32, []⟩

/-- `create(thread); x = 1` -/
def main : Function :=
  .ofBlocks 0 [.ofInstrs 100 [⟨40, .alloca, none, []⟩, create, store] ⟨30, .ret, none, []⟩]

/-- `x += 1`, atomically -/
def thread : Function :=
  .ofBlocks 1 [.ofInstrs 110 [update] ⟨31, .ret, none, []⟩]

def program : Module :=
  .ofFunctions [main, thread] [⟨0, some (.constantInt ⟨32, 0⟩)⟩] (some 0)

def cx : Ctx :=
  .ofModule program 5 { useBoxG := true }

def z3 : Solver := fun _ _ => .lUndef

def pass : Except LoopStop (RunState boxes) :=
  runOnModule .increasing cx z3 [] 40

/-- The store of `main` as the only reachable one. -/
def rStores : ReachStores boxes :=
  .insert {} 0 (.insert {} store.id ⟨boxes.top⟩)

def stFacts : StoreFacts boxes :=
  .insert {} store.id ⟨boxes.top⟩

theorem thread_mem : thread ∈ cx.module.functions :=
  .tail _ (.head _)

theorem accepts : AcceptsProgram boxes cx := by
  have hok : ∀ F ∈ cx.module.functions, ∀ b ∈ F.blocks, ∀ i ∈ b.body,
      (BBOps.transferFunc cx ({} : InterfMap boxes) false ⟨boxes.top⟩ i {}).isOk = true := by
    decide
  intro F hF b hb i hi
  obtain ⟨r, hr⟩ := exists_ok (hok F hF b hb i hi)
  exact ⟨_, _, _, _, r, hr⟩

theorem recorded : rStores.Recorded cx := by
  intro g st hst s hs
  unfold rStores at hst
  rw [Std.TreeMap.getElem?_insert] at hst
  split_ifs at hst
  · cases hst
    obtain rfl : s = store.id := by
      rw [Std.TreeMap.mem_insert] at hs
      exact (Nat.compare_eq_eq.mp (hs.resolve_right (by simp))).symm
    obtain ⟨r, hr, hmem⟩ := Fallible.exists_ok_of_toOption (c := true)
      (x := BBOps.transferFunc cx ({} : InterfMap boxes) false ⟨boxes.top⟩ store {})
      (f := fun r => r.2.reachStores.contains store.id) (by decide)
    exact ⟨store, by decide, _, _, _, _, r, hr, by simp, hmem⟩
  · simp at hst

theorem interfs_eq : (getInterferingStores cx.module thread rStores).toOption.map (·.toList) =
    some [(update.id, [store.id])] := by
  decide

/-- **An atomic addition to a variable that another thread stores to.**  The first permutation lets it read
the value of its own thread, and the pass stops at the search for the previous stores. -/
theorem not_handlesKinds : AcceptsProgram boxes cx ∧ thread ∈ cx.module.functions ∧ rStores.Recorded cx ∧
    ¬ HandlesKinds .increasing cx z3 [] thread rStores (some create) [0] stFacts ⟨boxes.top⟩ 40 ⟨{}, {}, {}⟩ ∧
    Fallible.error? pass = some (.stop (.abort
      "[ERROR] getPreviousStoreWithCreate: unimplemented instruction type: ")) := by
  obtain ⟨m, hm, hlist⟩ := Fallible.exists_ok_of_toOption interfs_eq
  refine ⟨accepts, thread_mem, recorded, fun h => ?_, by decide +kernel⟩
  have htest : Fallible.error? (testCurPerm .increasing cx z3 [] thread (some create) [0] m stFacts ⟨boxes.top⟩ 40
      ⟨{}, {}, {}⟩) = some (.stop (.abort
        "[ERROR] getPreviousStoreWithCreate: unimplemented instruction type: ")) := by
    unfold testCurPerm gatherChoices
    rw [← Std.TreeMap.length_toList, hlist]
    decide
  exact (h _ (.head _)).2 m hm (Fallible.error?_eq_some.mp htest)

/-- The permutation that lets it read from the store of `main` is tested. -/
theorem handlesKinds_store :
    HandlesKinds .increasing cx z3 [] thread rStores (some create) [1] stFacts ⟨boxes.top⟩ 40 ⟨{}, {}, {}⟩ := by
  refine (handlesKinds_iff .increasing cx z3 [] thread rStores (some create) [1] stFacts ⟨boxes.top⟩ 40
    ⟨{}, {}, {}⟩ accepts thread_mem recorded).mpr fun m hm hreads => ?_
  obtain ⟨m', hm', hlist⟩ := Fallible.exists_ok_of_toOption interfs_eq
  obtain rfl : m = m' := Except.ok.inj (hm.symm.trans hm')
  obtain ⟨done, p, rest, hzip, hself, _⟩ := hreads.reads
  rw [hlist] at hzip
  have hmem : p ∈ [((update.id, [store.id]), 1)] := by
    rw [show [((update.id, [store.id]), 1)] = done ++ p :: rest from hzip]
    exact List.mem_append_right _ (.head _)
  rw [List.mem_singleton.mp hmem] at hself
  cases hself

end UpdateOfShared

end Watts
