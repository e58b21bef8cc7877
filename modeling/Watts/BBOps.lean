import Watts.LatticeFact

/-! The transfer functions of `bbops.cpp`: the effect of one instruction on a fact and on the three
bookkeeping structures, the walk through a basic block, and the facts that its terminator sends to
the successors. -/

namespace Watts

/-- The bookkeeping that the transfer functions update: the reachable error statements, the facts
after the reachable stores and the facts at the reachable thread creations. -/
structure Books (ap : Apron) where
  rErrors : Std.TreeSet Value := {}
  reachStores : Std.TreeMap Value (LatticeFact ap) := {}
  reachThreadCreate : Std.TreeMap Value (LatticeFact ap) := {}

/-- The facts of the interfering stores of each load. -/
abbrev InterfMap (ap : Apron) := Std.TreeMap Value (LatticeFact ap)

/-- What stays the same during one run of the pass: the flags, the module, the names of the values
and the sets of the slicing options.  The assertion slice is the one that `runOnModule` computes. -/
structure Ctx where
  opts : Options
  module : Module
  v2n : NameMap
  assertSlice : Std.TreeSet Value := {}
  impacted : Std.TreeSet Value := {}
  mayImpact : Std.TreeSet Value := {}
  assertSlice_eq : getAssertSliceInvIfEnabled opts module = .ok assertSlice

namespace BBOps

variable {ap : Apron}

/-- `dst <- src` -/
def performAssign (v2n : NameMap) (dst : Value) (src : Operand) (f : LatticeFact ap) :
    Except Stop (LatticeFact ap) := do
  let toVar ← mapAtUnsafe v2n dst
  match src with
  | .constantInt ci => return f.assignInt toVar (← getConstantIntUnsafe ci)
  | .constantPointerNull => return f.assignInt toVar 0
  | .constantExpr (some ci) => return f.assignInt toVar (← getConstantIntUnsafe ci)
  | .constantExpr none => throw (.abort "[ERROR] Unable to fold ConstantExpr: ")
  | .value v => return f.assignVar toVar (← mapAtUnsafe v2n v)

/-- Join one incoming value of a phi node into the result so far. -/
def joinIncoming (v2n : NameMap) (toStr : Var) (ret : LatticeFact ap) (v : Incoming) :
    Except Stop (LatticeFact ap) :=
  match v with
  | .constantInt cint => do
    return ret.factJoin (ret.assignInt toStr (← getConstantIntUnsafe cint))
  | .cmpInst cmp => do
    return ret.factJoin (ret.assignVar toStr (← mapAtUnsafe v2n cmp))
  | .other => .error (.abort "[ERROR] Unhandled value in phi node: ")

/-- Join all incoming values of a phi node, from bottom. -/
def performPhiInst (v2n : NameMap) (phi : Value) (incoming : List Incoming) (f : LatticeFact ap) :
    Except Stop (LatticeFact ap) := do
  let toStr ← mapAtUnsafe v2n phi
  incoming.foldlM (joinIncoming v2n toStr) (f.setBottom toStr)

/-- Read the pointer from the interference alone. -/
def performCombinAssign (v2n : NameMap) (dst ptr : Value) (f interf : LatticeFact ap) :
    Except Stop (LatticeFact ap) := do
  let p ← mapAtUnsafe v2n ptr
  performAssign v2n dst (.value ptr) (f.assignInterval p (interf.getVarInterval p))

/-- Read the pointer from the join of the thread's own fact and the interference. -/
def performNonCombinAssign (v2n : NameMap) (dst ptr : Value) (f interf : LatticeFact ap) :
    Except Stop (LatticeFact ap) := do
  match v2n[ptr]? with
  | none => throw (.abort "load's ptr value not found in interf. fact")
  | some p =>
    performAssign v2n dst (.value ptr)
      (f.assignInterval p ((f.factJoin interf).getVarInterval p))

/-- The assignment of a load with interference, in the selected mode. -/
def performAssignWithInterf (v2n : NameMap) (nonCombinInterfs : Bool) (dst ptr : Value)
    (f interf : LatticeFact ap) : Except Stop (LatticeFact ap) :=
  if !nonCombinInterfs then
    performCombinAssign v2n dst ptr f interf
  else
    performNonCombinAssign v2n dst ptr f interf

/-- The unbounded effect of a binary operator. -/
def performBinOp (v2n : NameMap) (opTy : BinaryOps) (dst : Value) (op0 op1 : Operand)
    (f : LatticeFact ap) : Except Stop (LatticeFact ap) := do
  let toStr ← mapAtUnsafe v2n dst
  match op0, op1 with
  | .constantInt _, .constantInt _ => throw (.abort "binop on two constants")
  | .constantInt ci0, op1 =>
    let cVal0 ← getConstantIntUnsafe ci0
    let op1Str ← op1.valueToStringUnsafe v2n
    match opTy with
    | .add => return f.addInt toStr op1Str cVal0
    | .mul => return f.mul toStr op1Str cVal0
    | _ => throw (.abort "[ERROR] BinOp, first op const, unhandled operation")
  | op0, .constantInt ci1 =>
    let cVal1 ← getConstantIntUnsafe ci1
    let op0Str ← op0.valueToStringUnsafe v2n
    match opTy with
    | .add => return f.addInt toStr op0Str cVal1
    | .mul => return f.mul toStr op0Str cVal1
    | _ => throw (.abort "[ERROR] BinOp: second op const, unhandled operation")
  | op0, op1 =>
    match opTy with
    | .add => return f.addVar toStr (← op0.valueToStringUnsafe v2n) (← op1.valueToStringUnsafe v2n)
    | _ => throw (.abort "[ERROR] BinOp both ops non-const unhandled op type")

/-- `2^bw`, through `pow`, `long unsigned` and `long int`. -/
def modulus (bw : Nat) : Except Stop Int :=
  if bw < 64 then
    .ok (((2 : Int) ^ bw).bmod (2 ^ 64))
  else
    .error (.undefinedBehaviour "conversion of 2^64 to long unsigned")

def performBinOpMod (v2n : NameMap) (opTy : BinaryOps) (i : Instruction) (op0 op1 : Operand)
    (f : LatticeFact ap) : Except Stop (LatticeFact ap) := do
  let tmp ← performBinOp v2n opTy i.id op0 op1 f
  match i.bitWidth with
  | none => throw (.abort "[ERROR] getBitWidth(): unhandled type: ")
  | some bw =>
    let bw2 ← modulus bw
    let toStr ← mapAtUnsafe v2n i.id
    return tmp.mod toStr toStr bw2

/-- The truth values `(zero, one)` that an operand of a logic operation may have.  The two operands
read the constant true differently: as `1` on the left and as `-1` on the right. -/
def logicOperand (useOctG : Bool) (v2n : NameMap) (one : Int) (msg : String) (f : LatticeFact ap)
    (op : Operand) : Except Stop (Bool × Bool) :=
  match op with
  | .constantInt ci => do
    let cval ← getConstantIntUnsafe ci
    if cval = 0 then return (true, false)
    else if cval = one then return (false, true)
    else throw (.abort msg)
  | op => do
    let v ← op.valueToStringUnsafe v2n
    let eq0 := f.isEq useOctG (.var v) (.int 0)
    let eq1 := f.isEq useOctG (.var v) (.int 1)
    if !(eq0 || eq1) then return (true, true)
    else return (eq0, eq1)

def performLogicOp (useOctG : Bool) (v2n : NameMap) (opTy : BinaryOps) (i : Instruction)
    (op0 op1 : Operand) (f : LatticeFact ap) : Except Stop (LatticeFact ap) := do
  match v2n[i.id]? with
  | none => throw (.abort "to not in map")
  | some toVar =>
    if i.bitWidth ≠ some 1 then
      if opTy = .xor ∧ op0 = op1 then
        return f.assignInt toVar 0
      else
        throw (.abort "[ERROR] Non-logical (bitsize 1) XOR operation")
    let (op0Zero, op0One) ← logicOperand useOctG v2n 1 "op0 contant != 0 or 1" f op0
    let (op1Zero, op1One) ← logicOperand useOctG v2n (-1) "op1 constant != 0 or 1" f op1
    match opTy with
    | .xor =>
      let toTrue := (op0One && op1Zero) || (op0Zero && op1One)
      let toFalse := (op0Zero && op1Zero) || (op0One && op1One)
      if !(toTrue || toFalse) then
        throw (.abort "result of logic op neither set nor unset")
      f.assignTrueFalse toVar toTrue toFalse
    | _ => throw (.abort "[ERROR] unhandeled logic operation: ")

/-- The comparison of two named operands under a predicate that the pass handles. -/
def cmpTerms (useOctG : Bool) (f : LatticeFact ap) (dst : Var) (pred : Predicate) (t0 t1 : Term) :
    Except Stop (LatticeFact ap) :=
  match pred with
  | .ne => f.icmpNEq useOctG dst t0 t1
  | .eq => f.icmpEq useOctG dst t0 t1
  | .sgt => f.icmpGt dst t0 t1
  | .sge => f.icmpGeq dst t0 t1
  | .slt => f.icmpLt dst t0 t1
  | .sle => f.icmpLeq dst t0 t1
  | _ => .error (.abort "[ERROR] Unhandled icmp predicate:")

/-- Assign the result of a comparison; exactly one operand is a constant. -/
def performAssignCmp (useOctG : Bool) (v2n : NameMap) (dst : Value) (op0 op1 : Operand)
    (f : LatticeFact ap) (pred : Predicate) : Except Stop (LatticeFact ap) := do
  match op0, op1 with
  | .constantInt ci0, .value v1 =>
    let cVal0 ← getConstantIntUnsafe ci0
    let toStr ← mapAtUnsafe v2n dst
    let op1Str ← mapAtUnsafe v2n v1
    cmpTerms useOctG f toStr pred (.int cVal0) (.var op1Str)
  | .value v0, .constantInt ci1 =>
    let cVal1 ← getConstantIntUnsafe ci1
    let toStr ← mapAtUnsafe v2n dst
    let op0Str ← mapAtUnsafe v2n v0
    cmpTerms useOctG f toStr pred (.var op0Str) (.int cVal1)
  | .constantInt _, _ => throw (.abort "comparing two constants")
  | _, .constantInt _ => throw (.abort "comparing two constants")
  | _, _ => throw (.abort "[ERROR] unhandled icmp constant/non-constant pair")

/-- A cast copies its operand. -/
def performCast (v2n : NameMap) (dst : Value) (src : Operand) (f : LatticeFact ap) :
    Except Stop (LatticeFact ap) :=
  performAssign v2n dst src f

/-- `atomicrmw` with the interference of its load. -/
def performAtomicRMWInterf (v2n : NameMap) (nonCombinInterfs : Bool) (rmw : Value) (op : RMWOp)
    (ptr : Value) (val : Operand) (f interf : LatticeFact ap) : Except Stop (LatticeFact ap) := do
  let inWithRet ← performAssignWithInterf v2n nonCombinInterfs rmw ptr f interf
  match op with
  | .add => performBinOp v2n .add ptr (.value rmw) val inWithRet
  | .other => throw (.abort "[ERROR] Unhandled AtomicRMW Operation: ")

/-- `atomicrmw` without interference. -/
def performAtomicRMW (v2n : NameMap) (rmw : Value) (op : RMWOp) (ptr : Value) (val : Operand)
    (f : LatticeFact ap) : Except Stop (LatticeFact ap) := do
  let inWithRet ← performAssign v2n rmw (.value ptr) f
  match op with
  | .add => performBinOp v2n .add ptr (.value ptr) val inWithRet
  | .other => throw (.abort "[ERROR] Unhandled AtomicRMW Operation: ")

/-- Insert a fact under an instruction, joined with the one already there. -/
def joinInto (m : Std.TreeMap Value (LatticeFact ap)) (i : Value) (f : LatticeFact ap) :
    Std.TreeMap Value (LatticeFact ap) :=
  match m[i]? with
  | none => m.insert i f
  | some old => m.insert i (f.factJoin old)

def updateReachThreadCreate (m : Std.TreeMap Value (LatticeFact ap)) (ci : Value)
    (f : LatticeFact ap) : Std.TreeMap Value (LatticeFact ap) :=
  joinInto m ci f

def updateReachStores (m : Std.TreeMap Value (LatticeFact ap)) (i : Value) (f : LatticeFact ap) :
    Std.TreeMap Value (LatticeFact ap) :=
  joinInto m i f

/-- The effect of one instruction on the fact.  A call of `__assert_fail` must not be reached with
bottom. -/
def transferFact (cx : Ctx) (interf : InterfMap ap) (nonCombinInterfs : Bool) (f : LatticeFact ap)
    (i : Instruction) : Except Stop (LatticeFact ap) :=
  match i.kind with
  | .alloca => .ok f
  | .store val ptr => performAssign cx.v2n ptr val f
  | .load ptr =>
    match interf[i.id]? with
    | none => performAssign cx.v2n i.id (.value ptr) f
    | some itf => performAssignWithInterf cx.v2n nonCombinInterfs i.id ptr f itf
  | .icmp pred op0 op1 => performAssignCmp cx.opts.useOctG cx.v2n i.id op0 op1 f pred
  | .call callee =>
    match callee with
    | .pthreadCreate .. => .ok f
    | .pthreadExit | .pthreadJoin _ => .ok f
    | .assertFail =>
      if f.isBottom then .error (.abort "error reached with bottom") else .ok f
    | .mfence | .msync | .mlwsync => .ok f
    | .other => .error (.abort "[ERROR] Unhandled function call: ")
  | .binary op op0 op1 =>
    match op with
    | .add | .mul => performBinOpMod cx.v2n op i op0 op1 f
    | .xor => performLogicOp cx.opts.useOctG cx.v2n op i op0 op1 f
    | .other => .error (.abort "[ERROR] BinaryOperator unhandled")
  | .cast src => performCast cx.v2n i.id src f
  | .phi incoming => performPhiInst cx.v2n i.id incoming f
  | .atomicRMW op ptr val =>
    match interf[i.id]? with
    | some itf => performAtomicRMWInterf cx.v2n nonCombinInterfs i.id op ptr val f itf
    | none => performAtomicRMW cx.v2n i.id op ptr val f
  | _ => .error (.abort "[ERROR] unhandled instruction in transfer function: ")

/-- What `transfer_func` records: the output fact at a store, the input fact at a thread creation,
and the error statements. -/
def record (books : Books ap) (fIn fOut : LatticeFact ap) (i : Instruction) : Books ap :=
  match i.kind with
  | .store .. | .atomicRMW .. =>
    { books with reachStores := updateReachStores books.reachStores i.id fOut }
  | .call (.pthreadCreate ..) =>
    { books with reachThreadCreate := updateReachThreadCreate books.reachThreadCreate i.id fIn }
  | .call .assertFail => { books with rErrors := books.rErrors.insert i.id }
  | _ => books

/-- The transfer function of one instruction. -/
def transferFunc (cx : Ctx) (interf : InterfMap ap) (nonCombinInterfs : Bool) (f : LatticeFact ap)
    (i : Instruction) (books : Books ap) : Except Stop (LatticeFact ap × Books ap) := do
  let newF ← transferFact cx interf nonCombinInterfs f i
  return (newF, record books f newF i)

/-- `identity_transfer_func`: the fact stays, thread creations and store instructions are recorded.
Its branch for error calls returns before recording them. -/
def identityTransferFunc (f : LatticeFact ap) (i : Instruction) (books : Books ap) :
    LatticeFact ap × Books ap :=
  match i.kind with
  | .call (.pthreadCreate ..) =>
    (f, { books with
            reachThreadCreate := updateReachThreadCreate books.reachThreadCreate i.id f })
  | .store .. =>
    (f, { books with reachStores := updateReachStores books.reachStores i.id f })
  | _ => (f, books)

/-- One instruction of a block inside `getFactInBBBefore`. -/
def stepInst (cx : Ctx) (interf : InterfMap ap) (nonCombinInterfs : Bool)
    (s : LatticeFact ap × Books ap) (i : Instruction) : Except Stop (LatticeFact ap × Books ap) :=
  if cx.opts.assertSliceG && cx.assertSlice.contains i.id then
    .ok (identityTransferFunc s.1 i s.2)
  else
    transferFunc cx interf nonCombinInterfs s.1 i s.2

/-- Execute the instructions before the terminator: `getFactInBBBefore` at the terminator. -/
def runBody (cx : Ctx) (interf : InterfMap ap) (nonCombinInterfs : Bool) (body : List Instruction)
    (f : LatticeFact ap) (books : Books ap) : Except Stop (LatticeFact ap × Books ap) :=
  body.foldlM (stepInst cx interf nonCombinInterfs) (f, books)

/-- The facts that a terminator sends to the successors. -/
def outFacts (cx : Ctx) (t : Instruction) (endFact : LatticeFact ap) :
    Except Stop (List (BlockId × LatticeFact ap)) :=
  match t.kind with
  | .br succ => .ok [(succ, endFact)]
  | .condBr cond trueSucc falseSucc => do
    let trueF ← endFact.constrainTF cx.opts cond true cx.v2n
    let falseF ← endFact.constrainTF cx.opts cond false cx.v2n
    if trueSucc = falseSucc then
      throw (.abort "condbr with same successors")
    return [(trueSucc, trueF), (falseSucc, falseF)]
  | .ret => .ok []
  | .unreachable => .ok []
  | _ => .error (.abort "[ERROR] Unhandled terminator: ")

/-- Execute a block and return the facts for its successors. -/
def runTransferFuncs (cx : Ctx) (interf : InterfMap ap) (nonCombinInterfs : Bool) (b : BasicBlock)
    (inFact : LatticeFact ap) (books : Books ap) :
    Except Stop (List (BlockId × LatticeFact ap) × Books ap) := do
  let (endFact, books') ← runBody cx interf nonCombinInterfs b.body inFact books
  let outs ← outFacts cx b.terminator endFact
  return (outs, books')

end BBOps

end Watts
