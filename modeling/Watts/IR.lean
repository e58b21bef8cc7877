import Mathlib.Algebra.Order.Ring.Int
import Mathlib.Data.List.Nodup
import Mathlib.Tactic.Common

/-! The part of the LLVM intermediate representation that the pass reads: values, instructions,
basic blocks, functions and modules, with the operands, types and callees its code inspects.  An
object the pass identifies by its address is identified here by a number, and `std::map` and
`std::set` keyed by such an address become ordered maps and sets keyed by that number. -/

namespace Watts

/-- The address of an `llvm::Value`: an instruction, a global, an argument or a constant. -/
abbrev Value := Nat

/-- The address of an `llvm::BasicBlock`. -/
abbrev BlockId := Nat

/-- The address of an `llvm::Function`. -/
abbrev FuncId := Nat

/-- How the modelled code stops without returning: an assertion or `exit` of the source with the
text it prints, or undefined behaviour of C++. -/
inductive Stop
  | abort (msg : String)
  | undefinedBehaviour (what : String)
deriving DecidableEq, Repr

/-- How a function with a loop stops without returning: the model's fuel ran out, or the source
stopped. -/
inductive LoopStop
  | outOfFuel
  | stop (s : Stop)
deriving DecidableEq, Repr

/-- Code without loops, run inside a function with a loop. -/
def liftStop {α : Type} : Except Stop α → Except LoopStop α
  | .ok a => .ok a
  | .error e => .error (.stop e)

instance : MonadLift (Except Stop) (Except LoopStop) :=
  ⟨liftStop⟩

@[simp] theorem liftStop_eq_ok {α : Type} {x : Except Stop α} {a : α} :
    liftStop x = .ok a ↔ x = .ok a := by
  cases x <;> simp [liftStop]

@[simp] theorem liftM_stop {α : Type} (x : Except Stop α) :
    (liftM x : Except LoopStop α) = liftStop x :=
  rfl

theorem exists_ok {ε α : Type} {x : Except ε α} (h : x.isOk = true) : ∃ a, x = .ok a := by
  cases x with
  | error e => cases h
  | ok a => exact ⟨a, rfl⟩

/-- An integer constant with the width of its type. -/
structure ConstantInt where
  bits : Nat
  val : BitVec bits
deriving DecidableEq, Repr

/-- An operand, with what `dyn_cast` tells the pass about it.  A constant expression carries the
`ConstantInt` that `foldConstExpr` returns for it, if it returns one. -/
inductive Operand
  | constantInt (ci : ConstantInt)
  | constantPointerNull
  | constantExpr (folded : Option ConstantInt)
  | value (v : Value)
deriving DecidableEq, Repr

/-- The predicates of `icmp`. -/
inductive Predicate
  | eq | ne | ugt | uge | ult | ule | sgt | sge | slt | sle
deriving DecidableEq, Repr

/-- The opcodes of a `BinaryOperator` that the pass tells apart. -/
inductive BinaryOps
  | add | mul | xor | other
deriving DecidableEq, Repr

/-- The operations of an `atomicrmw` that the pass tells apart. -/
inductive RMWOp
  | add | other
deriving DecidableEq, Repr

/-- An incoming value of a phi node, as `performPhiInst` classifies it. -/
inductive Incoming
  | constantInt (ci : ConstantInt)
  | cmpInst (v : Value)
  | other
deriving DecidableEq, Repr

/-- The called function of a call, by the names the pass compares with.  `pthread_create` carries
its first argument, the `pthread_t` it fills, its third argument when that is a function, and the
values among the others; `pthread_join` carries the `pthread_t` it waits for.  Calls through
pointers are left out: the pass dereferences their null `getCalledFunction()` in `getThreads` and
wherever else it looks at a call. -/
inductive Callee
  | pthreadCreate (thread : Value) (startRoutine : Option FuncId) (args : List Value)
  | pthreadJoin (thread : Value)
  | pthreadExit
  | assertFail
  | mfence
  | msync
  | mlwsync
  | other
deriving DecidableEq, Repr

/-- The condition of a conditional branch: the result of an `icmp` with its operands, or another
value. -/
inductive Condition
  | icmp (ic : Value) (pred : Predicate) (op0 op1 : Operand)
  | value (v : Value)
deriving DecidableEq, Repr

/-- The value whose truth a condition tests. -/
def Condition.val : Condition → Value
  | .icmp ic _ _ _ => ic
  | .value v => v

/-- What an instruction is, with the operands its class has. -/
inductive Kind
  | alloca
  | store (val : Operand) (ptr : Value)
  | load (ptr : Value)
  | icmp (pred : Predicate) (op0 op1 : Operand)
  | call (callee : Callee)
  | binary (op : BinaryOps) (op0 op1 : Operand)
  | cast (src : Operand)
  | phi (incoming : List Incoming)
  | atomicRMW (op : RMWOp) (ptr : Value) (val : Operand)
  | atomicCmpXchg (ptr : Value)
  | br (succ : BlockId)
  | condBr (cond : Condition) (trueSucc falseSucc : BlockId)
  | ret
  | unreachable
  | otherTerminator (succs : List BlockId)
  | other
deriving DecidableEq, Repr

/-- An instruction: its address, what it is, the width when its type is an integer type, and the
names of the metadata attached to it. -/
structure Instruction where
  id : Value
  kind : Kind
  bitWidth : Option Nat := none
  metadata : List String := []
deriving DecidableEq, Repr

namespace Instruction

/-- `isa<TerminatorInst>` -/
def isTerminator (i : Instruction) : Bool :=
  match i.kind with
  | .br _ | .condBr .. | .ret | .unreachable | .otherTerminator _ => true
  | _ => false

/-- The successors of a terminator. -/
def successors (i : Instruction) : List BlockId :=
  match i.kind with
  | .br b => [b]
  | .condBr _ t f => [t, f]
  | .otherTerminator bs => bs
  | _ => []

/-- `isa<CallInst>` -/
def isCall (i : Instruction) : Bool :=
  match i.kind with
  | .call _ => true
  | _ => false

/-- `isa<LoadInst>` -/
def isLoadInst (i : Instruction) : Bool :=
  match i.kind with
  | .load _ => true
  | _ => false

/-- `isa<StoreInst>` -/
def isStoreInst (i : Instruction) : Bool :=
  match i.kind with
  | .store .. => true
  | _ => false

/-- `isa<ReturnInst>` -/
def isReturn (i : Instruction) : Bool :=
  match i.kind with
  | .ret => true
  | _ => false

/-- A load, an `atomicrmw` or a `cmpxchg`. -/
def isSomeLoad (i : Instruction) : Bool :=
  match i.kind with
  | .load _ | .atomicRMW .. | .atomicCmpXchg _ => true
  | _ => false

/-- A store, an `atomicrmw` or a `cmpxchg`. -/
def isSomeStore (i : Instruction) : Bool :=
  match i.kind with
  | .store .. | .atomicRMW .. | .atomicCmpXchg _ => true
  | _ => false

/-- The pointer operand of a store; `none` if the instruction is not a store. -/
def getStorePtr (i : Instruction) : Option Value :=
  match i.kind with
  | .store _ p => some p
  | .atomicRMW _ p _ => some p
  | .atomicCmpXchg p => some p
  | _ => none

/-- The pointer operand of a load; `none` if the instruction does not load. -/
def getLoadPtr (i : Instruction) : Option Value :=
  match i.kind with
  | .load p => some p
  | .atomicRMW _ p _ => some p
  | .atomicCmpXchg p => some p
  | _ => none

/-- The function started by a call of `pthread_create` that names one. -/
def createdFunc (i : Instruction) : Option FuncId :=
  match i.kind with
  | .call (.pthreadCreate _ f _) => f
  | _ => none

/-- Whether the instruction is a call of `pthread_create`. -/
def isPthreadCreate (i : Instruction) : Bool :=
  match i.kind with
  | .call (.pthreadCreate ..) => true
  | _ => false

theorem isSomeLoad_iff (i : Instruction) : i.isSomeLoad = i.getLoadPtr.isSome := by
  cases h : i.kind <;> simp [isSomeLoad, getLoadPtr, h]

end Instruction

/-- In a list of lists without repetition an element stands in one of the lists only. -/
theorem eq_of_mem_flatMap {α β : Type} {l : List α} {f : α → List β} (h : (l.flatMap f).Nodup)
    {a b : α} (ha : a ∈ l) (hb : b ∈ l) {x : β} (hxa : x ∈ f a) (hxb : x ∈ f b) : a = b := by
  induction l with
  | nil => cases ha
  | cons c l ih =>
      rw [List.flatMap_cons, List.nodup_append] at h
      obtain ⟨_, hrest, hdisj⟩ := h
      rcases List.mem_cons.mp ha with rfl | ha'
      · rcases List.mem_cons.mp hb with rfl | hb'
        · rfl
        · exact absurd rfl (hdisj x hxa x (List.mem_flatMap.mpr ⟨b, hb', hxb⟩))
      · rcases List.mem_cons.mp hb with rfl | hb'
        · exact absurd rfl (hdisj x hxb x (List.mem_flatMap.mpr ⟨a, ha', hxa⟩))
        · exact ih hrest ha' hb'

/-- A basic block: the instructions before its terminator, in order, and the terminator. -/
structure BasicBlock where
  id : BlockId
  body : List Instruction
  terminator : Instruction
  body_not_terminator : ∀ i ∈ body, i.isTerminator = false
  terminator_is : terminator.isTerminator = true

namespace BasicBlock

/-- All instructions of the block, in order, the terminator last. -/
def instrs (b : BasicBlock) : List Instruction :=
  b.body ++ [b.terminator]

/-- The successors of the block's terminator. -/
def getSuccsFromBB (b : BasicBlock) : List BlockId :=
  b.terminator.successors

theorem mem_instrs {b : BasicBlock} {i : Instruction} :
    i ∈ b.instrs ↔ i ∈ b.body ∨ i = b.terminator := by
  simp [instrs]

theorem terminator_not_mem_body (b : BasicBlock) : b.terminator ∉ b.body := by
  intro hmem
  have hno := b.body_not_terminator b.terminator hmem
  rw [b.terminator_is] at hno
  cases hno

end BasicBlock

/-- A function: its blocks in order, the entry block first.  Branches stay inside the function and
no two blocks and no two instructions share an address. -/
structure Function where
  id : FuncId
  blocks : List BasicBlock
  blocks_nodup : (blocks.map BasicBlock.id).Nodup
  instrs_nodup : ((blocks.flatMap BasicBlock.instrs).map Instruction.id).Nodup
  succs_mem : ∀ b ∈ blocks, ∀ s ∈ b.getSuccsFromBB, s ∈ blocks.map BasicBlock.id

namespace Function

/-- All instructions of the function, block by block. -/
def instrs (f : Function) : List Instruction :=
  f.blocks.flatMap BasicBlock.instrs

/-- The block at an address, if the function has one there. -/
def block? (f : Function) (b : BlockId) : Option BasicBlock :=
  f.blocks.find? fun B => B.id == b

/-- The loads of the function, in order (`getLoads`). -/
def getLoads (f : Function) : List Instruction :=
  f.instrs.filter Instruction.isSomeLoad

/-- The `pthread_create` calls of the function, in order (`getThreadCreate`). -/
def getThreadCreate (f : Function) : List Instruction :=
  f.instrs.filter Instruction.isPthreadCreate

theorem mem_instrs {f : Function} {i : Instruction} :
    i ∈ f.instrs ↔ ∃ b ∈ f.blocks, i ∈ b.instrs := by
  simp [instrs]

theorem instrs_nodup_of_mem {F : Function} {B : BasicBlock} (hB : B ∈ F.blocks) : B.instrs.Nodup :=
  (List.Nodup.of_map _ F.instrs_nodup).sublist (List.sublist_flatten_of_mem (List.mem_map_of_mem hB))

theorem not_mem_of_nodup_middle {α : Type} {ps qs : List α} {x : α} (h : (ps ++ x :: qs).Nodup) :
    x ∉ ps ∧ x ∉ qs := by
  rw [List.nodup_middle, List.nodup_cons, List.mem_append, not_or] at h
  exact h.1

theorem takeWhile_ne_middle {α : Type} [DecidableEq α] {ps qs : List α} {x : α} (h : x ∉ ps) :
    (ps ++ x :: qs).takeWhile (· ≠ x) = ps := by
  rw [List.takeWhile_append_of_pos]
  · simp
  · intro y hy
    rw [decide_eq_true_eq]
    rintro rfl
    exact h hy

theorem block?_mem {f : Function} {b : BlockId} {B : BasicBlock} (h : f.block? b = some B) :
    B ∈ f.blocks ∧ B.id = b := by
  refine ⟨List.mem_of_find?_eq_some h, ?_⟩
  simpa using List.find?_some h

theorem block?_id {f : Function} {B : BasicBlock} (h : B ∈ f.blocks) :
    f.block? B.id = some B := by
  cases hf : f.block? B.id with
  | none =>
      have := List.find?_eq_none.mp hf B h
      simp at this
  | some B' =>
      obtain ⟨hB', hid⟩ := block?_mem hf
      exact congrArg some (List.inj_on_of_nodup_map f.blocks_nodup hB' h hid)

theorem block?_isSome {f : Function} {b : BlockId} :
    (f.block? b).isSome ↔ b ∈ f.blocks.map BasicBlock.id := by
  constructor
  · intro h
    obtain ⟨B, hB⟩ := Option.isSome_iff_exists.mp h
    obtain ⟨hm, hid⟩ := block?_mem hB
    exact List.mem_map.mpr ⟨B, hm, hid⟩
  · intro h
    obtain ⟨B, hm, rfl⟩ := List.mem_map.mp h
    simp [block?_id hm]

theorem eq_of_id_eq {f : Function} {i j : Instruction} (hi : i ∈ f.instrs) (hj : j ∈ f.instrs)
    (h : i.id = j.id) : i = j :=
  List.inj_on_of_nodup_map f.instrs_nodup hi hj h

/-- An instruction stands in one block only. -/
theorem block_unique {f : Function} {B B' : BasicBlock} (hB : B ∈ f.blocks) (hB' : B' ∈ f.blocks)
    {i : Instruction} (hi : i ∈ B.instrs) (hi' : i ∈ B'.instrs) : B = B' :=
  eq_of_mem_flatMap (List.Nodup.of_map _ f.instrs_nodup) hB hB' hi hi'

end Function

/-- The block with the given instructions.  A list that holds a terminator, or a last instruction that
is none, makes an empty block that ends in `unreachable`. -/
def BasicBlock.ofInstrs (id : BlockId) (body : List Instruction) (terminator : Instruction) :
    BasicBlock :=
  if h : (∀ i ∈ body, i.isTerminator = false) ∧ terminator.isTerminator = true then
    ⟨id, body, terminator, h.1, h.2⟩
  else
    ⟨id, [], ⟨terminator.id, .unreachable, none, []⟩, by simp, rfl⟩

/-- The function with the given blocks; a declaration without body if they do not form one. -/
def Function.ofBlocks (id : FuncId) (blocks : List BasicBlock) : Function :=
  if h : (blocks.map BasicBlock.id).Nodup ∧
      ((blocks.flatMap BasicBlock.instrs).map Instruction.id).Nodup ∧
      ∀ b ∈ blocks, ∀ s ∈ b.getSuccsFromBB, s ∈ blocks.map BasicBlock.id then
    ⟨id, blocks, h.1, h.2.1, h.2.2⟩
  else
    ⟨id, [], List.nodup_nil, List.nodup_nil, by simp⟩

/-- The initializer of a global variable, as `getInitState` classifies it. -/
inductive Initializer
  | constantInt (ci : ConstantInt)
  | other
deriving DecidableEq, Repr

/-- A global variable and its initializer, if it has one. -/
structure GlobalVariable where
  id : Value
  initializer : Option Initializer
deriving DecidableEq, Repr

/-- A module: its functions and globals, with the function named `main` if it has one.  No two
functions, and no two instructions of the module, share an address. -/
structure Module where
  functions : List Function
  globals : List GlobalVariable
  main : Option FuncId
  functions_nodup : (functions.map Function.id).Nodup
  instrs_nodup : ((functions.flatMap Function.instrs).map Instruction.id).Nodup

namespace Module

/-- All instructions of the module, function by function. -/
def instrs (M : Module) : List Instruction :=
  M.functions.flatMap Function.instrs

/-- The function at an address, if the module has one there. -/
def func? (M : Module) (f : FuncId) : Option Function :=
  M.functions.find? fun F => F.id == f

theorem mem_instrs {M : Module} {i : Instruction} :
    i ∈ M.instrs ↔ ∃ f ∈ M.functions, i ∈ f.instrs := by
  simp [instrs]

theorem func?_mem {M : Module} {f : FuncId} {F : Function} (h : M.func? f = some F) :
    F ∈ M.functions ∧ F.id = f := by
  refine ⟨List.mem_of_find?_eq_some h, ?_⟩
  simpa using List.find?_some h

theorem func?_id {M : Module} {F : Function} (h : F ∈ M.functions) : M.func? F.id = some F := by
  cases hf : M.func? F.id with
  | none =>
      have := List.find?_eq_none.mp hf F h
      simp at this
  | some F' =>
      obtain ⟨hF', hid⟩ := func?_mem hf
      exact congrArg some (List.inj_on_of_nodup_map M.functions_nodup hF' h hid)

theorem eq_of_id_eq {M : Module} {i j : Instruction} (hi : i ∈ M.instrs) (hj : j ∈ M.instrs)
    (h : i.id = j.id) : i = j :=
  List.inj_on_of_nodup_map M.instrs_nodup hi hj h

/-- An instruction stands in one function only. -/
theorem function_unique {M : Module} {F F' : Function} (hF : F ∈ M.functions)
    (hF' : F' ∈ M.functions) {i : Instruction} (hi : i ∈ F.instrs) (hi' : i ∈ F'.instrs) : F = F' :=
  eq_of_mem_flatMap (List.Nodup.of_map _ M.instrs_nodup) hF hF' hi hi'

end Module

/-- The module with the given functions; an empty one if they share addresses. -/
def Module.ofFunctions (functions : List Function) (globals : List GlobalVariable)
    (main : Option FuncId) : Module :=
  if h : (functions.map Function.id).Nodup ∧
      ((functions.flatMap Function.instrs).map Instruction.id).Nodup then
    ⟨functions, globals, main, h.1, h.2⟩
  else
    ⟨[], globals, main, List.nodup_nil, List.nodup_nil⟩

end Watts
