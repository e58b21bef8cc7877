import Watts.AnalyzeFunc
import Watts.Library.Flow
import Watts.Library.Horn

/-! The constraints of the pruning under sequential consistency: the facts about dominance,
reachability, thread creation and joining that the pass collects from the module, and the Horn rules
over them.  The dominator trees come from LLVM and are parameters. -/

namespace Watts

/-- The relations of the fixed-point solver. -/
inductive Rel
  | dom | mhb | notReach | rf | notRf | st | ld | noReorder | fence
deriving DecidableEq, Repr

abbrev Rule := Horn.Rule Rel Value
abbrev GroundAtom := Horn.GroundAtom Rel Value

/-- LLVM's dominator tree and post-dominator tree of each function: the children of a block in the
first, all descendants of a block in the second. -/
structure Trees where
  domChildren : FuncId → BlockId → List BlockId
  postDomDescendants : FuncId → BlockId → List BlockId

section Facts

def addDomFact (a b : Instruction) : Rule := .fact .dom [a.id, b.id]
def addMHBFact (src dst : Instruction) : Rule := .fact .mhb [src.id, dst.id]
def addNotReachFact (a b : Instruction) : Rule := .fact .notReach [a.id, b.id]
def addReadsFromFact (l s : Value) : Rule := .fact .rf [l, s]
def addNotReadFact (l s : Instruction) : Rule := .fact .notRf [l.id, s.id]
def addStoreFact (s : Instruction) (v : Value) : Rule := .fact .st [s.id, v]
def addLoadFact (l : Instruction) (v : Value) : Rule := .fact .ld [l.id, v]

end Facts

/-! ### Rules -/

section Rules

/-- An atom over the variables and constants of a rule. -/
def atom (p : Rel) (x y : Horn.Term Value) : Horn.Atom Rel Value :=
  ⟨p, [x, y]⟩

/-- `fd` is transitive. -/
def addTransRuleBVBV (fd : Rel) : Rule :=
  ⟨[atom fd (.bound 0) (.bound 1), atom fd (.bound 1) (.bound 2)], atom fd (.bound 0) (.bound 2)⟩

/-- `(=> (rf a b) (mhb b a))` -/
def addMHBNRFRule : Rule :=
  ⟨[atom .rf (.bound 0) (.bound 1)], atom .mhb (.bound 1) (.bound 0)⟩

/-- `(=> (and (dom a b) (not-reach b a)) (mhb a b))` -/
def addDomNotReachRule : Rule :=
  ⟨[atom .dom (.bound 0) (.bound 1), atom .notReach (.bound 1) (.bound 0)],
    atom .mhb (.bound 0) (.bound 1)⟩

/-- `(=> (and (rf l s1) (mhb s1 s2) (ld l v) (st s1 v) (st s2 v)) (mhb l s2))` -/
def addReadsFromMHB : Rule :=
  let s1 : Horn.Term Value := .bound 0
  let s2 : Horn.Term Value := .bound 1
  let l : Horn.Term Value := .bound 2
  let v : Horn.Term Value := .bound 3
  ⟨[atom .rf l s1, atom .mhb s1 s2, atom .ld l v, atom .st s1 v, atom .st s2 v], atom .mhb l s2⟩

/-- `(=> (and (mhb a b) (mhb b c)) (mhb a c))` -/
def addMHBTrans : Rule :=
  addTransRuleBVBV .mhb

/-- `(=> (mhb a b) (not-rf a b))` -/
def addMHBNotReads : Rule :=
  ⟨[atom .mhb (.bound 0) (.bound 1)], atom .notRf (.bound 0) (.bound 1)⟩

/-- `(=> (and (rf l1 s1) (mhb l1 s2) (mhb s2 l2) (ld l1 v) (ld l2 v) (st s2 v)) (not-rf l2 s1))` -/
def addOverwriteNotReads : Rule :=
  let l1 : Horn.Term Value := .bound 0
  let l2 : Horn.Term Value := .bound 1
  let s1 : Horn.Term Value := .bound 2
  let s2 : Horn.Term Value := .bound 3
  let v : Horn.Term Value := .bound 4
  ⟨[atom .rf l1 s1, atom .mhb l1 s2, atom .mhb s2 l2, atom .ld l1 v, atom .ld l2 v, atom .st s2 v],
    atom .notRf l2 s1⟩

/-- `(=> (rf b a) (mhb a b))` -/
def addReadsFromIsMHB : Rule :=
  ⟨[atom .rf (.bound 3) (.bound 2)], atom .mhb (.bound 2) (.bound 3)⟩

def addPruningRules : List Rule :=
  [addMHBNRFRule, addDomNotReachRule, addReadsFromMHB, addMHBTrans, addMHBNotReads,
    addOverwriteNotReads]

/-- `(=> (and (st s v) (mhb s ci)) (not-rf s l))`.  The arguments of the conclusion stand in the
opposite order of the other rules'. -/
def addStoreCreateLoadFact (ci l : Instruction) : Rule :=
  ⟨[atom .st (.bound 0) (.bound 1), atom .mhb (.bound 0) (.const ci.id)],
    atom .notRf (.bound 0) (.const l.id)⟩

end Rules

/-! ### Blocks -/

namespace Instruction

/-- A store, load or call instruction; read-modify-writes are none of them. -/
def isaStoreLoadCall (i : Instruction) : Bool :=
  i.isStoreInst || i.isLoadInst || i.isCall

def isaStoreLoadCallOrTerm (i : Instruction) : Bool :=
  i.isStoreInst || i.isLoadInst || i.isTerminator || i.isCall

end Instruction

namespace BasicBlock

/-- The first load, store or call of the block, else its terminator. -/
def getFirstLoadStoreCallTerm (b : BasicBlock) : Instruction :=
  (b.instrs.find? Instruction.isaStoreLoadCall).getD b.terminator

/-- The loads, stores and calls of the block, in order. -/
def getLoadStoreCallOrdered (b : BasicBlock) : List Instruction :=
  b.instrs.filter Instruction.isaStoreLoadCall

def getStores (b : BasicBlock) : List Instruction :=
  b.instrs.filter Instruction.isStoreInst

/-- The first instruction of the block. -/
def front (b : BasicBlock) : Instruction :=
  b.instrs.headD b.terminator

end BasicBlock

/-- The order of the loads, stores and calls of a block and its terminator. -/
def addInternalDomFacts (b : BasicBlock) : List Rule :=
  let loadsNStores := b.getLoadStoreCallOrdered ++ [b.terminator]
  (loadsNStores.zip loadsNStores.tail).map fun p => addDomFact p.1 p.2

def addLoadStoreFacts (b : BasicBlock) : List Rule :=
  b.instrs.flatMap fun i =>
    match i.kind with
    | .load ptr => [addLoadFact i ptr]
    | .store _ ptr => [addStoreFact i ptr]
    | _ => []

/-! ### Dominance and reachability -/

namespace Function

/-- The successors of the block at an address. -/
def succsOf (F : Function) (b : BlockId) : List BlockId :=
  match F.block? b with
  | some B => B.getSuccsFromBB
  | none => []

/-- The blocks that some path of at least one edge from `b` reaches. -/
def forwardDfs (F : Function) (b : BlockId) (fuel : Nat) : Except LoopStop (List BlockId) :=
  match Flow.dfs F.succsOf fuel (F.succsOf b).reverse [] with
  | some found => .ok found
  | none => .error .outOfFuel

end Function

/-- The dominance facts of one thread function. -/
def addDomLoadStoreFactsFunc (trees : Trees) (f : Function) : Except Stop (List Rule) :=
  match f.blocks with
  | [] => .error (.undefinedBehaviour "front of a function without basic blocks")
  | first :: _ =>
    let lst := first.getFirstLoadStoreCallTerm
    let start := if first.front ≠ lst then [addDomFact first.front lst] else []
    .ok (start ++ f.blocks.flatMap fun b =>
      addInternalDomFacts b ++ addLoadStoreFacts b ++
        (trees.domChildren f.id b.id).filterMap fun c =>
          (f.block? c).map fun C => addDomFact b.terminator C.getFirstLoadStoreCallTerm)

/-- The dominance relation with its facts, and which instructions load and store. -/
def addDomLoadStoreFacts (trees : Trees) (M : Module) (threadFuncs : List FuncId) :
    Except Stop (List Rule) := do
  let facts ← threadFuncs.mapM fun f =>
    match M.func? f with
    | some F => addDomLoadStoreFactsFunc trees F
    | none => .error (.undefinedBehaviour "function outside the module")
  return addTransRuleBVBV .dom :: facts.flatten

/-- The facts that the instructions of `B` do not reach those of `N`. -/
def addNotReachableBlock (B N : BasicBlock) : List Rule :=
  (B.instrs.filter Instruction.isaStoreLoadCallOrTerm).flatMap fun i =>
    (N.instrs.filter Instruction.isaStoreLoadCallOrTerm).map fun nr => addNotReachFact i nr

def addNotReachableFacts (M : Module) (fuel : Nat) : Except LoopStop (List Rule) := do
  let facts ← M.functions.mapM fun F => F.blocks.mapM fun B => do
    let reach ← F.forwardDfs B.id fuel
    return (F.blocks.filter fun N => !reach.contains N.id).flatMap (addNotReachableBlock B)
  return facts.flatten.flatten

/-! ### Thread creation -/

/-- The thread function of a `pthread_create` call. -/
def getPThreadThreadFunc (ci : Instruction) : Except Stop FuncId :=
  match ci.createdFunc with
  | some f => .ok f
  | none => .error (.abort "[ERROR] pthread_create with non function 2nd arg\n")

theorem createdFunc_of_getPThreadThreadFunc {ci : Instruction} {f : FuncId}
    (h : getPThreadThreadFunc ci = .ok f) : ci.createdFunc = some f := by
  unfold getPThreadThreadFunc at h
  cases hf : ci.createdFunc with
  | none => simp [hf] at h
  | some g =>
      simp only [hf, Except.ok.injEq] at h
      rw [h]

def addCreateStoreLoadFacts (ci : Instruction) (tFunc : Function) : List Rule :=
  tFunc.getLoads.map (addStoreCreateLoadFact ci)

/-- The stores before an instruction in its block. -/
def getStoresInBBBefore (b : BasicBlock) (i : Instruction) : List Instruction :=
  (b.instrs.takeWhile (· ≠ i)).filter Instruction.isStoreInst

/-- The stores of the creating function that must occur before the call `ci` in block `b`. -/
def getThreadLocalNotRead (trees : Trees) (F : Function) (b : BasicBlock) (ci : Instruction) :
    List Instruction :=
  getStoresInBBBefore b ci ++
    ((trees.postDomDescendants F.id b.id).filter (· ≠ b.id)).flatMap fun d =>
      match F.block? d with
      | some D => D.getStores
      | none => []

def addThreadLocalNotRead (trees : Trees) (F : Function) (b : BasicBlock) (ci : Instruction)
    (tfunc : Function) : List Rule :=
  (getThreadLocalNotRead trees F b ci).flatMap fun s =>
    tfunc.getLoads.map fun l => addNotReadFact l s

/-- The facts of one `pthread_create` call.  A function without a body adds none. -/
def addCreateFactsCall (trees : Trees) (M : Module) (F : Function) (b : BasicBlock)
    (ci : Instruction) : Except Stop (List Rule) := do
  let f ← getPThreadThreadFunc ci
  match M.func? f with
  | none => throw (.undefinedBehaviour "function outside the module")
  | some tFunc =>
    match tFunc.blocks with
    | [] => return []
    | first :: _ =>
      return addMHBFact ci first.getFirstLoadStoreCallTerm ::
        addCreateStoreLoadFacts ci tFunc ++ addThreadLocalNotRead trees F b ci tFunc

/-- The order between the creations of threads and their functions. -/
def addCreateFacts (trees : Trees) (M : Module) : Except Stop (List Rule) := do
  let facts ← M.functions.mapM fun F => F.blocks.mapM fun b =>
    (b.instrs.filter Instruction.isPthreadCreate).mapM (addCreateFactsCall trees M F b)
  return facts.flatten.flatten.flatten

/-! ### Joins -/

namespace Instruction

/-- The values among the operands of an instruction. -/
def operands (i : Instruction) : List Value :=
  let vals (ops : List Operand) : List Value := ops.filterMap fun
    | .value v => some v
    | _ => none
  match i.kind with
  | .store val ptr => vals [val] ++ [ptr]
  | .load ptr => [ptr]
  | .icmp _ op0 op1 => vals [op0, op1]
  | .call (.pthreadCreate thread _ args) => thread :: args
  | .call (.pthreadJoin thread) => [thread]
  | .binary _ op0 op1 => vals [op0, op1]
  | .cast src => vals [src]
  | .phi incoming => incoming.filterMap fun
    | .cmpInst v => some v
    | _ => none
  | .atomicRMW _ ptr val => ptr :: vals [val]
  | .atomicCmpXchg ptr => [ptr]
  | .condBr cond _ _ => [cond.val]
  | _ => []

end Instruction

namespace Module

/-- The instruction at an address. -/
def instr? (M : Module) (v : Value) : Option Instruction :=
  M.instrs.find? fun i => i.id == v

theorem instr?_mem {M : Module} {v : Value} {i : Instruction} (h : M.instr? v = some i) :
    i ∈ M.instrs ∧ i.id = v := by
  refine ⟨List.mem_of_find?_eq_some h, ?_⟩
  simpa using List.find?_some h

theorem instr?_id {M : Module} {i : Instruction} (h : i ∈ M.instrs) : M.instr? i.id = some i := by
  cases hf : M.instr? i.id with
  | none =>
      have hno := List.find?_eq_none.mp hf i h
      simp at hno
  | some j =>
      obtain ⟨hj, hid⟩ := instr?_mem hf
      rw [M.eq_of_id_eq hj h hid]

/-- The users of a value; LLVM puts new uses in front. -/
def users (M : Module) (v : Value) : List Instruction :=
  (M.instrs.filter fun i => i.operands.contains v).reverse

end Module

/-- Search forward from an `alloca` for a `pthread_create` that uses it.  The list is the stack, its
last element first. -/
def forwardSearchCreate (M : Module) : Nat → List Instruction → Except LoopStop (Option FuncId)
  | _, [] => .ok none
  | 0, _ :: _ => .error .outOfFuel
  | fuel + 1, cur :: stack =>
    let us := M.users cur.id
    match us.find? Instruction.isPthreadCreate with
    | some ci => liftStop ((getPThreadThreadFunc ci).map some)
    | none => forwardSearchCreate M fuel (us.reverse ++ stack)

/-- Follow the definitions of a `pthread_t` backwards to the `pthread_create` that fills it.  Each
visited instruction pushes at most one other, so the stack is a single value. -/
def findCreateFromJoinLoop (M : Module) : Nat → Value → Except LoopStop (Option FuncId)
  | 0, _ => .error .outOfFuel
  | fuel + 1, v =>
    match M.instr? v with
    | none => .error (.stop (.abort "[ERROR] non instruction value on use-def chain: "))
    | some i =>
      match i.kind with
      | .call (.pthreadCreate ..) => liftStop ((getPThreadThreadFunc i).map some)
      | .call _ => .ok none
      | .alloca => forwardSearchCreate M fuel [i]
      | .load ptr => findCreateFromJoinLoop M fuel ptr
      | _ => .error (.stop (.abort
          "[ERROR] Unahandled instruction type while searching for pthread_create: "))

/-- The thread function that the `pthread_t` of a join belongs to, if it is found. -/
def findCreateFromJoin (M : Module) (fuel : Nat) (pt : Value) : Except LoopStop (Option FuncId) :=
  match M.instr? pt with
  | none => .ok none
  | some _ => findCreateFromJoinLoop M fuel pt

/-- The return instructions of a function. -/
def getRets (f : Function) : List Instruction :=
  f.instrs.filter Instruction.isReturn

/-- Every return of the joined thread must happen before the join. -/
def addJoinFactsCall (M : Module) (fuel : Nat) (i : Instruction) (thread : Value) :
    Except LoopStop (List Rule) := do
  match ← findCreateFromJoin M fuel thread with
  | none => return []
  | some f =>
    match M.func? f with
    | none => throw (.stop (.undefinedBehaviour "function outside the module"))
    | some thrdFunc =>
      if thrdFunc.blocks.isEmpty then return []
      let rets := getRets thrdFunc
      if rets.isEmpty then
        throw (.stop (.abort "function without returns"))
      return rets.map fun r => addMHBFact r i

def addJoinFacts (M : Module) (fuel : Nat) : Except LoopStop (List Rule) := do
  let facts ← M.instrs.mapM fun i =>
    match i.kind with
    | .call (.pthreadJoin thread) => addJoinFactsCall M fuel i thread
    | _ => .ok []
  return facts.flatten

/-! ### The solver -/

/-- All constraints of a module under sequential consistency, for the given thread functions. -/
def addConstraints (trees : Trees) (M : Module) (threadFuncs : List FuncId) (fuel : Nat) :
    Except LoopStop (List Rule) := do
  let doms ← addDomLoadStoreFacts trees M threadFuncs
  let creates ← addCreateFacts trees M
  let joins ← addJoinFacts M fuel
  let notReach ← addNotReachableFacts M fuel
  return doms ++ creates ++ joins ++ notReach ++ addPruningRules ++ [addReadsFromIsMHB]

/-- The answers of the solver. -/
inductive Z3Bool
  | lTrue | lFalse | lUndef
deriving DecidableEq, Repr

/-- A fixed-point solver: its answer to a query under a set of rules. -/
abbrev Solver := List Rule → GroundAtom → Z3Bool

/-- The solver computes the least model. -/
def Solver.LeastModel (z3 : Solver) : Prop :=
  ∀ rules a, z3 rules a = .lTrue ↔ Horn.Derives rules a

open Classical in
/-- The solver that decides derivability. -/
noncomputable def Solver.least : Solver := fun rules a =>
  if Horn.Derives rules a then .lTrue else .lFalse

theorem Solver.least_leastModel : Solver.least.LeastModel := by
  intro rules a
  unfold Solver.least
  split_ifs with h <;> simp [h]

def queryNotReads (z3 : Solver) (rules : List Rule) (l s : Value) : Z3Bool :=
  z3 rules ⟨.notRf, [l, s]⟩

def queryMHB (z3 : Solver) (rules : List Rule) (l s : Value) : Z3Bool :=
  z3 rules ⟨.mhb, [l, s]⟩

end Watts
