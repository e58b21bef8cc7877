import Watts.Constraints
import Watts.Library.Fallible

/-! The stores that reach the entry of each block, and the stores that a load reads when it reads the
value of its own thread. -/

namespace Watts

open Fallible (bind_eq_ok)

/-- A set of instruction pointers, in the order of the addresses. -/
abbrev InstSet := Std.TreeMap Value Instruction

/-- The stores of a block that reach its end: the last one to each pointer. -/
def getGen (B : BasicBlock) : InstSet :=
  let valToSt : Std.TreeMap Value Instruction :=
    B.instrs.foldl
      (fun valToSt i =>
        match i.getStorePtr with
        | some stPtr => valToSt.insert stPtr i
        | none => valToSt) {}
  valToSt.values.foldl (fun ret i => ret.insert i.id i) {}

/-- The pointers that a block stores to. -/
def getRemVars (B : BasicBlock) : Std.TreeSet Value :=
  B.instrs.foldl
    (fun ret i =>
      match i.getStorePtr with
      | some p => ret.insert p
      | none => ret) {}

/-- The predecessors of a block. -/
def Function.preds (F : Function) (B : BasicBlock) : List BasicBlock :=
  F.blocks.filter fun P => P.getSuccsFromBB.contains B.id

/-- The variables of the loop: the stores at the end and at the entry of each block. -/
structure ReachState where
  reachOut : Std.TreeMap BlockId InstSet
  reachIn : Std.TreeMap BlockId InstSet := {}
  updated : Bool := false

/-- Compare one killed variable with one reaching store.  The source erases the store through the
iterator that its loop increments afterwards. -/
def killStore (v : Value) (curSt : Instruction) : Except Stop Unit :=
  match curSt.getStorePtr with
  | none => .error (.abort "reaching store with NULL pointer arg")
  | some stPtr =>
    if v = stPtr then .error (.undefinedBehaviour "increment of an erased iterator") else .ok ()

/-- The stores at the end of the predecessors. -/
def reachingPreds (F : Function) (s : ReachState) (B : BasicBlock) : Except Stop InstSet :=
  (F.preds B).foldlM
    (fun curReach pred => do
      let predReachOut ← mapAtUnsafe s.reachOut pred.id
      return predReachOut.toList.foldl (fun r p => r.insert p.1 p.2) curReach) {}

/-- One block of one pass of the loop. -/
def reachBlock (F : Function) (s : ReachState) (B : BasicBlock) : Except Stop ReachState := do
  let curReach ← reachingPreds F s B
  let reachIn := s.reachIn.insert B.id curReach
  (getRemVars B).toList.forM fun v => curReach.values.forM fun curSt => killStore v curSt
  let curReach := (getGen B).toList.foldl (fun r p => r.insert p.1 p.2) curReach
  let oldReach ← mapAtUnsafe s.reachOut B.id
  if curReach.size > oldReach.size then
    return ⟨s.reachOut.insert B.id curReach, reachIn, true⟩
  else
    return { s with reachIn := reachIn }

/-- `while (updated)` -/
def reachLoop (F : Function) : Nat → ReachState → Except LoopStop ReachState
  | 0, _ => .error .outOfFuel
  | fuel + 1, s => do
    let s ← liftStop (F.blocks.foldlM (reachBlock F) { s with updated := false })
    if s.updated then reachLoop F fuel s else return s

/-- The stores that reach the entry of each block.  The source memoizes them by function. -/
def getReachingStores (F : Function) (fuel : Nat) : Except LoopStop (Std.TreeMap BlockId InstSet) := do
  let reachOut := F.blocks.foldl (fun m B => m.insert B.id ({} : InstSet)) {}
  let s ← reachLoop F fuel { reachOut := reachOut }
  return s.reachIn

/-- The function and the block of an instruction. -/
def Module.parent? (M : Module) (i : Instruction) : Option (Function × BasicBlock) :=
  M.functions.findSome? fun F => (F.blocks.find? fun B => B.instrs.contains i).map fun B => (F, B)

/-- The last store to `v` before `i` in its block. -/
def prevStore (b : BasicBlock) (i : Instruction) (v : Value) : Option Instruction :=
  ((b.instrs.takeWhile (· ≠ i)).filter fun bbi => bbi.getStorePtr == some v).getLast?

/-- The closest stores to `v` before `i` in its function: the last one in the block, else all that
reach the block. -/
def getPreviousStores (M : Module) (i : Instruction) (v : Value) (fuel : Nat) :
    Except LoopStop (List Instruction) :=
  match M.parent? i with
  | none => .error (.stop (.undefinedBehaviour "instruction outside the module"))
  | some (F, b) =>
    match prevStore b i v with
    | some st => .ok [st]
    | none => do
      let reach ← getReachingStores F fuel
      let bReachIn ← mapAtUnsafe reach b.id
      return bReachIn.values.filter fun st => st.getStorePtr == some v

/-- The stores before a load, and if there are none, before the creation of its thread. -/
def getPreviousStoresWithCreate (M : Module) (i : Instruction) (cre : Option Instruction)
    (fuel : Nat) : Except LoopStop (List Instruction) :=
  match i.kind with
  | .load v => do
    let ret ← getPreviousStores M i v fuel
    match ret, cre with
    | [], some cre => getPreviousStores M cre v fuel
    | _, _ => return ret
  | _ => .error (.stop (.abort
      "[ERROR] getPreviousStoreWithCreate: unimplemented instruction type: "))

/-! ### What they return -/

theorem prevStore_getStorePtr {b : BasicBlock} {i st : Instruction} {v : Value}
    (h : prevStore b i v = some st) : st.getStorePtr = some v := by
  have hmem := List.mem_of_getLast? h
  rw [List.mem_filter] at hmem
  exact beq_iff_eq.mp hmem.2

theorem getPreviousStores_getStorePtr {M : Module} {i : Instruction} {v : Value} {fuel : Nat}
    {ret : List Instruction} (h : getPreviousStores M i v fuel = .ok ret) :
    ∀ st ∈ ret, st.getStorePtr = some v := by
  unfold getPreviousStores at h
  cases hp : M.parent? i with
  | none => simp [hp] at h
  | some p =>
      simp only [hp] at h
      cases hs : prevStore p.2 i v with
      | some st =>
          simp only [hs, Except.ok.injEq] at h
          subst h
          intro st' hst'
          rw [List.mem_singleton.mp hst']
          exact prevStore_getStorePtr hs
      | none =>
          simp only [hs] at h
          obtain ⟨reach, _, h⟩ := bind_eq_ok.mp h
          obtain ⟨bReachIn, _, h⟩ := bind_eq_ok.mp h
          cases h
          intro st hst
          exact beq_iff_eq.mp (List.mem_filter.mp hst).2

/-- **The stores that a load of the own thread's value may come from store to its pointer.** -/
theorem getPreviousStoresWithCreate_getStorePtr {M : Module} {l : Instruction}
    {cre : Option Instruction} {fuel : Nat} {ret : List Instruction}
    (h : getPreviousStoresWithCreate M l cre fuel = .ok ret) :
    ∀ st ∈ ret, st.getStorePtr = l.getLoadPtr := by
  unfold getPreviousStoresWithCreate at h
  cases hk : l.kind with
  | load v =>
      simp only [hk] at h
      have hl : l.getLoadPtr = some v := by simp only [Instruction.getLoadPtr, hk]
      rw [hl]
      obtain ⟨ret₁, hp, h⟩ := bind_eq_ok.mp h
      cases ret₁ with
      | cons s ss =>
          cases h
          exact getPreviousStores_getStorePtr hp
      | nil =>
          cases cre with
          | none =>
              cases h
              exact getPreviousStores_getStorePtr hp
          | some cre => exact getPreviousStores_getStorePtr h
  | _ => simp only [hk] at h; cases h

end Watts
