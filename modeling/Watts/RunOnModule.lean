import Watts.Combinations

/-! The outer loop of `runOnModule`: analyse every thread in the presence of the interferences of the
others, until the facts at the stores are stable. -/

namespace Watts

/-- A `pthread_create` call whose thread is to be analysed; `none` stands for `main`. -/
abbrev Site := Option Instruction

/-- What the last analysis of a function found when it began: the iteration, the entry of the function
in `interfs` if an earlier iteration has computed one, and the stores reached in earlier iterations.
The source does not keep it. -/
structure Analysis (ap : Apron) where
  iter : Nat
  interfs : Option LoadStores
  allReachStores : ReachStores ap

/-- The variables of the outer loop and the static caches. -/
structure RunState (ap : Apron) where
  allReachStores : ReachStores ap := {}
  newReachStores : ReachStores ap := {}
  interfs : Std.TreeMap FuncId LoadStores := {}
  threadRes : Std.TreeMap FuncId (Std.TreeMap BlockId (LatticeFact ap)) := {}
  threadFuncs : Std.TreeSet FuncId := {}
  threadEntryFacts : Std.TreeMap Value (LatticeFact ap) := {}
  rErrors : Std.TreeSet Value := {}
  permCache : PermCache := {}
  mhbCache : MHBCache := fun _ => none
  iter : Nat := 1
  lastAnalysis : Std.TreeMap FuncId (Analysis ap) := {}

variable {ap : Apron}

/-! ### One thread -/

/-- The function of a thread. -/
def siteFunc (cx : Ctx) (main : Function) : Site → Except Stop Function
  | none => .ok main
  | some ci => do
    let f ← getPThreadThreadFunc ci
    match cx.module.func? f with
    | some F => return F
    | none => throw (.undefinedBehaviour "function outside the module")

/-- The fact that a thread starts with. -/
def siteEntryFact (cx : Ctx) (progInitState : LatticeFact ap) (s : RunState ap) :
    Site → Except Stop (LatticeFact ap)
  | none => .ok progInitState
  | some ci => if cx.opts.dynInitG then mapAtUnsafe s.threadEntryFacts ci.id else .ok progInitState

/-- The interferences that the analysis of a function uses, with the cache of the filter. -/
def curFInterf (cx : Ctx) (z3 : Solver) (rules : List Rule) (s : RunState ap) (f : FuncId) :
    LoadStores × MHBCache :=
  let interf := s.interfs[f]?.getD {}
  if cx.opts.filterMHB then filterMHBInterfs z3 rules s.mhbCache interf else (interf, s.mhbCache)

/-- A reachable `pthread_create` call: remember its function and its entry fact, and queue it. -/
def discoverThread (cx : Ctx) (r : RunState ap × List Site) (p : Value × LatticeFact ap) :
    Except Stop (RunState ap × List Site) :=
  match cx.module.instr? p.1 with
  | none => .error (.undefinedBehaviour "call outside the module")
  | some curCall => do
    let thrdFunc ← getPThreadThreadFunc curCall
    return ({ r.1 with
        threadFuncs := r.1.threadFuncs.insert thrdFunc
        threadEntryFacts := (r.1.threadEntryFacts.erase p.1).insert p.1 p.2 }, r.2 ++ [some curCall])

/-- The threads that an analysis has reached, when they are found while iterating. -/
def discoverThreads (cx : Ctx) (reachThreadCreate : Std.TreeMap Value (LatticeFact ap))
    (s : RunState ap) : Except Stop (RunState ap × List Site) :=
  if cx.opts.dynInitG then reachThreadCreate.toList.foldlM (discoverThread cx) (s, [])
  else .ok (s, [])

/-- The state after the analysis of a function. -/
def RunState.analyzed (s : RunState ap) (f : FuncId) (mhbCache : MHBCache) (r : PermState ap) :
    RunState ap :=
  { s with
    newReachStores := (s.newReachStores.erase f).insert f r.books.reachStores
    threadRes := s.threadRes.insert f r.res
    rErrors := r.books.rErrors
    permCache := r.permCache
    mhbCache := mhbCache
    lastAnalysis := s.lastAnalysis.insert f ⟨s.iter, s.interfs[f]?, s.allReachStores⟩ }

section Loop

variable (o : BlockOrder) (cx : Ctx) (z3 : Solver) (rules : List Rule) (main : Function)
  (progInitState : LatticeFact ap) (fuel : Nat)

/-- Analyse one thread; the result lists the threads to process after those that wait. -/
def processThread (s : RunState ap) (ci : Site) : Except LoopStop (RunState ap × List Site) := do
  let f ← siteFunc cx main ci
  let entryFact ← siteEntryFact cx progInitState s ci
  let (interf, mhbCache) := curFInterf cx z3 rules s f.id
  let storeToInterf ← flattenReachStores s.newReachStores
  let r ← analyzeThreadInterf o cx z3 rules f ci interf storeToInterf
    { rErrors := s.rErrors } s.permCache entryFact fuel
  discoverThreads cx r.books.reachThreadCreate (s.analyzed f.id mhbCache r)

/-- `while (threadsToProcess.size())` -/
def threadsLoop : Nat → List Site → RunState ap → Except LoopStop (RunState ap)
  | _, [], s => .ok s
  | 0, _ :: _, _ => .error .outOfFuel
  | n + 1, ci :: threadsToProcess, s => do
    let (s, reached) ← processThread o cx z3 rules main progInitState fuel s ci
    threadsLoop n (threadsToProcess ++ reached) s

/-- Remove the loads that are off the slice.  The source erases through the iterator that its loop
increments afterwards. -/
def sliceInterfs (interfStores : LoadStores) : Except Stop LoadStores := do
  interfStores.keys.forM fun l =>
    if (cx.opts.assertSliceG && cx.assertSlice.contains l) ||
        (cx.opts.impactG && !cx.mayImpact.contains l && !cx.impacted.contains l) then
      throw (.undefinedBehaviour "increment of an erased iterator")
    else
      return ()
  return interfStores

/-- The interferences of one function for the next iteration. -/
def updateInterfs (s : RunState ap) (f : FuncId) : Except Stop (RunState ap) :=
  match cx.module.func? f with
  | none => .error (.undefinedBehaviour "function outside the module")
  | some F => do
    let interfStores ← getInterferingStores cx.module F s.newReachStores
    let interfStores ← sliceInterfs cx interfStores
    return { s with interfs := s.interfs.insert f interfStores }

/-- Set up the data for the next iteration. -/
def nextIteration (s : RunState ap) : Except Stop (RunState ap) := do
  let s ← s.threadFuncs.toList.foldlM (updateInterfs cx) s
  return { s with allReachStores := s.newReachStores }

/-- One interference iteration; the result tells whether the loop ends. -/
def interferenceIter (threadSites : List Site) (noThreads : Bool) (s : RunState ap) :
    Except LoopStop (Bool × RunState ap) := do
  let s ← threadsLoop o cx z3 rules main progInitState fuel fuel threadSites
    { s with newReachStores := s.allReachStores }
  if noThreads then
    return (true, s)
  else if ← stableStores s.allReachStores s.newReachStores then
    return (true, { s with iter := s.iter + 1 })
  else
    let s ← nextIteration cx s
    return (false, { s with iter := s.iter + 1 })

/-- `do { ... } while (!stable)` -/
def interferenceLoop (threadSites : List Site) (noThreads : Bool) :
    Nat → RunState ap → Except LoopStop (RunState ap)
  | 0, _ => .error .outOfFuel
  | n + 1, s => do
    let (stable, s) ← interferenceIter o cx z3 rules main progInitState fuel threadSites noThreads s
    if stable then return s else interferenceLoop threadSites noThreads n s

end Loop

/-! ### The module -/

/-- The functions that `pthread_create` calls start. -/
def getThreads (M : Module) : Except Stop (Std.TreeSet FuncId) :=
  (M.instrs.filter Instruction.isPthreadCreate).foldlM
    (fun ret ci => return ret.insert (← getPThreadThreadFunc ci)) {}

/-- The `pthread_create` calls of all functions. -/
def Module.getThreadCreate (M : Module) : List Instruction :=
  M.functions.flatMap Function.getThreadCreate

/-- The initial values of the globals.  An initializer that is not an integer is only warned about. -/
def getInitState (M : Module) (initFact : LatticeFact ap) (v2v : NameMap) :
    Except Stop (LatticeFact ap) :=
  M.globals.foldlM
    (fun ret g =>
      match g.initializer with
      | none => .error (.abort "[ERROR] Global without initializer (possibly external)\n")
      | some (.constantInt ci) => do
        let gName ← mapAtUnsafe v2v g.id
        return ret.assignInt gName (← getConstantIntUnsafe ci)
      | some .other => .ok ret) initFact

/-- The pass on a module, after the rules of the solver are set up: the state when the outer loop
ends. -/
def runOnModule (o : BlockOrder) (cx : Ctx) (z3 : Solver) (rules : List Rule) (fuel : Nat) :
    Except LoopStop (RunState ap) := do
  let M := cx.module
  match M.main.bind M.func? with
  | none => throw (.stop (.abort "[ERROR] main function not found\n"))
  | some main =>
    let threads ← getThreads M
    let sites := M.getThreadCreate
    let noThreads := sites.isEmpty
    let threadFuncs : Std.TreeSet FuncId := if cx.opts.dynInitG then {main.id} else threads.insert main.id
    let threadSites : List Site := if cx.opts.dynInitG then [none] else sites.map some ++ [none]
    let progInitState ← getInitState M ⟨ap.top⟩ cx.v2n
    interferenceLoop o cx z3 rules main progInitState fuel threadSites noThreads fuel
      { threadFuncs := threadFuncs }

end Watts
