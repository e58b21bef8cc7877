import Watts.Interferences
import Watts.ReachingStores
import Watts.Library.Odometer

/-! The combinational exploration: one thread is analysed once for each choice of a source for each
load, unless the solver finds that the choice violates the program order. -/

namespace Watts

/-- The class `CartesianProduct`: the current tuple of choices, how many tuples were passed, how many
there are, and the sizes of the rows. -/
structure CartesianProduct where
  permutation : List Nat
  numPermutationsProcessed : Nat
  numMaxPermutations : Nat
  sizesOfRows : List Nat
deriving DecidableEq, Repr

namespace CartesianProduct

/-- A product that has to fit an `int`. -/
def intMul (a b : Nat) : Except Stop Nat :=
  if a * b < 2 ^ 31 then .ok (a * b) else .error (.undefinedBehaviour "overflow of int")

/-- The constructor. -/
def new (sizes : List Nat) : Except Stop CartesianProduct := do
  if sizes.isEmpty then
    throw (.abort "num_rows_ != 0")
  let max ← sizes.foldlM
    (fun max size => if size = 0 then throw (.abort "size zero row") else intMul max size) 1
  return ⟨sizes.map fun _ => 0, 1, max, sizes⟩

def atEnd (cp : CartesianProduct) : Bool :=
  cp.numPermutationsProcessed > cp.numMaxPermutations

/-- Count up, from the first row. -/
def incrementAndTest : List Nat → List Nat → Except Stop (List Nat)
  | size :: sizes, p :: perm =>
    let maxIndexOfRow := size - 1
    if p + 1 > maxIndexOfRow then do
      return 0 :: (← incrementAndTest sizes perm)
    else
      return (p + 1) :: perm
  | _, _ => .error (.undefinedBehaviour "row out of bounds")

def increment (cp : CartesianProduct) : Except Stop CartesianProduct :=
  if cp.numPermutationsProcessed + 1 < 2 ^ 31 then
    let cp := { cp with numPermutationsProcessed := cp.numPermutationsProcessed + 1 }
    if cp.atEnd then .ok cp
    else do return { cp with permutation := ← incrementAndTest cp.sizesOfRows cp.permutation }
  else
    .error (.undefinedBehaviour "overflow of int")

end CartesianProduct

/-- A choice of one store for some loads. -/
abbrev StoreMap := Std.TreeMap Value Value

/-- The `rf` facts of a choice. -/
def readsFromFacts (m : StoreMap) : List Rule :=
  m.toList.map fun p => addReadsFromFact p.1 p.2

/-- Whether the loads cannot all read from their stores: the solver derives for some of `interfs` that
it does not.  The pairs of `rfs` are assumed but not checked.  The keys are loads, so the assertion of
`queryNotReads` holds. -/
def violatesProgOrder (z3 : Solver) (rules : List Rule) (interfs rfs : StoreMap) : Bool :=
  if interfs.size = 0 then
    false
  else
    let rules := rules ++ readsFromFacts interfs ++ readsFromFacts rfs
    interfs.toList.any fun p => queryNotReads z3 rules p.1 p.2 == .lTrue

theorem violatesProgOrder_insert (z3 : Solver) (rules : List Rule) (l s : Value) (rfs : StoreMap) :
    violatesProgOrder z3 rules (.insert ∅ l s) rfs =
      decide (queryNotReads z3 (rules ++ readsFromFacts (.insert ∅ l s) ++ readsFromFacts rfs) l s =
        .lTrue) := by
  have hlist : (Std.TreeMap.insert (∅ : StoreMap) l s).toList = [(l, s)] := rfl
  unfold violatesProgOrder
  rw [if_neg (show (Std.TreeMap.insert (∅ : StoreMap) l s).size ≠ 0 from Nat.one_ne_zero), hlist]
  simp only [List.any_cons, List.any_nil, Bool.or_false]
  rfl

variable {ap : Apron}

/-- What one permutation chooses: the facts and the stores that the loads read from, and the stores of
the loads that read the own thread's value. -/
structure Choices (ap : Apron) where
  curInterfMap : InterfMap ap := {}
  curInterfStoreMap : StoreMap := {}
  curSelfStoreMap : StoreMap := {}

/-- The choice for one load: `0` for the own thread, else the position of a store, from one. -/
def addChoice (cx : Ctx) (createSite : Option Instruction) (stFacts : StoreFacts ap) (fuel : Nat)
    (c : Choices ap) (p : (Value × List Value) × Nat) : Except LoopStop (Choices ap) :=
  let ((l, sts), curChoice) := p
  match curChoice with
  | 0 =>
    match cx.module.instr? l with
    | none => .error (.stop (.undefinedBehaviour "load outside the module"))
    | some li => do
      match ← getPreviousStoresWithCreate cx.module li createSite fuel with
      | [s] => return { c with curSelfStoreMap := c.curSelfStoreMap.insert l s.id }
      | _ => return c
  | idx + 1 =>
    match sts[idx]? with
    | none => .error (.stop (.abort "out-of-bounds choice"))
    | some st =>
      match stFacts[st]? with
      | none => .error (.stop (.abort "fact not found for store"))
      | some f =>
        .ok { c with
          curInterfMap := c.curInterfMap.insert l f
          curInterfStoreMap :=
            if cx.opts.useConstraintsG then c.curInterfStoreMap.insert l st
            else c.curInterfStoreMap }

/-- The choices of a permutation for all loads. -/
def gatherChoices (cx : Ctx) (createSite : Option Instruction) (perm : List Nat)
    (interfs : LoadStores) (stFacts : StoreFacts ap) (fuel : Nat) :
    Except LoopStop (Choices ap) :=
  if perm.length ≠ interfs.size then
    .error (.stop (.abort "choice number mismatch"))
  else
    (interfs.toList.zip perm).foldlM (addChoice cx createSite stFacts fuel) {}

/-- The static cache of `testCurPerm`: from the permutation vector to whether it violates the program
order. -/
abbrev PermCache := Std.TreeMap (List Nat) Bool

/-- Whether a permutation is to be skipped, with the cache afterwards. -/
def checkPermCache (z3 : Solver) (rules : List Rule) (useConstraintsG : Bool) (perm : List Nat)
    (c : Choices ap) (permCache : PermCache) : Bool × PermCache :=
  if useConstraintsG then
    match permCache[perm]? with
    | some violates => (violates, permCache)
    | none =>
      let violates := violatesProgOrder z3 rules c.curInterfStoreMap c.curSelfStoreMap
      (violates, permCache.insert perm violates)
  else
    (false, permCache)

/-- What the permutations of one thread update. -/
structure PermState (ap : Apron) where
  books : Books ap
  res : Std.TreeMap BlockId (LatticeFact ap) := {}
  permCache : PermCache := {}

/-- Test one permutation.  The result tells whether the abstract interpreter was run. -/
def testCurPerm (o : BlockOrder) (cx : Ctx) (z3 : Solver) (rules : List Rule) (F : Function)
    (createSite : Option Instruction) (perm : List Nat) (interfs : LoadStores)
    (stFacts : StoreFacts ap) (entryFact : LatticeFact ap) (fuel : Nat) (s : PermState ap) :
    Except LoopStop (Bool × PermState ap) := do
  let c ← gatherChoices cx createSite perm interfs stFacts fuel
  let (skip, permCache) := checkPermCache z3 rules cx.opts.useConstraintsG perm c s.permCache
  if skip then
    return (false, { s with permCache := permCache })
  else
    let (newRes, books) ← analyzeFunc o cx c.curInterfMap s.books entryFact F false fuel
    return (true, ⟨books, mergeFactMaps s.res newRes, permCache⟩)

/-- `for (; !cp.AtEnd(); cp.Increment())`; the count of tested permutations is output only. -/
def permLoop (o : BlockOrder) (cx : Ctx) (z3 : Solver) (rules : List Rule) (F : Function)
    (createSite : Option Instruction) (interfs : LoadStores) (stFacts : StoreFacts ap)
    (entryFact : LatticeFact ap) (fuel : Nat) :
    Nat → CartesianProduct → PermState ap → Except LoopStop (PermState ap)
  | n, cp, s =>
    if cp.atEnd then
      .ok s
    else
      match n with
      | 0 => .error .outOfFuel
      | n + 1 => do
        let (_, s) ← testCurPerm o cx z3 rules F createSite cp.permutation interfs stFacts entryFact
          fuel s
        let cp ← cp.increment
        permLoop o cx z3 rules F createSite interfs stFacts entryFact fuel n cp s

/-- Reanalyse a thread in the presence of its interferences. -/
def analyzeThreadInterf (o : BlockOrder) (cx : Ctx) (z3 : Solver) (rules : List Rule) (F : Function)
    (createSite : Option Instruction) (interfs : LoadStores) (stFacts : StoreFacts ap)
    (books : Books ap) (permCache : PermCache) (entryFact : LatticeFact ap) (fuel : Nat) :
    Except LoopStop (PermState ap) :=
  if interfs.size = 0 then do
    let (res, books) ← analyzeFunc o cx {} books entryFact F false fuel
    return ⟨books, res, permCache⟩
  else if cx.opts.noCombinsG then do
    let allInterfs ← joinInterfs interfs stFacts
    let (res, books) ← analyzeFunc o cx allInterfs books entryFact F true fuel
    return ⟨books, res, permCache⟩
  else do
    let cp ← CartesianProduct.new (interfs.toList.map fun p => p.2.length + 1)
    permLoop o cx z3 rules F createSite interfs stFacts entryFact fuel fuel cp
      ⟨books, {}, permCache⟩

end Watts
