import Watts.BBOps
import Watts.Library.Worklist

/-! `analyzeFunc`: the worklist loop over the basic blocks of one function.  The worklist is a
`std::map` keyed by block address, so the block with the least address is taken first; the order of
the addresses is a parameter.  The loop of the model takes fuel.  The last part relates each
iteration to a step of the general worklist iteration. -/

namespace Watts

/-- The addresses at which the basic blocks happen to be allocated. -/
structure BlockOrder where
  addr : BlockId → Nat
  addr_injective : Function.Injective addr

namespace BlockOrder

/-- The order of a `std::map` keyed by `BasicBlock *`. -/
def cmp (o : BlockOrder) (a b : BlockId) : Ordering :=
  compare (o.addr a) (o.addr b)

instance (o : BlockOrder) : Std.TransCmp o.cmp :=
  inferInstanceAs (Std.TransCmp (compareOn o.addr))

instance (o : BlockOrder) : Std.LawfulEqCmp o.cmp where
  compare_self := Nat.compare_eq_eq.mpr rfl
  eq_of_compare h := o.addr_injective (Nat.compare_eq_eq.mp h)

@[simp] theorem cmp_eq_iff (o : BlockOrder) {a b : BlockId} : o.cmp a b = .eq ↔ a = b :=
  Std.LawfulEqCmp.compare_eq_iff_eq

/-- Blocks allocated in the order of their numbers. -/
def increasing : BlockOrder :=
  ⟨id, Function.injective_id⟩

end BlockOrder

abbrev WorklistT (o : BlockOrder) (ap : Apron) :=
  Std.TreeMap BlockId (LatticeFact ap) o.cmp

section Model

variable {ap : Apron}

/-- Every block of the function mapped to the same fact. -/
def initBBs (init : LatticeFact ap) (F : Function) : Std.TreeMap BlockId (LatticeFact ap) :=
  F.blocks.foldl (fun ret bb => ret.insert bb.id init) {}

/-- Merge one new fact into the worklist, joining it with a fact that is already there. -/
def mergePair {o : BlockOrder} (wl : WorklistT o ap) (p : BlockId × LatticeFact ap) :
    WorklistT o ap :=
  match wl[p.1]? with
  | none => wl.insert p.1 p.2
  | some f => (wl.erase p.1).insert p.1 (f.factJoin p.2)

def mergeWorklist {o : BlockOrder} (wl : WorklistT o ap) (ps : List (BlockId × LatticeFact ap)) :
    WorklistT o ap :=
  ps.foldl mergePair wl

/-- The variables of the worklist loop. -/
structure LoopState (o : BlockOrder) (ap : Apron) where
  worklist : WorklistT o ap
  analState : Std.TreeMap BlockId (LatticeFact ap)
  books : Books ap

/-- One iteration, for the fact taken from the front of the worklist. -/
def analyzeIter {o : BlockOrder} (cx : Ctx) (interf : InterfMap ap) (F : Function)
    (cur : BlockId × LatticeFact ap) (s : LoopState o ap) : Except Stop (LoopState o ap) :=
  let worklist := s.worklist.erase cur.1
  match s.analState[cur.1]?, F.block? cur.1 with
  | some oldFact, some B =>
    if cur.2.leq oldFact then
      .ok { s with worklist := worklist }
    else do
      let (outs, books) ← BBOps.runTransferFuncs cx interf cx.opts.noCombinsG B cur.2 s.books
      return { worklist := mergeWorklist worklist outs
               analState := (s.analState.erase cur.1).insert cur.1 cur.2
               books := books }
  | _, _ => .error (.abort "[ERROR] item not found in analysis state")

/-- `while (worklist.size())` -/
def analyzeLoop {o : BlockOrder} (cx : Ctx) (interf : InterfMap ap) (F : Function) :
    Nat → LoopState o ap → Except LoopStop (LoopState o ap)
  | fuel, s =>
    match s.worklist.toList with
    | [] => .ok s
    | cur :: _ =>
      match fuel with
      | 0 => .error .outOfFuel
      | fuel + 1 =>
        match analyzeIter cx interf F cur s with
        | .error e => .error (.stop e)
        | .ok s' => analyzeLoop cx interf F fuel s'

/-- The state before the loop: the entry fact waits at the first block, every block holds bottom. -/
def initLoop (o : BlockOrder) (F : Function) (first : BasicBlock) (entryFact : LatticeFact ap)
    (books : Books ap) : LoopState o ap :=
  { worklist := (∅ : WorklistT o ap).insert first.id entryFact
    analState := initBBs ⟨ap.bottom⟩ F
    books := books }

/-- Analyze a function.  The argument `mergeInterfs` is not used: the mode of the transfer functions
is the flag `noCombinsG`. -/
def analyzeFunc (o : BlockOrder) (cx : Ctx) (interf : InterfMap ap) (books : Books ap)
    (entryFact : LatticeFact ap) (F : Function) (_mergeInterfs : Bool) (fuel : Nat) :
    Except LoopStop (Std.TreeMap BlockId (LatticeFact ap) × Books ap) :=
  match F.blocks with
  | [] => .error (.stop (.abort "[ERROR] function has no body"))
  | first :: _ => do
    let s ← analyzeLoop cx interf F fuel (initLoop o F first entryFact books)
    return (s.analState, s.books)

end Model

end Watts
