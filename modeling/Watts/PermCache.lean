import Watts.BoxSound
import Watts.Combinations
import Watts.ConstraintFacts

/-! The cache of `testCurPerm` over a whole run.  Its only key is the index vector, so a permutation is
skipped exactly when the first permutation of the run with the same vector violated the program
order. -/

namespace Watts

open Fallible (bind_eq_ok)

variable {ap : Apron}

/-- The arguments of one call of `testCurPerm`, and the results that it updates. -/
structure PermCall (ap : Apron) where
  function : Function
  createSite : Option Instruction
  perm : List Nat
  interfs : LoadStores
  stFacts : StoreFacts ap
  entryFact : LatticeFact ap
  books : Books ap
  res : Std.TreeMap BlockId (LatticeFact ap)

section Calls

variable (o : BlockOrder) (cx : Ctx) (z3 : Solver) (rules : List Rule) (fuel : Nat)

/-- One call with the given cache: whether the abstract interpreter was run, and the new cache. -/
def PermCall.test (call : PermCall ap) (permCache : PermCache) :
    Except LoopStop (Bool × PermCache) := do
  let (tested, s) ← testCurPerm o cx z3 rules call.function call.createSite call.perm call.interfs
    call.stFacts call.entryFact fuel ⟨call.books, call.res, permCache⟩
  return (tested, s.permCache)

/-- What `violatesProgOrder` answers for the maps that the call builds. -/
def PermCall.verdict (call : PermCall ap) : Except LoopStop Bool := do
  let c ← gatherChoices cx call.createSite call.perm call.interfs call.stFacts fuel
  return violatesProgOrder z3 rules c.curInterfStoreMap c.curSelfStoreMap

/-- A sequence of calls, each with the cache that the earlier ones leave behind. -/
def runPermCalls : List (PermCall ap) → PermCache → Except LoopStop (List Bool × PermCache)
  | [], permCache => .ok ([], permCache)
  | call :: calls, permCache => do
    let (tested, permCache) ← call.test o cx z3 rules fuel permCache
    let (rest, permCache) ← runPermCalls calls permCache
    return (tested :: rest, permCache)

end Calls

section Cache

variable {o : BlockOrder} {cx : Ctx} {z3 : Solver} {rules : List Rule} {fuel : Nat}

theorem PermCall.test_eq_ok {call : PermCall ap} {permCache permCache' : PermCache} {tested : Bool}
    (hc : cx.opts.useConstraintsG = true)
    (h : call.test o cx z3 rules fuel permCache = .ok (tested, permCache')) :
    ∃ violates, call.verdict cx z3 rules fuel = .ok violates ∧
      tested = !(permCache[call.perm]?.getD violates) ∧
      permCache' = match permCache[call.perm]? with
        | some _ => permCache
        | none => permCache.insert call.perm violates := by
  obtain ⟨⟨t, s⟩, ht, h⟩ := bind_eq_ok.mp h
  obtain ⟨rfl, rfl⟩ := Prod.mk.inj (Except.ok.inj h)
  obtain ⟨c, hgather, ht⟩ := bind_eq_ok.mp ht
  refine ⟨_, bind_eq_ok.mpr ⟨c, hgather, rfl⟩, ?_⟩
  generalize hv : violatesProgOrder z3 rules c.curInterfStoreMap c.curSelfStoreMap = violates
  have hskip : checkPermCache z3 rules cx.opts.useConstraintsG call.perm c permCache =
      (permCache[call.perm]?.getD violates,
        match permCache[call.perm]? with
        | some _ => permCache
        | none => permCache.insert call.perm violates) := by
    unfold checkPermCache
    rw [if_pos hc, hv]
    cases permCache[call.perm]? <;> rfl
  simp only [hskip] at ht
  split_ifs at ht with hb
  · cases ht
    exact ⟨by rw [hb]; rfl, rfl⟩
  · obtain ⟨r, _, ht⟩ := bind_eq_ok.mp ht
    cases ht
    rw [Bool.not_eq_true] at hb
    exact ⟨by rw [hb]; rfl, rfl⟩

/-- A call whose permutation is skipped. -/
theorem PermCall.test_skip {call : PermCall ap} {permCache permCache' : PermCache} {c : Choices ap}
    (hgather : gatherChoices cx call.createSite call.perm call.interfs call.stFacts fuel = .ok c)
    (hskip : checkPermCache z3 rules cx.opts.useConstraintsG call.perm c permCache =
      (true, permCache')) :
    call.test o cx z3 rules fuel permCache = .ok (false, permCache') := by
  refine bind_eq_ok.mpr ⟨(false, ⟨call.books, call.res, permCache'⟩), ?_, rfl⟩
  refine bind_eq_ok.mpr ⟨c, hgather, ?_⟩
  simp only [hskip]
  rfl

/-- A call whose permutation is tested. -/
theorem PermCall.test_run {call : PermCall ap} {permCache permCache' : PermCache} {c : Choices ap}
    (hgather : gatherChoices cx call.createSite call.perm call.interfs call.stFacts fuel = .ok c)
    (hrun : checkPermCache z3 rules cx.opts.useConstraintsG call.perm c permCache =
      (false, permCache'))
    (hok : (analyzeFunc o cx c.curInterfMap call.books call.entryFact call.function false
      fuel).isOk = true) :
    call.test o cx z3 rules fuel permCache = .ok (true, permCache') := by
  obtain ⟨r, hr⟩ := exists_ok hok
  refine bind_eq_ok.mpr ⟨(true, ⟨r.2, mergeFactMaps call.res r.1, permCache'⟩), ?_, rfl⟩
  refine bind_eq_ok.mpr ⟨c, hgather, ?_⟩
  simp only [hrun]
  exact bind_eq_ok.mpr ⟨r, hr, rfl⟩

theorem runPermCalls_cons {call : PermCall ap} {calls : List (PermCall ap)}
    {permCache permCache₁ permCache₂ : PermCache} {tested : Bool} {rest : List Bool}
    (h : call.test o cx z3 rules fuel permCache = .ok (tested, permCache₁))
    (hrest : runPermCalls o cx z3 rules fuel calls permCache₁ = .ok (rest, permCache₂)) :
    runPermCalls o cx z3 rules fuel (call :: calls) permCache = .ok (tested :: rest, permCache₂) :=
  bind_eq_ok.mpr ⟨_, h, bind_eq_ok.mpr ⟨_, hrest, rfl⟩⟩

/-- The verdict that decides about a call: the cached one, else that of the first call of the sequence
with the same index vector. -/
def decidingVerdict (cx : Ctx) (z3 : Solver) (rules : List Rule) (fuel : Nat)
    (calls : List (PermCall ap)) (permCache : PermCache) (perm : List Nat) : Option Bool :=
  match permCache[perm]? with
  | some violates => some violates
  | none =>
    match calls.find? fun call => call.perm = perm with
    | some call => (call.verdict cx z3 rules fuel).toOption
    | none => none

/-- The first call of a sequence decides as the cache that it leaves behind. -/
theorem decidingVerdict_cons {call : PermCall ap} {calls : List (PermCall ap)} {violates : Bool}
    {permCache : PermCache} (hv : call.verdict cx z3 rules fuel = .ok violates) (perm : List Nat) :
    decidingVerdict cx z3 rules fuel (call :: calls) permCache perm =
      decidingVerdict cx z3 rules fuel calls
        (match permCache[call.perm]? with
          | some _ => permCache
          | none => permCache.insert call.perm violates) perm := by
  unfold decidingVerdict
  by_cases hp : call.perm = perm
  · subst hp
    cases hcache : permCache[call.perm]? with
    | some b => simp only [hcache]
    | none => simp [hv, Except.toOption]
  · have hfind : (call :: calls).find? (fun c => c.perm = perm) =
        calls.find? fun c => c.perm = perm := List.find?_cons_of_neg (by simpa using hp)
    rw [hfind]
    cases hcache : permCache[call.perm]? with
    | some b => rfl
    | none =>
        simp only
        rw [Std.TreeMap.getElem?_insert, if_neg (by simpa using hp)]

/-- **A run of calls**: each call skips its permutation if and only if the deciding verdict is that
it violates the program order. -/
theorem runPermCalls_spec (hc : cx.opts.useConstraintsG = true) {calls : List (PermCall ap)}
    {permCache permCache' : PermCache} {tested : List Bool}
    (h : runPermCalls o cx z3 rules fuel calls permCache = .ok (tested, permCache')) {k : Nat}
    {call : PermCall ap} (hk : calls[k]? = some call) :
    ∃ violates, call.verdict cx z3 rules fuel = .ok violates ∧
      ∃ decides, decidingVerdict cx z3 rules fuel calls permCache call.perm = some decides ∧
        tested[k]? = some !decides := by
  induction calls generalizing permCache tested k with
  | nil => simp at hk
  | cons first calls ih =>
      obtain ⟨⟨t, permCache₁⟩, htest, h⟩ := bind_eq_ok.mp h
      obtain ⟨⟨rest, permCache₂⟩, hrest, h⟩ := bind_eq_ok.mp h
      obtain ⟨rfl, rfl⟩ := Prod.mk.inj (Except.ok.inj h)
      obtain ⟨violates, hv, rfl, hcache⟩ := PermCall.test_eq_ok hc htest
      cases k with
      | zero =>
          obtain rfl : first = call := by simpa using hk
          refine ⟨violates, hv, permCache[first.perm]?.getD violates, ?_, rfl⟩
          unfold decidingVerdict
          cases permCache[first.perm]? with
          | some b => rfl
          | none => simp [hv, Except.toOption]
      | succ k =>
          obtain ⟨violates', hv', decides, hd, ht⟩ := ih hrest (k := k) (by simpa using hk)
          refine ⟨violates', hv', decides, ?_, by simpa using ht⟩
          rw [decidingVerdict_cons hv, ← hcache]
          exact hd

/-- From the empty cache, the first call with an index vector decides about all calls with it. -/
theorem runPermCalls_first (hc : cx.opts.useConstraintsG = true) {calls : List (PermCall ap)}
    {permCache : PermCache} {tested : List Bool}
    (h : runPermCalls o cx z3 rules fuel calls {} = .ok (tested, permCache)) {k : Nat}
    {call : PermCall ap} (hk : calls[k]? = some call) :
    ∃ first, calls.find? (fun c => c.perm = call.perm) = some first ∧
      ∃ decides, first.verdict cx z3 rules fuel = .ok decides ∧ tested[k]? = some !decides := by
  obtain ⟨_, _, decides, hd, ht⟩ := runPermCalls_spec hc h hk
  unfold decidingVerdict at hd
  simp only [Std.TreeMap.getElem?_emptyc] at hd
  cases hf : calls.find? (fun c => c.perm = call.perm) with
  | none => simp [hf] at hd
  | some first =>
      simp only [hf] at hd
      refine ⟨first, rfl, decides, ?_, ht⟩
      cases hv : first.verdict cx z3 rules fuel with
      | error e => simp [hv, Except.toOption] at hd
      | ok b =>
          rw [hv] at hd
          exact congrArg _ (Option.some.inj hd)

/-- Calls with the same index vector have the same verdict. -/
def SameVerdicts (cx : Ctx) (z3 : Solver) (rules : List Rule) (fuel : Nat)
    (calls : List (PermCall ap)) : Prop :=
  ∀ call₁ ∈ calls, ∀ call₂ ∈ calls, call₁.perm = call₂.perm →
    call₁.verdict cx z3 rules fuel = call₂.verdict cx z3 rules fuel

/-- Every call of the sequence skips its permutation exactly when the maps built in that call violate
the program order. -/
def SkipsExactly (cx : Ctx) (z3 : Solver) (rules : List Rule) (fuel : Nat)
    (calls : List (PermCall ap)) (tested : List Bool) : Prop :=
  ∀ (k : Nat) (call : PermCall ap), calls[k]? = some call →
    (tested[k]? = some false ↔ call.verdict cx z3 rules fuel = .ok true)

/-- **Caching changes no verdict if and only if any two calls with the same index vector have the same
verdict.** -/
theorem testCurPerm_skips_iff (o : BlockOrder) (cx : Ctx) (z3 : Solver) (rules : List Rule)
    (fuel : Nat) (hc : cx.opts.useConstraintsG = true) (calls : List (PermCall ap))
    (tested : List Bool) (permCache : PermCache)
    (h : runPermCalls o cx z3 rules fuel calls {} = .ok (tested, permCache)) :
    SkipsExactly cx z3 rules fuel calls tested ↔ SameVerdicts cx z3 rules fuel calls := by
  constructor
  · intro hskips
    -- each call has the verdict of the first one with its index vector
    have hfirst : ∀ call ∈ calls, ∃ first,
        calls.find? (fun c => c.perm = call.perm) = some first ∧
          call.verdict cx z3 rules fuel = first.verdict cx z3 rules fuel := by
      intro call hmem
      obtain ⟨k, hk⟩ := List.mem_iff_getElem?.mp hmem
      obtain ⟨first, hf, decides, hv, ht⟩ := runPermCalls_first hc h hk
      obtain ⟨violates, hv', _⟩ := runPermCalls_spec hc h hk
      refine ⟨first, hf, ?_⟩
      have hiff := hskips k call hk
      rw [ht, hv'] at hiff
      rw [hv, hv']
      cases decides <;> cases violates <;> simp at hiff ⊢
    intro call₁ hmem₁ call₂ hmem₂ hperm
    obtain ⟨first₁, hf₁, hv₁⟩ := hfirst call₁ hmem₁
    obtain ⟨first₂, hf₂, hv₂⟩ := hfirst call₂ hmem₂
    rw [hperm, hf₂] at hf₁
    rw [hv₁, hv₂, Option.some.inj hf₁]
  · intro hsame k call hk
    obtain ⟨first, hf, decides, hv, ht⟩ := runPermCalls_first hc h hk
    have hperm : first.perm = call.perm := by simpa using List.find?_some hf
    rw [← hsame first (List.mem_of_find?_eq_some hf) call (List.mem_of_getElem? hk) hperm, hv, ht]
    cases decides <;> simp

end Cache

namespace SameIndices

/-- `x = 1`, before both threads are created. -/
def storeX : Instruction := ⟨4, .store (i32 1) 0, none, []⟩
def create1 : Instruction := ⟨5, .call (.pthreadCreate 11 (some 1) []), none, []⟩
def create2 : Instruction := ⟨6, .call (.pthreadCreate 12 (some 2) []), none, []⟩
/-- `y = 1`, after both threads are created. -/
def storeY : Instruction := ⟨7, .store (i32 1) 1, none, []⟩

def main : Function :=
  .ofBlocks 0 [.ofInstrs 100 [⟨11, .alloca, none, []⟩, ⟨12, .alloca, none, []⟩, storeX, create1, create2,
    storeY] ⟨8, .ret, none, []⟩]

/-- A thread that loads `x`. -/
def thread1 : Function :=
  .ofBlocks 1 [.ofInstrs 110 [⟨2, .load 0, some 32, []⟩] ⟨9, .ret, none, []⟩]

/-- A thread that loads `y`. -/
def thread2 : Function :=
  .ofBlocks 2 [.ofInstrs 120 [⟨3, .load 1, some 32, []⟩] ⟨10, .ret, none, []⟩]

def program : Module :=
  .ofFunctions [main, thread1, thread2] [⟨0, some (.constantInt ⟨32, 0⟩)⟩, ⟨1, some (.constantInt ⟨32, 0⟩)⟩] (some 0)

/-- Each function is a single block. -/
def trees : Trees :=
  ⟨fun _ _ => [], fun _ b => [b]⟩

def rules : List Rule :=
  (addConstraints trees program [0, 1, 2] 50).toOption.getD []

def cx : Ctx :=
  .ofModule program 4 { useConstraintsG := true, dynInitG := true }

/-- The facts after the stores of `main`. -/
def reachStores : ReachStores boxes :=
  let mainStores : StoreFacts boxes := .insert ∅ 4 ⟨some [.const 1, .const 0]⟩
  .insert ∅ 0 (mainStores.insert 7 ⟨some [.const 1, .const 1]⟩)

def call (F : Function) (createSite : Instruction) (perm : List Nat) : PermCall boxes where
  function := F
  createSite := some createSite
  perm := perm
  interfs := (getInterferingStores program F reachStores).toOption.getD {}
  stFacts := (flattenReachStores reachStores).toOption.getD {}
  entryFact := ⟨some [.const 1, .const 0]⟩
  books := {}
  res := {}

/-- The calls of the second interference iteration. -/
def calls : List (PermCall boxes) :=
  [call thread1 create1 [0], call thread1 create1 [1], call thread2 create2 [0],
    call thread2 create2 [1]]

theorem addConstraints_eq : addConstraints trees program [0, 1, 2] 50 = .ok rules := by
  rfl

/-- Reading `x = 1` from the store before the creation is excluded. -/
theorem violates_thread1 {z3 : Solver} (hz : z3.LeastModel) :
    violatesProgOrder z3 rules (.insert ∅ 2 4) ∅ = true := by
  have hmem : Horn.Rule.fact Rel.notRf [2, 4] ∈
      rules ++ readsFromFacts (.insert ∅ 2 4) ++ readsFromFacts ∅ := by decide
  rw [violatesProgOrder_insert]
  exact decide_eq_true ((hz _ _).mpr (Horn.Derives.fact (fun _ => 0) hmem))

/-- Reading `y = 1` from the store after the creation is not. -/
theorem not_violates_thread2 {z3 : Solver} (hz : z3.LeastModel) :
    violatesProgOrder z3 rules (.insert ∅ 3 7) ∅ = false := by
  -- `main` stores `y` between the creation and the load
  have hkeeps : ∀ r ∈ rules ++ readsFromFacts (.insert ∅ 3 7) ++ readsFromFacts ∅,
      KeepsOrder [11, 4, 5, 2, 9, 6, 7, 3, 10, 8].idxOf 3 7 1 [2, 3] r := by decide
  rw [violatesProgOrder_insert]
  refine decide_eq_false fun hquery => ?_
  exact not_derives_of_keepsOrder (by decide) (by decide) hkeeps ((hz _ _).mp hquery)

theorem verdict_thread2 {z3 : Solver} (hz : z3.LeastModel) :
    (call thread2 create2 [1]).verdict cx z3 rules 50 = .ok false :=
  congrArg Except.ok (not_violates_thread2 hz)

/-- The calls of the run all return, and only the first permutation of each thread is tested. -/
theorem runs {z3 : Solver} (hz : z3.LeastModel) :
    runPermCalls .increasing cx z3 rules 50 calls {} =
      .ok ([true, false, true, false], .insert (.insert ∅ [0] false) [1] true) := by
  have hviolates : checkPermCache z3 rules cx.opts.useConstraintsG [1]
      (⟨.insert ∅ 2 ⟨some [.const 1, .const 0]⟩, .insert ∅ 2 4, ∅⟩ : Choices boxes)
      (.insert ∅ [0] false) = (true, .insert (.insert ∅ [0] false) [1] true) := by
    show (violatesProgOrder z3 rules (.insert ∅ 2 4) ∅, Std.TreeMap.insert _ [1]
      (violatesProgOrder z3 rules (.insert ∅ 2 4) ∅)) = _
    rw [violates_thread1 hz]
  refine runPermCalls_cons (PermCall.test_run (c := ⟨∅, ∅, .insert ∅ 2 4⟩) rfl rfl
    (by decide)) ?_
  refine runPermCalls_cons (PermCall.test_skip rfl hviolates) ?_
  refine runPermCalls_cons (PermCall.test_run (c := ⟨∅, ∅, ∅⟩) rfl rfl (by decide)) ?_
  exact runPermCalls_cons (PermCall.test_skip
    (c := ⟨.insert ∅ 3 ⟨some [.const 1, .const 1]⟩, .insert ∅ 3 7, ∅⟩) rfl rfl) rfl

/-- **The second thread's permutation is skipped on the verdict of the first's**, although its load
can read from the store. -/
theorem skips_wrongly : Solver.least.LeastModel ∧
    addConstraints trees program [0, 1, 2] 50 = .ok rules ∧
    ∃ tested permCache, runPermCalls .increasing cx Solver.least rules 50 calls {} =
        .ok (tested, permCache) ∧
      ¬ SkipsExactly cx Solver.least rules 50 calls tested := by
  refine ⟨Solver.least_leastModel, addConstraints_eq, _, _, runs Solver.least_leastModel,
    fun hskips => ?_⟩
  have hverdict := (hskips 3 (call thread2 create2 [1]) rfl).mp rfl
  rw [verdict_thread2 Solver.least_leastModel] at hverdict
  cases hverdict

theorem testCurPerm_skips_iff_run :
    SkipsExactly cx Solver.least rules 50 calls [true, false, true, false] ↔
      SameVerdicts cx Solver.least rules 50 calls :=
  testCurPerm_skips_iff .increasing cx Solver.least rules 50 rfl calls _ _
    (runs Solver.least_leastModel)

end SameIndices

end Watts
