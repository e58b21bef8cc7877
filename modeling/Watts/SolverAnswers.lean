import Watts.EmptyInterferences

/-! What the pass does with the answers of the solver: it only asks which queries are true, and a cached
answer counts as the answer.  Two solvers, with their rules, that find the same queries true, whatever
facts are added, lead the pass through the same run, and so does one solver with any cache of its
answers. -/

namespace Watts

open Fallible (Agree bind_eq_ok)

/-- Two solvers with their rules find the same queries true, whatever facts are added to the rules. -/
def SameTrue (z3 z3' : Solver) (rules rules' : List Rule) : Prop :=
  ∀ facts a, z3 (rules ++ facts) a = .lTrue ↔ z3' (rules' ++ facts) a = .lTrue

/-- Whether a cached answer is true. -/
def MHBCache.true? (cache : MHBCache) (q : Value × Value) : Option Bool :=
  (cache q).map (· == .lTrue)

theorem MHBCache.true?_update (cache : MHBCache) (q : Value × Value) (r : Z3Bool) :
    MHBCache.true? (Function.update cache q (some r)) = Function.update cache.true? q (some (r == .lTrue)) := by
  funext q'
  unfold MHBCache.true?
  by_cases hq : q' = q
  · rw [hq, Function.update_self, Function.update_self]
    rfl
  · rw [Function.update_of_ne hq, Function.update_of_ne hq]

/-- Two caches hold answers to the same queries, and the same of these are true. -/
def SameCache (cache cache' : MHBCache) : Prop :=
  cache.true? = cache'.true?

variable {ap : Apron}

/-- Two solvers with their rules lead to the same decisions, as long as the caches of the filter are
related. -/
structure Alike (C : MHBCache → MHBCache → Prop) (z3 z3' : Solver) (rules rules' : List Rule) : Prop where
  order : ∀ interfs rfs, violatesProgOrder z3 rules interfs rfs = violatesProgOrder z3' rules' interfs rfs
  filter : ∀ {cache cache' : MHBCache}, C cache cache' → ∀ interfs,
    (filterMHBInterfs z3 rules cache interfs).1 = (filterMHBInterfs z3' rules' cache' interfs).1 ∧
      C (filterMHBInterfs z3 rules cache interfs).2 (filterMHBInterfs z3' rules' cache' interfs).2

/-- Two states differ in related caches of the filter only. -/
def SameRun (C : MHBCache → MHBCache → Prop) (s t : RunState ap) : Prop :=
  ∃ cache, C s.mhbCache cache ∧ t = { s with mhbCache := cache }

section

variable {C : MHBCache → MHBCache → Prop}

/-- Two states and the threads that are found in them. -/
def SameReached (C : MHBCache → MHBCache → Prop) (r r' : RunState ap × List Site) : Prop :=
  SameRun C r.1 r'.1 ∧ r.2 = r'.2

/-- What happens to a state apart from its cache. -/
theorem discoverThreads_agree {cx : Ctx} (reach : Std.TreeMap Value (LatticeFact ap)) {s t : RunState ap}
    (h : SameRun C s t) : Agree (SameReached C) (discoverThreads cx reach s) (discoverThreads cx reach t) := by
  unfold discoverThreads
  split_ifs
  · refine Agree.foldlM (fun p _ r r' hr => ?_) (show SameReached C (s, []) (t, []) from ⟨h, rfl⟩)
    obtain ⟨⟨cache, hc, hs⟩, hreached⟩ := hr
    unfold discoverThread
    cases cx.module.instr? p.1 with
    | none => exact .error _
    | some curCall =>
        refine Agree.bind_left fun thrdFunc => .ok ⟨⟨cache, hc, ?_⟩, ?_⟩
        · rw [hs]
        · rw [hreached]
  · exact .ok ⟨h, rfl⟩

theorem liftStop_agree {α β : Type} {R : α → β → Prop} {x : Except Stop α} {y : Except Stop β}
    (h : Agree R x y) : Agree R (liftStop x) (liftStop y) := by
  cases h with
  | ok h => exact .ok h
  | error e => exact .error _

theorem nextIteration_agree {cx : Ctx} {s t : RunState ap} (h : SameRun C s t) :
    Agree (SameRun C) (nextIteration cx s) (nextIteration cx t) := by
  obtain ⟨cache, hc, rfl⟩ := h
  unfold nextIteration
  refine Agree.bind (R := SameRun C) (Agree.foldlM (fun f _ s t hs => ?_) ⟨cache, hc, rfl⟩) ?_
  · obtain ⟨cache, hc, rfl⟩ := hs
    unfold updateInterfs
    cases cx.module.func? f with
    | none => exact .error _
    | some F => exact Agree.bind_left fun _ => Agree.bind_left fun _ => .ok ⟨cache, hc, rfl⟩
  · rintro s t ⟨cache, hc, rfl⟩
    exact .ok ⟨cache, hc, rfl⟩

section

variable {z3 z3' : Solver} {rules rules' : List Rule} (h : Alike C z3 z3' rules rules')
include h

/-- **The permutations** that are skipped are the same. -/
theorem Alike.checkPermCache (useConstraintsG : Bool) (perm : List Nat) (c : Choices ap)
    (permCache : PermCache) :
    Watts.checkPermCache z3 rules useConstraintsG perm c permCache =
      Watts.checkPermCache z3' rules' useConstraintsG perm c permCache := by
  unfold Watts.checkPermCache
  rw [h.order]

variable {o : BlockOrder} {cx : Ctx} {F : Function} {createSite : Option Instruction}
  {interfs : LoadStores} {stFacts : StoreFacts ap} {entryFact : LatticeFact ap} {fuel : Nat}

theorem Alike.permLoop (n : Nat) (cp : CartesianProduct) (s : PermState ap) :
    Watts.permLoop o cx z3 rules F createSite interfs stFacts entryFact fuel n cp s =
      Watts.permLoop o cx z3' rules' F createSite interfs stFacts entryFact fuel n cp s := by
  have htest : ∀ perm s,
      testCurPerm o cx z3 rules F createSite perm interfs stFacts entryFact fuel s =
        testCurPerm o cx z3' rules' F createSite perm interfs stFacts entryFact fuel s := by
    intro perm s
    unfold testCurPerm
    simp only [h.checkPermCache]
  induction n generalizing cp s with
  | zero => rfl
  | succ n ih =>
      unfold Watts.permLoop
      simp only [htest, ih]

theorem Alike.analyzeThreadInterf (books : Books ap) (permCache : PermCache) :
    Watts.analyzeThreadInterf o cx z3 rules F createSite interfs stFacts books permCache entryFact fuel =
      Watts.analyzeThreadInterf o cx z3' rules' F createSite interfs stFacts books permCache entryFact fuel := by
  unfold Watts.analyzeThreadInterf
  simp only [h.permLoop]

theorem Alike.curFInterf {s : RunState ap} {cache : MHBCache} (hc : C s.mhbCache cache)
    (f : FuncId) :
    (Watts.curFInterf cx z3 rules s f).1 =
        (Watts.curFInterf cx z3' rules' { s with mhbCache := cache } f).1 ∧
      C (Watts.curFInterf cx z3 rules s f).2
        (Watts.curFInterf cx z3' rules' { s with mhbCache := cache } f).2 := by
  unfold Watts.curFInterf
  dsimp only
  split_ifs
  · exact h.filter hc _
  · exact ⟨rfl, hc⟩

variable {main : Function} {progInitState : LatticeFact ap}

/-- **One thread.** -/
theorem Alike.processThread {s t : RunState ap} (hs : SameRun C s t) (ci : Site) :
    Agree (SameReached C) (Watts.processThread o cx z3 rules main progInitState fuel s ci)
      (Watts.processThread o cx z3' rules' main progInitState fuel t ci) := by
  obtain ⟨cache, hc, rfl⟩ := hs
  refine Agree.bind_left fun f => Agree.bind_left fun entryFact => ?_
  have hcur : (Watts.curFInterf cx z3 rules s f.id).1 =
      (Watts.curFInterf cx z3' rules' { s with mhbCache := cache } f.id).1 ∧ _ := h.curFInterf hc f.id
  generalize Watts.curFInterf cx z3 rules s f.id = p at hcur
  generalize Watts.curFInterf cx z3' rules' { s with mhbCache := cache } f.id = q at hcur
  cases p with
  | mk interf mhbCache =>
      cases q with
      | mk interf' mhbCache' =>
          obtain ⟨hinterf, hcache⟩ := hcur
          cases hinterf
          refine Agree.bind_left fun storeToInterf => ?_
          rw [h.analyzeThreadInterf]
          exact Agree.bind_left fun r =>
            liftStop_agree (discoverThreads_agree _ (s := s.analyzed f.id mhbCache r) ⟨mhbCache', hcache, rfl⟩)

theorem Alike.threadsLoop (n : Nat) (threads : List Site) {s t : RunState ap} (hs : SameRun C s t) :
    Agree (SameRun C) (Watts.threadsLoop o cx z3 rules main progInitState fuel n threads s)
      (Watts.threadsLoop o cx z3' rules' main progInitState fuel n threads t) := by
  induction n generalizing threads s t with
  | zero =>
      cases threads with
      | nil => exact .ok hs
      | cons ci threads => exact .error _
  | succ n ih =>
      cases threads with
      | nil => exact .ok hs
      | cons ci threads =>
          refine (h.processThread hs ci).bind ?_
          rintro r r' ⟨hr, hreached⟩
          cases r with
          | mk s reached =>
              cases r' with
              | mk t reached' =>
                  cases hreached
                  exact ih _ hr

theorem Alike.interferenceIter (threadSites : List Site) (noThreads : Bool) {s t : RunState ap}
    (hs : SameRun C s t) :
    Agree (fun r r' => r.1 = r'.1 ∧ SameRun C r.2 r'.2)
      (Watts.interferenceIter o cx z3 rules main progInitState fuel threadSites noThreads s)
      (Watts.interferenceIter o cx z3' rules' main progInitState fuel threadSites noThreads t) := by
  have hstart : SameRun C { s with newReachStores := s.allReachStores }
      { t with newReachStores := t.allReachStores } := by
    obtain ⟨cache, hc, rfl⟩ := hs
    exact ⟨cache, hc, rfl⟩
  refine (h.threadsLoop fuel threadSites hstart).bind ?_
  rintro s t ⟨cache, hc, rfl⟩
  split_ifs
  · exact .ok ⟨rfl, cache, hc, rfl⟩
  · refine Agree.bind_left fun stable => ?_
    split_ifs
    · exact .ok ⟨rfl, cache, hc, rfl⟩
    · refine (liftStop_agree (nextIteration_agree ⟨cache, hc, rfl⟩)).bind ?_
      rintro s t ⟨cache, hc, rfl⟩
      exact .ok ⟨rfl, cache, hc, rfl⟩

theorem Alike.interferenceLoop (threadSites : List Site) (noThreads : Bool) (n : Nat)
    {s t : RunState ap} (hs : SameRun C s t) :
    Agree (SameRun C) (Watts.interferenceLoop o cx z3 rules main progInitState fuel threadSites noThreads n s)
      (Watts.interferenceLoop o cx z3' rules' main progInitState fuel threadSites noThreads n t) := by
  induction n generalizing s t with
  | zero => exact .error _
  | succ n ih =>
      refine (h.interferenceIter threadSites noThreads hs).bind ?_
      rintro r r' ⟨hstable, hr⟩
      cases r with
      | mk stable s =>
          cases r' with
          | mk stable' t =>
              cases hstable
              dsimp only
              split_ifs
              · exact .ok hr
              · exact ih hr

end

/-- The pass, when the caches of the filter stay related from the beginning. -/
theorem Alike.runOnModule {o : BlockOrder} {cx : Ctx} {z3 z3' : Solver} {rules rules' : List Rule}
    (h : Alike C z3 z3' rules rules') (hC : C (fun _ => none) fun _ => none) (fuel : Nat) :
    Agree (SameRun C) (Watts.runOnModule o cx z3 rules fuel : Except LoopStop (RunState ap))
      (Watts.runOnModule o cx z3' rules' fuel) := by
  unfold Watts.runOnModule
  dsimp only
  cases cx.module.main.bind cx.module.func? with
  | none => exact .error _
  | some main =>
      exact Agree.bind_left fun threads => Agree.bind_left fun progInitState =>
        h.interferenceLoop _ _ _ ⟨_, hC, rfl⟩

end

/-! ### The same true queries -/

section

variable {z3 z3' : Solver} {rules rules' : List Rule} (h : SameTrue z3 z3' rules rules')
include h

theorem SameTrue.violatesProgOrder (interfs rfs : StoreMap) :
    Watts.violatesProgOrder z3 rules interfs rfs = Watts.violatesProgOrder z3' rules' interfs rfs := by
  unfold Watts.violatesProgOrder
  split_ifs with hsize
  · rfl
  · dsimp only
    refine congrArg (interfs.toList.any ·) (funext fun p => ?_)
    rw [Bool.eq_iff_iff, beq_iff_eq, beq_iff_eq, List.append_assoc, List.append_assoc]
    exact h _ _

theorem SameTrue.queryMHB (l st : Value) :
    (Watts.queryMHB z3 rules l st == .lTrue) = (Watts.queryMHB z3' rules' l st == .lTrue) := by
  rw [Bool.eq_iff_iff, beq_iff_eq, beq_iff_eq]
  unfold Watts.queryMHB
  have hquery := h [] ⟨.mhb, [l, st]⟩
  rwa [List.append_nil, List.append_nil] at hquery

theorem SameTrue.cachedMHB {cache cache' : MHBCache} (hc : SameCache cache cache') (l st : Value) :
    (((Watts.cachedMHB z3 rules cache l st).1 == .lTrue) =
        ((Watts.cachedMHB z3' rules' cache' l st).1 == .lTrue)) ∧
      SameCache (Watts.cachedMHB z3 rules cache l st).2 (Watts.cachedMHB z3' rules' cache' l st).2 := by
  have hq : (cache (l, st)).map (· == Z3Bool.lTrue) = (cache' (l, st)).map (· == Z3Bool.lTrue) :=
    congrFun hc (l, st)
  unfold Watts.cachedMHB
  cases hl : cache (l, st) with
  | none =>
      cases hr : cache' (l, st) with
      | none =>
          refine ⟨h.queryMHB l st, ?_⟩
          unfold SameCache
          dsimp only
          rw [MHBCache.true?_update, MHBCache.true?_update, hc, h.queryMHB l st]
      | some r =>
          rw [hl, hr] at hq
          cases hq
  | some r =>
      cases hr : cache' (l, st) with
      | none =>
          rw [hl, hr] at hq
          cases hq
      | some r' =>
          rw [hl, hr] at hq
          exact ⟨Option.some.inj hq, hc⟩

theorem SameTrue.filterStores {cache cache' : MHBCache} (hc : SameCache cache cache') (l : Value)
    (stores : List Value) :
    (Watts.filterStores z3 rules l stores cache).1 = (Watts.filterStores z3' rules' l stores cache').1 ∧
      SameCache (Watts.filterStores z3 rules l stores cache).2
        (Watts.filterStores z3' rules' l stores cache').2 := by
  have hkeep : ∀ r : Z3Bool, (r = .lFalse ∨ r = .lUndef) ↔ ¬ (r == .lTrue) = true := by
    intro r
    cases r <;> decide
  induction stores generalizing cache cache' with
  | nil => exact ⟨rfl, hc⟩
  | cons st stores ih =>
      obtain ⟨hanswer, hcached⟩ := h.cachedMHB hc l st
      obtain ⟨hstores, hrest⟩ := ih hcached
      unfold Watts.filterStores
      dsimp only
      simp only [hkeep, hanswer, hstores]
      split_ifs
      · exact ⟨rfl, hrest⟩
      · exact ⟨rfl, hrest⟩

/-- **The filter** keeps the same interferences. -/
theorem SameTrue.filterMHBInterfs {cache cache' : MHBCache} (hc : SameCache cache cache')
    (interfs : LoadStores) :
    (Watts.filterMHBInterfs z3 rules cache interfs).1 = (Watts.filterMHBInterfs z3' rules' cache' interfs).1 ∧
      SameCache (Watts.filterMHBInterfs z3 rules cache interfs).2
        (Watts.filterMHBInterfs z3' rules' cache' interfs).2 := by
  unfold Watts.filterMHBInterfs
  refine List.foldl_rel (r := fun (r r' : LoadStores × MHBCache) => r.1 = r'.1 ∧ SameCache r.2 r'.2)
    ⟨rfl, hc⟩ fun p _ r r' hr => ?_
  obtain ⟨hstores, hrest⟩ := h.filterStores hr.2 p.1 p.2
  dsimp only
  rw [hr.1, hstores]
  exact ⟨rfl, hrest⟩

theorem SameTrue.alike : Alike SameCache z3 z3' rules rules' where
  order := h.violatesProgOrder
  filter := h.filterMHBInterfs

end

/-- **The pass** only depends on which queries are true: it stops with the same failure, or ends in the
same state up to the cached answers that are not true. -/
theorem runOnModule_sameTrue (o : BlockOrder) (cx : Ctx) {z3 z3' : Solver} {rules rules' : List Rule}
    (h : SameTrue z3 z3' rules rules') (fuel : Nat) :
    Agree (SameRun SameCache) (runOnModule o cx z3 rules fuel : Except LoopStop (RunState ap))
      (runOnModule o cx z3' rules' fuel) :=
  h.alike.runOnModule rfl fuel

/-! ### The cache of the filter -/

/-- Both caches hold answers of the solver. -/
def BothFaithful (z3 : Solver) (rules : List Rule) (cache cache' : MHBCache) : Prop :=
  cache.Faithful z3 rules ∧ cache'.Faithful z3 rules

section

variable {z3 : Solver} {rules : List Rule}

/-- What the filter keeps, and what a cache cannot change. -/
theorem filterStores_eq_filter {cache : MHBCache} (h : cache.Faithful z3 rules) (l : Value)
    (stores : List Value) :
    (filterStores z3 rules l stores cache).1 =
      stores.filter fun s => decide (queryMHB z3 rules l s ≠ .lTrue) := by
  induction stores generalizing cache with
  | nil => rfl
  | cons st stores ih =>
      obtain ⟨hanswer, hcache⟩ := cachedMHB_spec h l st
      have hkeep : (queryMHB z3 rules l st = .lFalse ∨ queryMHB z3 rules l st = .lUndef) ↔
          queryMHB z3 rules l st ≠ .lTrue := by
        cases queryMHB z3 rules l st <;> decide
      unfold filterStores
      dsimp only
      rw [hanswer, List.filter_cons, ← ih hcache]
      simp only [hkeep, decide_eq_true_eq]
      split_ifs
      · rfl
      · rfl

theorem alike_faithful : Alike (BothFaithful z3 rules) z3 z3 rules rules where
  order _ _ := rfl
  filter := by
    intro cache cache' hc interfs
    unfold filterMHBInterfs
    refine List.foldl_rel
      (r := fun (r r' : LoadStores × MHBCache) => r.1 = r'.1 ∧ BothFaithful z3 rules r.2 r'.2) ⟨rfl, hc⟩
      fun p _ r r' hr => ?_
    obtain ⟨hkept, hfaithful, hfaithful'⟩ := hr
    dsimp only
    rw [hkept, filterStores_eq_filter hfaithful, filterStores_eq_filter hfaithful']
    exact ⟨rfl, (filterStores_spec p.1 p.2 hfaithful).2, (filterStores_spec p.1 p.2 hfaithful').2⟩

end

/-- The invariant at the beginning of each iteration. -/
theorem InterfsInv.of_goesOn {o : BlockOrder} {cx : Ctx} {z3 : Solver} {rules : List Rule} {fuel : Nat}
    {l : Setup ap} {funcs : Std.TreeSet FuncId} {u : RunState ap}
    (h : Relation.ReflTransGen (l.GoesOn o cx z3 rules fuel) { threadFuncs := funcs } u) :
    InterfsInv z3 rules u := by
  induction h with
  | refl => exact ⟨fun f m hf => by simp at hf, fun _ _ _ hc => by cases hc⟩
  | tail _ hv ih => exact ih.goesOn hv

/-- **The cache is transparent**: wherever a run of the pass has got to, replacing the cache of the filter
by another one with answers of the solver, as the empty one, does not change the rest of the run. -/
theorem loop_replace_cache (o : BlockOrder) (cx : Ctx) (z3 : Solver) (rules : List Rule) (fuel : Nat)
    (l : Setup ap) (u : RunState ap)
    (hu : Relation.ReflTransGen (l.GoesOn o cx z3 rules fuel) { threadFuncs := l.threadFuncs } u)
    (cache : MHBCache) (hcache : cache.Faithful z3 rules) (n : Nat) :
    Agree (SameRun (BothFaithful z3 rules)) (l.loop o cx z3 rules fuel n u)
      (l.loop o cx z3 rules fuel n { u with mhbCache := cache }) :=
  alike_faithful.interferenceLoop _ _ n ⟨cache, ⟨(InterfsInv.of_goesOn hu).cache, hcache⟩, rfl⟩

open LoadBeforeCreate (cx z3 rules trace summary) in
/-- The cache of a run is emptied after its first iteration. -/
theorem loop_replace_cache_loadBeforeCreate : ∃ (l : Setup boxes) (u : RunState boxes),
    l.GoesOn .increasing (cx true) z3 rules 40 { threadFuncs := l.threadFuncs } u ∧
      Agree (SameRun (BothFaithful z3 rules)) (l.loop .increasing (cx true) z3 rules 40 40 u)
        (l.loop .increasing (cx true) z3 rules 40 40 { u with mhbCache := fun _ => none }) := by
  have hsummary : (trace true).toOption.map (summary true) = some (true, [(2, [])]) := by decide
  obtain ⟨⟨l, ⟨stable, u⟩, r, reached⟩, htrace, hsum⟩ := Fallible.exists_ok_of_toOption hsummary
  obtain ⟨l', hl, htrace⟩ := bind_eq_ok.mp htrace
  obtain ⟨u', hu, htrace⟩ := bind_eq_ok.mp htrace
  obtain ⟨r', _, htrace⟩ := bind_eq_ok.mp htrace
  cases htrace
  simp only [summary, Prod.mk.injEq, Bool.and_eq_true, Bool.not_eq_true'] at hsum
  obtain ⟨⟨rfl, _⟩, _⟩ := hsum
  have hgoes : l.GoesOn .increasing (cx true) z3 rules 40 { threadFuncs := l.threadFuncs } u := hu
  exact ⟨l, u, hgoes, loop_replace_cache .increasing (cx true) z3 rules 40 l u (.single hgoes) (fun _ => none)
    (fun _ _ _ hc => by cases hc) 40⟩

end Watts
