import Watts.BoxSound
import Watts.RunOnModule

/-! The interference sets when the outer loop ends.  They are computed at the end of an iteration, for
the functions known by then, and the loop ends when the facts at the stores are stable: a function that
the last iteration found first has been analysed without interferences. -/

namespace Watts

open Fallible (bind_eq_ok foldlM_preserves)

variable {ap : Apron}

/-! ### The stores of a function -/

/-- The stores under a function are its own. -/
def ReachStores.Owned (M : Module) (rs : ReachStores ap) : Prop :=
  ∀ (g : FuncId) (st : StoreFacts ap), rs[g]? = some st → ∀ s ∈ st,
    ∃ G, M.func? g = some G ∧ ∃ i ∈ G.instrs, i.id = s

theorem ReachStores.Owned.unique {M : Module} {rs rs' : ReachStores ap} (h : rs.Owned M)
    (h' : rs'.Owned M) {g g' : FuncId} {st st' : StoreFacts ap} (hg : rs[g]? = some st)
    (hg' : rs'[g']? = some st') {s : Value} (hs : s ∈ st) (hs' : s ∈ st') : g = g' := by
  obtain ⟨G, hG, i, hi, rfl⟩ := h g st hg s hs
  obtain ⟨G', hG', i', hi', heq⟩ := h' g' st' hg' i.id hs'
  obtain ⟨hmem, rfl⟩ := Module.func?_mem hG
  obtain ⟨hmem', rfl⟩ := Module.func?_mem hG'
  have hii : i' = i := M.eq_of_id_eq (Module.mem_instrs.mpr ⟨G', hmem', hi'⟩)
    (Module.mem_instrs.mpr ⟨G, hmem, hi⟩) heq
  subst hii
  exact congrArg Function.id (Module.function_unique hmem hmem' hi hi')

/-- The bookkeeping holds stores of the function only. -/
def Books.Bound.storesOf (ap : Apron) (F : Function) : Books.Bound ap where
  error _ := True
  store s _ := ∃ i ∈ F.instrs, i.id = s
  create _ _ := True

theorem Books.Bound.storesOf_joinClosed (F : Function) : (Books.Bound.storesOf ap F).JoinClosed :=
  ⟨fun _ _ _ h _ => h, fun _ _ _ _ _ => trivial⟩

theorem Books.allows_storesOf {F : Function} {i : Instruction} (hi : i ∈ F.instrs)
    (fIn fOut : LatticeFact ap) : Books.Allows (Books.Bound.storesOf ap F) i fIn fOut := by
  unfold Books.Allows
  split
  · exact ⟨i, hi, rfl⟩
  · exact ⟨i, hi, rfl⟩
  · trivial
  · trivial
  · trivial

section Analysis

variable {o : BlockOrder} {cx : Ctx} {z3 : Solver} {rules : List Rule} {F : Function}
  {createSite : Option Instruction} {interfs : LoadStores} {stFacts : StoreFacts ap}
  {entryFact : LatticeFact ap} {fuel : Nat}

theorem permLoop_within {P : Books.Bound ap} (hP : P.JoinClosed)
    (ha : ∀ i ∈ F.instrs, ∀ fIn fOut, Books.Allows P i fIn fOut) {n : Nat} {cp : CartesianProduct}
    {s t : PermState ap} (hw : Books.Within P s.books)
    (h : permLoop o cx z3 rules F createSite interfs stFacts entryFact fuel n cp s = .ok t) :
    Books.Within P t.books := by
  induction n generalizing cp s with
  | zero =>
      unfold permLoop at h
      split_ifs at h
      cases h
      exact hw
  | succ n ih =>
      unfold permLoop at h
      split_ifs at h
      · cases h
        exact hw
      · obtain ⟨⟨tested, s₁⟩, htest, h⟩ := bind_eq_ok.mp h
        obtain ⟨cp₁, _, h⟩ := bind_eq_ok.mp h
        refine ih ?_ h
        obtain ⟨c, _, htest⟩ := bind_eq_ok.mp htest
        dsimp only at htest
        split_ifs at htest
        · cases htest
          exact hw
        · obtain ⟨⟨res, books⟩, hrun, htest⟩ := bind_eq_ok.mp htest
          cases htest
          exact analyzeFunc_within hP hw ha hrun

/-- Bounds on the bookkeeping that every instruction of the function keeps hold after a thread's
analysis. -/
theorem analyzeThreadInterf_within {P : Books.Bound ap} (hP : P.JoinClosed)
    (ha : ∀ i ∈ F.instrs, ∀ fIn fOut, Books.Allows P i fIn fOut) {books : Books ap}
    {permCache : PermCache} {s : PermState ap} (hw : Books.Within P books)
    (h : analyzeThreadInterf o cx z3 rules F createSite interfs stFacts books permCache entryFact fuel =
      .ok s) : Books.Within P s.books := by
  unfold analyzeThreadInterf at h
  split_ifs at h
  · obtain ⟨⟨res, books'⟩, hrun, h⟩ := bind_eq_ok.mp h
    cases h
    exact analyzeFunc_within hP hw ha hrun
  · obtain ⟨allInterfs, _, h⟩ := bind_eq_ok.mp h
    obtain ⟨⟨res, books'⟩, hrun, h⟩ := bind_eq_ok.mp h
    cases h
    exact analyzeFunc_within hP hw ha hrun
  · obtain ⟨cp, _, h⟩ := bind_eq_ok.mp h
    exact permLoop_within hP ha hw h

end Analysis

/-! ### One iteration -/

section Iteration

variable {o : BlockOrder} {cx : Ctx} {z3 : Solver} {rules : List Rule} {main : Function}
  {progInitState : LatticeFact ap} {fuel : Nat}

/-- What an analysis in this iteration finds. -/
def RunState.current (s : RunState ap) (f : FuncId) : Analysis ap :=
  ⟨s.iter, s.interfs[f]?, s.allReachStores⟩

/-- What the analyses of an iteration that began in `s₀` keep, and what they leave behind. -/
structure MidIteration (M : Module) (s₀ s : RunState ap) : Prop where
  allReachStores : s.allReachStores = s₀.allReachStores
  interfs : s.interfs = s₀.interfs
  iter : s.iter = s₀.iter
  owned : s.newReachStores.Owned M
  threadFuncs : ∀ f ∈ s₀.threadFuncs, f ∈ s.threadFuncs
  analyses : ∀ (f : FuncId) a, s.lastAnalysis[f]? = some a →
    s₀.lastAnalysis[f]? = some a ∨ a = s₀.current f

theorem siteFunc_func? (hmain : cx.module.func? main.id = some main) {ci : Site} {F : Function}
    (h : siteFunc cx main ci = .ok F) : cx.module.func? F.id = some F := by
  cases ci with
  | none =>
      cases h
      exact hmain
  | some ci =>
      obtain ⟨f, _, h⟩ := bind_eq_ok.mp h
      cases hf : cx.module.func? f with
      | none => simp [hf, throw, throwThe, MonadExceptOf.throw] at h
      | some G =>
          rw [hf] at h
          cases h
          rw [(Module.func?_mem hf).2]
          exact hf

/-- Finding threads adds thread functions and entry facts only. -/
theorem discoverThreads_eq {reach : Std.TreeMap Value (LatticeFact ap)} {s : RunState ap}
    {r : RunState ap × List Site} (h : discoverThreads cx reach s = .ok r) :
    ∃ funcs facts, r.1 = { s with threadFuncs := funcs, threadEntryFacts := facts } ∧
      (∀ f ∈ s.threadFuncs, f ∈ funcs) ∧ (cx.opts.dynInitG = false → funcs = s.threadFuncs) := by
  unfold discoverThreads at h
  split_ifs at h with hdyn
  · refine ⟨r.1.threadFuncs, r.1.threadEntryFacts, ?_⟩
    suffices hfold : r.1 = { s with
        threadFuncs := r.1.threadFuncs, threadEntryFacts := r.1.threadEntryFacts } ∧
        ∀ f ∈ s.threadFuncs, f ∈ r.1.threadFuncs from
      ⟨hfold.1, hfold.2, fun hd => absurd hdyn (by rw [hd]; exact Bool.false_ne_true)⟩
    refine foldlM_preserves (fun r : RunState ap × List Site =>
      r.1 = { s with
        threadFuncs := r.1.threadFuncs, threadEntryFacts := r.1.threadEntryFacts } ∧
        ∀ f ∈ s.threadFuncs, f ∈ r.1.threadFuncs) ?_ ⟨rfl, fun _ hf => hf⟩ h
    intro p _ r r' ⟨heq, hfuncs⟩ hstep
    unfold discoverThread at hstep
    cases hcall : cx.module.instr? p.1 with
    | none => simp [hcall] at hstep
    | some curCall =>
        simp only [hcall] at hstep
        obtain ⟨thrdFunc, _, hstep⟩ := bind_eq_ok.mp hstep
        cases hstep
        refine ⟨?_, fun f hf => Std.TreeSet.mem_insert.mpr (.inr (hfuncs f hf))⟩
        dsimp only
        rw [heq]
  · cases h
    exact ⟨_, _, rfl, fun _ hf => hf, fun _ => rfl⟩

/-- What the processing of one thread does: it is analysed, and the threads that it creates are found. -/
theorem processThread_eq {s : RunState ap} {ci : Site} {r : RunState ap × List Site}
    (h : processThread o cx z3 rules main progInitState fuel s ci = .ok r) :
    ∃ F entryFact stFacts p funcs facts, siteFunc cx main ci = .ok F ∧
      analyzeThreadInterf o cx z3 rules F ci (curFInterf cx z3 rules s F.id).1 stFacts { rErrors := s.rErrors }
        s.permCache entryFact fuel = .ok p ∧
      r.1 = { s.analyzed F.id (curFInterf cx z3 rules s F.id).2 p with
        threadFuncs := funcs, threadEntryFacts := facts } ∧
      (∀ f ∈ s.threadFuncs, f ∈ funcs) ∧ (cx.opts.dynInitG = false → funcs = s.threadFuncs) := by
  obtain ⟨F, hF, h⟩ := bind_eq_ok.mp h
  obtain ⟨entryFact, _, h⟩ := bind_eq_ok.mp h
  obtain ⟨stFacts, _, h⟩ := bind_eq_ok.mp h
  obtain ⟨p, hp, h⟩ := bind_eq_ok.mp h
  rw [liftM_stop, liftStop_eq_ok] at hF h
  obtain ⟨funcs, facts, hr, hfuncs, hstatic⟩ := discoverThreads_eq h
  exact ⟨F, entryFact, stFacts, p, funcs, facts, hF, hp, hr, hfuncs, hstatic⟩

/-- **One thread**: the state stays that of the iteration, and the thread's function has been analysed
in it. -/
theorem processThread_mid (hmain : cx.module.func? main.id = some main) {s₀ s : RunState ap}
    {ci : Site} {r : RunState ap × List Site} (hmid : MidIteration cx.module s₀ s)
    (h : processThread o cx z3 rules main progInitState fuel s ci = .ok r) :
    MidIteration cx.module s₀ r.1 ∧
      (∃ F, siteFunc cx main ci = .ok F ∧ r.1.lastAnalysis[F.id]? = some (s₀.current F.id)) ∧
      (∀ f : FuncId, s.lastAnalysis[f]? = some (s₀.current f) →
        r.1.lastAnalysis[f]? = some (s₀.current f)) ∧
      (cx.opts.dynInitG = false → r.1.threadFuncs = s.threadFuncs) := by
  obtain ⟨F, _, _, p, funcs, facts, hF, hp, hr, hfuncs, hstatic⟩ := processThread_eq h
  have hfunc := siteFunc_func? hmain hF
  have hwithin : Books.Within (Books.Bound.storesOf ap F) p.books :=
    analyzeThreadInterf_within (Books.Bound.storesOf_joinClosed F) (fun i hi => Books.allows_storesOf hi)
      ⟨fun _ _ => trivial, fun i f hi => by simp at hi, fun _ _ _ => trivial⟩ hp
  have hcur : s.current F.id = s₀.current F.id := by
    unfold RunState.current
    rw [hmid.allReachStores, hmid.interfs, hmid.iter]
  -- the analyses after this one
  have hlog : ∀ f : FuncId, r.1.lastAnalysis[f]? =
      if F.id = f then some (s₀.current F.id) else s.lastAnalysis[f]? := by
    intro f
    rw [hr, ← hcur]
    show (s.lastAnalysis.insert F.id (s.current F.id))[f]? = _
    rw [Std.TreeMap.getElem?_insert]
    simp only [Nat.compare_eq_eq]
  refine ⟨⟨?_, ?_, ?_, ?_, ?_, ?_⟩, ⟨F, hF, ?_⟩, ?_, ?_⟩
  · rw [hr]
    exact hmid.allReachStores
  · rw [hr]
    exact hmid.interfs
  · rw [hr]
    exact hmid.iter
  · rw [hr]
    intro g st hg v hv
    have hg' : ((s.newReachStores.erase F.id).insert F.id p.books.reachStores)[g]? = some st := hg
    rw [Std.TreeMap.getElem?_insert] at hg'
    by_cases hFg : F.id = g
    · rw [if_pos (Nat.compare_eq_eq.mpr hFg), Option.some.injEq] at hg'
      subst hg'
      obtain ⟨f, hf⟩ := Option.isSome_iff_exists.mp (Std.TreeMap.mem_iff_isSome_getElem?.mp hv)
      rw [← hFg]
      exact ⟨F, hfunc, hwithin.reachStores v f hf⟩
    · rw [if_neg (fun hc => hFg (Nat.compare_eq_eq.mp hc)), Std.TreeMap.getElem?_erase,
        if_neg (fun hc => hFg (Nat.compare_eq_eq.mp hc))] at hg'
      exact hmid.owned g st hg' v hv
  · intro f hf
    rw [hr]
    exact hfuncs f (hmid.threadFuncs f hf)
  · intro f a ha
    rw [hlog] at ha
    split_ifs at ha with hFf
    · subst hFf
      exact .inr (Option.some.inj ha).symm
    · exact hmid.analyses f a ha
  · rw [hlog, if_pos rfl]
  · intro f hf
    rw [hlog]
    split_ifs with hFf
    · rw [hFf]
    · exact hf
  · intro hd
    rw [hr]
    exact hstatic hd

/-- **All threads of an iteration**: every site has been processed in it. -/
theorem threadsLoop_mid (hmain : cx.module.func? main.id = some main) {n : Nat} {sites : List Site}
    {s₀ s t : RunState ap} (hmid : MidIteration cx.module s₀ s)
    (h : threadsLoop o cx z3 rules main progInitState fuel n sites s = .ok t) :
    MidIteration cx.module s₀ t ∧
      (∀ ci ∈ sites, ∃ F, siteFunc cx main ci = .ok F ∧
        t.lastAnalysis[F.id]? = some (s₀.current F.id)) ∧
      (∀ f : FuncId, s.lastAnalysis[f]? = some (s₀.current f) →
        t.lastAnalysis[f]? = some (s₀.current f)) ∧
      (cx.opts.dynInitG = false → t.threadFuncs = s.threadFuncs) := by
  induction n generalizing sites s with
  | zero =>
      cases sites with
      | nil =>
          cases h
          exact ⟨hmid, fun _ hci => absurd hci List.not_mem_nil, fun _ hf => hf, fun _ => rfl⟩
      | cons ci sites => cases h
  | succ n ih =>
      cases sites with
      | nil =>
          cases h
          exact ⟨hmid, fun _ hci => absurd hci List.not_mem_nil, fun _ hf => hf, fun _ => rfl⟩
      | cons ci sites =>
          obtain ⟨r, hr, h⟩ := bind_eq_ok.mp h
          obtain ⟨hmid₁, ⟨F, hF, hlast⟩, hkeep₁, hstatic₁⟩ := processThread_mid hmain hmid hr
          obtain ⟨hmid₂, hsites, hkeep₂, hstatic₂⟩ := ih hmid₁ h
          refine ⟨hmid₂, ?_, fun f hf => hkeep₂ f (hkeep₁ f hf),
            fun hd => (hstatic₂ hd).trans (hstatic₁ hd)⟩
          intro ci' hci'
          rcases List.mem_cons.mp hci' with rfl | hci'
          · exact ⟨F, hF, hkeep₂ _ hlast⟩
          · exact hsites ci' (List.mem_append_left _ hci')

/-- When the slicing filters return, they have removed nothing. -/
theorem sliceInterfs_eq {m m' : LoadStores} (h : sliceInterfs cx m = .ok m') : m' = m := by
  obtain ⟨_, _, h⟩ := bind_eq_ok.mp h
  exact (Except.ok.inj h).symm

/-- The interferences of the next iteration are those of the functions known at the end of this one. -/
theorem nextIteration_eq {s t : RunState ap} (h : nextIteration cx s = .ok t) :
    ∃ interfs, t = { s with interfs := interfs, allReachStores := s.newReachStores } ∧
      (∀ (f : FuncId) m, interfs[f]? = some m →
        (∃ F, cx.module.func? f = some F ∧
          getInterferingStores cx.module F s.newReachStores = .ok m) ∨
        (s.interfs[f]? = some m ∧ f ∉ s.threadFuncs)) ∧
      (∀ f : FuncId, (interfs[f]?).isSome ↔ f ∈ s.threadFuncs ∨ (s.interfs[f]?).isSome) := by
  obtain ⟨s', hfold, h⟩ := bind_eq_ok.mp h
  cases h
  refine ⟨s'.interfs, ?_⟩
  have hinv := Fallible.foldlM_invariant (fun done (s' : RunState ap) =>
      s' = { s with interfs := s'.interfs } ∧
      (∀ (f : FuncId) m, s'.interfs[f]? = some m →
        (∃ F, cx.module.func? f = some F ∧
          getInterferingStores cx.module F s.newReachStores = .ok m) ∨
        (s.interfs[f]? = some m ∧ f ∉ done)) ∧
      (∀ f : FuncId, (s'.interfs[f]?).isSome ↔ f ∈ done ∨ (s.interfs[f]?).isSome))
    ?_ ⟨rfl, fun f m hf => .inr ⟨hf, List.not_mem_nil⟩, fun f => by simp⟩ hfold
  · obtain ⟨heq, hent, hkeys⟩ := hinv
    refine ⟨by rw [heq], fun f m hf => ?_, fun f => ?_⟩
    · rcases hent f m hf with hf | ⟨hf, hmem⟩
      · exact .inl hf
      · exact .inr ⟨hf, by simpa using hmem⟩
    · rw [hkeys]
      simp
  · intro done f s₁ s₂ ⟨heq, hent, hkeys⟩ hstep
    unfold updateInterfs at hstep
    cases hF : cx.module.func? f with
    | none => simp [hF] at hstep
    | some F =>
        simp only [hF] at hstep
        obtain ⟨m₀, hm₀, hstep⟩ := bind_eq_ok.mp hstep
        obtain ⟨m₁, hm₁, hstep⟩ := bind_eq_ok.mp hstep
        cases hstep
        rw [sliceInterfs_eq hm₁]
        have hnew : s₁.newReachStores = s.newReachStores := by rw [heq]
        rw [hnew] at hm₀
        refine ⟨?_, fun g m hg => ?_, fun g => ?_⟩
        · dsimp only
          rw [heq]
        · dsimp only at hg
          rw [Std.TreeMap.getElem?_insert] at hg
          by_cases hfg : f = g
          · subst hfg
            rw [if_pos (Nat.compare_eq_eq.mpr rfl), Option.some.injEq] at hg
            subst hg
            exact .inl ⟨F, hF, hm₀⟩
          · rw [if_neg (fun hc => hfg (Nat.compare_eq_eq.mp hc))] at hg
            rcases hent g m hg with hg | ⟨hg, hmem⟩
            · exact .inl hg
            · refine .inr ⟨hg, fun hmem' => ?_⟩
              rcases List.mem_append.mp hmem' with hmem' | hmem'
              · exact hmem hmem'
              · exact hfg (List.mem_singleton.mp hmem').symm
        · dsimp only
          rw [Std.TreeMap.getElem?_insert, List.mem_append, List.mem_singleton]
          by_cases hfg : f = g
          · rw [if_pos (Nat.compare_eq_eq.mpr hfg)]
            simp [hfg]
          · rw [if_neg (fun hc => hfg (Nat.compare_eq_eq.mp hc)), hkeys]
            have hgf : ¬ g = f := fun h => hfg h.symm
            simp [hgf]

end Iteration

/-! ### The loop -/

/-- What `runOnModule` sets up before its loop. -/
structure Setup (ap : Apron) where
  main : Function
  progInitState : LatticeFact ap
  threadSites : List Site
  noThreads : Bool
  threadFuncs : Std.TreeSet FuncId

/-- `runOnModule` up to its loop. -/
def setup (cx : Ctx) : Except LoopStop (Setup ap) := do
  let M := cx.module
  match M.main.bind M.func? with
  | none => throw (.stop (.abort "[ERROR] main function not found\n"))
  | some main =>
    let threads ← getThreads M
    let sites := M.getThreadCreate
    let progInitState ← getInitState M ⟨ap.top⟩ cx.v2n
    return { main := main
             progInitState := progInitState
             threadSites := if cx.opts.dynInitG then [none] else sites.map some ++ [none]
             noThreads := sites.isEmpty
             threadFuncs := if cx.opts.dynInitG then {main.id} else threads.insert main.id }

/-- The loop of `runOnModule`, after the set-up. -/
def Setup.loop (l : Setup ap) (o : BlockOrder) (cx : Ctx) (z3 : Solver) (rules : List Rule) (fuel n : Nat)
    (s : RunState ap) : Except LoopStop (RunState ap) :=
  interferenceLoop o cx z3 rules l.main l.progInitState fuel l.threadSites l.noThreads n s

theorem runOnModule_eq (o : BlockOrder) (cx : Ctx) (z3 : Solver) (rules : List Rule) (fuel : Nat) :
    runOnModule o cx z3 rules fuel = (do
      let l : Setup ap ← setup cx
      l.loop o cx z3 rules fuel fuel { threadFuncs := l.threadFuncs }) := by
  unfold runOnModule setup
  dsimp only
  cases hmain : cx.module.main.bind cx.module.func? with
  | none => rfl
  | some main =>
      dsimp only
      cases hth : getThreads cx.module with
      | error e => rfl
      | ok threads =>
          cases hinit : getInitState cx.module (⟨ap.top⟩ : LatticeFact ap) cx.v2n with
          | error e => rfl
          | ok progInitState => rfl

/-- What the set-up finds in a module. -/
structure Setup.For (cx : Ctx) (l : Setup ap) : Prop where
  main : cx.module.main = some l.main.id
  func : cx.module.func? l.main.id = some l.main
  init : getInitState cx.module ⟨ap.top⟩ cx.v2n = .ok l.progInitState
  sites : l.threadSites = if cx.opts.dynInitG then [none] else cx.module.getThreadCreate.map some ++ [none]
  noThreads : l.noThreads = cx.module.getThreadCreate.isEmpty
  funcs : ∃ threads, getThreads cx.module = .ok threads ∧
    l.threadFuncs = if cx.opts.dynInitG then {l.main.id} else threads.insert l.main.id

theorem setup_ok {cx : Ctx} {l : Setup ap} (h : setup cx = .ok l) : l.For cx := by
  unfold setup at h
  dsimp only at h
  cases hmain : cx.module.main.bind cx.module.func? with
  | none => simp [hmain, throw, throwThe, MonadExceptOf.throw] at h
  | some main =>
      simp only [hmain] at h
      obtain ⟨threads, hth, h⟩ := bind_eq_ok.mp h
      obtain ⟨progInitState, hinit, h⟩ := bind_eq_ok.mp h
      rw [liftM_stop, liftStop_eq_ok] at hth hinit
      cases h
      obtain ⟨f, hf, hfunc⟩ := Option.bind_eq_some_iff.mp hmain
      obtain ⟨_, rfl⟩ := Module.func?_mem hfunc
      exact ⟨hf, hfunc, hinit, rfl, rfl, threads, hth, rfl⟩

section Loop

variable {o : BlockOrder} {cx : Ctx} {z3 : Solver} {rules : List Rule} {main : Function}
  {progInitState : LatticeFact ap} {fuel : Nat}

/-- The interferences that an analysis used were computed from the stores reached before it. -/
def Analysis.Explained (M : Module) (f : FuncId) (a : Analysis ap) : Prop :=
  a.allReachStores.Owned M ∧ ∀ m, a.interfs = some m →
    ∃ F, M.func? f = some F ∧ getInterferingStores M F a.allReachStores = .ok m

/-- What holds whenever an iteration begins. -/
structure LoopInv (M : Module) (s : RunState ap) : Prop where
  owned : s.allReachStores.Owned M
  keys : ∀ f : FuncId, (s.interfs[f]?).isSome → f ∈ s.threadFuncs
  interfs : ∀ (f : FuncId) m, s.interfs[f]? = some m →
    ∃ F, M.func? f = some F ∧ getInterferingStores M F s.allReachStores = .ok m
  analyses : ∀ (f : FuncId) a, s.lastAnalysis[f]? = some a → a.iter < s.iter ∧ a.Explained M f
  complete : (∀ f ∈ s.threadFuncs, (s.interfs[f]?).isSome) ∨ s.allReachStores = {}

theorem LoopInv.current {M : Module} {s : RunState ap} (h : LoopInv M s) (f : FuncId) :
    (s.current f).Explained M f :=
  ⟨h.owned, h.interfs f⟩

/-- An iteration begins with the stores of the earlier ones. -/
theorem LoopInv.mid {M : Module} {s : RunState ap} (h : LoopInv M s) :
    MidIteration M s { s with newReachStores := s.allReachStores } where
  allReachStores := rfl
  interfs := rfl
  iter := rfl
  owned := h.owned
  threadFuncs _ hf := hf
  analyses _ _ ha := .inl ha

/-- **One iteration that goes on** keeps the invariant. -/
theorem LoopInv.next {s₀ s t : RunState ap} (h : LoopInv cx.module s₀) (hmid : MidIteration cx.module s₀ s)
    (hnext : nextIteration cx s = .ok t) : LoopInv cx.module { t with iter := t.iter + 1 } := by
  obtain ⟨interfs, rfl, hent, hkeys⟩ := nextIteration_eq hnext
  have hknown : ∀ f : FuncId, (s.interfs[f]?).isSome → f ∈ s.threadFuncs := by
    intro f hf
    rw [hmid.interfs] at hf
    exact hmid.threadFuncs f (h.keys f hf)
  refine ⟨hmid.owned, fun f hf => ?_, fun f m hf => ?_, fun f a ha => ?_, .inl fun f hf => ?_⟩
  · rcases (hkeys f).mp hf with hf | hf
    · exact hf
    · exact hknown f hf
  · rcases hent f m hf with hf | ⟨hf, hmem⟩
    · exact hf
    · exact absurd (hknown f (by rw [hf]; rfl)) hmem
  · rcases hmid.analyses f a ha with ha | rfl
    · obtain ⟨hiter, hexp⟩ := h.analyses f a ha
      refine ⟨?_, hexp⟩
      dsimp only
      rw [hmid.iter]
      omega
    · refine ⟨?_, h.current f⟩
      show s₀.iter < s.iter + 1
      rw [hmid.iter]
      omega
  · exact (hkeys f).mpr (.inl hf)

/-- What holds when the loop ends: the last iteration began in `s₀`. -/
structure Ended (cx : Ctx) (main : Function) (threadSites : List Site) (s₀ t : RunState ap) :
    Prop where
  inv : LoopInv cx.module s₀
  iter : t.iter = s₀.iter + 1
  owned : t.newReachStores.Owned cx.module
  analyses : ∀ (f : FuncId) a, t.lastAnalysis[f]? = some a →
    s₀.lastAnalysis[f]? = some a ∨ a = s₀.current f
  sites : ∀ ci ∈ threadSites, ∃ F, siteFunc cx main ci = .ok F ∧
    t.lastAnalysis[F.id]? = some (s₀.current F.id)
  static : cx.opts.dynInitG = false → t.threadFuncs = s₀.threadFuncs
  stable : stableStores s₀.allReachStores t.newReachStores = .ok true

variable {l : Setup ap}

/-- The loop goes on after an iteration. -/
def Setup.GoesOn (o : BlockOrder) (cx : Ctx) (z3 : Solver) (rules : List Rule) (fuel : Nat) (l : Setup ap)
    (u v : RunState ap) : Prop :=
  interferenceIter o cx z3 rules l.main l.progInitState fuel l.threadSites l.noThreads u = .ok (false, v)

/-- The analyses of the threads in an iteration that begins in `u`. -/
def Setup.Analyzes (o : BlockOrder) (cx : Ctx) (z3 : Solver) (rules : List Rule) (fuel : Nat) (l : Setup ap)
    (u v : RunState ap) : Prop :=
  threadsLoop o cx z3 rules l.main l.progInitState fuel fuel l.threadSites
    { u with newReachStores := u.allReachStores } = .ok v

/-- A loop from `s` ends in `t` after the iteration that begins in `u` and has analysed the threads in `v`. -/
structure Setup.Last (o : BlockOrder) (cx : Ctx) (z3 : Solver) (rules : List Rule) (fuel : Nat) (l : Setup ap)
    (s u v t : RunState ap) : Prop where
  begins : Relation.ReflTransGen (l.GoesOn o cx z3 rules fuel) s u
  inv : LoopInv cx.module u
  analyzes : l.Analyzes o cx z3 rules fuel u v
  static : cx.opts.dynInitG = false → u.threadFuncs = s.threadFuncs
  result : l.noThreads = true ∧ u = s ∧ t = v ∨ l.noThreads = false ∧ t = { v with iter := v.iter + 1 } ∧
    stableStores v.allReachStores v.newReachStores = .ok true

/-- **Every run of the loop** ends in an iteration that began with the invariant. -/
theorem Setup.For.loop_last (hl : l.For cx) {n : Nat} {s t : RunState ap} (hinv : LoopInv cx.module s)
    (h : l.loop o cx z3 rules fuel n s = .ok t) : ∃ u v, l.Last o cx z3 rules fuel s u v t := by
  induction n generalizing s with
  | zero => cases h
  | succ n ih =>
      obtain ⟨⟨stable, s₁⟩, hiter, h⟩ := bind_eq_ok.mp h
      obtain ⟨v, hthreads, hend⟩ := bind_eq_ok.mp hiter
      obtain ⟨hmid, _, _, hstatic⟩ := threadsLoop_mid hl.func hinv.mid hthreads
      cases hno : l.noThreads with
      | true =>
          rw [hno, if_pos rfl] at hend
          cases hend
          cases h
          exact ⟨s, _, .refl, hinv, hthreads, fun _ => rfl, .inl ⟨hno, rfl, rfl⟩⟩
      | false =>
          rw [hno, if_neg Bool.false_ne_true] at hend
          obtain ⟨st, hst, hend⟩ := bind_eq_ok.mp hend
          rw [liftM_stop, liftStop_eq_ok] at hst
          cases st with
          | true =>
              cases hend
              cases h
              exact ⟨s, v, .refl, hinv, hthreads, fun _ => rfl, .inr ⟨hno, rfl, hst⟩⟩
          | false =>
              rw [if_neg Bool.false_ne_true] at hend
              obtain ⟨s₃, hnext, hend⟩ := bind_eq_ok.mp hend
              rw [liftM_stop, liftStop_eq_ok] at hnext
              cases hend
              obtain ⟨u, w, hlast⟩ := ih (hinv.next hmid hnext) h
              refine ⟨u, w, hlast.begins.head hiter, hlast.inv, hlast.analyzes, fun hd => ?_, ?_⟩
              · obtain ⟨interfs, rfl, _⟩ := nextIteration_eq hnext
                exact (hlast.static hd).trans (hstatic hd)
              · rcases hlast.result with ⟨hyes, _⟩ | hres
                · rw [hno] at hyes
                  cases hyes
                · exact .inr hres

/-- With threads, the last iteration leaves what `Ended` says. -/
theorem Setup.Last.ended (hl : l.For cx) (hno : l.noThreads = false) {s u v t : RunState ap}
    (h : l.Last o cx z3 rules fuel s u v t) : Ended cx l.main l.threadSites u t := by
  obtain ⟨hmid, hsites, _, hstatic⟩ := threadsLoop_mid hl.func h.inv.mid h.analyzes
  rcases h.result with ⟨hyes, _⟩ | ⟨_, rfl, hst⟩
  · rw [hno] at hyes
    cases hyes
  · rw [hmid.allReachStores] at hst
    exact ⟨h.inv, congrArg (· + 1) hmid.iter, hmid.owned, hmid.analyses, hsites, hstatic, hst⟩

/-- The invariant holds at the start. -/
theorem LoopInv.initial (M : Module) (threadFuncs : Std.TreeSet FuncId) :
    LoopInv M ({ threadFuncs := threadFuncs } : RunState ap) :=
  ⟨fun g st hg => by simp at hg, fun f hf => by simp at hf, fun f m hf => by simp at hf,
    fun f a ha => by simp at ha, .inr rfl⟩

/-- **A run of the pass** is the set-up and a loop that ends. -/
theorem runOnModule_last {t : RunState ap} (h : runOnModule o cx z3 rules fuel = .ok t) :
    ∃ l : Setup ap, setup cx = .ok l ∧ l.For cx ∧
      ∃ u v, l.Last o cx z3 rules fuel { threadFuncs := l.threadFuncs } u v t := by
  rw [runOnModule_eq] at h
  obtain ⟨l, hl, h⟩ := bind_eq_ok.mp h
  exact ⟨l, hl, setup_ok hl, (setup_ok hl).loop_last (LoopInv.initial _ _) h⟩

end Loop

/-! ### The interferences at the end -/

/-- The interferences used in the last analysis of every thread function contain all that the final
stores have for it. -/
def UpToDate (M : Module) (t : RunState ap) : Prop :=
  ∀ f ∈ t.threadFuncs, ∀ F m, M.func? f = some F →
    getInterferingStores M F t.newReachStores = .ok m → ∀ l s, m.HasPair l s →
      ∃ a, t.lastAnalysis[f]? = some a ∧ (a.interfs.getD {}).HasPair l s

/-- The last iteration has not analysed the function, or it has found it first. -/
def LeftBehind (t : RunState ap) (f : FuncId) : Prop :=
  ∀ a, t.lastAnalysis[f]? = some a → a.iter + 1 = t.iter → a.interfs = none

/-- The function was known, and the store was reached, in an iteration before the last analysis of the
function. -/
def ReachedBefore (t : RunState ap) (f : FuncId) (s : Value) : Prop :=
  ∃ a, t.lastAnalysis[f]? = some a ∧ a.interfs.isSome ∧
    ∃ (g : FuncId) (st : StoreFacts ap), a.allReachStores[g]? = some st ∧ s ∈ st

/-- Every function left behind was known, and each store that interferes with it at the end was
reached, in an iteration before its last analysis. -/
def NothingMissed (M : Module) (t : RunState ap) : Prop :=
  ∀ f ∈ t.threadFuncs, LeftBehind t f → ∀ F m, M.func? f = some F →
    getInterferingStores M F t.newReachStores = .ok m → ∀ l s, m.HasPair l s → ReachedBefore t f s

section End

variable {cx : Ctx} {main : Function} {threadSites : List Site} {s₀ t : RunState ap}

theorem Ended.explained (h : Ended cx main threadSites s₀ t) {f : FuncId} {a : Analysis ap}
    (ha : t.lastAnalysis[f]? = some a) : a.Explained cx.module f := by
  rcases h.analyses f a ha with ha | rfl
  · exact (h.inv.analyses f a ha).2
  · exact h.inv.current f

/-- The stores at the end were all reached before the last iteration. -/
theorem Ended.reached (h : Ended cx main threadSites s₀ t) {g : FuncId} {st : StoreFacts ap}
    (hg : t.newReachStores[g]? = some st) {s : Value} (hs : s ∈ st) :
    ∃ (g' : FuncId) (st' : StoreFacts ap), s₀.allReachStores[g']? = some st' ∧ s ∈ st' := by
  obtain ⟨newF, hnew⟩ := Option.isSome_iff_exists.mp (Std.TreeMap.mem_iff_isSome_getElem?.mp hs)
  obtain ⟨oldF, ⟨g', st', hg', hold⟩, _⟩ := stableStores_true h.stable ⟨g, st, hg, hnew⟩
  exact ⟨g', st', hg', Std.TreeMap.mem_iff_isSome_getElem?.mpr (by rw [hold]; rfl)⟩

/-- An analysis whose interferences were computed after a store was reached has seen it. -/
theorem Ended.hasPair (h : Ended cx main threadSites s₀ t) {f : FuncId} {F : Function}
    {m : LoadStores} (hF : cx.module.func? f = some F)
    (hm : getInterferingStores cx.module F t.newReachStores = .ok m) {l s : Value}
    (hpair : m.HasPair l s) {a : Analysis ap} (ha : t.lastAnalysis[f]? = some a)
    (hsome : a.interfs.isSome) {g' : FuncId} {st' : StoreFacts ap}
    (hg' : a.allReachStores[g']? = some st') (hs' : s ∈ st') :
    (a.interfs.getD {}).HasPair l s := by
  obtain ⟨howned, hexp⟩ := h.explained ha
  obtain ⟨m', hm'⟩ := Option.isSome_iff_exists.mp hsome
  obtain ⟨F', hF', hused⟩ := hexp m' hm'
  obtain rfl : F = F' := Option.some.inj (hF.symm.trans hF')
  obtain ⟨g, st, hg, hne, hs, hload⟩ := (getInterferingStores_hasPair hm l s).mp hpair
  obtain rfl : g' = g := howned.unique h.owned hg' hg hs' hs
  rw [hm']
  exact (getInterferingStores_hasPair hused l s).mpr ⟨g', st', hg', hne, hs', hload⟩

theorem Ended.upToDate_iff (h : Ended cx main threadSites s₀ t) :
    UpToDate cx.module t ↔ NothingMissed cx.module t := by
  constructor
  · intro hup f hf _ F m hF hm l s hpair
    obtain ⟨a, ha, hused⟩ := hup f hf F m hF hm l s hpair
    obtain ⟨_, hexp⟩ := h.explained ha
    cases hi : a.interfs with
    | none =>
        rw [hi] at hused
        exact absurd hused (LoadStores.hasPair_empty l s)
    | some m' =>
        obtain ⟨F', hF', hm'⟩ := hexp m' hi
        rw [hi] at hused
        obtain ⟨g, st, hg, _, hs, _⟩ := (getInterferingStores_hasPair hm' l s).mp hused
        exact ⟨a, ha, by rw [hi]; rfl, g, st, hg, hs⟩
  · intro hmissed f hf F m hF hm l s hpair
    by_cases hleft : LeftBehind t f
    · obtain ⟨a, ha, hsome, g, st, hg, hs⟩ := hmissed f hf hleft F m hF hm l s hpair
      exact ⟨a, ha, h.hasPair hF hm hpair ha hsome hg hs⟩
    · -- analysed in the last iteration, with the stores that it began with
      unfold LeftBehind at hleft
      push Not at hleft
      obtain ⟨a, ha, hiter, hne⟩ := hleft
      obtain ⟨g, st, hg, _, hs, _⟩ := (getInterferingStores_hasPair hm l s).mp hpair
      obtain ⟨g', st', hg', hs'⟩ := h.reached hg hs
      have hall : a.allReachStores = s₀.allReachStores := by
        rcases h.analyses f a ha with hold | rfl
        · have := (h.inv.analyses f a hold).1
          rw [h.iter] at hiter
          omega
        · rfl
      rw [← hall] at hg'
      exact ⟨a, ha, h.hasPair hF hm hpair ha (Option.isSome_iff_ne_none.mpr hne) hg' hs'⟩

/-- Functions that are all analysed in every iteration are never left behind with a store to miss. -/
theorem Ended.nothingMissed (h : Ended cx main threadSites s₀ t)
    (hfuncs : ∀ f ∈ s₀.threadFuncs, ∃ ci ∈ threadSites, ∀ F, siteFunc cx main ci = .ok F → F.id = f)
    (hstatic : cx.opts.dynInitG = false) : NothingMissed cx.module t := by
  intro f hf hleft F m hF hm l s hpair
  rw [h.static hstatic] at hf
  obtain ⟨ci, hci, hsite⟩ := hfuncs f hf
  obtain ⟨F', hF', hlast⟩ := h.sites ci hci
  rw [hsite F' hF'] at hlast
  obtain ⟨g, st, hg, _, hs, _⟩ := (getInterferingStores_hasPair hm l s).mp hpair
  obtain ⟨g', st', hg', hs'⟩ := h.reached hg hs
  rcases h.inv.complete with hall | hempty
  · have hnone := hleft _ hlast h.iter.symm
    have hsome := hall f hf
    rw [show s₀.interfs[f]? = none from hnone] at hsome
    cases hsome
  · rw [hempty] at hg'
    simp at hg'

end End

/-- Every thread function is started by one of the `pthread_create` calls. -/
theorem getThreads_mem {M : Module} {threads : Std.TreeSet FuncId} (h : getThreads M = .ok threads)
    {f : FuncId} (hf : f ∈ threads) : ∃ ci ∈ M.getThreadCreate, getPThreadThreadFunc ci = .ok f := by
  unfold getThreads at h
  refine foldlM_preserves
    (fun ret : Std.TreeSet FuncId => ∀ f ∈ ret, ∃ ci ∈ M.getThreadCreate, getPThreadThreadFunc ci = .ok f)
    ?_ ?_ h f hf
  · intro ci hci ret ret' hret hstep g hg
    obtain ⟨f₁, hf₁, hstep⟩ := bind_eq_ok.mp hstep
    cases hstep
    rcases Std.TreeSet.mem_insert.mp hg with hg | hg
    · obtain ⟨hmem, hcreate⟩ := List.mem_filter.mp hci
      obtain ⟨F, hF, hciF⟩ := Module.mem_instrs.mp hmem
      refine ⟨ci, List.mem_flatMap.mpr ⟨F, hF, List.mem_filter.mpr ⟨hciF, hcreate⟩⟩, ?_⟩
      rwa [← Nat.compare_eq_eq.mp hg]
    · exact hret g hg
  · intro g hg
    exact absurd hg Std.TreeSet.not_mem_emptyc

/-- The function of each `pthread_create` call is a thread function. -/
theorem mem_getThreads {M : Module} {threads : Std.TreeSet FuncId} (h : getThreads M = .ok threads)
    {ci : Instruction} (hci : ci ∈ M.instrs.filter Instruction.isPthreadCreate) {f : FuncId}
    (hf : ci.createdFunc = some f) : f ∈ threads := by
  unfold getThreads at h
  have hall := Fallible.foldlM_invariant (fun (done : List Instruction) (ret : Std.TreeSet FuncId) =>
    ∀ ci ∈ done, ∀ f, ci.createdFunc = some f → f ∈ ret) ?_ ?_ h
  · exact hall ci hci f hf
  · intro done c ret ret' hret hstep ci hci f hf
    obtain ⟨g, hg, hstep⟩ := bind_eq_ok.mp hstep
    cases hstep
    rcases List.mem_append.mp hci with hci | hci
    · exact Std.TreeSet.mem_insert.mpr (.inr (hret ci hci f hf))
    · rw [List.mem_singleton.mp hci, createdFunc_of_getPThreadThreadFunc hg] at hf
      cases hf
      exact Std.TreeSet.mem_insert_self
  · exact fun _ hci => absurd hci List.not_mem_nil

/-- **The interference sets at the end.**  They contain everything exactly when no function is left
behind with a store to miss, and without dynamic initialization always. -/
theorem runOnModule_upToDate_iff (o : BlockOrder) (cx : Ctx) (z3 : Solver) (rules : List Rule)
    (fuel : Nat) (t : RunState ap) (hthreads : cx.module.getThreadCreate ≠ [])
    (h : runOnModule o cx z3 rules fuel = .ok t) :
    (UpToDate cx.module t ↔ NothingMissed cx.module t) ∧
      (cx.opts.dynInitG = false → UpToDate cx.module t) := by
  obtain ⟨l, _, hl, u, v, hlast⟩ := runOnModule_last h
  have hno : l.noThreads = false := by
    rw [hl.noThreads, List.isEmpty_eq_false_iff]
    exact hthreads
  have hended := hlast.ended hl hno
  refine ⟨hended.upToDate_iff, fun hstatic => hended.upToDate_iff.mpr ?_⟩
  refine hended.nothingMissed (fun f hf => ?_) hstatic
  obtain ⟨threads, hth, hfuncs⟩ := hl.funcs
  rw [hlast.static hstatic] at hf
  dsimp only at hf
  rw [hfuncs, if_neg (by rw [hstatic]; exact Bool.false_ne_true)] at hf
  rw [hl.sites, if_neg (by rw [hstatic]; exact Bool.false_ne_true)]
  rcases Std.TreeSet.mem_insert.mp hf with hf | hf
  · refine ⟨none, List.mem_append_right _ (.head _), fun F hF => ?_⟩
    cases hF
    exact Nat.compare_eq_eq.mp hf
  · obtain ⟨ci, hci, hget⟩ := getThreads_mem hth hf
    refine ⟨some ci, List.mem_append_left _ (List.mem_map.mpr ⟨ci, hci, rfl⟩), fun F hF => ?_⟩
    obtain ⟨f', hf', hF⟩ := bind_eq_ok.mp hF
    obtain rfl : f' = f := Except.ok.inj (hf'.symm.trans hget)
    cases hF' : cx.module.func? f' with
    | none => simp [hF', throw, throwThe, MonadExceptOf.throw] at hF
    | some G =>
        rw [hF'] at hF
        cases hF
        exact (Module.func?_mem hF').2

namespace LateThread

def create1 : Instruction := ⟨20, .call (.pthreadCreate 40 (some 1) []), none, []⟩
def create2 : Instruction := ⟨21, .call (.pthreadCreate 41 (some 2) []), none, []⟩

/-- Creates the first thread, and the second one only when it sees the flag. -/
def main : Function :=
  .ofBlocks 0
    [.ofInstrs 100 [⟨40, .alloca, none, []⟩, ⟨41, .alloca, none, []⟩, create1, ⟨2, .load 0, some 32, []⟩,
        ⟨3, .icmp .sgt (.value 2) (i32 0), some 1, []⟩]
      ⟨30, .condBr (.icmp 3 .sgt (.value 2) (i32 0)) 101 102, none, []⟩,
    .ofInstrs 101 [create2] ⟨31, .br 102, none, []⟩,
    .ofInstrs 102 [] ⟨32, .ret, none, []⟩]

/-- Sets the flag and then `x`. -/
def thread1 : Function :=
  .ofBlocks 1 [.ofInstrs 110 [⟨10, .store (i32 1) 0, none, []⟩, ⟨11, .store (i32 1) 1, none, []⟩]
    ⟨33, .ret, none, []⟩]

/-- Loads `x`. -/
def thread2 : Function :=
  .ofBlocks 2 [.ofInstrs 120 [⟨4, .load 1, some 32, []⟩] ⟨34, .ret, none, []⟩]

def program : Module :=
  .ofFunctions [main, thread1, thread2] [⟨0, some (.constantInt ⟨32, 0⟩)⟩, ⟨1, some (.constantInt ⟨32, 0⟩)⟩] (some 0)

def cx (dynInit : Bool) : Ctx :=
  .ofModule program 5 { useBoxG := true, noCombinsG := true, dynInitG := dynInit }

def pass (dynInit : Bool) : Except LoopStop (RunState boxes) :=
  runOnModule .increasing (cx dynInit) (fun _ _ => .lUndef) [] 40

/-- What a state says about the second thread: whether it is known, the stores that interfere with its
load at the end, and whether its last analysis had none. -/
def summary (t : RunState boxes) : Bool × Option (Option (List Value)) × Option Bool :=
  (t.threadFuncs.contains 2,
    (getInterferingStores program thread2 t.newReachStores).toOption.map fun m => m[(4 : Value)]?,
    (t.lastAnalysis[(2 : FuncId)]?).map fun a => a.interfs.isNone)

theorem summary_pass : (pass true).toOption.map summary = some (true, some (some [11]), some true) := by
  decide

/-- **The loop ends with the second thread analysed as if nothing stored to `x`.** -/
theorem not_upToDate : checkCommandLineArgs (cx true).opts = .ok (cx true).opts ∧
    ∃ t, pass true = .ok t ∧ ¬ UpToDate program t := by
  refine ⟨rfl, ?_⟩
  obtain ⟨t, ht, hsum⟩ := Fallible.exists_ok_of_toOption summary_pass
  refine ⟨t, ht, fun hup => ?_⟩
  obtain ⟨hknown, hfinal, hused⟩ := Prod.mk.inj hsum |>.imp id Prod.mk.inj
  cases hm : getInterferingStores program thread2 t.newReachStores with
  | error e =>
      rw [hm] at hfinal
      cases hfinal
  | ok m =>
      rw [hm] at hfinal
      have hpair : m.HasPair 4 11 := ⟨[11], Option.some.inj hfinal, .head _⟩
      obtain ⟨a, ha, hmem⟩ := hup 2 (Std.TreeSet.mem_iff_contains.mpr hknown) thread2 m rfl hm 4 11 hpair
      rw [ha] at hused
      rw [Option.isNone_iff_eq_none.mp (Option.some.inj hused)] at hmem
      exact LoadStores.hasPair_empty 4 11 hmem

theorem runOnModule_upToDate_static : ∃ t, pass false = .ok t ∧ UpToDate program t := by
  obtain ⟨t, ht⟩ := exists_ok (x := pass false) (by decide)
  exact ⟨t, ht, (runOnModule_upToDate_iff .increasing (cx false) (fun _ _ => .lUndef) [] 40 t
    (by decide) ht).2 rfl⟩

end LateThread

end Watts
