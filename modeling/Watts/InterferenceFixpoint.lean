import Watts.CombinationCoverage
import Watts.LoadModes
import Watts.RecordedStores
import Watts.StableStores

/-! The analyses of the last iteration in non-combinational mode.  They see a mixture of the stores of this
iteration and of the one before, since the map is overwritten thread by thread.  When the test that ends the
loop has compared comparable facts, both are above the facts that the iteration leaves behind. -/

namespace Watts

open Fallible (bind_eq_ok)
open Worklist (Pop)

variable {ap : Apron}

/-! ### One thread -/

section Thread

variable {o : BlockOrder} {cx : Ctx} {z3 : Solver} {rules : List Rule} {main : Function}
  {progInitState : LatticeFact ap} {fuel : Nat}

/-- A thread is analysed once, and each load has the join of the facts at its stores. -/
theorem analyzeThreadInterf_nonComb (hnc : cx.opts.noCombinsG = true) {F : Function}
    {createSite : Option Instruction} {interfs : LoadStores} {stFacts : StoreFacts ap} {books : Books ap}
    {permCache : PermCache} {entryFact : LatticeFact ap} {p : PermState ap}
    (h : analyzeThreadInterf o cx z3 rules F createSite interfs stFacts books permCache entryFact fuel = .ok p) :
    ∃ interf mergeInterfs res, analyzeFunc o cx interf books entryFact F mergeInterfs fuel = .ok (res, p.books) ∧
      ∀ (l : Value) ss, interfs[l]? = some ss → ∃ J, interf[l]? = some J ∧ joinStoreFacts stFacts ss = .ok J := by
  unfold analyzeThreadInterf at h
  rw [if_pos hnc] at h
  split_ifs at h with hempty
  · obtain ⟨⟨res, books'⟩, hrun, h⟩ := bind_eq_ok.mp h
    cases h
    refine ⟨{}, false, res, hrun, fun l ss hss => ?_⟩
    rw [getElem?_of_size_eq_zero hempty] at hss
    cases hss
  · obtain ⟨interf, hjoined, h⟩ := bind_eq_ok.mp h
    rw [liftM_stop, liftStop_eq_ok] at hjoined
    obtain ⟨⟨res, books'⟩, hrun, h⟩ := bind_eq_ok.mp h
    cases h
    exact ⟨interf, true, res, hrun, fun l ss hss => joinInterfs_getElem? hjoined hss⟩

/-- The parts of the analysis of an entry of the queue. -/
theorem analyzeSite_ok {s : RunState ap} {ci : Site} {f : FuncId} {m : MHBCache} {p : PermState ap}
    (h : analyzeSite o cx z3 rules main progInitState fuel s ci = .ok (f, m, p)) :
    ∃ F entryFact stFacts, siteFunc cx main ci = .ok F ∧ F.id = f ∧
      siteEntryFact cx progInitState s ci = .ok entryFact ∧ flattenReachStores s.newReachStores = .ok stFacts ∧
      analyzeThreadInterf o cx z3 rules F ci (curFInterf cx z3 rules s F.id).1 stFacts { rErrors := s.rErrors }
        s.permCache entryFact fuel = .ok p := by
  obtain ⟨F, hF, h⟩ := bind_eq_ok.mp h
  obtain ⟨entryFact, hentry, h⟩ := bind_eq_ok.mp h
  obtain ⟨stFacts, hst, h⟩ := bind_eq_ok.mp h
  obtain ⟨p', hp, h⟩ := bind_eq_ok.mp h
  rw [liftM_stop, liftStop_eq_ok] at hF hentry hst
  cases h
  exact ⟨F, entryFact, stFacts, hF, rfl, hentry, hst, hp⟩

/-- The errors found so far are kept. -/
theorem analyzeSite_rErrors (hnc : cx.opts.noCombinsG = true) {s : RunState ap} {ci : Site} {f : FuncId}
    {m : MHBCache} {p : PermState ap}
    (h : analyzeSite o cx z3 rules main progInitState fuel s ci = .ok (f, m, p)) :
    ∀ i ∈ s.rErrors, i ∈ p.books.rErrors := by
  obtain ⟨F, entryFact, stFacts, _, _, _, _, hp⟩ := analyzeSite_ok h
  obtain ⟨interf, mergeInterfs, res, hrun, _⟩ := analyzeThreadInterf_nonComb hnc hp
  obtain ⟨ps, u, ⟨first, _, hloop⟩, _, _, hbooks⟩ := analyzeFunc_run hrun
  have hgrows := hloop.grows (R := fun _ _ => True)
    ⟨fun _ => trivial, fun _ _ => trivial, fun _ _ => trivial, fun _ _ => trivial⟩
  rw [← hbooks]
  exact hgrows.rErrors

end Thread

/-! ### All threads of an iteration -/

section Iteration

variable (o : BlockOrder) (cx : Ctx) (z3 : Solver) (rules : List Rule) (main : Function)
  (progInitState : LatticeFact ap) (fuel : Nat)

/-- No two sites have one function. -/
def DistinctFuncs (sites : List Site) : Prop :=
  sites.Pairwise fun ci ci' => ∀ F F', siteFunc cx main ci = .ok F → siteFunc cx main ci' = .ok F' → F.id ≠ F'.id

/-- Between the states `s` and `t` of an iteration a site is analysed.  The analysis finds each function's
stores as they are in the one or in the other, and what it records is there in `t`. -/
def AnalyzedBetween (s t : RunState ap) (ci : Site) : Prop :=
  ∃ s' f m p, analyzeSite o cx z3 rules main progInitState fuel s' ci = .ok (f, m, p) ∧ s'.interfs = s.interfs ∧
    (∀ g : FuncId, s'.newReachStores[g]? = s.newReachStores[g]? ∨
      s'.newReachStores[g]? = t.newReachStores[g]?) ∧
    t.newReachStores[f]? = some p.books.reachStores ∧ ∀ i ∈ p.books.rErrors, i ∈ t.rErrors

variable {o cx z3 rules main progInitState fuel}

/-- One site leaves its stores under its function. -/
theorem processThread_static (hdyn : cx.opts.dynInitG = false) {s : RunState ap} {ci : Site}
    {r : RunState ap × List Site} (h : processThread o cx z3 rules main progInitState fuel s ci = .ok r) :
    ∃ f m p, analyzeSite o cx z3 rules main progInitState fuel s ci = .ok (f, m, p) ∧ r.2 = [] ∧
      r.1.interfs = s.interfs ∧ r.1.rErrors = p.books.rErrors ∧
      ∀ g : FuncId, r.1.newReachStores[g]? = if f = g then some p.books.reachStores else s.newReachStores[g]? := by
  obtain ⟨f, m, p, hsite, hstores⟩ := processThread_newReachStores h
  obtain ⟨f', m', p', hsite', hdiscover⟩ := processThread_ok h
  obtain ⟨rfl, h'⟩ := Prod.mk.inj (Except.ok.inj (hsite.symm.trans hsite'))
  obtain ⟨rfl, rfl⟩ := Prod.mk.inj h'
  refine ⟨f, m, p, hsite, ?_, ?_, ?_, hstores⟩
  all_goals
    unfold discoverThreads at hdiscover
    rw [hdyn, if_neg Bool.false_ne_true] at hdiscover
    cases hdiscover
    rfl

/-- **All sites of an iteration**, when no two have one function. -/
theorem threadsLoop_analyzed (hnc : cx.opts.noCombinsG = true) (hdyn : cx.opts.dynInitG = false) {n : Nat}
    {sites : List Site} (hdistinct : DistinctFuncs cx main sites) {s t : RunState ap}
    (h : threadsLoop o cx z3 rules main progInitState fuel n sites s = .ok t) :
    (∀ i ∈ s.rErrors, i ∈ t.rErrors) ∧
      (∀ g : FuncId, (∀ ci ∈ sites, ∀ F, siteFunc cx main ci = .ok F → F.id ≠ g) →
        t.newReachStores[g]? = s.newReachStores[g]?) ∧
      ∀ ci ∈ sites, AnalyzedBetween o cx z3 rules main progInitState fuel s t ci := by
  induction n generalizing sites s with
  | zero =>
      cases sites with
      | nil =>
          cases h
          exact ⟨fun _ hi => hi, fun _ _ => rfl, fun _ hci => absurd hci List.not_mem_nil⟩
      | cons ci sites => cases h
  | succ n ih =>
      cases sites with
      | nil =>
          cases h
          exact ⟨fun _ hi => hi, fun _ _ => rfl, fun _ hci => absurd hci List.not_mem_nil⟩
      | cons ci sites =>
          obtain ⟨⟨s₁, reached⟩, hr, h⟩ := bind_eq_ok.mp h
          obtain ⟨f, m, p, hsite, rfl, hinterfs, herrors, hstores⟩ := processThread_static hdyn hr
          dsimp only at hinterfs herrors hstores h
          rw [List.append_nil] at h
          obtain ⟨hfirst, hrest⟩ := List.pairwise_cons.mp hdistinct
          obtain ⟨hkeep, hothers, hlater⟩ := ih hrest h
          obtain ⟨F, _, _, hF, rfl, _⟩ := analyzeSite_ok hsite
          -- the later sites leave this one's stores alone
          have hown : t.newReachStores[F.id]? = some p.books.reachStores := by
            rw [hothers F.id fun ci' hci' F' hF' => (hfirst ci' hci' F F' hF hF').symm, hstores, if_pos rfl]
          rw [herrors] at hkeep
          refine ⟨fun i hi => hkeep i (analyzeSite_rErrors hnc hsite i hi), fun g hg => ?_, fun ci' hci' => ?_⟩
          · rw [hothers g fun ci' hci' => hg ci' (.tail _ hci'), hstores, if_neg (hg ci (.head _) F hF)]
          · rcases List.mem_cons.mp hci' with rfl | hci'
            · exact ⟨s, F.id, m, p, hsite, rfl, fun _ => .inl rfl, hown, hkeep⟩
            · obtain ⟨s', f', m', p', hsite', hi', hfacts', hown', herr'⟩ := hlater ci' hci'
              refine ⟨s', f', m', p', hsite', hi'.trans hinterfs, fun g => ?_, hown', herr'⟩
              rcases hfacts' g with hg | hg
              · by_cases hFg : F.id = g
                · subst hFg
                  rw [hg, hstores, if_pos rfl, hown]
                  exact .inr rfl
                · rw [hg, hstores, if_neg hFg]
                  exact .inl rfl
              · exact .inr hg

end Iteration

/-! ### The sites of a program whose threads run once -/

/-- Each thread function is created at one place and `main` at none. -/
structure Module.StartedOnce (M : Module) : Prop where
  main : ∀ f, M.main = some f → ∀ c ∈ M.instrs, c.createdFunc ≠ some f
  site : ∀ c ∈ M.instrs, ∀ c' ∈ M.instrs, ∀ g, c.createdFunc = some g → c'.createdFunc = some g → c = c'

/-- The creations are compared pairwise. -/
theorem Module.startedOnce_of_creates {M : Module} {main : FuncId} (hmain : M.main = some main)
    (hnot : ∀ c ∈ M.instrs, c.createdFunc ≠ some main)
    (hsite : ∀ c ∈ M.instrs, ∀ c' ∈ M.instrs, c.createdFunc = c'.createdFunc → c.createdFunc = none ∨ c = c') :
    M.StartedOnce := by
  refine ⟨fun f hf => ?_, fun c hc c' hc' g hg hg' => ?_⟩
  · rw [← Option.some.inj (hmain.symm.trans hf)]
    exact hnot
  · refine (hsite c hc c' hc' (hg.trans hg'.symm)).resolve_left ?_
    rw [hg]
    exact nofun

theorem Module.getThreadCreate_eq (M : Module) : M.getThreadCreate = M.instrs.filter Instruction.isPthreadCreate := by
  unfold Module.getThreadCreate Module.instrs
  rw [List.filter_flatMap]
  rfl

theorem siteFunc_created {cx : Ctx} {main : Function} {ci : Instruction} {F : Function}
    (h : siteFunc cx main (some ci) = .ok F) : ci.createdFunc = some F.id := by
  obtain ⟨f, hf, h⟩ := bind_eq_ok.mp h
  cases hfunc : cx.module.func? f with
  | none => simp [hfunc, throw, throwThe, MonadExceptOf.throw] at h
  | some G =>
      rw [hfunc] at h
      cases h
      rw [(Module.func?_mem hfunc).2]
      exact createdFunc_of_getPThreadThreadFunc hf

section Sites

variable {cx : Ctx} {l : Setup ap} (hl : l.For cx) (hdyn : cx.opts.dynInitG = false)
include hl hdyn

theorem Setup.For.threadSites_eq :
    l.threadSites = (cx.module.instrs.filter Instruction.isPthreadCreate).map some ++ [none] := by
  rw [hl.sites, hdyn, if_neg Bool.false_ne_true, Module.getThreadCreate_eq]

theorem Setup.For.distinctFuncs (hM : cx.module.StartedOnce) : DistinctFuncs cx l.main l.threadSites := by
  unfold DistinctFuncs
  rw [hl.threadSites_eq hdyn, List.pairwise_append]
  refine ⟨?_, List.pairwise_singleton _ _, ?_⟩
  · have hnodup : (cx.module.instrs.filter Instruction.isPthreadCreate).Nodup :=
      (List.Nodup.of_map _ cx.module.instrs_nodup).filter _
    refine List.pairwise_map.mpr (hnodup.imp_of_mem fun {ci ci'} hci hci' hne => ?_)
    intro F F' hF hF' heq
    refine hne (hM.site ci (List.mem_filter.mp hci).1 ci' (List.mem_filter.mp hci').1 F.id (siteFunc_created hF) ?_)
    rw [heq]
    exact siteFunc_created hF'
  · intro ci hci ci' hci' F F' hF hF' heq
    obtain ⟨c, hc, rfl⟩ := List.mem_map.mp hci
    rw [List.mem_singleton.mp hci'] at hF'
    cases hF'
    refine hM.main l.main.id hl.main c (List.mem_filter.mp hc).1 ?_
    rw [← heq]
    exact siteFunc_created hF

/-- Each site is that of a thread function which the set-up has found. -/
theorem Setup.For.mem_threadFuncs {ci : Site} (hci : ci ∈ l.threadSites) {F : Function}
    (hF : siteFunc cx l.main ci = .ok F) : F.id ∈ l.threadFuncs := by
  obtain ⟨threads, hth, hfuncs⟩ := hl.funcs
  rw [hfuncs, hdyn, if_neg Bool.false_ne_true]
  rw [hl.threadSites_eq hdyn] at hci
  rcases List.mem_append.mp hci with hci | hci
  · obtain ⟨c, hc, rfl⟩ := List.mem_map.mp hci
    exact Std.TreeSet.mem_insert.mpr (.inr (mem_getThreads hth hc (siteFunc_created hF)))
  · rw [List.mem_singleton.mp hci] at hF
    cases hF
    exact Std.TreeSet.mem_insert_self

end Sites

/-! ### The last iteration -/

section Last

variable {o : BlockOrder} {cx : Ctx} {z3 : Solver} {rules : List Rule} {fuel : Nat} {l : Setup ap}
  {s u v t : RunState ap}

/-- The stores that the last iteration leaves behind, and what it was given. -/
theorem Setup.Last.newReachStores (h : l.Last o cx z3 rules fuel s u v t) :
    t.newReachStores = v.newReachStores ∧ t.rErrors = v.rErrors := by
  rcases h.result with ⟨_, _, rfl⟩ | ⟨_, rfl, _⟩ <;> exact ⟨rfl, rfl⟩

/-- **Stable and comparable stores** were all reached before the last iteration, with facts above the new
ones. -/
theorem Setup.Last.contained (hL : ap.Lattice) (hl : l.For cx) (h : l.Last o cx z3 rules fuel s u v t)
    (hno : l.noThreads = false) (hcomp : AllComparable v.allReachStores v.newReachStores) :
    Contained u.allReachStores t.newReachStores := by
  obtain ⟨hmid, _⟩ := threadsLoop_mid hl.func h.inv.mid h.analyzes
  rcases h.result with ⟨hyes, _⟩ | ⟨_, rfl, hstable⟩
  · rw [hno] at hyes
    cases hyes
  · rw [hmid.allReachStores] at hcomp hstable
    exact hcomp.contained hL hstable

/-- A store that interferes with a load at the end is among the interferences that the last iteration uses. -/
theorem Setup.Last.hasPair (hl : l.For cx) (hdyn : cx.opts.dynInitG = false)
    (h : l.Last o cx z3 rules fuel { threadFuncs := l.threadFuncs } u v t)
    (hcontained : Contained u.allReachStores t.newReachStores) {ci : Site} (hci : ci ∈ l.threadSites)
    {F : Function} (hF : siteFunc cx l.main ci = .ok F) {ld st : Value}
    (hi : Interferes cx.module F t.newReachStores ld st) :
    ((u.interfs[F.id]?).getD {}).HasPair ld st := by
  obtain ⟨hmid, _⟩ := threadsLoop_mid hl.func h.inv.mid h.analyzes
  obtain ⟨g, sts, hg, hne, hst, hload⟩ := hi
  obtain ⟨newF, hnew⟩ := Option.isSome_iff_exists.mp (Std.TreeMap.mem_iff_isSome_getElem?.mp hst)
  obtain ⟨oldF, ⟨g', sts', hg', hold⟩, _⟩ := hcontained st newF ⟨g, sts, hg, hnew⟩
  have hst' : st ∈ sts' := Std.TreeMap.mem_iff_isSome_getElem?.mpr (by rw [hold]; rfl)
  rcases h.inv.complete with hall | hempty
  · have hmem : F.id ∈ u.threadFuncs := by
      rw [h.static hdyn]
      exact hl.mem_threadFuncs hdyn hci hF
    obtain ⟨m, hm⟩ := Option.isSome_iff_exists.mp (hall F.id hmem)
    obtain ⟨F', hF', hused⟩ := h.inv.interfs F.id m hm
    obtain rfl : F' = F := Option.some.inj (hF'.symm.trans (siteFunc_func? hl.func hF))
    rw [h.newReachStores.1] at hg
    obtain rfl : g' = g := h.inv.owned.unique hmid.owned hg' hg hst' hst
    rw [hm]
    exact (getInterferingStores_hasPair hused ld st).mpr ⟨g', sts', hg', hne, hst', hload⟩
  · rw [hempty] at hg'
    simp at hg'

/-- Whichever of the two facts of a store an analysis of the last iteration finds, it is above the new one. -/
theorem Setup.Last.fact_below (K : Concretisation ap) (hl : l.For cx) (h : l.Last o cx z3 rules fuel s u v t)
    (hcontained : Contained u.allReachStores t.newReachStores) {s' : RunState ap}
    (hmixed : ∀ g : FuncId, s'.newReachStores[g]? = u.allReachStores[g]? ∨
      s'.newReachStores[g]? = v.newReachStores[g]?) {stFacts : StoreFacts ap}
    (hflat : flattenReachStores s'.newReachStores = .ok stFacts) {st : Value} {f fs : LatticeFact ap}
    (hf : t.newReachStores.Holds st f) (hfs : stFacts[st]? = some fs) : K.γ f ⊆ K.γ fs := by
  obtain ⟨hmid, _⟩ := threadsLoop_mid hl.func h.inv.mid h.analyzes
  have hold : u.allReachStores.Unique := fun _ _ _ _ _ hg hg' hs hs' => h.inv.owned.unique h.inv.owned hg hg' hs hs'
  have hnew : v.newReachStores.Unique := fun _ _ _ _ _ hg hg' hs hs' => hmid.owned.unique hmid.owned hg hg' hs hs'
  obtain ⟨g, sts, hg, hst⟩ := (flattenReachStores_getElem? hflat st fs).mp hfs
  rcases hmixed g with heq | heq
  · obtain ⟨oldF, holdF, hle⟩ := hcontained st f hf
    obtain rfl : fs = oldF := hold.holds_unique ⟨g, sts, heq ▸ hg, hst⟩ holdF
    exact K.leq_sound hle
  · rw [h.newReachStores.1] at hf
    obtain rfl : fs = f := hnew.holds_unique ⟨g, sts, heq ▸ hg, hst⟩ hf
    exact subset_rfl

/-- The last analysis of a function: a run of the worklist loop whose bookkeeping is in the final state, with
interferences above the facts of all stores that interfere at the end. -/
structure FinalAnalysis (K : Concretisation ap) (o : BlockOrder) (cx : Ctx) (entryFact : LatticeFact ap)
    (t : RunState ap) (F : Function) (interf : InterfMap ap) (ps : List (Pop BlockId (LatticeFact ap)))
    (w : LoopState o ap) : Prop where
  run : ∃ books, LoopRun o cx interf books entryFact F ps w
  finished : w.Finished
  stores : t.newReachStores[F.id]? = some w.books.reachStores
  rErrors : ∀ i ∈ w.books.rErrors, i ∈ t.rErrors
  interferes : ∀ (ld st : Value) (f : LatticeFact ap), Interferes cx.module F t.newReachStores ld st →
    t.newReachStores.Holds st f → ∃ J, interf[ld]? = some J ∧ K.γ f ⊆ K.γ J

/-- **The last analysis of each thread.** -/
theorem Setup.Last.finalAnalysis (K : Concretisation ap) (hL : ap.Lattice) (hM : cx.module.StartedOnce)
    (hnc : cx.opts.noCombinsG = true) (hdyn : cx.opts.dynInitG = false) (hmhb : cx.opts.filterMHB = false)
    (hl : l.For cx) (h : l.Last o cx z3 rules fuel { threadFuncs := l.threadFuncs } u v t)
    (hcomp : l.noThreads = false → AllComparable v.allReachStores v.newReachStores) {ci : Site}
    (hci : ci ∈ l.threadSites) {F : Function} (hF : siteFunc cx l.main ci = .ok F) :
    ∃ interf ps w, FinalAnalysis K o cx l.progInitState t F interf ps w := by
  obtain ⟨_, hothers, hsites⟩ := threadsLoop_analyzed hnc hdyn (hl.distinctFuncs hdyn hM) h.analyzes
  obtain ⟨s', f, m, p, hsite, hinterfs, hmixed, hstores, herrors⟩ := hsites ci hci
  obtain ⟨F', entryFact, stFacts, hF', rfl, hentry, hflat, hp⟩ := analyzeSite_ok hsite
  obtain rfl : F' = F := Except.ok.inj (hF'.symm.trans hF)
  have hentry' : entryFact = l.progInitState := by
    cases ci with
    | none => exact (Except.ok.inj hentry).symm
    | some c =>
        simp only [siteEntryFact, hdyn, if_neg Bool.false_ne_true] at hentry
        exact (Except.ok.inj hentry).symm
  subst hentry'
  obtain ⟨interf, mergeInterfs, res, hrun, hjoined⟩ := analyzeThreadInterf_nonComb hnc hp
  obtain ⟨ps, w, hloop, hfinished, _, hbooks⟩ := analyzeFunc_run hrun
  refine ⟨interf, ps, w, ⟨_, hloop⟩, hfinished, ?_, ?_, fun ld st f hi hf => ?_⟩
  · rw [h.newReachStores.1, hbooks]
    exact hstores
  · rw [h.newReachStores.2, hbooks]
    exact herrors
  · cases hno : l.noThreads with
    | true =>
        -- nothing but `main` has been analysed
        have honly : ∀ ci' ∈ l.threadSites, ci' = none := by
          rw [hl.sites, hdyn, if_neg Bool.false_ne_true, List.isEmpty_iff.mp (hl.noThreads.symm.trans hno)]
          exact fun ci' hci' => List.mem_singleton.mp hci'
        obtain ⟨g, sts, hg, hne, _⟩ := hi
        have hmain : F' = l.main := by
          rw [honly ci hci] at hF
          cases hF
          rfl
        have hg' := hothers g fun ci' hci' G hG heq => hne (by
          rw [honly ci' hci'] at hG
          cases hG
          rw [hmain]
          exact heq.symm)
        rw [h.newReachStores.1, hg'] at hg
        rcases h.result with ⟨_, rfl, _⟩ | ⟨hyes, _⟩
        · simp at hg
        · rw [hno] at hyes
          cases hyes
    | false =>
        have hcontained := h.contained hL hl hno (hcomp hno)
        obtain ⟨ss, hss, hmem⟩ := h.hasPair hl hdyn hcontained hci hF hi
        obtain ⟨J, hJ, hjoin⟩ := hjoined ld ss (by
          unfold curFInterf
          rw [hmhb, if_neg Bool.false_ne_true, hinterfs]
          exact hss)
        obtain ⟨fs, hfs, hle⟩ := joinStoreFacts_upper K.joinOrder hjoin hmem
        exact ⟨J, hJ, (h.fact_below K hl hcontained hmixed hflat hf hfs).trans hle⟩

/-- A run of the pass ends after it has compared these old and new stores. -/
def StopsAfter (o : BlockOrder) (cx : Ctx) (z3 : Solver) (rules : List Rule) (fuel : Nat)
    (oldI newI : ReachStores ap) : Prop :=
  ∃ l : Setup ap, setup cx = .ok l ∧ l.noThreads = false ∧ ∃ u v,
    Relation.ReflTransGen (l.GoesOn o cx z3 rules fuel) { threadFuncs := l.threadFuncs } u ∧
      l.Analyzes o cx z3 rules fuel u v ∧ v.allReachStores = oldI ∧ v.newReachStores = newI ∧
        stableStores oldI newI = .ok true

/-- The iterations are determined, so that the stores compared at the end are those that the loop returns. -/
theorem StopsAfter.eq {oldI newI : ReachStores ap} (h : StopsAfter o cx z3 rules fuel oldI newI)
    (hrun : runOnModule o cx z3 rules fuel = .ok t) : oldI = t.allReachStores ∧ newI = t.newReachStores := by
  obtain ⟨l, hsetup, hno, u, v, hbegins, hanalyzes, rfl, rfl, hstable⟩ := h
  rw [runOnModule_eq] at hrun
  obtain ⟨l', hsetup', hloop⟩ := bind_eq_ok.mp hrun
  obtain rfl : l' = l := Except.ok.inj (hsetup'.symm.trans hsetup)
  have hstop : interferenceIter o cx z3 rules l'.main l'.progInitState fuel l'.threadSites l'.noThreads u =
      .ok (true, { v with iter := v.iter + 1 }) := by
    refine bind_eq_ok.mpr ⟨v, hanalyzes, ?_⟩
    rw [hno, if_neg Bool.false_ne_true]
    refine bind_eq_ok.mpr ⟨true, ?_, rfl⟩
    rw [liftM_stop, liftStop_eq_ok]
    exact hstable
  generalize ({ threadFuncs := l'.threadFuncs } : RunState ap) = s₀ at hbegins hloop
  suffices hgen : ∀ n, l'.loop o cx z3 rules fuel n s₀ = .ok t →
      v.allReachStores = t.allReachStores ∧ v.newReachStores = t.newReachStores from hgen fuel hloop
  clear hloop
  induction hbegins using Relation.ReflTransGen.head_induction_on with
  | refl =>
      intro n hn
      cases n with
      | zero => cases hn
      | succ n =>
          obtain ⟨r, hr, hn⟩ := bind_eq_ok.mp hn
          obtain rfl := Except.ok.inj (hstop.symm.trans hr)
          cases hn
          exact ⟨rfl, rfl⟩
  | head hgoes _ ih =>
      intro n hn
      cases n with
      | zero => cases hn
      | succ n =>
          obtain ⟨r, hr, hn⟩ := bind_eq_ok.mp hn
          obtain rfl := Except.ok.inj (hgoes.symm.trans hr)
          exact ih n hn

/-- **The last analyses of a run**, when the facts that it has compared at the end are comparable. -/
theorem runOnModule_finalAnalysis (K : Concretisation ap) (hL : ap.Lattice) (hM : cx.module.StartedOnce)
    (hnc : cx.opts.noCombinsG = true) (hdyn : cx.opts.dynInitG = false) (hmhb : cx.opts.filterMHB = false)
    (h : runOnModule o cx z3 rules fuel = .ok t)
    (hcomp : ∀ oldI newI : ReachStores ap, StopsAfter o cx z3 rules fuel oldI newI → AllComparable oldI newI) :
    ∃ l : Setup ap, l.For cx ∧ ∀ ci ∈ l.threadSites, ∃ F, siteFunc cx l.main ci = .ok F ∧
      ∃ interf ps w, FinalAnalysis K o cx l.progInitState t F interf ps w := by
  obtain ⟨l, hsetup, hl, u, v, hlast⟩ := runOnModule_last h
  refine ⟨l, hl, fun ci hci => ?_⟩
  obtain ⟨_, _, hsites⟩ := threadsLoop_analyzed hnc hdyn (hl.distinctFuncs hdyn hM) hlast.analyzes
  obtain ⟨_, _, _, _, hsite, _⟩ := hsites ci hci
  obtain ⟨F, _, _, hF, _⟩ := analyzeSite_ok hsite
  refine ⟨F, hF, hlast.finalAnalysis K hL hM hnc hdyn hmhb hl (fun hno => ?_) hci hF⟩
  rcases hlast.result with ⟨hyes, _⟩ | ⟨_, _, hstable⟩
  · rw [hno] at hyes
    cases hyes
  · exact hcomp _ _ ⟨l, hsetup, hno, u, v, hlast.begins, hlast.analyzes, rfl, rfl, hstable⟩

end Last

end Watts
