import Watts.PassStops
import Watts.ThreadModular

/-! Programs with one thread.  The interferences, the permutations, the solver and the outer loop play no part:
the pass is one analysis of `main`, and it is sound without a condition on the facts that it meets. -/

namespace Watts

open Fallible (bind_eq_ok)

section Pass

variable {ap : Apron} {o : BlockOrder} {cx : Ctx} {z3 : Solver} {rules : List Rule} {main : Function}
  {progInitState : LatticeFact ap} {fuel : Nat}

theorem curFInterf_none {s : RunState ap} {f : FuncId} (h : s.interfs[f]? = none) :
    curFInterf cx z3 rules s f = ({}, s.mhbCache) := by
  unfold curFInterf
  rw [h]
  dsimp only [Option.getD_none]
  split_ifs <;> rfl

/-- The analysis of a function without interferences. -/
theorem analyzeThreadInterf_none (o : BlockOrder) (cx : Ctx) (z3 : Solver) (rules : List Rule) (fuel : Nat)
    (F : Function) (createSite : Option Instruction) (stFacts : StoreFacts ap)
    (books : Books ap) (permCache : PermCache) (entryFact : LatticeFact ap) :
    analyzeThreadInterf o cx z3 rules F createSite {} stFacts books permCache entryFact fuel =
      (analyzeFunc o cx {} books entryFact F false fuel).map fun r => ⟨r.2, r.1, permCache⟩ := by
  unfold analyzeThreadInterf
  rw [if_pos (show ({} : LoadStores).size = 0 from rfl)]
  cases analyzeFunc o cx {} books entryFact F false fuel <;> rfl

theorem discoverThreads_none {s : RunState ap} {reach : Std.TreeMap Value (LatticeFact ap)}
    (h : ∀ c : Value, reach[c]? = none) : discoverThreads cx reach s = .ok (s, []) := by
  have hlist : reach.toList = [] := by
    rw [List.eq_nil_iff_forall_not_mem]
    intro p hp
    have hp := Std.TreeMap.mem_toList_iff_getElem?_eq_some.mp hp
    rw [h] at hp
    cases hp
  unfold discoverThreads
  rw [hlist]
  split_ifs <;> rfl

/-- The first analysis of `main`, in a program that creates no thread. -/
theorem processThread_main (hsingle : cx.module.getThreadCreate = []) (hmain : cx.module.func? main.id = some main)
    {s : RunState ap} (hinterfs : s.interfs[main.id]? = none) (hstores : s.newReachStores = {}) :
    processThread o cx z3 rules main progInitState fuel s none =
      (analyzeFunc o cx {} { rErrors := s.rErrors } progInitState main false fuel).map fun r =>
        (s.analyzed main.id s.mhbCache ⟨r.2, r.1, s.permCache⟩, []) := by
  have hflat : flattenReachStores s.newReachStores = .ok {} := by
    rw [hstores]
    rfl
  have hprocess : processThread o cx z3 rules main progInitState fuel s none =
      analyzeThreadInterf o cx z3 rules main none {} {} { rErrors := s.rErrors } s.permCache progInitState fuel >>=
        fun p => liftStop (discoverThreads cx p.books.reachThreadCreate (s.analyzed main.id s.mhbCache p)) := by
    change (liftStop (flattenReachStores s.newReachStores) >>= fun stFacts =>
      analyzeThreadInterf o cx z3 rules main none (curFInterf cx z3 rules s main.id).1 stFacts
        { rErrors := s.rErrors } s.permCache progInitState fuel >>= fun p =>
          liftStop (discoverThreads cx p.books.reachThreadCreate
            (s.analyzed main.id (curFInterf cx z3 rules s main.id).2 p))) = _
    rw [curFInterf_none hinterfs, hflat]
    rfl
  have hcreate : ∀ p : PermState ap, Books.Within (Books.Bound.kindsOf ap main) p.books →
      ∀ c : Value, p.books.reachThreadCreate[c]? = none := by
    intro p hp c
    cases hc : p.books.reachThreadCreate[c]? with
    | none => rfl
    | some f =>
        obtain ⟨i, hi, hid, hkind⟩ := mem_instrs_of_kinds (Module.func?_mem hmain).1 hp c f hc
        have hmem : i ∈ cx.module.getThreadCreate := by
          rw [Module.getThreadCreate_eq]
          exact List.mem_filter.mpr ⟨hi, hkind⟩
        rw [hsingle] at hmem
        cases hmem
  have hanalysis := analyzeThreadInterf_none o cx z3 rules fuel main none {} { rErrors := s.rErrors } s.permCache
    progInitState
  cases hrun : analyzeFunc o cx {} { rErrors := s.rErrors } progInitState main false fuel with
  | error e =>
      rw [hrun] at hanalysis
      rw [hprocess, hanalysis]
      rfl
  | ok r =>
      rw [hrun] at hanalysis
      rw [hprocess, hanalysis]
      change liftStop _ = _
      rw [discoverThreads_none (hcreate _ (analyzeThreadInterf_kinds hanalysis))]
      rfl

/-- The outer loop when `main` waits alone and its analysis creates nothing. -/
theorem interferenceLoop_main {s : RunState ap} {n : Nat} {x : Except LoopStop (RunState ap)}
    (h : processThread o cx z3 rules main progInitState (fuel + 1) { s with newReachStores := s.allReachStores } none =
      x.map fun t => (t, [])) :
    interferenceLoop o cx z3 rules main progInitState (fuel + 1) [none] true (n + 1) s = x := by
  unfold interferenceLoop interferenceIter threadsLoop
  rw [h]
  cases x with
  | error e => rfl
  | ok t =>
      change (threadsLoop o cx z3 rules main progInitState (fuel + 1) fuel [] t >>= fun t => _) >>= _ = _
      unfold threadsLoop
      rfl

/-- What the pass returns on a program with one thread, from the analysis of `main`. -/
theorem runOnModule_main (ap : Apron) (o : BlockOrder) (z3 : Solver) (rules : List Rule) (fuel : Nat)
    (hsingle : cx.module.getThreadCreate = []) (hmain : cx.module.main.bind cx.module.func? = some main) :
    ∃ funcs : Std.TreeSet FuncId,
      (runOnModule o cx z3 rules (fuel + 1) : Except LoopStop (RunState ap)) = (do
        let progInitState ← getInitState cx.module ⟨ap.top⟩ cx.v2n
        let (res, books) ← analyzeFunc o cx {} {} progInitState main false (fuel + 1)
        return RunState.analyzed { threadFuncs := funcs } main.id (fun _ => none) ⟨books, res, {}⟩) := by
  obtain ⟨f, hf, hfunc⟩ := Option.bind_eq_some_iff.mp hmain
  obtain ⟨_, rfl⟩ := Module.func?_mem hfunc
  have hthreads : getThreads cx.module = .ok {} := by
    rw [Module.getThreadCreate_eq] at hsingle
    unfold getThreads
    rw [hsingle]
    rfl
  have hsites :
      (if cx.opts.dynInitG then [none] else ([] : List Instruction).map some ++ [none]) = [(none : Site)] := by
    split_ifs <;> rfl
  refine ⟨if cx.opts.dynInitG then {main.id} else ({} : Std.TreeSet FuncId).insert main.id, ?_⟩
  unfold runOnModule
  simp only [hmain, hthreads, hsingle]
  cases getInitState cx.module (⟨ap.top⟩ : LatticeFact ap) cx.v2n with
  | error e => rfl
  | ok init =>
      change interferenceLoop o cx z3 rules main init (fuel + 1)
        (if cx.opts.dynInitG then [none] else ([] : List Instruction).map some ++ [none]) true (fuel + 1) _ =
          analyzeFunc o cx {} {} init main false (fuel + 1) >>= fun r => _
      rw [hsites]
      apply interferenceLoop_main
      rw [processThread_main hsingle hfunc rfl rfl]
      cases analyzeFunc o cx {} {} init main false (fuel + 1) <;> rfl

/-- **Soundness for one thread.**  Whatever the flags, the solver and the facts on the way: when the pass returns,
it reports every error call that a run of `main` executes, and has the state after every store. -/
theorem runOnModule_singleThread_sound (K : Concretisation ap) (sem : Semantics) (o : BlockOrder) (cx : Ctx)
    (hsingle : cx.module.getThreadCreate = []) (main : Function)
    (hmain : cx.module.main.bind cx.module.func? = some main) (hnames : K.Names cx.v2n)
    (htr : K.SoundTransfer sem cx {} main) (hbr : K.SoundBranch sem cx main) (z3 : Solver) (rules : List Rule)
    (fuel : Nat) (t : RunState ap) (h : runOnModule o cx z3 rules fuel = .ok t) (first : BasicBlock)
    (hfirst : main.blocks.head? = some first) (init : Env) (hinit : cx.module.InitialState init)
    (tr : List Executed) (c : PathConf)
    (hpath : Path sem (fun _ ptr σ v => v = σ ptr) main ⟨first, first.body, init⟩ tr c) :
    ∀ e ∈ tr, (e.inst.kind = .call .assertFail → e.inst.id ∈ t.rErrors) ∧
      (e.inst.StoresOrUpdates → ∃ sts f, t.newReachStores[main.id]? = some sts ∧ sts[e.inst.id]? = some f ∧
        e.after ∈ K.γ f) := by
  cases fuel with
  | zero =>
      rw [runOnModule_eq] at h
      obtain ⟨l, _, h⟩ := bind_eq_ok.mp h
      cases h
  | succ fuel =>
      obtain ⟨funcs, hrun⟩ := runOnModule_main ap o z3 rules fuel hsingle hmain
      rw [hrun] at h
      obtain ⟨entryFact, hentry, h⟩ := bind_eq_ok.mp h
      obtain ⟨⟨res, books⟩, hanalysis, h⟩ := bind_eq_ok.mp h
      cases h
      rw [liftM_stop, liftStop_eq_ok] at hentry
      have hreads : ∀ (i : Instruction) (ptr : Value) (σ : Env) (v : Int), v = σ ptr →
          K.Reads {} cx.opts.noCombinsG i ptr σ v := by
        intro i ptr σ v hv
        simpa [Concretisation.Reads] using hv
      have haccounts :=
        analyzeFunc_accounts htr hbr hanalysis hreads hfirst (getInitState_sound hnames hinit hentry) hpath
      intro e he
      have hacc := haccounts e he
      unfold Concretisation.Accounts at hacc
      refine ⟨fun hk => ?_, ?_⟩
      · rw [hk] at hacc
        exact hacc
      · rintro (⟨v, p, hk⟩ | ⟨op, p, v, hk⟩)
        · rw [hk] at hacc
          obtain ⟨f, hf, hγ⟩ := hacc
          exact ⟨books.reachStores, f, Std.TreeMap.getElem?_insert_self, hf, hγ⟩
        · rw [hk] at hacc
          obtain ⟨f, hf, hγ⟩ := hacc
          exact ⟨books.reachStores, f, Std.TreeMap.getElem?_insert_self, hf, hγ⟩

end Pass

namespace CheckedLoad

/-- The thread as `main`, with `x` set to `1`. -/
def program : Module :=
  .ofFunctions [thread] [⟨0, some (.constantInt ⟨32, 1⟩)⟩] (some 0)

def cx : Ctx :=
  .ofModule program 4 { useBoxG := true }

theorem ownPath : ∃ τ σ', Path registers (fun _ ptr σ v => v = σ ptr) thread ⟨entry, entry.body, fun _ => 1⟩
    [⟨load, fun _ => 1, τ⟩, ⟨cmp, τ, σ'⟩, ⟨error, σ', σ'⟩] ⟨fails, [], σ'⟩ := by
  have hload : InstStep registers (fun _ ptr σ v => v = σ ptr) load (fun _ => 1) _ := .load rfl rfl
  have hcmp : InstStep registers (fun _ ptr σ v => v = σ ptr) cmp
      (Function.update (Function.update (fun _ => 1) 0 1) 1 1) _ :=
    .other rfl rfl rfl ⟨1, ⟨1, 1, rfl, rfl, .inl ⟨rfl, rfl⟩⟩, rfl⟩
  have hjump : Branches registers entry.terminator
      (Function.update (Function.update (Function.update (fun _ => 1) 0 1) 1 1) 2 1) fails.id :=
    .inl ⟨⟨rfl, 1, 1, rfl, rfl, by simp [Predicate.Holds]⟩, rfl⟩
  exact ⟨_, _, .inst (.jump (.inst (.inst (.nil _) hload) hcmp) hjump (.tail _ (.head _))) (.call rfl)⟩

/-- The error of the thread is reported. -/
theorem runOnModule_singleThread_sound_checkedLoad : ∃ t : RunState boxes,
    runOnModule .increasing cx (fun _ _ => .lUndef) [] 20 = .ok t ∧ error.id ∈ t.rErrors := by
  obtain ⟨t, ht⟩ := exists_ok (x := (runOnModule .increasing cx (fun _ _ => .lUndef) [] 20 :
    Except LoopStop (RunState boxes))) (by decide)
  obtain ⟨τ, σ', hpath⟩ := ownPath
  have hinit : cx.module.InitialState fun _ => 1 := by
    intro g hg ci hci
    obtain rfl := List.mem_singleton.mp hg
    cases hci
    rfl
  have hsound := runOnModule_singleThread_sound (Box.concretisation (Box.numbered 4)) registers .increasing cx
    (by decide) thread rfl (Box.names (Box.numbered_injective 4))
    (Box.soundTransfer cx (Box.numbered_injective 4) _ _ plain)
    (Box.soundBranch cx _ plain) (fun _ _ => .lUndef) [] 20 t ht entry rfl (fun _ => 1)
    hinit _ _ hpath
  exact ⟨t, ht, (hsound _ (.tail _ (.tail _ (.head _)))).1 rfl⟩

end CheckedLoad

end Watts
