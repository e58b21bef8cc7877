import Mathlib.Tactic.IntervalCases
import Watts.Library.Queue
import Watts.RecordedStores

/-! The threads that are found while iterating.  The queue takes every creation site that an analysis
reaches, also one that it has had before, so that threads which create one another keep it filled. -/

namespace Watts

open Fallible (bind_eq_ok foldlM_preserves)

variable {ap : Apron}

/-! ### The loop as a queue -/

section Queue

variable (o : BlockOrder) (cx : Ctx) (z3 : Solver) (rules : List Rule) (main : Function)
  (progInitState : LatticeFact ap) (fuel : Nat)

/-- The state after the analysis of a site and the sites that it reaches. -/
def processSite (s : RunState ap) (ci : Site) : Option (RunState ap × List Site) :=
  (processThread o cx z3 rules main progInitState fuel s ci).toOption

/-- Every analysis that the loop asks for returns. -/
def AnalysesReturn (sites : List Site) (s : RunState ap) : Prop :=
  ∀ k e queue t, Queue.after (processSite o cx z3 rules main progInitState fuel) k sites s = (e :: queue, t) →
    processThread o cx z3 rules main progInitState fuel t e.val ≠ .error .outOfFuel

/-- The creation sites lead to one another over at most `K` steps. -/
def CreatesNestedWithin (sites : List Site) (s : RunState ap) (K : Nat) : Prop :=
  Queue.NestedWithin (processSite o cx z3 rules main progInitState fuel) sites s K

end Queue

section Run

variable {o : BlockOrder} {cx : Ctx} {z3 : Solver} {rules : List Rule} {main : Function}
  {progInitState : LatticeFact ap} {fuel : Nat}

theorem processSite_ok {s : RunState ap} {ci : Site} {r : RunState ap × List Site} :
    processSite o cx z3 rules main progInitState fuel s ci = some r ↔
      processThread o cx z3 rules main progInitState fuel s ci = .ok r := by
  unfold processSite
  cases processThread o cx z3 rules main progInitState fuel s ci with
  | ok r' => exact ⟨fun h => congrArg _ (Option.some.inj h), fun h => congrArg _ (Except.ok.inj h)⟩
  | error stop => exact ⟨nofun, nofun⟩

theorem processSite_error {s : RunState ap} {ci : Site} {stop : LoopStop}
    (h : processThread o cx z3 rules main progInitState fuel s ci = .error stop) :
    processSite o cx z3 rules main progInitState fuel s ci = none := by
  unfold processSite
  rw [h]
  rfl

/-- The loop still runs after `n` entries exactly when the queue is not empty then. -/
theorem threadsLoop_outOfFuel_iff {n : Nat} {queue : List (Queue.Item Site)} {s : RunState ap}
    (hret : ∀ k e queue' t, (Queue.step (processSite o cx z3 rules main progInitState fuel))^[k] (queue, s) =
        (e :: queue', t) → processThread o cx z3 rules main progInitState fuel t e.val ≠ .error .outOfFuel) :
    threadsLoop o cx z3 rules main progInitState fuel n (queue.map Queue.Item.val) s = .error .outOfFuel ↔
      ((Queue.step (processSite o cx z3 rules main progInitState fuel))^[n] (queue, s)).1 ≠ [] := by
  induction n generalizing queue s with
  | zero =>
      cases queue with
      | nil => exact ⟨nofun, fun h => absurd rfl h⟩
      | cons e queue => exact ⟨fun _ => List.cons_ne_nil _ _, fun _ => rfl⟩
  | succ n ih =>
      cases queue with
      | nil =>
          rw [Queue.iterate_nil]
          exact ⟨nofun, fun h => absurd rfl h⟩
      | cons e queue =>
          have hhead := hret 0 e queue s rfl
          rw [Function.iterate_succ_apply, List.map_cons, threadsLoop]
          cases hp : processThread o cx z3 rules main progInitState fuel s e.val with
          | error stop =>
              rw [Queue.step_cons_none (processSite_error hp), Queue.iterate_nil]
              refine ⟨fun h => absurd ?_ hhead, fun h => absurd rfl h⟩
              rw [hp]
              exact congrArg Except.error (Except.error.inj h)
          | ok r =>
              have hstep := @Queue.step_cons_some _ _ _ e queue _ _ _ (processSite_ok.mpr hp)
              have hret' := fun k e' queue' t h => hret (k + 1) e' queue' t
                (by rw [Function.iterate_succ_apply, hstep]; exact h)
              rw [hstep, ← ih hret', List.map_append, List.map_map]
              have hval : r.2.map (Queue.Item.val ∘ fun y => (⟨y, e.depth + 1⟩ : Queue.Item Site)) = r.2 :=
                List.map_id r.2
              rw [hval]
              rfl

/-- **Thread discovery.**  Where the analyses return, the loop processes finitely many entries exactly when
the creation sites that they reach are nested within a bound. -/
theorem threadsLoop_ends_iff (o : BlockOrder) (cx : Ctx) (z3 : Solver) (rules : List Rule)
    (main : Function) (progInitState : LatticeFact ap) (fuel : Nat) (sites : List Site) (s : RunState ap)
    (hret : AnalysesReturn o cx z3 rules main progInitState fuel sites s) :
    (∃ n, threadsLoop o cx z3 rules main progInitState fuel n sites s ≠ .error .outOfFuel) ↔
      ∃ K, CreatesNestedWithin o cx z3 rules main progInitState fuel sites s K := by
  have hloop := fun n => @threadsLoop_outOfFuel_iff _ o cx z3 rules main progInitState fuel n (sites.map (⟨·, 0⟩)) s hret
  have hval : (sites.map (⟨·, 0⟩)).map (fun e : Queue.Item Site => e.val) = sites := by
    rw [List.map_map]
    exact List.map_id sites
  rw [hval] at hloop
  refine Iff.trans ?_ Queue.drains_iff
  exact exists_congr fun n => (not_congr (hloop n)).trans not_not

/-! ### Creation graphs without a cycle -/

/-- The thread function of a site. -/
def siteFuncId (main : Function) : Site → Option FuncId
  | none => some main.id
  | some ci => ci.createdFunc

/-- A function has a `pthread_create` call of another. -/
def Module.Creates (M : Module) (f g : FuncId) : Prop :=
  ∃ F ∈ M.functions, F.id = f ∧ ∃ c ∈ F.instrs, c.createdFunc = some g

/-- The bookkeeping holds calls of the function only. -/
def Books.Bound.createsOf (ap : Apron) (F : Function) : Books.Bound ap where
  error _ := True
  store _ _ := True
  create c _ := ∃ i ∈ F.instrs, i.id = c

theorem Books.Bound.createsOf_joinClosed (F : Function) : (Books.Bound.createsOf ap F).JoinClosed :=
  ⟨fun _ _ _ _ _ => trivial, fun _ _ _ h _ => h⟩

theorem Books.allows_createsOf {F : Function} {i : Instruction} (hi : i ∈ F.instrs)
    (fIn fOut : LatticeFact ap) : Books.Allows (Books.Bound.createsOf ap F) i fIn fOut := by
  unfold Books.Allows
  split
  · trivial
  · trivial
  · exact ⟨i, hi, rfl⟩
  · trivial
  · trivial

theorem siteFuncId_of_siteFunc {ci : Site} {F : Function} (h : siteFunc cx main ci = .ok F) :
    siteFuncId main ci = some F.id := by
  cases ci with
  | none =>
      cases h
      rfl
  | some ci =>
      obtain ⟨f, hf, h⟩ := bind_eq_ok.mp h
      cases hF : cx.module.func? f with
      | none => simp [hF, throw, throwThe, MonadExceptOf.throw] at h
      | some G =>
          rw [hF] at h
          cases h
          rw [(Module.func?_mem hF).2]
          exact createdFunc_of_getPThreadThreadFunc hf

/-- The sites that are found are calls that the analysis has reached. -/
theorem mem_discoverThreads {reach : Std.TreeMap Value (LatticeFact ap)} {s : RunState ap}
    {r : RunState ap × List Site} (h : discoverThreads cx reach s = .ok r) :
    ∀ y ∈ r.2, ∃ c f, y = some c ∧ c ∈ cx.module.instrs ∧ reach[c.id]? = some f ∧
      ∃ g, c.createdFunc = some g := by
  unfold discoverThreads at h
  split_ifs at h
  · refine foldlM_preserves (fun r : RunState ap × List Site => ∀ y ∈ r.2, ∃ c f, y = some c ∧
      c ∈ cx.module.instrs ∧ reach[c.id]? = some f ∧ ∃ g, c.createdFunc = some g)
      ?_ (fun _ hy => absurd hy List.not_mem_nil) h
    intro p hp r r' ih hstep
    unfold discoverThread at hstep
    cases hcall : cx.module.instr? p.1 with
    | none => simp [hcall] at hstep
    | some curCall =>
        simp only [hcall] at hstep
        obtain ⟨thrdFunc, hfunc, hstep⟩ := bind_eq_ok.mp hstep
        cases hstep
        intro y hy
        rcases List.mem_append.mp hy with hy | hy
        · exact ih y hy
        · obtain ⟨hmem, hid⟩ := Module.instr?_mem hcall
          refine ⟨curCall, p.2, List.mem_singleton.mp hy, hmem, ?_, thrdFunc,
            createdFunc_of_getPThreadThreadFunc hfunc⟩
          rw [hid]
          exact Std.TreeMap.mem_toList_iff_getElem?_eq_some.mp hp
  · cases h
    exact fun _ hy => absurd hy List.not_mem_nil

/-- **A site that processing reaches** is a call in the function of the site that is processed. -/
theorem processThread_creates (hmain : cx.module.func? main.id = some main) {s : RunState ap} {ci : Site}
    {r : RunState ap × List Site}
    (h : processThread o cx z3 rules main progInitState fuel s ci = .ok r) :
    ∃ f, siteFuncId main ci = some f ∧
      ∀ y ∈ r.2, ∃ g, siteFuncId main y = some g ∧ cx.module.Creates f g := by
  obtain ⟨f, mhbCache, p, hsite, hdiscover⟩ := processThread_ok h
  obtain ⟨F, hF, hsite⟩ := bind_eq_ok.mp hsite
  obtain ⟨entryFact, _, hsite⟩ := bind_eq_ok.mp hsite
  obtain ⟨stFacts, _, hsite⟩ := bind_eq_ok.mp hsite
  obtain ⟨p', hp, hsite⟩ := bind_eq_ok.mp hsite
  cases hsite
  rw [liftM_stop, liftStop_eq_ok] at hF
  obtain ⟨hmem, _⟩ := Module.func?_mem (siteFunc_func? hmain hF)
  refine ⟨F.id, siteFuncId_of_siteFunc hF, fun y hy => ?_⟩
  obtain ⟨c, fact, rfl, hc, hreach, g, hg⟩ := mem_discoverThreads hdiscover y hy
  have hwithin : Books.Within (Books.Bound.createsOf ap F) p.books :=
    analyzeThreadInterf_within (Books.Bound.createsOf_joinClosed F) (fun i hi => Books.allows_createsOf hi)
      ⟨fun _ _ => trivial, fun _ _ _ => trivial, fun i f hi => by simp at hi⟩ hp
  obtain ⟨i, hi, hid⟩ := hwithin.reachThreadCreate c.id fact hreach
  have hic : i = c := cx.module.eq_of_id_eq (Module.mem_instrs.mpr ⟨F, hmem, hi⟩) hc hid
  exact ⟨g, hg, F, hmem, rfl, c, hic ▸ hi, hg⟩

/-- The functions that a function may create, itself included, number fewer and fewer along an acyclic
creation graph. -/
theorem Module.exists_rank {M : Module} (hM : ∀ f, ¬ Relation.TransGen M.Creates f f) :
    ∃ rank : FuncId → Nat, ∀ f g, M.Creates f g → rank g < rank f := by
  classical
  let below (f : FuncId) : Finset FuncId :=
    (M.functions.map Function.id).toFinset.filter (Relation.ReflTransGen M.Creates f)
  refine ⟨fun f => (below f).card, fun f g hfg => Finset.card_lt_card ⟨fun k hk => ?_, fun hsub => ?_⟩⟩
  · obtain ⟨hk, hgk⟩ := Finset.mem_filter.mp hk
    exact Finset.mem_filter.mpr ⟨hk, .head hfg hgk⟩
  · have hf : f ∈ below f := by
      obtain ⟨F, hF, hid, _⟩ := hfg
      exact Finset.mem_filter.mpr ⟨List.mem_toFinset.mpr (List.mem_map.mpr ⟨F, hF, hid⟩), .refl⟩
    exact hM f (.head' hfg (Finset.mem_filter.mp (hsub hf)).2)

/-- **An acyclic creation graph** nests the creation sites within a bound. -/
theorem createsNestedWithin_of_acyclic (hmain : cx.module.func? main.id = some main)
    (hM : ∀ f, ¬ Relation.TransGen cx.module.Creates f f) (sites : List Site) (s : RunState ap) :
    ∃ K, CreatesNestedWithin o cx z3 rules main progInitState fuel sites s K := by
  obtain ⟨rank, hrank⟩ := Module.exists_rank hM
  let siteRank (ci : Site) : Nat := (siteFuncId main ci).elim 0 rank
  refine ⟨(sites.map siteRank).sum, Queue.nestedWithin_of_rank siteRank (fun ci hci => ?_) ?_⟩
  · exact List.single_le_sum (fun _ _ => Nat.zero_le _) _ (List.mem_map_of_mem hci)
  · intro s ci s' reached h y hy
    obtain ⟨f, hf, hreached⟩ := processThread_creates hmain (processSite_ok.mp h)
    obtain ⟨g, hg, hfg⟩ := hreached y hy
    show (siteFuncId main y).elim 0 rank < (siteFuncId main ci).elim 0 rank
    rw [hf, hg]
    exact hrank f g hfg

end Run
namespace TwoSites

/-- The analyses of `main` and of the two threads. -/
theorem analysesReturn : AnalysesReturn .increasing (cx true) (fun _ _ => .lUndef) [] main progInitState 40
    [none] start := by
  intro k e queue t hk
  have hend : (Queue.after (processSite .increasing (cx true) (fun _ _ => .lUndef) [] main progInitState 40)
      3 [none] start).1 = [] := by rfl
  have hk3 : k < 3 := by
    by_contra hlt
    have hempty := Queue.after_eq_nil_of_le hend (Nat.le_of_not_lt hlt)
    rw [hk] at hempty
    cases hempty
  interval_cases k
  all_goals
    cases hk
    exact fun h => nomatch h

theorem acyclic (f : FuncId) : ¬ Relation.TransGen program.Creates f f := by
  have hcreates : ∀ f g, program.Creates f g → f = 0 ∧ g = 1 := by
    intro f g ⟨F, hF, hid, c, hc, hg⟩
    have hall : ∀ F ∈ program.functions, ∀ c ∈ F.instrs, ∀ g ∈ c.createdFunc, F.id = 0 ∧ g = 1 := by decide
    exact hid ▸ hall F hF c hc g hg
  intro h
  obtain ⟨g, hfg, _⟩ := Relation.TransGen.head'_iff.mp h
  obtain ⟨k, _, hkf⟩ := Relation.TransGen.tail'_iff.mp h
  exact absurd ((hcreates f g hfg).1.symm.trans (hcreates k f hkf).2) Nat.zero_ne_one

/-- The threads of `main` create no others. -/
theorem sites_end : ∃ n, threadsLoop .increasing (cx true) (fun _ _ => .lUndef) [] main progInitState 40 n
    [none] start ≠ .error .outOfFuel :=
  (threadsLoop_ends_iff .increasing (cx true) (fun _ _ => .lUndef) [] main progInitState 40 [none] start
    analysesReturn).mpr (createsNestedWithin_of_acyclic rfl acyclic [none] start)

end TwoSites

namespace SelfCreate

def createMain : Instruction := ⟨20, .call (.pthreadCreate 40 (some 1) []), none, []⟩
def createThread : Instruction := ⟨21, .call (.pthreadCreate 41 (some 1) []), none, []⟩

/-- `pthread_create(.., thread)` -/
def main : Function :=
  .ofBlocks 0 [.ofInstrs 100 [⟨40, .alloca, none, []⟩, createMain] ⟨30, .ret, none, []⟩]

/-- A thread that creates another one with its own function. -/
def thread : Function :=
  .ofBlocks 1 [.ofInstrs 110 [⟨41, .alloca, none, []⟩, createThread] ⟨31, .ret, none, []⟩]

def program : Module :=
  .ofFunctions [main, thread] [] (some 0)

def cx : Ctx :=
  .ofModule program 4 { useBoxG := true, dynInitG := true }

/-- Where the first iteration begins. -/
def start : RunState boxes where
  threadFuncs := {0}

def progInitState : LatticeFact boxes :=
  ⟨boxes.top⟩

def process (s : RunState boxes) (ci : Site) : Option (RunState boxes × List Site) :=
  processSite .increasing cx (fun _ _ => .lUndef) [] main progInitState 40 s ci

/-- The state after the analyses of some sites. -/
def run (sites : List Site) : RunState boxes :=
  sites.foldl (fun s ci => ((process s ci).map Prod.fst).getD s) start

theorem process_main : process start none = some (run [none], [some createMain]) := by rfl

theorem process_createMain : process (run [none]) (some createMain) =
    some (run [none, some createMain], [some createThread]) := by rfl

/-- From the second thread on an analysis changes nothing and reaches its own site. -/
theorem process_createThread : process (run [none, some createMain]) (some createThread) =
    some (run [none, some createMain], [some createThread]) := by rfl

theorem step_process {s s' : RunState boxes} {ci : Site} {d : Nat} {reached : List Site}
    (h : process s ci = some (s', reached)) :
    Queue.step process ([⟨ci, d⟩], s) = (reached.map (⟨·, d + 1⟩), s') :=
  Queue.step_cons_some (e := ⟨ci, d⟩) h

theorem after_two (k : Nat) : Queue.after process (k + 2) [none] start =
    ([⟨some createThread, k + 2⟩], run [none, some createMain]) := by
  induction k with
  | zero =>
      rw [Queue.after_succ, Queue.after_succ]
      show Queue.step process (Queue.step process ([⟨none, 0⟩], start)) = _
      rw [step_process process_main]
      exact step_process process_createMain
  | succ k ih =>
      rw [Queue.after_succ, ih]
      exact step_process process_createThread

theorem analysesReturn :
    AnalysesReturn .increasing cx (fun _ _ => .lUndef) [] main progInitState 40 [none] start := by
  intro k e queue t hk
  have hsome : ∃ r, process t e.val = some r := by
    cases k with
    | zero =>
        cases hk
        exact ⟨_, process_main⟩
    | succ k =>
        cases k with
        | zero =>
            have hone : Queue.after process 1 [none] start = ([⟨some createMain, 1⟩], run [none]) :=
              step_process process_main
            cases hone.symm.trans hk
            exact ⟨_, process_createMain⟩
        | succ k =>
            cases (after_two k).symm.trans hk
            exact ⟨_, process_createThread⟩
  obtain ⟨r, hr⟩ := hsome
  rw [processSite_ok.mp hr]
  exact nofun

/-- **A thread that creates itself** keeps the queue filled. -/
theorem never_ends : getInitState program ⟨boxes.top⟩ cx.v2n = .ok progInitState ∧
    AnalysesReturn .increasing cx (fun _ _ => .lUndef) [] main progInitState 40 [none] start ∧
    ¬ ∃ n, threadsLoop .increasing cx (fun _ _ => .lUndef) [] main progInitState 40 n [none] start ≠
      .error .outOfFuel := by
  refine ⟨rfl, analysesReturn, fun ⟨n, hn⟩ => hn ?_⟩
  refine (@threadsLoop_outOfFuel_iff _ _ _ _ _ _ _ _ n [⟨none, 0⟩] start analysesReturn).mpr fun hempty => ?_
  have hlater := @Queue.after_eq_nil_of_le _ _ process _ _ [none] start hempty
    (Nat.le_add_right n 2)
  rw [after_two] at hlater
  cases hlater

end SelfCreate

end Watts
