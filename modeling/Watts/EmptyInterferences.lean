import Watts.MustHappenBefore
import Watts.StaleInterfs

/-! The interferences that the analysis of a thread starts from.  Each load has a store when they are
computed, and the filter by the must-happen-before relation may leave a load without any. -/

namespace Watts

open Fallible (FailsIn bind_eq_ok foldlM_preserves)

variable {ap : Apron}

/-! ### Loads and their stores -/

/-- Every load of the map has a store. -/
def LoadStores.Inhabited (m : LoadStores) : Prop :=
  ∀ (l : Value) ss, m[l]? = some ss → ss ≠ []

theorem LoadStores.inhabited_empty : LoadStores.Inhabited {} := by
  intro l ss h
  simp at h

theorem mapInsertToVector_inhabited {m : LoadStores} (h : m.Inhabited) (key val : Value) :
    (mapInsertToVector m key val).Inhabited := by
  have hinsert : ∀ (m' : LoadStores) (ss : List Value), m'.Inhabited → ss ≠ [] →
      LoadStores.Inhabited (m'.insert key ss) := by
    intro m' ss hm' hss l ss' hl
    rw [Std.TreeMap.getElem?_insert] at hl
    split_ifs at hl
    · cases hl
      exact hss
    · exact hm' l ss' hl
  unfold mapInsertToVector
  cases m[key]? with
  | none => exact hinsert m [val] h (List.cons_ne_nil _ _)
  | some old =>
      refine hinsert (m.erase key) (old ++ [val]) (fun l ss hl => ?_) (by simp)
      rw [Std.TreeMap.getElem?_erase] at hl
      split_ifs at hl
      exact h l ss hl

/-- **Interferences are computed store by store**, so that no load gets an empty list. -/
theorem getInterferingStores_inhabited {M : Module} {f : Function} {rStores : ReachStores ap} {m : LoadStores}
    (h : getInterferingStores M f rStores = .ok m) : m.Inhabited := by
  refine foldlM_preserves LoadStores.Inhabited (fun other _ ret ret' hret hstep => ?_)
    LoadStores.inhabited_empty h
  unfold addInterferingStores at hstep
  split_ifs at hstep
  · cases hstep
    exact hret
  · refine foldlM_preserves LoadStores.Inhabited (fun l _ ret ret' hret hstep => ?_) hret hstep
    refine foldlM_preserves LoadStores.Inhabited (fun s _ ret ret' hret hstep => ?_) hret hstep
    unfold addInterferingStore at hstep
    cases hs : M.instr? s with
    | none => simp [hs] at hstep
    | some si =>
        simp only [hs] at hstep
        obtain ⟨same, _, hstep⟩ := bind_eq_ok.mp hstep
        cases same <;> cases hstep
        · exact hret
        · exact mapInsertToVector_inhabited hret l.id s

/-- **The assertion of `joinInterfs` holds** when every load has a store. -/
theorem joinInterfs_ne_assert {m : LoadStores} (h : m.Inhabited) (sToF : StoreFacts ap) :
    joinInterfs m sToF ≠ .error (.abort "load with zero interfering stores") := by
  have hmap : ∀ s, FailsIn (· ≠ .abort "load with zero interfering stores") (mapAtUnsafe sToF s) := by
    intro s
    unfold mapAtUnsafe
    cases sToF[s]? with
    | some f => exact .ok f
    | none => exact .error (by decide)
  have hfails : FailsIn (· ≠ .abort "load with zero interfering stores") (joinInterfs m sToF) := by
    refine .foldlM (fun p hp joined => .bind ?_ fun _ => .ok _) _
    cases hss : p.2 with
    | nil => exact absurd hss (h p.1 p.2 (Std.TreeMap.mem_toList_iff_getElem?_eq_some.mp hp))
    | cons s ss =>
        exact .bind (hmap s) fun lfact => .foldlM (fun s' _ _ => .bind (hmap s') fun _ => .ok _) lfact
  exact fun herr => hfails _ herr rfl

section Filter

variable {z3 : Solver} {rules : List Rule}

/-- The filter keeps the loads. -/
theorem filterMHBInterfs_isSome (cache : MHBCache) (interfs : LoadStores) (l : Value) :
    ((filterMHBInterfs z3 rules cache interfs).1[l]?).isSome ↔ (interfs[l]?).isSome := by
  have hfold : ∀ (ps : List (Value × List Value)) (r : LoadStores × MHBCache),
      ((ps.foldl
        (fun r p =>
          (r.1.insert p.1 (filterStores z3 rules p.1 p.2 r.2).1, (filterStores z3 rules p.1 p.2 r.2).2)) r).1[l]?).isSome ↔
        (r.1[l]?).isSome ∨ ∃ ss, (l, ss) ∈ ps := by
    intro ps
    induction ps with
    | nil => simp
    | cons p ps ih =>
        intro r
        rw [List.foldl_cons, ih]
        dsimp only
        rw [Std.TreeMap.getElem?_insert]
        by_cases hp : p.1 = l
        · rw [if_pos (Nat.compare_eq_eq.mpr hp)]
          exact iff_of_true (.inl rfl) (.inr ⟨p.2, by rw [← hp]; exact .head _⟩)
        · rw [if_neg (fun hc => hp (Nat.compare_eq_eq.mp hc))]
          refine or_congr_right (exists_congr fun ss => ?_)
          rw [List.mem_cons, or_iff_right]
          exact fun heq => hp (congrArg Prod.fst heq).symm
  refine (hfold interfs.toList ({}, cache)).trans ?_
  rw [or_iff_right (by simp), Option.isSome_iff_exists]
  exact exists_congr fun ss => Std.TreeMap.mem_toList_iff_getElem?_eq_some

/-- Some store of each load need not happen after it. -/
def SomeStoreKept (z3 : Solver) (rules : List Rule) (m : LoadStores) : Prop :=
  ∀ (l : Value) ss, m[l]? = some ss → ∃ s ∈ ss, queryMHB z3 rules l s ≠ .lTrue

theorem filterMHBInterfs_inhabited_iff {cache : MHBCache} (h : cache.Faithful z3 rules) (m : LoadStores) :
    (filterMHBInterfs z3 rules cache m).1.Inhabited ↔ SomeStoreKept z3 rules m := by
  have hpair := (filterMHBInterfs_spec h m).1
  constructor
  · intro hin l ss hss
    obtain ⟨ss', hss'⟩ := Option.isSome_iff_exists.mp
      ((filterMHBInterfs_isSome cache m l).mpr (by rw [hss]; rfl))
    obtain ⟨s, hs⟩ := List.exists_mem_of_ne_nil ss' (hin l ss' hss')
    obtain ⟨⟨ss₀, hss₀, hmem⟩, hquery⟩ := (hpair l s).mp ⟨ss', hss', hs⟩
    obtain rfl : ss = ss₀ := Option.some.inj (hss.symm.trans hss₀)
    exact ⟨s, hmem, hquery⟩
  · intro hkept l ss' hss' hnil
    obtain ⟨ss, hss⟩ := Option.isSome_iff_exists.mp
      ((filterMHBInterfs_isSome cache m l).mp (by rw [hss']; rfl))
    obtain ⟨s, hs, hquery⟩ := hkept l ss hss
    obtain ⟨ss₀, hss₀, hmem⟩ := (hpair l s).mpr ⟨⟨ss, hss, hs⟩, hquery⟩
    obtain rfl : ss' = ss₀ := Option.some.inj (hss'.symm.trans hss₀)
    rw [hnil] at hmem
    cases hmem

end Filter

/-! ### The calls of `analyzeThreadInterf` -/

section Calls

variable (o : BlockOrder) (cx : Ctx) (z3 : Solver) (rules : List Rule) (main : Function)
  (progInitState : LatticeFact ap) (fuel : Nat)

/-- The threads that an iteration gets to, with the state that the analysis of each finds. -/
inductive ThreadsReach : List Site → RunState ap → Site → RunState ap → Prop
  | here {ci : Site} {sites : List Site} {s : RunState ap} : ThreadsReach (ci :: sites) s ci s
  | next {ci ci' : Site} {sites : List Site} {s t : RunState ap} {r : RunState ap × List Site} :
      processThread o cx z3 rules main progInitState fuel s ci = .ok r →
      ThreadsReach (sites ++ r.2) r.1 ci' t → ThreadsReach (ci :: sites) s ci' t

/-- The threads that a run of the pass gets to. -/
def Setup.Reaches (l : Setup ap) (ci : Site) (t : RunState ap) : Prop :=
  ∃ u : RunState ap, Relation.ReflTransGen (l.GoesOn o cx z3 rules fuel) { threadFuncs := l.threadFuncs } u ∧
    ThreadsReach o cx z3 rules l.main l.progInitState fuel l.threadSites
      { u with newReachStores := u.allReachStores } ci t

end Calls

section Invariant

variable {o : BlockOrder} {cx : Ctx} {z3 : Solver} {rules : List Rule} {main : Function}
  {progInitState : LatticeFact ap} {fuel : Nat}

/-- Every computed interference has a store for each load, and the cache of the filter holds the answers of
the solver. -/
structure InterfsInv (z3 : Solver) (rules : List Rule) (s : RunState ap) : Prop where
  interfs : ∀ (f : FuncId) m, s.interfs[f]? = some m → m.Inhabited
  cache : s.mhbCache.Faithful z3 rules

theorem InterfsInv.getD {s : RunState ap} (h : InterfsInv z3 rules s) (f : FuncId) :
    (s.interfs[f]?.getD {}).Inhabited := by
  cases hf : s.interfs[f]? with
  | none => exact LoadStores.inhabited_empty
  | some m => exact h.interfs f m hf

theorem InterfsInv.curFInterf_cache {s : RunState ap} (h : InterfsInv z3 rules s) (f : FuncId) :
    MHBCache.Faithful z3 rules (curFInterf cx z3 rules s f).2 := by
  unfold curFInterf
  dsimp only
  split_ifs
  · exact (filterMHBInterfs_spec h.cache _).2
  · exact h.cache

/-- The interferences that an analysis starts from. -/
theorem InterfsInv.curFInterf_inhabited_iff {s : RunState ap} (h : InterfsInv z3 rules s) (f : FuncId) :
    (curFInterf cx z3 rules s f).1.Inhabited ↔
      (cx.opts.filterMHB = true → SomeStoreKept z3 rules (s.interfs[f]?.getD {})) := by
  unfold curFInterf
  dsimp only
  split_ifs with hfilter
  · rw [filterMHBInterfs_inhabited_iff h.cache]
    exact ⟨fun hkept _ => hkept, fun hkept => hkept hfilter⟩
  · exact iff_of_true (h.getD f) fun hf => absurd hf hfilter

theorem InterfsInv.processThread {s : RunState ap} {ci : Site} {r : RunState ap × List Site}
    (h : InterfsInv z3 rules s) (hr : processThread o cx z3 rules main progInitState fuel s ci = .ok r) :
    InterfsInv z3 rules r.1 := by
  obtain ⟨F, _, _, _, _, _, _, _, heq, _⟩ := processThread_eq hr
  rw [heq]
  exact ⟨h.interfs, h.curFInterf_cache F.id⟩

theorem InterfsInv.threadsLoop {n : Nat} {sites : List Site} {s t : RunState ap} (h : InterfsInv z3 rules s)
    (ht : threadsLoop o cx z3 rules main progInitState fuel n sites s = .ok t) : InterfsInv z3 rules t := by
  induction n generalizing sites s with
  | zero =>
      cases sites with
      | nil =>
          cases ht
          exact h
      | cons ci sites => cases ht
  | succ n ih =>
      cases sites with
      | nil =>
          cases ht
          exact h
      | cons ci sites =>
          obtain ⟨r, hr, ht⟩ := bind_eq_ok.mp ht
          exact ih (h.processThread hr) ht

theorem InterfsInv.reach {sites : List Site} {s t : RunState ap} {ci : Site} (h : InterfsInv z3 rules s)
    (ht : ThreadsReach o cx z3 rules main progInitState fuel sites s ci t) : InterfsInv z3 rules t := by
  induction ht with
  | here => exact h
  | next hr _ ih => exact ih (h.processThread hr)

/-- The interferences of the next iteration are computed anew or kept. -/
theorem InterfsInv.nextIteration {s t : RunState ap} (h : InterfsInv z3 rules s)
    (ht : nextIteration cx s = .ok t) : InterfsInv z3 rules t := by
  obtain ⟨interfs, rfl, hent, _⟩ := nextIteration_eq ht
  refine ⟨fun f m hf => ?_, h.cache⟩
  rcases hent f m hf with ⟨F, _, hm⟩ | ⟨hf, _⟩
  · exact getInterferingStores_inhabited hm
  · exact h.interfs f m hf

theorem InterfsInv.goesOn {l : Setup ap} {u v : RunState ap} (h : InterfsInv z3 rules u)
    (hv : l.GoesOn o cx z3 rules fuel u v) : InterfsInv z3 rules v := by
  obtain ⟨s, hs, hv⟩ := bind_eq_ok.mp hv
  have hinv : InterfsInv z3 rules s := by
    refine InterfsInv.threadsLoop ?_ hs
    exact ⟨h.interfs, h.cache⟩
  split_ifs at hv
  · cases hv
  · obtain ⟨st, _, hv⟩ := bind_eq_ok.mp hv
    cases st with
    | true => cases hv
    | false =>
        obtain ⟨s', hs', hv⟩ := bind_eq_ok.mp hv
        rw [liftM_stop, liftStop_eq_ok] at hs'
        cases hv
        have hnext := hinv.nextIteration hs'
        exact ⟨hnext.interfs, hnext.cache⟩

/-- **Every analysis of a run** finds the invariant. -/
theorem Setup.Reaches.inv {l : Setup ap} {ci : Site} {t : RunState ap}
    (h : l.Reaches o cx z3 rules fuel ci t) : InterfsInv z3 rules t := by
  obtain ⟨u, hu, ht⟩ := h
  have hinv : InterfsInv z3 rules u := by
    clear ht
    induction hu with
    | refl => exact ⟨fun f m hf => by simp at hf, fun _ _ _ hc => by cases hc⟩
    | tail _ hv ih => exact ih.goesOn hv
  refine InterfsInv.reach ?_ ht
  exact ⟨hinv.interfs, hinv.cache⟩

end Invariant

/-- A run of the pass with flags that it accepts takes the `noCombinsG` branch of `analyzeThreadInterf`: the
analysis of `F`, for the thread `ci`, finds the state `t`. -/
structure NoCombsCall (o : BlockOrder) (cx : Ctx) (z3 : Solver) (rules : List Rule) (fuel : Nat) (ci : Site)
    (t : RunState ap) (F : Function) : Prop where
  accepted : ∃ given, checkCommandLineArgs given = .ok cx.opts
  reached : ∃ l : Setup ap, setup cx = .ok l ∧ l.Reaches o cx z3 rules fuel ci t ∧ siteFunc cx l.main ci = .ok F
  interfs : (curFInterf cx z3 rules t F.id).1.size ≠ 0
  noCombins : cx.opts.noCombinsG = true

/-- **No load without stores**: the assertion of `joinInterfs` is safe exactly when the filter, if it is on,
keeps some store of each load. -/
theorem joinInterfs_inhabited_iff (o : BlockOrder) (cx : Ctx) (z3 : Solver) (rules : List Rule) (fuel : Nat)
    (ci : Site) (t : RunState ap) (F : Function) (h : NoCombsCall o cx z3 rules fuel ci t F) :
    ((curFInterf cx z3 rules t F.id).1.Inhabited ∧
      ∀ sToF : StoreFacts ap, joinInterfs (curFInterf cx z3 rules t F.id).1 sToF ≠
        .error (.abort "load with zero interfering stores")) ↔
      (cx.opts.filterMHB = true → SomeStoreKept z3 rules (t.interfs[F.id]?.getD {})) := by
  obtain ⟨l, _, hreach, _⟩ := h.reached
  rw [← hreach.inv.curFInterf_inhabited_iff F.id]
  exact ⟨fun hin => hin.1, fun hin => ⟨hin, joinInterfs_ne_assert hin⟩⟩

namespace LoadBeforeCreate

def load : Instruction := ⟨2, .load 0, some 32, []⟩
def create : Instruction := ⟨20, .call (.pthreadCreate 40 (some 1) []), none, []⟩
def store : Instruction := ⟨10, .store (i32 1) 0, none, []⟩

/-- `load x; create(thread)` -/
def main : Function :=
  .ofBlocks 0 [.ofInstrs 100 [⟨40, .alloca, none, []⟩, load, create] ⟨30, .ret, none, []⟩]

/-- `x = 1` -/
def thread : Function :=
  .ofBlocks 1 [.ofInstrs 110 [store] ⟨31, .ret, none, []⟩]

def program : Module :=
  .ofFunctions [main, thread] [⟨0, some (.constantInt ⟨32, 0⟩)⟩] (some 0)

def cx (filter : Bool) : Ctx :=
  .ofModule program 5 { useBoxG := true, noCombinsG := true, filterMHB := filter }

def rules : List Rule :=
  (addConstraints (.ofEdges [] fun _ _ => []) program [0, 1] 20).toOption.getD []

/-- A solver that answers one query. -/
def z3 : Solver := fun _ a => if a = ⟨.mhb, [2, 10]⟩ then .lTrue else .lUndef

def pass (filter : Bool) : Except LoopStop (RunState boxes) :=
  runOnModule .increasing (cx filter) z3 rules 40

theorem rules_eq : addConstraints (.ofEdges [] fun _ _ => []) program [0, 1] 20 = .ok rules := by
  rfl

theorem derives_mhb : Horn.Derives rules ⟨.mhb, [load.id, store.id]⟩ := by
  have hrule : addDomNotReachRule ∈ rules := addPruningRules_mem rules_eq _ (by decide)
  have htrans : addMHBTrans ∈ rules := addPruningRules_mem rules_eq _ (by decide)
  have hfacts : ∀ p ∈ [(Rel.dom, [load.id, create.id]), (.notReach, [create.id, load.id]),
      (.mhb, [create.id, store.id])], Horn.Rule.fact p.1 p.2 ∈ rules := by
    decide
  have hload : Horn.Derives rules ⟨.mhb, [load.id, create.id]⟩ :=
    derives_ordered hrule (.fact (fun _ => 0) (hfacts (_, _) (by decide))) (hfacts (_, _) (by decide))
  have hcreate : Horn.Derives rules ⟨.mhb, [create.id, store.id]⟩ := .fact (fun _ => 0) (hfacts (_, _) (by decide))
  exact derives_trans htrans hload hcreate

/-- The set-up, the first iteration, and the first thread of the second. -/
def trace (filter : Bool) : Except LoopStop (Setup boxes × (Bool × RunState boxes) × RunState boxes × List Site) := do
  let l ← setup (cx filter)
  let u ← interferenceIter .increasing (cx filter) z3 rules l.main l.progInitState 40 l.threadSites l.noThreads
    { threadFuncs := l.threadFuncs }
  let r ← processThread .increasing (cx filter) z3 rules l.main l.progInitState 40
    { u.2 with newReachStores := u.2.allReachStores } (some create)
  return (l, u, r)

/-- Whether the first iteration goes on and its thread starts no other, and the interferences of `main`. -/
def summary (filter : Bool) (r : Setup boxes × (Bool × RunState boxes) × RunState boxes × List Site) :
    Bool × List (Value × List Value) :=
  (!r.2.1.1 && r.2.2.2.isEmpty, (curFInterf (cx filter) z3 rules r.2.2.1 0).1.toList)

/-- The analysis of `main` in the second iteration. -/
theorem noCombsCall (filter : Bool) (ss : List Value)
    (h : (trace filter).toOption.map (summary filter) = some (true, [(2, ss)])) :
    ∃ (t : RunState boxes) (F : Function), NoCombsCall .increasing (cx filter) z3 rules 40 none t F ∧
      (curFInterf (cx filter) z3 rules t F.id).1[(2 : Value)]? = some ss := by
  obtain ⟨⟨l, ⟨stable, u⟩, r, reached⟩, htrace, hsum⟩ := Fallible.exists_ok_of_toOption h
  obtain ⟨l', hl, htrace⟩ := bind_eq_ok.mp htrace
  obtain ⟨u', hu, htrace⟩ := bind_eq_ok.mp htrace
  obtain ⟨r', hr, htrace⟩ := bind_eq_ok.mp htrace
  cases htrace
  simp only [summary, Prod.mk.injEq, Bool.and_eq_true, Bool.not_eq_true', List.isEmpty_iff] at hsum
  obtain ⟨⟨rfl, rfl⟩, hlist⟩ := hsum
  have hfor := setup_ok hl
  have hsites : l.threadSites = [some create, none] := hfor.sites.trans (by cases filter <;> rfl)
  have hid : 0 = l.main.id := Option.some.inj hfor.main
  rw [hid] at hlist
  refine ⟨r, l.main, ⟨⟨(cx filter).opts, by cases filter <;> rfl⟩, ⟨l, hl, ⟨u, .single hu, ?_⟩, rfl⟩, ?_, ?_⟩, ?_⟩
  · rw [hsites]
    exact .next hr .here
  · rw [← Std.TreeMap.length_toList, hlist]
    exact Nat.one_ne_zero
  · cases filter <;> rfl
  · apply Std.TreeMap.mem_toList_iff_getElem?_eq_some.mp
    rw [hlist]
    exact .head _

/-- **A load in front of the creation of the thread that stores.**  The store must happen after the load, the
filter removes it, and the pass stops at the assertion. -/
theorem not_inhabited : Horn.Derives rules ⟨.mhb, [load.id, store.id]⟩ ∧
    Fallible.error? (pass true) = some (.stop (.abort "load with zero interfering stores")) ∧
    ∃ (t : RunState boxes) (F : Function), NoCombsCall .increasing (cx true) z3 rules 40 none t F ∧
      ¬ (curFInterf (cx true) z3 rules t F.id).1.Inhabited := by
  refine ⟨derives_mhb, by decide, ?_⟩
  obtain ⟨t, F, hcall, hl⟩ := noCombsCall true [] (by decide)
  exact ⟨t, F, hcall, fun hin => hin 2 [] hl rfl⟩

theorem inhabited_unfiltered : ∃ (t : RunState boxes) (F : Function),
    NoCombsCall .increasing (cx false) z3 rules 40 none t F ∧
      (curFInterf (cx false) z3 rules t F.id).1.Inhabited := by
  obtain ⟨t, F, hcall, _⟩ := noCombsCall false [10] (by decide)
  exact ⟨t, F, hcall, ((joinInterfs_inhabited_iff .increasing (cx false) z3 rules 40 none t F hcall).mpr
    fun hf => by cases hf).1⟩

end LoadBeforeCreate

end Watts
