import Watts.StaleInterfs

/-! The stores that one interference iteration records.  The results are kept by function and the queue
holds creation sites, so that of several sites with one function the last one decides. -/

namespace Watts

open Fallible (bind_eq_ok)

variable {ap : Apron}

/-! ### The entries of the queue -/

section Queue

variable (o : BlockOrder) (cx : Ctx) (z3 : Solver) (rules : List Rule) (main : Function)
  (progInitState : LatticeFact ap) (fuel : Nat)

/-- The analysis of one entry of the queue, with the function and the cache of the filter. -/
def analyzeSite (s : RunState ap) (ci : Site) :
    Except LoopStop (FuncId × MHBCache × PermState ap) := do
  let f ← siteFunc cx main ci
  let entryFact ← siteEntryFact cx progInitState s ci
  let (interf, mhbCache) := curFInterf cx z3 rules s f.id
  let storeToInterf ← flattenReachStores s.newReachStores
  let r ← analyzeThreadInterf o cx z3 rules f ci interf storeToInterf
    { rErrors := s.rErrors } s.permCache entryFact fuel
  return (f.id, mhbCache, r)

/-- The functions of the entries that the loop processes and the stores that their analyses record, in
order. -/
def processed : Nat → List Site → RunState ap → List (FuncId × StoreFacts ap)
  | _, [], _ => []
  | 0, _ :: _, _ => []
  | n + 1, ci :: threadsToProcess, s =>
    match analyzeSite o cx z3 rules main progInitState fuel s ci,
        processThread o cx z3 rules main progInitState fuel s ci with
    | .ok (f, _, r), .ok (s', reached) =>
      (f, r.books.reachStores) :: processed n (threadsToProcess ++ reached) s'
    | _, _ => []

end Queue

/-- What the last of some entries with a function has recorded. -/
def lastRecorded (ps : List (FuncId × StoreFacts ap)) (f : FuncId) : Option (StoreFacts ap) :=
  ps.foldl (fun last p => if p.1 = f then some p.2 else last) none

section Run

variable {o : BlockOrder} {cx : Ctx} {z3 : Solver} {rules : List Rule} {main : Function}
  {progInitState : LatticeFact ap} {fuel : Nat}

/-- Processing an entry is to analyse it and to find the threads that it creates. -/
theorem processThread_ok {s : RunState ap} {ci : Site} {r : RunState ap × List Site}
    (h : processThread o cx z3 rules main progInitState fuel s ci = .ok r) :
    ∃ f mhbCache p, analyzeSite o cx z3 rules main progInitState fuel s ci = .ok (f, mhbCache, p) ∧
      discoverThreads cx p.books.reachThreadCreate (s.analyzed f mhbCache p) = .ok r := by
  obtain ⟨F, hF, h⟩ := bind_eq_ok.mp h
  obtain ⟨entryFact, hentry, h⟩ := bind_eq_ok.mp h
  obtain ⟨stFacts, hst, h⟩ := bind_eq_ok.mp h
  obtain ⟨p, hp, h⟩ := bind_eq_ok.mp h
  refine ⟨F.id, (curFInterf cx z3 rules s F.id).2, p, ?_, liftStop_eq_ok.mp h⟩
  refine bind_eq_ok.mpr ⟨F, hF, bind_eq_ok.mpr ⟨entryFact, hentry, bind_eq_ok.mpr ⟨stFacts, hst, ?_⟩⟩⟩
  exact bind_eq_ok.mpr ⟨p, hp, rfl⟩

/-- Processing an entry records its stores under its function, and only there. -/
theorem processThread_newReachStores {s : RunState ap} {ci : Site} {r : RunState ap × List Site}
    (h : processThread o cx z3 rules main progInitState fuel s ci = .ok r) :
    ∃ f mhbCache p, analyzeSite o cx z3 rules main progInitState fuel s ci = .ok (f, mhbCache, p) ∧
      ∀ g : FuncId, r.1.newReachStores[g]? =
        if f = g then some p.books.reachStores else s.newReachStores[g]? := by
  obtain ⟨f, mhbCache, p, hsite, hdiscover⟩ := processThread_ok h
  obtain ⟨funcs, facts, hr, _, _⟩ := discoverThreads_eq hdiscover
  refine ⟨f, mhbCache, p, hsite, fun g => ?_⟩
  rw [hr]
  show ((s.newReachStores.erase f).insert f p.books.reachStores)[g]? = _
  rw [Std.TreeMap.getElem?_insert, Std.TreeMap.getElem?_erase]
  simp only [Nat.compare_eq_eq]
  split_ifs <;> rfl

theorem lastRecorded_foldl (ps : List (FuncId × StoreFacts ap)) (f : FuncId)
    (last : Option (StoreFacts ap)) :
    ps.foldl (fun last p => if p.1 = f then some p.2 else last) last =
      (lastRecorded ps f).or last := by
  unfold lastRecorded
  induction ps generalizing last with
  | nil => rfl
  | cons p ps ih =>
      rw [List.foldl_cons, ih, List.foldl_cons, ih (if p.1 = f then some p.2 else none), Option.or_assoc]
      split_ifs <;> rfl

theorem lastRecorded_cons (p : FuncId × StoreFacts ap) (ps : List (FuncId × StoreFacts ap)) (f : FuncId) :
    lastRecorded (p :: ps) f = (lastRecorded ps f).or (if p.1 = f then some p.2 else none) := by
  rw [← lastRecorded_foldl]
  rfl

/-- **The loop**: the map has what the last entry with a function has recorded. -/
theorem threadsLoop_newReachStores {n : Nat} {sites : List Site} {s t : RunState ap}
    (h : threadsLoop o cx z3 rules main progInitState fuel n sites s = .ok t) (f : FuncId) :
    t.newReachStores[f]? =
      (lastRecorded (processed o cx z3 rules main progInitState fuel n sites s) f).or
        s.newReachStores[f]? := by
  induction n generalizing sites s with
  | zero =>
      cases sites with
      | nil =>
          cases h
          rfl
      | cons ci sites => cases h
  | succ n ih =>
      cases sites with
      | nil =>
          cases h
          rfl
      | cons ci sites =>
          obtain ⟨⟨s', reached⟩, hr, h⟩ := bind_eq_ok.mp h
          obtain ⟨g, mhbCache, p, hsite, hstores⟩ := processThread_newReachStores hr
          have hcons : processed o cx z3 rules main progInitState fuel (n + 1) (ci :: sites) s =
              (g, p.books.reachStores) ::
                processed o cx z3 rules main progInitState fuel n (sites ++ reached) s' := by
            simp only [processed, hsite, hr]
          rw [ih h, hcons, lastRecorded_cons, hstores, Option.or_assoc]
          split_ifs <;> rfl

end Run

/-! ### No store is lost -/

/-- Every store of the first map is in the second, with a fact that contains its own. -/
def StoreFacts.Within (st st' : StoreFacts ap) : Prop :=
  ∀ (s : Value) (f : LatticeFact ap), st[s]? = some f → ∃ f', st'[s]? = some f' ∧ f.leq f'

theorem StoreFacts.Within.refl (hL : ap.Lattice) (st : StoreFacts ap) : st.Within st :=
  fun _ f hf => ⟨f, hf, hL.leq_refl _⟩

/-- What every processed entry has recorded is still there after the loop. -/
def StoresKept (ps : List (FuncId × StoreFacts ap)) (t : RunState ap) : Prop :=
  ∀ p ∈ ps, ∃ st, t.newReachStores[p.1]? = some st ∧ p.2.Within st

/-- Of the entries with one function the last one records what the others do. -/
def LastRecordsAll (ps : List (FuncId × StoreFacts ap)) : Prop :=
  ∀ p ∈ ps, ∀ st, lastRecorded ps p.1 = some st → p.2.Within st

theorem lastRecorded_isSome {ps : List (FuncId × StoreFacts ap)} {p : FuncId × StoreFacts ap} (hp : p ∈ ps) :
    ∃ st, lastRecorded ps p.1 = some st := by
  induction ps with
  | nil => cases hp
  | cons q ps ih =>
      rw [lastRecorded_cons]
      rcases List.mem_cons.mp hp with rfl | hp
      · cases hl : lastRecorded ps p.1 with
        | none => exact ⟨p.2, by rw [if_pos rfl]; rfl⟩
        | some st => exact ⟨st, rfl⟩
      · obtain ⟨st, hst⟩ := ih hp
        exact ⟨st, by rw [hst]; rfl⟩

/-- **Recorded stores.**  No store of an iteration is lost exactly when, of the processed sites with one
function, the last one records what the others do. -/
theorem threadsLoop_storesKept_iff (o : BlockOrder) (cx : Ctx) (z3 : Solver) (rules : List Rule)
    (main : Function) (progInitState : LatticeFact ap) (fuel n : Nat) (sites : List Site)
    (s t : RunState ap) (h : threadsLoop o cx z3 rules main progInitState fuel n sites s = .ok t) :
    StoresKept (processed o cx z3 rules main progInitState fuel n sites s) t ↔
      LastRecordsAll (processed o cx z3 rules main progInitState fuel n sites s) := by
  have hstores := threadsLoop_newReachStores h
  generalize processed o cx z3 rules main progInitState fuel n sites s = ps at hstores ⊢
  constructor
  · intro hkept p hp st hst
    obtain ⟨st', hst', hwithin⟩ := hkept p hp
    rw [hstores, hst] at hst'
    rwa [← Option.some.inj hst'] at hwithin
  · intro hlast p hp
    obtain ⟨st, hst⟩ := lastRecorded_isSome hp
    refine ⟨st, ?_, hlast p hp st hst⟩
    rw [hstores, hst]
    rfl

theorem lastRecorded_eq_none {ps : List (FuncId × StoreFacts ap)} {f : FuncId}
    (h : f ∉ ps.map Prod.fst) : lastRecorded ps f = none := by
  induction ps with
  | nil => rfl
  | cons p ps ih =>
      rw [List.map_cons, List.mem_cons, not_or] at h
      rw [lastRecorded_cons, ih h.2, if_neg (Ne.symm h.1)]
      rfl

/-- Sites with different functions never overwrite one another. -/
theorem lastRecordsAll_of_nodup (hL : ap.Lattice) {ps : List (FuncId × StoreFacts ap)}
    (h : (ps.map Prod.fst).Nodup) : LastRecordsAll ps := by
  have hone : ∀ p ∈ ps, lastRecorded ps p.1 = some p.2 := by
    induction ps with
    | nil => exact fun p hp => absurd hp List.not_mem_nil
    | cons q ps ih =>
        rw [List.map_cons, List.nodup_cons] at h
        intro p hp
        rw [lastRecorded_cons]
        rcases List.mem_cons.mp hp with rfl | hp
        · rw [lastRecorded_eq_none h.1, if_pos rfl]
          rfl
        · rw [ih h.2 p hp]
          rfl
  intro p hp st hst
  rw [hone p hp] at hst
  rw [← Option.some.inj hst]
  exact StoreFacts.Within.refl hL p.2

namespace TwoSites

def create1 : Instruction := ⟨20, .call (.pthreadCreate 40 (some 1) []), none, []⟩
def create2 : Instruction := ⟨21, .call (.pthreadCreate 41 (some 1) []), none, []⟩

/-- `x = 1; pthread_create(.., thread); x = 2; pthread_create(.., thread)` -/
def main : Function :=
  .ofBlocks 0 [.ofInstrs 100 [⟨40, .alloca, none, []⟩, ⟨41, .alloca, none, []⟩,
    ⟨10, .store (i32 1) 0, none, []⟩, create1, ⟨11, .store (i32 2) 0, none, []⟩, create2]
      ⟨30, .ret, none, []⟩]

/-- `if (x == 1) y = 1` -/
def thread : Function :=
  .ofBlocks 1
    [.ofInstrs 110 [⟨2, .load 0, some 32, []⟩, ⟨3, .icmp .eq (.value 2) (i32 1), some 1, []⟩]
      ⟨31, .condBr (.icmp 3 .eq (.value 2) (i32 1)) 111 112, none, []⟩,
    .ofInstrs 111 [⟨12, .store (i32 1) 1, none, []⟩] ⟨32, .br 112, none, []⟩,
    .ofInstrs 112 [] ⟨33, .ret, none, []⟩]

def program : Module :=
  .ofFunctions [main, thread] [⟨0, some (.constantInt ⟨32, 0⟩)⟩, ⟨1, some (.constantInt ⟨32, 0⟩)⟩] (some 0)

def cx (dynInit : Bool) : Ctx :=
  .ofModule program 4 { useBoxG := true, noCombinsG := true, dynInitG := dynInit }

/-- Where the first iteration begins. -/
def start : RunState boxes where
  threadFuncs := {0}

/-- Both globals are zero. -/
def progInitState : LatticeFact boxes :=
  ⟨some [.const 0, .const 0]⟩

def loop (dynInit : Bool) (sites : List Site) : Except LoopStop (RunState boxes) :=
  threadsLoop .increasing (cx dynInit) (fun _ _ => .lUndef) [] main progInitState 40 40 sites start

def entries (dynInit : Bool) (sites : List Site) : List (FuncId × StoreFacts boxes) :=
  processed .increasing (cx dynInit) (fun _ _ => .lUndef) [] main progInitState 40 40 sites start

theorem summary_entries : (entries true [none]).map (fun p => (p.1, p.2.keys)) =
    [(0, [10, 11]), (1, [12]), (1, [])] := by
  decide

theorem summary_loop : (loop true [none]).toOption.map (fun t => (t.newReachStores[(1 : FuncId)]?).map (·.keys)) =
    some (some []) := by
  decide

/-- **The thread created second does not reach the store that the first one reaches**, and the loop forgets
it. -/
theorem store_lost : getInitState program ⟨boxes.top⟩ (cx true).v2n = .ok progInitState ∧
    ∃ t, loop true [none] = .ok t ∧ ¬ StoresKept (entries true [none]) t := by
  refine ⟨rfl, ?_⟩
  obtain ⟨t, ht, hsome⟩ := Fallible.exists_ok_of_toOption summary_loop
  refine ⟨t, ht, fun hkept => ?_⟩
  obtain ⟨⟨f, st⟩, hp, hkeys⟩ : ∃ p ∈ entries true [none], (p.1, p.2.keys) = ((1, [12]) : FuncId × List Value) := by
    rw [← List.mem_map, summary_entries]
    exact .tail _ (.head _)
  obtain ⟨rfl, hkeys⟩ := Prod.mk.inj hkeys
  obtain ⟨st', hst', hwithin⟩ := hkept _ hp
  have hempty : st'.keys = [] := by
    dsimp only at hsome hst'
    rw [hst'] at hsome
    exact Option.some.inj hsome
  have hmem : (12 : Value) ∈ st := Std.TreeMap.mem_keys.mp (hkeys ▸ .head _)
  obtain ⟨g, hg⟩ := Option.isSome_iff_exists.mp (Std.TreeMap.mem_iff_isSome_getElem?.mp hmem)
  obtain ⟨g', hg', _⟩ := hwithin 12 g hg
  have hmem' : (12 : Value) ∈ st' := Std.TreeMap.mem_iff_isSome_getElem?.mpr (by rw [hg']; rfl)
  rw [← Std.TreeMap.mem_keys, hempty] at hmem'
  cases hmem'

/-- One site for each function. -/
theorem storesKept_once : ∃ t, loop false [some create1, none] = .ok t ∧
    StoresKept (entries false [some create1, none]) t := by
  obtain ⟨t, ht⟩ := exists_ok (x := loop false [some create1, none]) (by decide)
  exact ⟨t, ht, (threadsLoop_storesKept_iff .increasing (cx false) (fun _ _ => .lUndef) [] main progInitState
    40 40 [some create1, none] start t ht).mpr (lastRecordsAll_of_nodup Box.lattice (by decide))⟩

end TwoSites

end Watts
