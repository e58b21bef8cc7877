import Watts.Constraints
import Watts.Library.Fallible

/-! Interferences: the stores of other threads that a load may read, their facts, the filter by the
must-happen-before relation and the test that ends the outer loop. -/

namespace Watts

open Fallible (bind_eq_ok foldlM_preserves)

/-- A map from each load to its interfering stores, in order. -/
abbrev LoadStores := Std.TreeMap Value (List Value)

/-- The facts after the reachable stores. -/
abbrev StoreFacts (ap : Apron) := Std.TreeMap Value (LatticeFact ap)

/-- The facts after the reachable stores of each function. -/
abbrev ReachStores (ap : Apron) := Std.TreeMap FuncId (StoreFacts ap)

/-- `Utils::mapInsertToVector` -/
def mapInsertToVector (m : LoadStores) (key val : Value) : LoadStores :=
  match m[key]? with
  | none => m.insert key [val]
  | some old => (m.erase key).insert key (old ++ [val])

/-- Whether a store and a load access the same pointer operand. -/
def loadStoreSameVal (si li : Instruction) : Except Stop Bool :=
  match si.kind with
  | .store _ stPtr =>
    match li.kind with
    | .load lPtr => .ok (stPtr == lPtr)
    | .atomicRMW _ lPtr _ => .ok (stPtr == lPtr)
    | _ => .error (.abort "loadStoreSameVal: unhandled load type sub StoreInst")
  | .atomicRMW _ stPtr _ =>
    match li.kind with
    | .load lPtr => .ok (stPtr == lPtr)
    | .atomicRMW _ lPtr _ => .ok (stPtr == lPtr)
    | _ => .error (.abort "loadStoreSameVal: unhandled load type sub atomicrmw")
  | _ => .error (.abort "loadStoreSameVal: unhandled store type")

section

variable {ap : Apron}

/-- One store against one load. -/
def addInterferingStore (M : Module) (l : Instruction) (ret : LoadStores) (s : Value) :
    Except Stop LoadStores :=
  match M.instr? s with
  | none => .error (.undefinedBehaviour "store outside the module")
  | some si => do
    if ← loadStoreSameVal si l then
      return mapInsertToVector ret l.id s
    else
      return ret

/-- The stores of one other function against every load of `f`. -/
def addInterferingStores (M : Module) (f : Function) (ret : LoadStores)
    (other : FuncId × StoreFacts ap) : Except Stop LoadStores :=
  if other.1 = f.id then
    .ok ret
  else
    f.getLoads.foldlM (fun ret l => other.2.keys.foldlM (addInterferingStore M l) ret) ret

/-- Map each load of `f` to the stores of other functions to the same pointer. -/
def getInterferingStores (M : Module) (f : Function) (rStores : ReachStores ap) :
    Except Stop LoadStores :=
  rStores.toList.foldlM (addInterferingStores M f) {}

/-- Combine the facts of all functions.  No store belongs to two of them. -/
def flattenReachStores (reachStrs : ReachStores ap) : Except Stop (StoreFacts ap) :=
  (reachStrs.toList.flatMap fun p => p.2.toList).foldlM
    (fun facts p =>
      if facts.contains p.1 then .error (.abort "duplicate store")
      else .ok (facts.insert p.1 p.2)) {}

/-- Whether a new fact at a store does not keep the outer loop going: a store reached for the first
time does, and so does a fact that is definitely larger than the old one. -/
def stableStore (flatOld : StoreFacts ap) (s : Value) (newF : LatticeFact ap) : Except Stop Bool :=
  match flatOld[s]? with
  | none => if newF.isBottom then .error (.abort "reachable bottom fact") else .ok false
  | some oldF => .ok !(!newF.areValsEq oldF && newF.areValsGEq oldF)

/-- Check the new facts one after the other; the first that is not stable decides. -/
def stableStoresLoop (flatOld : StoreFacts ap) :
    List (Value × LatticeFact ap) → Except Stop Bool
  | [] => .ok true
  | p :: ps => do
    if ← stableStore flatOld p.1 p.2 then stableStoresLoop flatOld ps else return false

/-- The test that ends the outer loop. -/
def stableStores (oldI newI : ReachStores ap) : Except Stop Bool := do
  let flatOld ← flattenReachStores oldI
  let flatNew ← flattenReachStores newI
  stableStoresLoop flatOld flatNew.toList

/-- Join the facts at all stores of one load. -/
def joinStoreFacts (sToF : StoreFacts ap) : List Value → Except Stop (LatticeFact ap)
  | [] => .error (.abort "load with zero interfering stores")
  | s :: ss => do
    let lfact ← mapAtUnsafe sToF s
    ss.foldlM (fun lfact s => return lfact.factJoin (← mapAtUnsafe sToF s)) lfact

/-- Join the facts at the stores of each load. -/
def joinInterfs (l2Ss : LoadStores) (sToF : StoreFacts ap) : Except Stop (InterfMap ap) :=
  l2Ss.toList.foldlM (fun joined p => return joined.insert p.1 (← joinStoreFacts sToF p.2)) {}

/-- Merge the facts of the second map into the first. -/
def mergeFactMaps (m1 m2 : Std.TreeMap BlockId (LatticeFact ap)) :
    Std.TreeMap BlockId (LatticeFact ap) :=
  m2.toList.foldl
    (fun ret p =>
      match ret[p.1]? with
      | none => ret.insert p.1 p.2
      | some otherF => (ret.erase p.1).insert p.1 (p.2.factJoin otherF)) m1

/-! ### What they return -/

/-- A store stands in the list of a load. -/
def LoadStores.HasPair (m : LoadStores) (l s : Value) : Prop :=
  ∃ sts, m[l]? = some sts ∧ s ∈ sts

@[simp] theorem LoadStores.hasPair_empty (l s : Value) : ¬ LoadStores.HasPair {} l s := by
  rintro ⟨sts, hsts, _⟩
  simp at hsts

theorem mapInsertToVector_hasPair {m : LoadStores} {key val l s : Value} :
    (mapInsertToVector m key val).HasPair l s ↔ m.HasPair l s ∨ l = key ∧ s = val := by
  unfold mapInsertToVector LoadStores.HasPair
  by_cases hl : l = key
  · subst hl
    cases hm : m[l]? with
    | none => simp
    | some old => simp
  · have hne : ¬ key = l := fun h => hl h.symm
    cases hm : m[key]? with
    | none => simp [Std.TreeMap.getElem?_insert, hne, hl]
    | some old => simp [Std.TreeMap.getElem?_insert, Std.TreeMap.getElem?_erase, hne, hl]

/-- A reachable store of another function stores to the pointer that a load of `f` loads. -/
def Interferes (M : Module) (f : Function) (rStores : ReachStores ap) (l s : Value) : Prop :=
  ∃ g st, rStores[g]? = some st ∧ g ≠ f.id ∧ s ∈ st ∧
    ∃ li ∈ f.getLoads, li.id = l ∧ ∃ si, M.instr? s = some si ∧ loadStoreSameVal si li = .ok true

theorem addInterferingStore_hasPair {M : Module} {li : Instruction} {ret ret' : LoadStores} {s : Value}
    (h : addInterferingStore M li ret s = .ok ret') (l s' : Value) :
    ret'.HasPair l s' ↔ ret.HasPair l s' ∨
      l = li.id ∧ s' = s ∧ ∃ si, M.instr? s = some si ∧ loadStoreSameVal si li = .ok true := by
  unfold addInterferingStore at h
  cases hs : M.instr? s with
  | none => simp [hs] at h
  | some si =>
      simp only [hs] at h
      obtain ⟨same, hsame, h⟩ := bind_eq_ok.mp h
      cases same with
      | true =>
          cases h
          rw [mapInsertToVector_hasPair]
          simp [hsame]
      | false =>
          cases h
          simp [hsame]

theorem foldlM_addInterferingStore_hasPair {M : Module} {li : Instruction} {ss : List Value}
    {ret ret' : LoadStores} (h : ss.foldlM (addInterferingStore M li) ret = .ok ret') (l s : Value) :
    ret'.HasPair l s ↔ ret.HasPair l s ∨
      l = li.id ∧ s ∈ ss ∧ ∃ si, M.instr? s = some si ∧ loadStoreSameVal si li = .ok true := by
  induction ss generalizing ret with
  | nil =>
      rw [← Fallible.foldlM_nil_eq_ok.mp h]
      simp
  | cons s₁ ss ih =>
      obtain ⟨ret₁, h₁, h⟩ := Fallible.foldlM_cons_eq_ok.mp h
      rw [ih h, addInterferingStore_hasPair h₁, List.mem_cons]
      constructor
      · rintro ((hp | ⟨hl, rfl, hsame⟩) | ⟨hl, hs, hsame⟩)
        · exact .inl hp
        · exact .inr ⟨hl, .inl rfl, hsame⟩
        · exact .inr ⟨hl, .inr hs, hsame⟩
      · rintro (hp | ⟨hl, rfl | hs, hsame⟩)
        · exact .inl (.inl hp)
        · exact .inl (.inr ⟨hl, rfl, hsame⟩)
        · exact .inr ⟨hl, hs, hsame⟩

theorem addInterferingStores_hasPair {M : Module} {f : Function} {ret ret' : LoadStores}
    {other : FuncId × StoreFacts ap} (h : addInterferingStores M f ret other = .ok ret')
    (l s : Value) :
    ret'.HasPair l s ↔ ret.HasPair l s ∨ (other.1 ≠ f.id ∧ s ∈ other.2 ∧
      ∃ li ∈ f.getLoads, li.id = l ∧ ∃ si, M.instr? s = some si ∧
        loadStoreSameVal si li = .ok true) := by
  unfold addInterferingStores at h
  split_ifs at h with hf
  · cases h
    simp [hf]
  · -- one load after the other
    have hloads : ∀ (ls : List Instruction) (ret : LoadStores),
        ls.foldlM (fun ret l => other.2.keys.foldlM (addInterferingStore M l) ret) ret = .ok ret' →
        (ret'.HasPair l s ↔ ret.HasPair l s ∨ (s ∈ other.2 ∧ ∃ li ∈ ls, li.id = l ∧
          ∃ si, M.instr? s = some si ∧ loadStoreSameVal si li = .ok true)) := by
      intro ls
      induction ls with
      | nil =>
          intro ret h
          rw [← Fallible.foldlM_nil_eq_ok.mp h]
          simp
      | cons li ls ih =>
          intro ret h
          obtain ⟨ret₁, h₁, h⟩ := Fallible.foldlM_cons_eq_ok.mp h
          rw [ih ret₁ h, foldlM_addInterferingStore_hasPair h₁, Std.TreeMap.mem_keys]
          simp only [List.mem_cons, exists_eq_or_imp]
          constructor
          · rintro ((hp | ⟨hl, hs, hsame⟩) | ⟨hs, hrest⟩)
            · exact .inl hp
            · exact .inr ⟨hs, .inl ⟨hl.symm, hsame⟩⟩
            · exact .inr ⟨hs, .inr hrest⟩
          · rintro (hp | ⟨hs, ⟨hl, hsame⟩ | hrest⟩)
            · exact .inl (.inl hp)
            · exact .inl (.inr ⟨hl.symm, hs, hsame⟩)
            · exact .inr ⟨hs, hrest⟩
    rw [hloads _ _ h]
    simp only [ne_eq, hf, not_false_eq_true, true_and]

/-- **The interfering stores** are exactly those of other functions to the same pointer. -/
theorem getInterferingStores_hasPair {M : Module} {f : Function} {rStores : ReachStores ap}
    {m : LoadStores} (h : getInterferingStores M f rStores = .ok m) (l s : Value) :
    m.HasPair l s ↔ Interferes M f rStores l s := by
  have hothers : ∀ (os : List (FuncId × StoreFacts ap)) (ret : LoadStores),
      os.foldlM (addInterferingStores M f) ret = .ok m →
      (m.HasPair l s ↔ ret.HasPair l s ∨ ∃ other ∈ os, other.1 ≠ f.id ∧ s ∈ other.2 ∧
        ∃ li ∈ f.getLoads, li.id = l ∧ ∃ si, M.instr? s = some si ∧
          loadStoreSameVal si li = .ok true) := by
    intro os
    induction os with
    | nil =>
        intro ret h
        rw [← Fallible.foldlM_nil_eq_ok.mp h]
        simp
    | cons other os ih =>
        intro ret h
        obtain ⟨ret₁, h₁, h⟩ := Fallible.foldlM_cons_eq_ok.mp h
        rw [ih ret₁ h, addInterferingStores_hasPair h₁, or_assoc]
        simp only [List.mem_cons, exists_eq_or_imp]
  rw [hothers _ _ h]
  unfold Interferes
  constructor
  · rintro (hp | ⟨other, hmem, hrest⟩)
    · exact absurd hp (LoadStores.hasPair_empty l s)
    · exact ⟨other.1, other.2, Std.TreeMap.mem_toList_iff_getElem?_eq_some.mp hmem, hrest⟩
  · rintro ⟨g, st, hg, hrest⟩
    exact .inr ⟨(g, st), Std.TreeMap.mem_toList_iff_getElem?_eq_some.mpr hg, hrest⟩

/-- The fact of a reachable store. -/
def ReachStores.Holds (rs : ReachStores ap) (s : Value) (f : LatticeFact ap) : Prop :=
  ∃ (g : FuncId) (st : StoreFacts ap), rs[g]? = some st ∧ st[s]? = some f

theorem flattenReachStores_getElem? {rs : ReachStores ap} {flat : StoreFacts ap}
    (h : flattenReachStores rs = .ok flat) (s : Value) (f : LatticeFact ap) :
    flat[s]? = some f ↔ rs.Holds s f := by
  have hfold : ∀ (ps : List (Value × LatticeFact ap)) (facts : StoreFacts ap),
      ps.foldlM (fun (facts : StoreFacts ap) p =>
        if facts.contains p.1 then (.error (.abort "duplicate store") : Except Stop _)
        else .ok (facts.insert p.1 p.2)) facts = .ok flat →
      (flat[s]? = some f ↔ facts[s]? = some f ∨ (s, f) ∈ ps) := by
    intro ps
    induction ps with
    | nil =>
        intro facts h
        rw [← Fallible.foldlM_nil_eq_ok.mp h]
        simp
    | cons p ps ih =>
        intro facts h
        obtain ⟨facts₁, h₁, h⟩ := Fallible.foldlM_cons_eq_ok.mp h
        split_ifs at h₁ with hdup
        cases h₁
        rw [ih _ h, List.mem_cons]
        by_cases hp : p.1 = s
        · subst hp
          have hnone : facts[p.1]? = none := by
            apply Std.TreeMap.getElem?_eq_none
            rw [Std.TreeMap.mem_iff_contains]
            exact hdup
          rw [Std.TreeMap.getElem?_insert_self, hnone]
          constructor
          · rintro (hf | hf)
            · exact .inr (.inl (Prod.ext rfl (Option.some.inj hf).symm))
            · exact .inr (.inr hf)
          · rintro (hf | hf | hf)
            · cases hf
            · exact .inl (congrArg some (congrArg Prod.snd hf).symm)
            · exact .inr hf
        · rw [Std.TreeMap.getElem?_insert, if_neg (by simpa using hp)]
          constructor
          · rintro (hf | hf)
            · exact .inl hf
            · exact .inr (.inr hf)
          · rintro (hf | hf | hf)
            · exact .inl hf
            · exact absurd (congrArg Prod.fst hf).symm hp
            · exact .inr hf
  rw [hfold _ _ h]
  unfold ReachStores.Holds
  constructor
  · rintro (hf | hf)
    · simp at hf
    · obtain ⟨⟨g, st⟩, hg, hs⟩ := List.mem_flatMap.mp hf
      exact ⟨g, st, Std.TreeMap.mem_toList_iff_getElem?_eq_some.mp hg,
        Std.TreeMap.mem_toList_iff_getElem?_eq_some.mp hs⟩
  · rintro ⟨g, st, hg, hs⟩
    refine .inr (List.mem_flatMap.mpr ⟨(g, st), ?_, ?_⟩)
    · exact Std.TreeMap.mem_toList_iff_getElem?_eq_some.mpr hg
    · exact Std.TreeMap.mem_toList_iff_getElem?_eq_some.mpr hs

/-- Not definitely larger: equal to the old fact, or not above it. -/
def NotLarger (newF oldF : LatticeFact ap) : Prop :=
  newF.areValsEq oldF = true ∨ newF.areValsGEq oldF = false

theorem stableStoresLoop_true {flatOld : StoreFacts ap} {ps : List (Value × LatticeFact ap)}
    (h : stableStoresLoop flatOld ps = .ok true) :
    ∀ p ∈ ps, ∃ oldF, flatOld[p.1]? = some oldF ∧ NotLarger p.2 oldF := by
  induction ps with
  | nil => exact fun _ hp => absurd hp List.not_mem_nil
  | cons p ps ih =>
      obtain ⟨stable, hstable, h⟩ := bind_eq_ok.mp h
      cases stable with
      | false => cases h
      | true =>
          rw [if_pos rfl] at h
          intro q hq
          rcases List.mem_cons.mp hq with rfl | hq
          · unfold stableStore at hstable
            cases hold : flatOld[q.1]? with
            | none =>
                simp only [hold] at hstable
                split_ifs at hstable
                cases hstable
            | some oldF =>
                simp only [hold, Except.ok.injEq] at hstable
                refine ⟨oldF, rfl, ?_⟩
                unfold NotLarger
                cases heq : q.2.areValsEq oldF <;> cases hge : q.2.areValsGEq oldF <;>
                  simp [heq, hge] at hstable ⊢
          · exact ih h q hq

/-- **Stable stores**: every new store is an old one, and its fact is not definitely larger. -/
theorem stableStores_true {oldI newI : ReachStores ap} (h : stableStores oldI newI = .ok true)
    {s : Value} {newF : LatticeFact ap} (hs : newI.Holds s newF) :
    ∃ oldF, oldI.Holds s oldF ∧ NotLarger newF oldF := by
  obtain ⟨flatOld, hold, h⟩ := bind_eq_ok.mp h
  obtain ⟨flatNew, hnew, h⟩ := bind_eq_ok.mp h
  have hmem := (flattenReachStores_getElem? hnew s newF).mpr hs
  obtain ⟨oldF, hf, hle⟩ := stableStoresLoop_true h (s, newF)
    (Std.TreeMap.mem_toList_iff_getElem?_eq_some.mpr hmem)
  exact ⟨oldF, (flattenReachStores_getElem? hold s oldF).mp hf, hle⟩

end

/-! ### The filter by the must-happen-before relation -/

/-- The static cache of the filter: the answers to earlier queries. -/
abbrev MHBCache := Value × Value → Option Z3Bool

/-- The answer for one load and one store, from the cache if it is there. -/
def cachedMHB (z3 : Solver) (rules : List Rule) (cache : MHBCache) (l st : Value) :
    Z3Bool × MHBCache :=
  match cache (l, st) with
  | none =>
    let queryResult := queryMHB z3 rules l st
    (queryResult, Function.update cache (l, st) (some queryResult))
  | some queryResult => (queryResult, cache)

/-- The stores of one load that need not happen after it. -/
def filterStores (z3 : Solver) (rules : List Rule) (l : Value) :
    List Value → MHBCache → List Value × MHBCache
  | [], cache => ([], cache)
  | st :: stores, cache =>
    let (queryResult, cache) := cachedMHB z3 rules cache l st
    let (lInterfs, cache) := filterStores z3 rules l stores cache
    if queryResult = .lFalse ∨ queryResult = .lUndef then (st :: lInterfs, cache)
    else (lInterfs, cache)

/-- Remove the stores that must happen after the load.  A load keeps its entry when all are gone. -/
def filterMHBInterfs (z3 : Solver) (rules : List Rule) (cache : MHBCache) (interfs : LoadStores) :
    LoadStores × MHBCache :=
  interfs.toList.foldl
    (fun r p =>
      let (lInterfs, cache) := filterStores z3 rules p.1 p.2 r.2
      (r.1.insert p.1 lInterfs, cache)) ({}, cache)

end Watts
