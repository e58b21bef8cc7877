import Watts.CombinationCoverage
import Watts.PrunedPermutations

/-! What the permutations of a thread add up to.  The loop carries its bookkeeping, the merged facts and the cache of
verdicts from one permutation to the next.  What it returns is the least upper bound of the analyses of the
permutations that are not rejected, each on its own. -/

namespace Watts

open Fallible (Agree bind_eq_ok ok_bind)

section Lattice

variable {ap : Apron} (hL : ap.Lattice)
include hL

/-! ### Upper bounds -/

theorem mapBelow_joinInto {m U : Std.TreeMap Value (LatticeFact ap)} {i : Value} {f : LatticeFact ap} :
    MapBelow (BBOps.joinInto m i f) U ↔ MapBelow m U ∧ ∃ g, U[i]? = some g ∧ f.leq g := by
  constructor
  · intro h
    constructor
    · intro k x hx
      obtain ⟨y, hy, hxy⟩ := BBOps.joinInto_grows (leq_joinOrder hL) (i := i) (f := f) hx
      obtain ⟨g, hg, hyg⟩ := h k y hy
      exact ⟨g, hg, hL.leq_trans hxy hyg⟩
    · obtain ⟨y, hy, hfy⟩ := BBOps.joinInto_self (leq_joinOrder hL) m i f
      obtain ⟨g, hg, hyg⟩ := h i y hy
      exact ⟨g, hg, hL.leq_trans hfy hyg⟩
  · rintro ⟨hm, g, hg, hfg⟩ k x hx
    by_cases hk : k = i
    · subst hk
      rw [BBOps.joinInto_self_eq, Option.some.injEq] at hx
      subst hx
      refine ⟨g, hg, ?_⟩
      cases hold : m[k]? with
      | none => exact hfg
      | some old =>
          obtain ⟨g', hg', hle⟩ := hm k old hold
          obtain rfl := Option.some.inj (hg'.symm.trans hg)
          exact hL.join_least hfg hle
    · rw [BBOps.joinInto_of_ne _ _ hk] at hx
      exact hm k x hx

omit hL in
theorem below_iff {bk U : Books ap} :
    Books.Below bk U ↔ (∀ e ∈ bk.rErrors, e ∈ U.rErrors) ∧ MapBelow bk.reachStores U.reachStores ∧
      MapBelow bk.reachThreadCreate U.reachThreadCreate :=
  ⟨fun h => ⟨h.rErrors, h.reachStores, h.reachThreadCreate⟩, fun h => ⟨h.1, h.2.1, h.2.2⟩⟩

/-- What bounds a bookkeeping after an instruction bounds it before and accounts for the instruction. -/
theorem below_record {bk U : Books ap} (fIn fOut : LatticeFact ap) (i : Instruction) :
    Books.Below (BBOps.record bk fIn fOut i) U ↔
      Books.Below bk U ∧ Books.Records (fun f g => f.leq g) U i fIn fOut := by
  have hstore := mapBelow_joinInto hL (m := bk.reachStores) (U := U.reachStores) (i := i.id) (f := fOut)
  have hcreate := mapBelow_joinInto hL (m := bk.reachThreadCreate) (U := U.reachThreadCreate) (i := i.id) (f := fIn)
  rw [below_iff, below_iff]
  cases hk : i.kind with
  | store val ptr =>
      simp only [BBOps.record, Books.Records, hk]
      exact (and_congr_right fun _ => and_congr_left fun _ => hstore).trans (by tauto)
  | atomicRMW op ptr val =>
      simp only [BBOps.record, Books.Records, hk]
      exact (and_congr_right fun _ => and_congr_left fun _ => hstore).trans (by tauto)
  | call callee =>
      cases callee with
      | pthreadCreate thread f args =>
          simp only [BBOps.record, Books.Records, hk]
          exact (and_congr_right fun _ => and_congr_right fun _ => hcreate).trans (by tauto)
      | assertFail =>
          simp only [BBOps.record, Books.Records, hk]
          have herror : (∀ e ∈ bk.rErrors.insert i.id, e ∈ U.rErrors) ↔
              (∀ e ∈ bk.rErrors, e ∈ U.rErrors) ∧ i.id ∈ U.rErrors := by
            simp only [Std.TreeSet.mem_insert, Nat.compare_eq_eq, forall_eq_or_imp, eq_comm (a := i.id)]
            exact and_comm
          exact (and_congr_left fun _ => herror).trans (by tauto)
      | _ => simp only [BBOps.record, Books.Records, hk, and_true]
  | _ => simp only [BBOps.record, Books.Records, hk, and_true]

theorem mapBelow_mergeFactMaps_iff {m₁ m₂ V : Std.TreeMap BlockId (LatticeFact ap)} :
    MapBelow (mergeFactMaps m₁ m₂) V ↔ MapBelow m₁ V ∧ MapBelow m₂ V := by
  constructor
  · intro h
    refine ⟨(mapBelow_mergeFactMaps hL m₁ m₂).trans hL h, fun b f hf => ?_⟩
    have hb := mergeFactMaps_getElem? m₁ m₂ b
    rw [hf] at hb
    obtain ⟨g, hg, hle⟩ := h b _ hb
    refine ⟨g, hg, hL.leq_trans ?_ hle⟩
    cases m₁[b]? with
    | none => exact hL.leq_refl _
    | some old => exact hL.join_left _ _
  · rintro ⟨h₁, h₂⟩ b f hf
    rw [mergeFactMaps_getElem?] at hf
    cases hb₂ : m₂[b]? with
    | none =>
        rw [hb₂] at hf
        exact h₁ b f hf
    | some f₂ =>
        rw [hb₂] at hf
        obtain ⟨g, hg, hle⟩ := h₂ b f₂ hb₂
        refine ⟨g, hg, ?_⟩
        rw [← Option.some.inj hf]
        cases hb₁ : m₁[b]? with
        | none => exact hle
        | some f₁ =>
            obtain ⟨g', hg', hle'⟩ := h₁ b f₁ hb₁
            obtain rfl := Option.some.inj (hg'.symm.trans hg)
            exact hL.join_least hle hle'

/-! ### One permutation -/

section Analysis

variable {o : BlockOrder} {cx : Ctx} {interf : InterfMap ap} {F : Function}

/-- **The analysis of a permutation** adds to the bookkeeping what it finds on its own. -/
theorem analyzeFunc_join (entryFact : LatticeFact ap) (mergeInterfs : Bool) (fuel : Nat) (bk : Books ap) :
    Agree (fun p q => p.1 = q.1 ∧ ∀ U, Books.Below q.2 U ↔ Books.Below bk U ∧ Books.Below p.2 U)
      (analyzeFunc o cx interf {} entryFact F mergeInterfs fuel)
      (analyzeFunc o cx interf bk entryFact F mergeInterfs fuel) := by
  have hstable : Books.Stable fun b b' : Books ap => ∀ U, Books.Below b' U ↔ Books.Below bk U ∧ Books.Below b U := by
    intro b b' fIn fOut i h U
    rw [below_record hL, below_record hL, h U, and_assoc]
  refine analyzeFunc_agree hstable entryFact mergeInterfs fuel fun U => (and_iff_left ?_).symm
  exact ⟨fun i hi => by simp at hi, fun i f hf => by simp at hf, fun i f hf => by simp at hf⟩

end Analysis

/-! ### The loop over the permutations -/

section Permutations

variable {o : BlockOrder} {cx : Ctx} {z3 : Solver} {rules : List Rule} {F : Function}
  {createSite : Option Instruction} {interfs : LoadStores} {stFacts : StoreFacts ap} {entryFact : LatticeFact ap}
  {fuel : Nat}

omit hL in
/-- The cached verdicts are those of the solver on the choices of their permutations. -/
def PermCache.FaithfulFor (cx : Ctx) (z3 : Solver) (rules : List Rule) (createSite : Option Instruction)
    (interfs : LoadStores) (stFacts : StoreFacts ap) (fuel : Nat) (permCache : PermCache) : Prop :=
  ∀ (perm : List Nat) v c, permCache[perm]? = some v →
    gatherChoices cx createSite perm interfs stFacts fuel = .ok c →
      v = violatesProgOrder z3 rules c.curInterfStoreMap c.curSelfStoreMap

omit hL in
/-- The analysis of a permutation on its own, unless its choices are rejected. -/
def Explored (o : BlockOrder) (cx : Ctx) (z3 : Solver) (rules : List Rule) (F : Function)
    (createSite : Option Instruction) (interfs : LoadStores) (stFacts : StoreFacts ap) (entryFact : LatticeFact ap)
    (fuel : Nat) (perm : List Nat) (r : Std.TreeMap BlockId (LatticeFact ap) × Books ap) : Prop :=
  ∃ c, gatherChoices cx createSite perm interfs stFacts fuel = .ok c ∧
    (cx.opts.useConstraintsG && violatesProgOrder z3 rules c.curInterfStoreMap c.curSelfStoreMap) = false ∧
    analyzeFunc o cx c.curInterfMap {} entryFact F false fuel = .ok r

omit hL in
/-- The second state is the least upper bound of the first and of some results. -/
structure PermState.IsJoin (s t : PermState ap) (P : Std.TreeMap BlockId (LatticeFact ap) × Books ap → Prop) :
    Prop where
  books : ∀ U, Books.Below t.books U ↔ Books.Below s.books U ∧ ∀ r, P r → Books.Below r.2 U
  res : ∀ V, MapBelow t.res V ↔ MapBelow s.res V ∧ ∀ r, P r → MapBelow r.1 V

omit hL in
theorem PermState.IsJoin.trans {s t u : PermState ap}
    {P Q : Std.TreeMap BlockId (LatticeFact ap) × Books ap → Prop} (h₁ : s.IsJoin t P) (h₂ : t.IsJoin u Q) :
    s.IsJoin u fun r => P r ∨ Q r := by
  constructor
  · intro U
    rw [h₂.books, h₁.books, and_assoc, ← forall_and]
    simp only [or_imp]
  · intro V
    rw [h₂.res, h₁.res, and_assoc, ← forall_and]
    simp only [or_imp]

omit hL in
theorem checkPermCache_faithful {perm : List Nat} {c : Choices ap} {permCache : PermCache}
    (hcache : permCache.FaithfulFor cx z3 rules createSite interfs stFacts fuel)
    (hc : gatherChoices cx createSite perm interfs stFacts fuel = .ok c) :
    (checkPermCache z3 rules cx.opts.useConstraintsG perm c permCache).1 =
        (cx.opts.useConstraintsG && violatesProgOrder z3 rules c.curInterfStoreMap c.curSelfStoreMap) ∧
      (checkPermCache z3 rules cx.opts.useConstraintsG perm c permCache).2.FaithfulFor cx z3 rules createSite interfs
        stFacts fuel := by
  unfold checkPermCache
  cases cx.opts.useConstraintsG with
  | false => exact ⟨rfl, hcache⟩
  | true =>
      rw [if_pos rfl, Bool.true_and]
      cases hp : permCache[perm]? with
      | some v => exact ⟨hcache perm v c hp hc, hcache⟩
      | none =>
          refine ⟨rfl, fun perm' v c' hv hc' => ?_⟩
          rw [Std.TreeMap.getElem?_insert] at hv
          split_ifs at hv with heq
          · obtain rfl := Std.LawfulEqCmp.compare_eq_iff_eq.mp heq
            rw [hc] at hc'
            cases hc'
            exact (Option.some.inj hv).symm
          · exact hcache perm' v c' hv hc'

/-- **One permutation.** -/
theorem testCurPerm_join {perm : List Nat} {s : PermState ap} {r' : Bool × PermState ap}
    (hcache : s.permCache.FaithfulFor cx z3 rules createSite interfs stFacts fuel)
    (h : testCurPerm o cx z3 rules F createSite perm interfs stFacts entryFact fuel s = .ok r') :
    s.IsJoin r'.2 (Explored o cx z3 rules F createSite interfs stFacts entryFact fuel perm) ∧
      r'.2.permCache.FaithfulFor cx z3 rules createSite interfs stFacts fuel := by
  rw [testCurPerm_eq] at h
  obtain ⟨c, hc, h⟩ := bind_eq_ok.mp h
  obtain ⟨hskip, hcache'⟩ := checkPermCache_faithful hcache hc
  dsimp only at h
  rw [hskip] at h
  cases hv : cx.opts.useConstraintsG && violatesProgOrder z3 rules c.curInterfStoreMap c.curSelfStoreMap with
  | true =>
      rw [hv, if_pos rfl] at h
      cases h
      have hnone : ∀ r, ¬ Explored o cx z3 rules F createSite interfs stFacts entryFact fuel perm r := by
        rintro r ⟨c', hc', hv', _⟩
        rw [hc] at hc'
        cases hc'
        rw [hv] at hv'
        cases hv'
      exact ⟨⟨fun U => (and_iff_left fun r hr => absurd hr (hnone r)).symm,
        fun V => (and_iff_left fun r hr => absurd hr (hnone r)).symm⟩, hcache'⟩
  | false =>
      rw [hv, if_neg Bool.false_ne_true] at h
      obtain ⟨r, hrun, h⟩ := bind_eq_ok.mp h
      cases h
      obtain ⟨r₀, hr₀, hres, hbooks⟩ := (analyzeFunc_join hL entryFact false fuel s.books).exists_left hrun
      have hone : ∀ r', Explored o cx z3 rules F createSite interfs stFacts entryFact fuel perm r' ↔ r' = r₀ := by
        intro r'
        constructor
        · rintro ⟨c', hc', _, hr'⟩
          rw [hc] at hc'
          cases hc'
          exact Except.ok.inj (hr'.symm.trans hr₀)
        · rintro rfl
          exact ⟨c, hc, hv, hr₀⟩
      refine ⟨⟨fun U => ?_, fun V => ?_⟩, hcache'⟩
      · simp only [hone, forall_eq]
        exact hbooks U
      · simp only [hone, forall_eq]
        rw [mapBelow_mergeFactMaps_iff hL, hres]

theorem permLoop_join {sizes : List Nat} (hpos : ∀ size ∈ sizes, 0 < size) {n k : Nat} {cp : CartesianProduct}
    {s t : PermState ap} (hat : CartesianProduct.At sizes k cp)
    (hcache : s.permCache.FaithfulFor cx z3 rules createSite interfs stFacts fuel)
    (h : permLoop o cx z3 rules F createSite interfs stFacts entryFact fuel n cp s = .ok t) :
    s.IsJoin t fun r => ∃ perm ∈ (Odometer.tuples sizes).drop k,
      Explored o cx z3 rules F createSite interfs stFacts entryFact fuel perm r := by
  induction n generalizing k cp s with
  | zero =>
      unfold permLoop at h
      split_ifs at h with hend
      cases h
      rw [Odometer.drop_tuples_eq_nil (hat.atEnd.mp hend)]
      exact ⟨fun U => by simp, fun V => by simp⟩
  | succ n ih =>
      unfold permLoop at h
      split_ifs at h with hend
      · cases h
        rw [Odometer.drop_tuples_eq_nil (hat.atEnd.mp hend)]
        exact ⟨fun U => by simp, fun V => by simp⟩
      · have hk : k < sizes.prod := Nat.lt_of_not_le fun h => hend (hat.atEnd.mpr h)
        obtain ⟨r, htest, h⟩ := bind_eq_ok.mp h
        obtain ⟨cp', hinc, h⟩ := bind_eq_ok.mp h
        obtain ⟨hjoin, hcache'⟩ := testCurPerm_join hL hcache htest
        have hrest := ih (hat.increment hpos (by simpa using hinc)) hcache' h
        rw [Odometer.drop_tuples hk (hat.permutation hk)]
        simpa only [List.mem_cons, or_and_right, exists_or, exists_eq_left] using hjoin.trans hrest

end Permutations

end Lattice

/-- **A thread is the least upper bound of its permutations.**  What bounds the bookkeeping that the combinational
analysis returns is what bounds the one it was given and the findings of every permutation that is not rejected,
analysed on its own; and likewise for the facts of the blocks. -/
theorem analyzeThreadInterf_isJoin {ap : Apron} (hL : ap.Lattice) (o : BlockOrder) (cx : Ctx)
    (hnc : cx.opts.noCombinsG = false) (z3 : Solver) (rules : List Rule) (F : Function)
    (createSite : Option Instruction) (interfs : LoadStores) (hsize : interfs.size ≠ 0) (stFacts : StoreFacts ap)
    (books : Books ap) (permCache : PermCache) (entryFact : LatticeFact ap) (fuel : Nat)
    (hcache : permCache.FaithfulFor cx z3 rules createSite interfs stFacts fuel) (t : PermState ap)
    (h : analyzeThreadInterf o cx z3 rules F createSite interfs stFacts books permCache entryFact fuel = .ok t) :
    (∀ U, Books.Below t.books U ↔ Books.Below books U ∧
      ∀ perm r, Odometer.InRange (interfs.toList.map fun p => p.2.length + 1) perm →
        Explored o cx z3 rules F createSite interfs stFacts entryFact fuel perm r → Books.Below r.2 U) ∧
    ∀ V, MapBelow t.res V ↔
      ∀ perm r, Odometer.InRange (interfs.toList.map fun p => p.2.length + 1) perm →
        Explored o cx z3 rules F createSite interfs stFacts entryFact fuel perm r → MapBelow r.1 V := by
  have hpos : ∀ size ∈ interfs.toList.map fun p => p.2.length + 1, 0 < size := by
    intro size hmem
    obtain ⟨p, _, rfl⟩ := List.mem_map.mp hmem
    exact Nat.succ_pos _
  unfold analyzeThreadInterf at h
  rw [if_neg hsize, if_neg (by rw [hnc]; exact Bool.false_ne_true)] at h
  obtain ⟨cp, hcp, h⟩ := bind_eq_ok.mp h
  have hat := (CartesianProduct.new_at (by simpa using hcp)).2
  have hjoin := permLoop_join hL hpos hat hcache h
  rw [List.drop_zero] at hjoin
  simp only [Odometer.mem_tuples hpos] at hjoin
  constructor
  · intro U
    rw [hjoin.books]
    refine and_congr_right fun _ => ⟨fun hall perm r hperm hr => hall r ⟨perm, hperm, hr⟩, fun hall r hr => ?_⟩
    obtain ⟨perm, hperm, hr⟩ := hr
    exact hall perm r hperm hr
  · intro V
    rw [hjoin.res]
    constructor
    · rintro ⟨_, hall⟩ perm r hperm hr
      exact hall r ⟨perm, hperm, hr⟩
    · intro hall
      refine ⟨fun b f hf => by simp at hf, fun r hr => ?_⟩
      obtain ⟨perm, hperm, hr⟩ := hr
      exact hall perm r hperm hr

open SameIndices (cx rules thread2 create2 call) in
/-- The second thread, with a permutation that reads its own value and one that reads the store of the other
thread. -/
theorem analyzeThreadInterf_isJoin_thread2 : ∃ t : PermState boxes,
    analyzeThreadInterf .increasing cx (fun _ _ => .lUndef) rules thread2 (some create2)
      (call thread2 create2 [0]).interfs (call thread2 create2 [0]).stFacts {} {}
      (call thread2 create2 [0]).entryFact 50 = .ok t ∧
    ∀ perm r, Odometer.InRange [2] perm →
      Explored .increasing cx (fun _ _ => .lUndef) rules thread2 (some create2) (call thread2 create2 [0]).interfs
        (call thread2 create2 [0]).stFacts (call thread2 create2 [0]).entryFact 50 perm r →
      Books.Below r.2 t.books := by
  obtain ⟨t, ht⟩ := exists_ok (x := analyzeThreadInterf .increasing cx (fun _ _ => .lUndef) rules thread2
    (some create2) (call thread2 create2 [0]).interfs (call thread2 create2 [0]).stFacts {} {}
    (call thread2 create2 [0]).entryFact 50) (by decide)
  have hjoin := analyzeThreadInterf_isJoin Box.lattice .increasing cx rfl (fun _ _ => .lUndef) rules thread2
    (some create2) (call thread2 create2 [0]).interfs (by decide) (call thread2 create2 [0]).stFacts {} {}
    (call thread2 create2 [0]).entryFact 50 (fun _ _ _ hv => by simp at hv) t ht
  have hrefl : Books.Below t.books t.books := Books.Grows.refl (leq_joinOrder Box.lattice) t.books
  exact ⟨t, ht, ((hjoin.1 t.books).mp hrefl).2⟩

end Watts
