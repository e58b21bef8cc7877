import Watts.FenceOrder
import Watts.PrunedPermutations
import Watts.SolverAnswers

/-! The memory models compared.  The tables of TSO, PSO and RMO have the same rules, so that the pass does
the same under all of them; and what they derive sequential consistency derives too, so that they prune
less. -/

namespace Watts

open Fallible (Agree)

/-! ### The weaker models -/

/-- **The three tables** have the same rules. -/
theorem mem_rules_iff (model model' : MemoryModel) (r : Rule) : r ∈ model.rules ↔ r ∈ model'.rules := by
  unfold MemoryModel.rules
  rw [List.mem_append, List.mem_append, List.mem_append, List.mem_append, mem_reorderRules, mem_reorderRules]

theorem derives_rules_iff (model model' : MemoryModel) (base facts : List Rule) (a : GroundAtom) :
    Horn.Derives (base ++ model.rules ++ facts) a ↔ Horn.Derives (base ++ model'.rules ++ facts) a := by
  have hsub : ∀ model model' : MemoryModel, ∀ r ∈ base ++ model.rules ++ facts,
      r ∈ base ++ model'.rules ++ facts := by
    intro model model' r hr
    rw [List.mem_append, List.mem_append] at hr ⊢
    rwa [mem_rules_iff model' model]
  exact ⟨fun h => h.mono (hsub model model'), fun h => h.mono (hsub model' model)⟩

theorem sameTrue_rules {z3 : Solver} (hz3 : z3.LeastModel) (base : List Rule) (model model' : MemoryModel) :
    SameTrue z3 z3 (base ++ model.rules) (base ++ model'.rules) := by
  intro facts a
  rw [hz3, hz3]
  exact derives_rules_iff model model' base facts a

variable {ap : Apron}

/-- **The flags of the weaker memory models** all lead to the same run: the pass stops with the same failure,
or ends in the same state up to cached answers that are not true. -/
theorem runOnModule_memoryModel (o : BlockOrder) (cx : Ctx) (z3 : Solver) (hz3 : z3.LeastModel)
    (opts opts' : Options) (hopts : opts.memoryModel ≠ none) (hopts' : opts'.memoryModel ≠ none)
    (trees : Trees) (threadFuncs : List FuncId) (fuel : Nat) :
    Agree (SameRun SameCache)
      (addConstraintsOf opts trees cx.module threadFuncs fuel >>= fun rules =>
        (runOnModule o cx z3 rules fuel : Except LoopStop (RunState ap)))
      (addConstraintsOf opts' trees cx.module threadFuncs fuel >>= fun rules =>
        runOnModule o cx z3 rules fuel) := by
  obtain ⟨model, hmodel⟩ := Option.ne_none_iff_exists'.mp hopts
  obtain ⟨model', hmodel'⟩ := Option.ne_none_iff_exists'.mp hopts'
  unfold addConstraintsOf
  rw [hmodel, hmodel']
  dsimp only
  cases addWeakFacts trees cx.module threadFuncs fuel with
  | error e => exact .error e
  | ok facts => exact runOnModule_sameTrue o cx (sameTrue_rules hz3 facts model model') fuel

/-! ### Sequential consistency -/

/-- The rule does not ask for fences or for what is not reordered. -/
def FenceFree (r : Rule) : Prop :=
  ∀ a ∈ r.body, a.pred ≠ .noReorder ∧ a.pred ≠ .fence

theorem fenceFree_fact (p : Rel) (cs : List Value) : FenceFree (.fact p cs) :=
  fun _ ha => absurd ha List.not_mem_nil

theorem addPruningRules_fenceFree : ∀ r ∈ addPruningRules, FenceFree r := by
  unfold FenceFree
  decide

theorem addReadsFromIsMHB_fenceFree : FenceFree addReadsFromIsMHB := by
  unfold FenceFree
  decide

theorem addFenceReorderRules_head : ∀ r ∈ addFenceReorderRules, r.head.pred = .noReorder := by
  decide

section

variable {trees : Trees} {M : Module} {threadFuncs : List FuncId} {fuel : Nat}

theorem addDomLoadStoreFacts_fenceFree {rules : List Rule}
    (h : addDomLoadStoreFacts trees M threadFuncs = .ok rules) {r : Rule} (hr : r ∈ rules) : FenceFree r := by
  rcases mem_addDomLoadStoreFacts_dom h hr with
    rfl | ⟨F, _, hdom⟩ | ⟨i, _, ⟨p, _, rfl⟩ | ⟨v, p, _, rfl⟩⟩
  · unfold FenceFree
    decide
  · cases hdom <;> exact fenceFree_fact _ _
  · exact fenceFree_fact _ _
  · exact fenceFree_fact _ _

theorem addCreateFacts_fenceFree {rules : List Rule} (h : addCreateFacts trees M = .ok rules) {r : Rule}
    (hr : r ∈ rules) : FenceFree r := by
  rcases mem_addCreateFacts_notRf h hr with
    ⟨_, _, _, _, ci, _, _, _, _, l, _, rfl | ⟨s, _, rfl⟩⟩ | ⟨ci, _, _, F, _, _, b, _, rfl⟩
  · intro a ha
    rcases List.mem_pair.mp ha with rfl | rfl
    · exact ⟨show Rel.st ≠ .noReorder by decide, show Rel.st ≠ .fence by decide⟩
    · exact ⟨show Rel.mhb ≠ .noReorder by decide, show Rel.mhb ≠ .fence by decide⟩
  · exact fenceFree_fact _ _
  · exact fenceFree_fact _ _

/-- The rules of a weaker memory model are collected where those of sequential consistency and the fences
are. -/
theorem addConstraintsOf_ok {opts : Options} (hopts : opts.memoryModel ≠ none) {sc fences : List Rule}
    (hsc : addConstraints trees M threadFuncs fuel = .ok sc) (hfences : addFenceFacts M threadFuncs = .ok fences) :
    ∃ weak, addConstraintsOf opts trees M threadFuncs fuel = .ok weak := by
  obtain ⟨model, hmodel⟩ := Option.ne_none_iff_exists'.mp hopts
  obtain ⟨doms, hdoms, hsc⟩ := Fallible.bind_eq_ok.mp hsc
  obtain ⟨creates, hcreates, hsc⟩ := Fallible.bind_eq_ok.mp hsc
  obtain ⟨joins, hjoins, hsc⟩ := Fallible.bind_eq_ok.mp hsc
  obtain ⟨notReach, hnotReach, _⟩ := Fallible.bind_eq_ok.mp hsc
  unfold addConstraintsOf addWeakFacts
  rw [hmodel, hdoms, hcreates, hjoins, hnotReach, hfences]
  exact ⟨_, rfl⟩

/-- The rules of a weaker memory model, compared with those of sequential consistency. -/
theorem mem_weak {opts : Options} {weak sc : List Rule} (hopts : opts.memoryModel ≠ none)
    (hweak : addConstraintsOf opts trees M threadFuncs fuel = .ok weak)
    (hsc : addConstraints trees M threadFuncs fuel = .ok sc) {r : Rule} (hr : r ∈ weak) :
    r.head.pred = .noReorder ∨ r.head.pred = .fence ∨ r = addDomNotReachReorderRule ∨
      r ∈ sc ∧ FenceFree r := by
  obtain ⟨model, facts, hfacts, rfl⟩ := addConstraintsOf_weak hopts hweak
  obtain ⟨doms, hdoms, hfacts⟩ := Fallible.bind_eq_ok.mp hfacts
  obtain ⟨fences, hfences, hfacts⟩ := Fallible.bind_eq_ok.mp hfacts
  obtain ⟨creates, hcreates, hfacts⟩ := Fallible.bind_eq_ok.mp hfacts
  obtain ⟨joins, hjoins, hfacts⟩ := Fallible.bind_eq_ok.mp hfacts
  obtain ⟨notReach, hnotReach, hfacts⟩ := Fallible.bind_eq_ok.mp hfacts
  cases hfacts
  unfold addConstraints at hsc
  rw [hdoms, hcreates, hjoins, hnotReach] at hsc
  cases hsc
  rcases List.mem_append.mp hr with hr | hr
  · simp only [List.mem_append] at hr
    rcases hr with (((hr | hr) | hr) | hr) | hr
    · refine .inr (.inr (.inr ⟨?_, addDomLoadStoreFacts_fenceFree (liftStop_eq_ok.mp hdoms) hr⟩))
      simp only [List.mem_append, hr, true_or]
    · obtain ⟨i, _, _, rfl⟩ := mem_addFenceFacts (liftStop_eq_ok.mp hfences) hr
      exact .inr (.inl rfl)
    · refine .inr (.inr (.inr ⟨?_, addCreateFacts_fenceFree (liftStop_eq_ok.mp hcreates) hr⟩))
      simp only [List.mem_append, hr, true_or, or_true]
    · refine .inr (.inr (.inr ⟨?_, ?_⟩))
      · simp only [List.mem_append, hr, true_or, or_true]
      · obtain ⟨_, _, _, _, _, _, _, ret, _, rfl⟩ := mem_addJoinFacts hjoins hr
        exact fenceFree_fact _ _
    · refine .inr (.inr (.inr ⟨?_, ?_⟩))
      · simp only [List.mem_append, hr, true_or, or_true]
      · obtain ⟨_, _, _, _, _, _, _, _, _, _, _, _, _, rfl⟩ := mem_addNotReachableFacts_blocks hnotReach hr
        exact fenceFree_fact _ _
  · rcases List.mem_append.mp hr with hr | hr
    · rcases List.mem_append.mp hr with hr | hr
      · rcases List.mem_cons.mp hr with rfl | hr
        · exact .inr (.inr (.inl rfl))
        · have hmem : r ∈ addPruningRules :=
            (List.Sublist.cons_cons _ (List.sublist_cons_self _ _)).subset hr
          refine .inr (.inr (.inr ⟨?_, addPruningRules_fenceFree r hmem⟩))
          simp only [List.mem_append, hmem, true_or, or_true]
      · rcases mem_reorderRules.mp hr with ⟨p, _, rfl⟩ | hr
        · exact .inl rfl
        · exact .inl (addFenceReorderRules_head r hr)
    · rw [List.mem_singleton.mp hr]
      refine .inr (.inr (.inr ⟨?_, addReadsFromIsMHB_fenceFree⟩))
      simp only [List.mem_append, List.mem_singleton, or_true]

/-- **What a weaker memory model derives**, sequential consistency derives, whichever `rf` facts are
assumed. -/
theorem derives_of_weak {opts : Options} {weak sc : List Rule} (hopts : opts.memoryModel ≠ none)
    (hweak : addConstraintsOf opts trees M threadFuncs fuel = .ok weak)
    (hsc : addConstraints trees M threadFuncs fuel = .ok sc) {facts : List Rule}
    (hfacts : ∀ r ∈ facts, r.body = []) {a : GroundAtom} (h : Horn.Derives (weak ++ facts) a)
    (hreo : a.pred ≠ .noReorder) (hfence : a.pred ≠ .fence) : Horn.Derives (sc ++ facts) a := by
  suffices hI : a.pred = .noReorder ∨ a.pred = .fence ∨ Horn.Derives (sc ++ facts) a from
    (hI.resolve_left hreo).resolve_left hfence
  refine h.sound (I := fun a => a.pred = .noReorder ∨ a.pred = .fence ∨ Horn.Derives (sc ++ facts) a) ?_
  have hsame : ∀ r ∈ sc ++ facts, FenceFree r →
      r.Holds fun a => a.pred = .noReorder ∨ a.pred = .fence ∨ Horn.Derives (sc ++ facts) a := by
    intro r hr hfree σ hbody
    refine .inr (.inr (Horn.Derives.closed hr σ fun b hb => ?_))
    obtain ⟨hbreo, hbfence⟩ := hfree b hb
    exact ((hbody b hb).resolve_left hbreo).resolve_left hbfence
  intro r hr
  rcases List.mem_append.mp hr with hr | hr
  · rcases mem_weak hopts hweak hsc hr with hpred | hpred | rfl | ⟨hmem, hfree⟩
    · exact fun _ _ => .inl hpred
    · exact fun _ _ => .inr (.inl hpred)
    · -- without the third conjunct this is the rule of sequential consistency
      intro σ hbody
      have hrule : addDomNotReachRule ∈ sc ++ facts :=
        List.mem_append_left _ (addPruningRules_mem hsc _ (.tail _ (.head _)))
      refine .inr (.inr (Horn.Derives.closed hrule σ fun b hb => ?_))
      rcases List.mem_pair.mp hb with rfl | rfl
      · exact ((hbody (atom .dom (.bound 0) (.bound 1)) (.head _)).resolve_left
          (show Rel.dom ≠ .noReorder by decide)).resolve_left (show Rel.dom ≠ .fence by decide)
      · exact ((hbody (atom .notReach (.bound 1) (.bound 0)) (.tail _ (.head _))).resolve_left
          (show Rel.notReach ≠ .noReorder by decide)).resolve_left (show Rel.notReach ≠ .fence by decide)
    · exact hsame r (List.mem_append_left _ hmem) hfree
  · refine hsame r (List.mem_append_right _ hr) fun b hb => ?_
    rw [hfacts r hr] at hb
    cases hb

/-- Sequential consistency rejects every choice that a weaker memory model rejects. -/
theorem prunesMore_of_weak {z3 : Solver} (hz3 : z3.LeastModel) {opts : Options} {weak sc : List Rule}
    (hopts : opts.memoryModel ≠ none) (hweak : addConstraintsOf opts trees M threadFuncs fuel = .ok weak)
    (hsc : addConstraints trees M threadFuncs fuel = .ok sc) : PrunesMore z3 z3 sc weak := by
  intro interfs rfs h
  unfold violatesProgOrder at h ⊢
  split_ifs at h ⊢
  dsimp only at h ⊢
  rw [List.any_eq_true] at h ⊢
  obtain ⟨p, hp, h⟩ := h
  refine ⟨p, hp, ?_⟩
  rw [beq_iff_eq] at h ⊢
  unfold queryNotReads at h ⊢
  rw [hz3, List.append_assoc] at h ⊢
  refine derives_of_weak hopts hweak hsc (fun r hr => ?_) h (show Rel.notRf ≠ .noReorder by decide)
    (show Rel.notRf ≠ .fence by decide)
  rcases List.mem_append.mp hr with hr | hr
  · obtain ⟨q, _, rfl⟩ := List.mem_map.mp hr
    rfl
  · obtain ⟨q, _, rfl⟩ := List.mem_map.mp hr
    rfl

/-- The filter keeps at least the interferences that it keeps under sequential consistency. -/
theorem filterMHBInterfs_of_weak {z3 : Solver} (hz3 : z3.LeastModel) {opts : Options} {weak sc : List Rule}
    (hopts : opts.memoryModel ≠ none) (hweak : addConstraintsOf opts trees M threadFuncs fuel = .ok weak)
    (hsc : addConstraints trees M threadFuncs fuel = .ok sc) {cache cache' : MHBCache}
    (hcache : cache.Faithful z3 sc) (hcache' : cache'.Faithful z3 weak) (interfs : LoadStores) {l s : Value}
    (h : (filterMHBInterfs z3 sc cache interfs).1.HasPair l s) :
    (filterMHBInterfs z3 weak cache' interfs).1.HasPair l s := by
  obtain ⟨hpair, hquery⟩ := ((filterMHBInterfs_spec hcache interfs).1 l s).mp h
  refine ((filterMHBInterfs_spec hcache' interfs).1 l s).mpr ⟨hpair, fun htrue => hquery ?_⟩
  unfold queryMHB at htrue ⊢
  rw [hz3] at htrue ⊢
  have hnil : ∀ r ∈ ([] : List Rule), r.body = [] := fun r hr => absurd hr List.not_mem_nil
  have hderives := derives_of_weak hopts hweak hsc hnil (by rwa [List.append_nil])
    (show Rel.mhb ≠ .noReorder by decide) (show Rel.mhb ≠ .fence by decide)
  rwa [List.append_nil] at hderives

end

/-- **The weaker memory models cover sequential consistency**: when the analysis of a thread returns under a
weaker memory model, it returns under sequential consistency, and everything that it finds there is also
found under the weaker model. -/
theorem analyzeThreadInterf_weak_covers (hL : ap.Lattice) (o : BlockOrder) (cx : Ctx) (z3 : Solver)
    (hz3 : z3.LeastModel) (opts : Options) (hopts : opts.memoryModel ≠ none) (trees : Trees) (M : Module)
    (threadFuncs : List FuncId) (weak sc : List Rule) (n fuel : Nat)
    (hweak : addConstraintsOf opts trees M threadFuncs n = .ok weak)
    (hsc : addConstraints trees M threadFuncs n = .ok sc) (F : Function) (createSite : Option Instruction)
    (interfs : LoadStores) (stFacts : StoreFacts ap) (books : Books ap) (entryFact : LatticeFact ap)
    (t : PermState ap)
    (h : analyzeThreadInterf o cx z3 weak F createSite interfs stFacts books {} entryFact fuel = .ok t) :
    ∃ s, analyzeThreadInterf o cx z3 sc F createSite interfs stFacts books {} entryFact fuel = .ok s ∧
      s.Below t :=
  (prunesMore_of_weak hz3 hopts hweak hsc).analyzeThreadInterf hL o cx F createSite interfs stFacts books
    (fun _ => ⟨rfl, id⟩) entryFact fuel h

namespace SameIndices

def weakRules : List Rule :=
  (addConstraintsOf { tsoConstrG := true } trees program [0, 1, 2] 50).toOption.getD []

theorem addConstraintsOf_eq :
    addConstraintsOf { tsoConstrG := true } trees program [0, 1, 2] 50 = .ok weakRules := by
  have hfences : addFenceFacts program [0, 1, 2] = .ok [] := rfl
  have htso : Options.memoryModel { tsoConstrG := true } ≠ none := by
    decide
  obtain ⟨weak, hweak⟩ := addConstraintsOf_ok htso addConstraints_eq hfences
  unfold weakRules
  rw [hweak]
  rfl

theorem not_violates_weak {z3 : Solver} (hz : z3.LeastModel) :
    violatesProgOrder z3 weakRules (.insert ∅ 3 7) ∅ = false := by
  cases hv : violatesProgOrder z3 weakRules (.insert ∅ 3 7) ∅ with
  | false => rfl
  | true =>
      have hsc := prunesMore_of_weak hz (by decide) addConstraintsOf_eq addConstraints_eq _ _ hv
      rw [not_violates_thread2 hz] at hsc
      cases hsc

/-- The load does not have to run before the store: no permutation with the two would be left. -/
theorem queryMHB_thread2 : queryMHB Solver.least rules 3 7 ≠ .lTrue := by
  intro hquery
  have hmhb := (Solver.least_leastModel _ _).mp hquery
  have hviolates : violatesProgOrder Solver.least rules (.insert ∅ 3 7) ∅ = true := by
    rw [violatesProgOrder_insert]
    refine decide_eq_true ((Solver.least_leastModel _ _).mpr ?_)
    have hmem : addMHBNotReads ∈ rules :=
      addPruningRules_mem addConstraints_eq _ (.tail _ (.tail _ (.tail _ (.tail _ (.head _)))))
    refine Horn.Derives.closed (List.mem_append_left _ (List.mem_append_left _ hmem)) (fun n => if n = 0 then 3 else 7)
      fun b hb => ?_
    rw [List.mem_singleton.mp hb]
    exact hmhb.mono fun r hr => List.mem_append_left _ (List.mem_append_left _ hr)
  rw [not_violates_thread2 Solver.least_leastModel] at hviolates
  cases hviolates

/-- The filter under TSO keeps the store after the creation. -/
theorem filterMHBInterfs_of_weak_store :
    (filterMHBInterfs Solver.least weakRules (fun _ => none) (.insert ∅ 3 [7])).1.HasPair 3 7 := by
  have hfaithful : ∀ rs, MHBCache.Faithful Solver.least rs (fun _ => none) := by
    intro rs l s r hc
    cases hc
  refine filterMHBInterfs_of_weak Solver.least_leastModel (by decide) addConstraintsOf_eq addConstraints_eq
    (hfaithful rules) (hfaithful weakRules) (.insert ∅ 3 [7]) ?_
  exact ((filterMHBInterfs_spec (hfaithful rules) (.insert ∅ 3 [7])).1 3 7).mpr
    ⟨⟨[7], rfl, .head _⟩, queryMHB_thread2⟩

/-- The second thread under TSO: both permutations are analysed. -/
theorem weak_returns {z3 : Solver} (hz : z3.LeastModel) : ∃ t : PermState boxes,
    analyzeThreadInterf .increasing cx z3 weakRules thread2 (some create2) (call thread2 create2 [0]).interfs
      (call thread2 create2 [0]).stFacts {} {} (call thread2 create2 [0]).entryFact 50 = .ok t := by
  have htest : ∀ (perm : List Nat) (c : Choices boxes) (s : PermState boxes),
      gatherChoices cx (some create2) perm (call thread2 create2 [0]).interfs
        (call thread2 create2 [0]).stFacts 50 = .ok c →
      violatesProgOrder z3 weakRules c.curInterfStoreMap c.curSelfStoreMap = false →
      s.permCache[perm]? = none →
      (analyzeFunc .increasing cx c.curInterfMap {} (call thread2 create2 [0]).entryFact thread2 false
        50).isOk = true →
      ∃ r, testCurPerm .increasing cx z3 weakRules thread2 (some create2) perm
        (call thread2 create2 [0]).interfs (call thread2 create2 [0]).stFacts
        (call thread2 create2 [0]).entryFact 50 s = .ok r ∧ r.2.permCache = s.permCache.insert perm false := by
    intro perm c s hc hv hnone hrun
    obtain ⟨r, hr⟩ := analyzeFunc_ok_of_empty Box.lattice hrun s.books
    have hcheck : checkPermCache z3 weakRules cx.opts.useConstraintsG perm c s.permCache =
        (false, s.permCache.insert perm false) := by
      unfold checkPermCache
      rw [if_pos (show cx.opts.useConstraintsG = true from rfl), hnone]
      dsimp only
      rw [hv]
    refine ⟨(true, ⟨r.2, mergeFactMaps s.res r.1, s.permCache.insert perm false⟩), ?_, rfl⟩
    rw [testCurPerm_eq, hc, Fallible.ok_bind, hcheck]
    dsimp only
    rw [if_neg Bool.false_ne_true, hr]
    rfl
  obtain ⟨r₀, h₀, hcache₀⟩ := htest [0] ⟨∅, ∅, ∅⟩ ⟨{}, {}, {}⟩ rfl rfl rfl (by decide)
  obtain ⟨r₁, h₁, _⟩ := htest [1]
    ⟨.insert ∅ 3 ⟨some [.const 1, .const 1]⟩, .insert ∅ 3 7, ∅⟩ r₀.2 rfl (not_violates_weak hz)
    (by rw [hcache₀]; rfl) (by decide)
  refine ⟨r₁.2, ?_⟩
  unfold analyzeThreadInterf
  rw [if_neg (by decide), if_neg (by decide)]
  refine Fallible.bind_eq_ok.mpr ⟨⟨[0], 1, 2, [2]⟩, rfl, ?_⟩
  unfold permLoop
  refine Fallible.bind_eq_ok.mpr ⟨r₀, h₀, Fallible.bind_eq_ok.mpr ⟨⟨[1], 2, 2, [2]⟩, rfl, ?_⟩⟩
  unfold permLoop
  exact Fallible.bind_eq_ok.mpr ⟨r₁, h₁, Fallible.bind_eq_ok.mpr ⟨⟨[1], 3, 2, [2]⟩, rfl, rfl⟩⟩

/-- The second thread of the program under TSO and under sequential consistency. -/
theorem analyzeThreadInterf_weak_covers_thread2 : ∃ t s : PermState boxes,
    analyzeThreadInterf .increasing cx Solver.least weakRules thread2 (some create2)
      (call thread2 create2 [0]).interfs (call thread2 create2 [0]).stFacts {} {}
      (call thread2 create2 [0]).entryFact 50 = .ok t ∧
    analyzeThreadInterf .increasing cx Solver.least rules thread2 (some create2)
      (call thread2 create2 [0]).interfs (call thread2 create2 [0]).stFacts {} {}
      (call thread2 create2 [0]).entryFact 50 = .ok s ∧ s.Below t := by
  obtain ⟨t, ht⟩ := weak_returns Solver.least_leastModel
  obtain ⟨s, hs, hbelow⟩ := analyzeThreadInterf_weak_covers Box.lattice .increasing cx Solver.least
    Solver.least_leastModel { tsoConstrG := true } (by decide) trees program [0, 1, 2] weakRules rules 50 50
    addConstraintsOf_eq addConstraints_eq thread2 (some create2) (call thread2 create2 [0]).interfs
    (call thread2 create2 [0]).stFacts {} (call thread2 create2 [0]).entryFact t ht
  exact ⟨t, s, ht, hs, hbelow⟩

/-- The pass under TSO and under PSO. -/
theorem runOnModule_memoryModel_program :
    Agree (SameRun SameCache)
      (addConstraintsOf { tsoConstrG := true } trees cx.module [0, 1, 2] 50 >>= fun rules =>
        (runOnModule .increasing cx Solver.least rules 50 : Except LoopStop (RunState boxes)))
      (addConstraintsOf { psoConstrG := true } trees cx.module [0, 1, 2] 50 >>= fun rules =>
        runOnModule .increasing cx Solver.least rules 50) :=
  runOnModule_memoryModel .increasing cx Solver.least Solver.least_leastModel { tsoConstrG := true }
    { psoConstrG := true } (by decide) (by decide) trees [0, 1, 2] 50

end SameIndices

end Watts
