import Watts.Library.Dominance
import Watts.MustHappenBefore

/-! The order of the statements of one function.  Both premises of the rule for it are derivable exactly
when the first statement dominates the second and no path leads back. -/

namespace Watts

section Order

variable {trees : Trees} {M : Module} {threadFuncs : List FuncId} {fuel : Nat} {doms notReach rules : List Rule}
  {F : Function} {A B C : BasicBlock} {i j k : Instruction}

/-- The dominator tree of LLVM: the children of a block are the blocks that it immediately dominates. -/
def Trees.DomExact (trees : Trees) (M : Module) : Prop :=
  ∀ F ∈ M.functions, ∀ first, F.blocks.head? = some first → ∀ A ∈ F.blocks, ∀ c,
    c ∈ trees.domChildren F.id A.id ↔ Flow.ImmediatelyDominates F.Edge first.id A.id c

theorem Trees.DomExact.correct (h : trees.DomExact M) : trees.DomCorrect M :=
  fun F hF first hfirst A hA c hc => (h F hF first hfirst A hA c).mp hc

/-! ### The search for reachable blocks -/

namespace Function

theorem succsOf_mem {a b : BlockId} (h : b ∈ F.succsOf a) : b ∈ F.blocks.map BasicBlock.id := by
  unfold succsOf at h
  cases hA : F.block? a with
  | none =>
      rw [hA] at h
      cases h
  | some A =>
      rw [hA] at h
      exact F.succs_mem A (block?_mem hA).1 b h

/-- **The search finds the blocks that some path of at least one edge leads to.** -/
theorem forwardDfs_iff {b c : BlockId} {found : List BlockId} (h : F.forwardDfs b fuel = .ok found) :
    c ∈ found ↔ Relation.TransGen F.Edge b c := by
  unfold forwardDfs at h
  cases hdfs : Flow.dfs F.succsOf fuel (F.succsOf b).reverse [] with
  | none =>
      rw [hdfs] at h
      cases h
  | some found' =>
      rw [hdfs] at h
      cases h
      exact Flow.dfs_iff hdfs

/-- The steps that suffice for a search from any block. -/
def searchFuel (F : Function) : Nat :=
  2 * Flow.pending F.succsOf (F.blocks.map BasicBlock.id) []

theorem forwardDfs_ok (hB : B ∈ F.blocks) (hfuel : F.searchFuel ≤ fuel) :
    ∃ found, F.forwardDfs B.id fuel = .ok found := by
  have hmem : B.id ∈ F.blocks.map BasicBlock.id := List.mem_map_of_mem hB
  have hvisit : Flow.pending F.succsOf (F.blocks.map BasicBlock.id) [B.id] + (F.succsOf B.id).length ≤
      Flow.pending F.succsOf (F.blocks.map BasicBlock.id) [] :=
    Flow.pending_visit hmem List.not_mem_nil
  have hclosed : ∀ a ∈ F.blocks.map BasicBlock.id, ∀ b ∈ F.succsOf a, b ∈ F.blocks.map BasicBlock.id :=
    fun _ _ _ h => succsOf_mem h
  have hstack : ∀ a ∈ (F.succsOf B.id).reverse, a ∈ F.blocks.map BasicBlock.id :=
    fun _ h => succsOf_mem (List.mem_reverse.mp h)
  unfold searchFuel at hfuel
  have hdfs : ∃ found, Flow.dfs F.succsOf fuel (F.succsOf B.id).reverse [] = some found := by
    apply Flow.dfs_terminates hclosed hstack
    rw [List.length_reverse]
    omega
  obtain ⟨found, hfound⟩ := hdfs
  exact ⟨found, by unfold forwardDfs; rw [hfound]⟩

end Function

/-- With enough steps the facts are collected. -/
theorem addNotReachableFacts_ok (hfuel : ∀ F ∈ M.functions, F.searchFuel ≤ fuel) :
    ∃ rules, addNotReachableFacts M fuel = .ok rules := by
  have hblocks : ∃ facts, (M.functions.mapM fun F => F.blocks.mapM fun B => do
      let reach ← F.forwardDfs B.id fuel
      return (F.blocks.filter fun (N : BasicBlock) => !reach.contains N.id).flatMap
        (addNotReachableBlock B)) = .ok facts := by
    refine Fallible.mapM_ok fun F hF => Fallible.mapM_ok fun B hB => ?_
    obtain ⟨reach, hreach⟩ := Function.forwardDfs_ok hB (hfuel F hF)
    exact ⟨_, Fallible.bind_eq_ok.mpr ⟨reach, hreach, rfl⟩⟩
  obtain ⟨facts, hfacts⟩ := hblocks
  exact ⟨facts.flatten.flatten, Fallible.bind_eq_ok.mpr ⟨facts, hfacts, rfl⟩⟩

/-! ### The facts -/

namespace BasicBlock

/-- The statements of a block that the relations speak of. -/
def tracked (b : BasicBlock) : List Instruction :=
  b.instrs.filter Instruction.isaStoreLoadCallOrTerm

/-- They are the accesses in order and the terminator. -/
theorem tracked_eq (b : BasicBlock) : b.tracked = b.getLoadStoreCallOrdered ++ [b.terminator] := by
  have hterm : b.terminator.isaStoreLoadCallOrTerm = true := by
    unfold Instruction.isaStoreLoadCallOrTerm
    rw [b.terminator_is, Bool.or_true, Bool.true_or]
  have hbody : ∀ i ∈ b.body, i.isaStoreLoadCallOrTerm = i.isaStoreLoadCall := by
    intro i hi
    unfold Instruction.isaStoreLoadCallOrTerm Instruction.isaStoreLoadCall
    rw [b.body_not_terminator i hi, Bool.or_false]
  unfold tracked getLoadStoreCallOrdered instrs
  rw [List.filter_append, List.filter_append, List.filter_singleton, List.filter_singleton, hterm,
    b.isaStoreLoadCall_terminator, List.filter_congr hbody]
  simp

/-- The first of them is the one that the creation of a thread and the dominator tree lead to. -/
theorem tracked_head (b : BasicBlock) : b.tracked.head? = some b.getFirstLoadStoreCallTerm := by
  unfold getFirstLoadStoreCallTerm
  rw [tracked_eq]
  unfold getLoadStoreCallOrdered
  rw [List.head?_append, List.head?_filter]
  cases b.instrs.find? Instruction.isaStoreLoadCall <;> rfl

end BasicBlock

/-! ### What is derived from the facts -/

theorem zip_tail_mem {α : Type} {x y : α} (us vs : List α) :
    (x, y) ∈ (us ++ x :: y :: vs).zip (us ++ x :: y :: vs).tail := by
  induction us with
  | nil => exact .head _
  | cons u us ih =>
      rw [List.cons_append, List.tail_cons]
      cases hrest : us ++ x :: y :: vs with
      | nil => simp at hrest
      | cons w ws =>
          rw [hrest, List.tail_cons] at ih
          exact .tail _ ih

theorem not_before_of_before (hnodup : B.instrs.Nodup) (h : Function.Before B i j) : ¬ Function.Before B j i := by
  obtain ⟨pre, post, hinstrs, hj⟩ := h
  rintro ⟨pre', post', hinstrs', hi⟩
  obtain ⟨ps, qs, rfl⟩ := List.append_of_mem hj
  rw [hinstrs] at hinstrs' hnodup
  rw [← List.cons_append, ← List.append_assoc] at hinstrs' hnodup
  obtain ⟨hpre, hpost⟩ := Function.not_mem_of_nodup_middle hnodup
  obtain ⟨rfl, _, rfl⟩ := (List.append_cons_inj_of_notMem hpre hpost).mp hinstrs'
  have hdisj := (List.nodup_append.mp hnodup).2.2
  exact hdisj i (List.mem_append_right _ (.head _)) i (.tail _ hi) rfl

section Complete

/-- `i` is `j` or dominates it by the facts. -/
def DomOrEq (rules : List Rule) (i j : Instruction) : Prop :=
  i = j ∨ Horn.Derives rules ⟨.dom, [i.id, j.id]⟩

/-- The dominance facts of a function are among the rules. -/
structure HasDomFacts (trees : Trees) (F : Function) (rules : List Rule) : Prop where
  trans : addTransRuleBVBV .dom ∈ rules
  inBlock : ∀ B ∈ F.blocks, ∀ r ∈ addInternalDomFacts B, r ∈ rules
  child : ∀ B ∈ F.blocks, ∀ C ∈ F.blocks, C.id ∈ trees.domChildren F.id B.id →
    addDomFact B.terminator C.getFirstLoadStoreCallTerm ∈ rules

theorem addDomLoadStoreFacts_has (h : addDomLoadStoreFacts trees M threadFuncs = .ok doms)
    (hF : F ∈ M.functions) (hthread : F.id ∈ threadFuncs) : HasDomFacts trees F doms := by
  obtain ⟨facts, hfacts, hret⟩ := Fallible.bind_eq_ok.mp h
  cases hret
  obtain ⟨fs, hfs, hfunc⟩ := Fallible.mapM_mem_of_mem hfacts hthread
  rw [Module.func?_id hF] at hfunc
  have hmem : ∀ r ∈ fs, r ∈ addTransRuleBVBV .dom :: facts.flatten := fun r hr =>
    .tail _ (List.mem_flatten.mpr ⟨fs, hfs, hr⟩)
  unfold addDomLoadStoreFactsFunc at hfunc
  cases hblocks : F.blocks with
  | nil => exact ⟨.head _, fun B hB => absurd (hblocks ▸ hB) List.not_mem_nil,
      fun B hB => absurd (hblocks ▸ hB) List.not_mem_nil⟩
  | cons first rest =>
      simp only [hblocks] at hfunc
      rw [← hblocks] at hfunc
      cases hfunc
      refine ⟨.head _, fun B hB r hr => hmem r ?_, fun B hB C hC hchild => hmem _ ?_⟩
      · refine List.mem_append_right _ (List.mem_flatMap.mpr ⟨B, hB, ?_⟩)
        exact List.mem_append_left _ (List.mem_append_left _ hr)
      · refine List.mem_append_right _ (List.mem_flatMap.mpr ⟨B, hB, List.mem_append_right _ ?_⟩)
        exact List.mem_filterMap.mpr ⟨C.id, hchild, by rw [Function.block?_id hC]; rfl⟩

variable (hfacts : HasDomFacts trees F rules)

include hfacts

theorem HasDomFacts.domTrans (hij : Horn.Derives rules ⟨.dom, [i.id, j.id]⟩) (hjk : DomOrEq rules j k) :
    Horn.Derives rules ⟨.dom, [i.id, k.id]⟩ := by
  rcases hjk with rfl | hjk
  · exact hij
  · exact derives_trans hfacts.trans hij hjk

/-- The facts of a block order its statements. -/
theorem HasDomFacts.ordered (hB : B ∈ F.blocks) {us vs : List Instruction} (htracked : B.tracked = us ++ i :: vs)
    (hj : j ∈ vs) : Horn.Derives rules ⟨.dom, [i.id, j.id]⟩ := by
  induction vs generalizing us i with
  | nil => cases hj
  | cons k vs ih =>
      have hpair : (i, k) ∈ B.tracked.zip B.tracked.tail := by
        rw [htracked]
        exact zip_tail_mem us vs
      have hfact : addDomFact i k ∈ rules := by
        apply hfacts.inBlock B hB
        unfold addInternalDomFacts
        rw [← BasicBlock.tracked_eq]
        exact List.mem_map.mpr ⟨(i, k), hpair, rfl⟩
      have hik : Horn.Derives rules ⟨.dom, [i.id, k.id]⟩ := .fact (fun _ => 0) hfact
      rcases List.mem_cons.mp hj with rfl | hj
      · exact hik
      · have hnext : B.tracked = (us ++ [i]) ++ k :: vs := by
          rw [htracked, List.append_assoc]
          rfl
        exact hfacts.domTrans hik (.inr (ih hnext hj))

/-- From the first statement of a block to any of them. -/
theorem HasDomFacts.fromFirst (hB : B ∈ F.blocks) (hj : j ∈ B.tracked) :
    DomOrEq rules B.getFirstLoadStoreCallTerm j := by
  obtain ⟨rest, hrest⟩ := List.head?_eq_some_iff.mp B.tracked_head
  rw [hrest] at hj
  rcases List.mem_cons.mp hj with rfl | hj
  · exact .inl rfl
  · have hsplit : B.tracked = [] ++ B.getFirstLoadStoreCallTerm :: rest := hrest
    exact .inr (hfacts.ordered hB hsplit hj)

/-- From any statement of a block to its end. -/
theorem HasDomFacts.toTerminator (hB : B ∈ F.blocks) (hi : i ∈ B.tracked) : DomOrEq rules i B.terminator := by
  rw [BasicBlock.tracked_eq] at hi
  rcases List.mem_append.mp hi with hi | hi
  · obtain ⟨us, vs, hsplit⟩ := List.append_of_mem hi
    have htracked : B.tracked = us ++ i :: (vs ++ [B.terminator]) := by
      rw [BasicBlock.tracked_eq, hsplit, List.append_assoc, List.cons_append]
    exact .inr (hfacts.ordered hB htracked (List.mem_append_right _ (.head _)))
  · exact .inl (List.mem_singleton.mp hi)

variable (htrees : trees.DomExact M) (hF : F ∈ M.functions)

include htrees hF

/-- From the end of a block to the beginning of a block below it in the tree. -/
theorem HasDomFacts.toDescendant {first : BasicBlock} (hfirst : F.blocks.head? = some first)
    (hA : A ∈ F.blocks) {b : BlockId}
    (hanc : Relation.ReflTransGen (Flow.ImmediatelyDominates F.Edge first.id) A.id b) :
    b = A.id ∨ ∀ B ∈ F.blocks, B.id = b →
      Horn.Derives rules ⟨.dom, [A.terminator.id, B.getFirstLoadStoreCallTerm.id]⟩ := by
  induction hanc with
  | refl => exact .inl rfl
  | @tail c b _ himm ih =>
      right
      rintro B hB rfl
      obtain ⟨C, hC, rfl⟩ : ∃ C ∈ F.blocks, C.id = c := by
        obtain ⟨π, hπ⟩ := himm.reachable
        have hmem := (himm.dominates π hπ).resolve_right himm.ne
        obtain ⟨d, hd, _⟩ := Relation.TransGen.head'_iff.mp (hπ.transGen hmem)
        exact Function.edge_mem hd
      have hchild := (htrees F hF first hfirst C hC B.id).mpr himm
      have hfact : Horn.Derives rules ⟨.dom, [C.terminator.id, B.getFirstLoadStoreCallTerm.id]⟩ :=
        .fact (fun _ => 0) (hfacts.child C hC B hB hchild)
      rcases ih with hCA | hC'
      · obtain rfl : C = A := List.inj_on_of_nodup_map F.blocks_nodup hC hA hCA
        exact hfact
      · have hterm : C.terminator ∈ C.tracked := by
          rw [BasicBlock.tracked_eq]
          exact List.mem_append_right _ (.head _)
        have hAC : Horn.Derives rules ⟨.dom, [A.terminator.id, C.terminator.id]⟩ :=
          hfacts.domTrans (hC' C hC rfl) (hfacts.fromFirst hC hterm)
        exact hfacts.domTrans hAC (.inr hfact)

/-- **Dominance is derivable.** -/
theorem HasDomFacts.derives (hB : B ∈ F.blocks) (hj : j ∈ B.tracked) (hreach : F.Reachable B.id)
    (hi : i.isaStoreLoadCallOrTerm = true) (hdom : F.StrictlyDominates i j) :
    Horn.Derives rules ⟨.dom, [i.id, j.id]⟩ := by
  obtain ⟨A, hA, B', hB', hiA, hjB, hdom⟩ := hdom
  obtain rfl := F.block_unique hB' hB hjB (List.mem_filter.mp hj).1
  have hitr : i ∈ A.tracked := List.mem_filter.mpr ⟨hiA, hi⟩
  rcases hdom with ⟨rfl, pre, post, hinstrs, hpost⟩ | ⟨hne, hdom⟩
  · have htracked : A.tracked = pre.filter Instruction.isaStoreLoadCallOrTerm ++
        i :: post.filter Instruction.isaStoreLoadCallOrTerm := by
      unfold BasicBlock.tracked
      rw [hinstrs, List.filter_append, List.filter_cons_of_pos hi]
    exact hfacts.ordered hA htracked (List.mem_filter.mpr ⟨hpost, (List.mem_filter.mp hj).2⟩)
  · obtain ⟨first, hfirst, hwalk⟩ := hreach
    have hanc := (Flow.dominates_iff_ancestor hwalk).mp (hdom first hfirst)
    have hdesc := (hfacts.toDescendant htrees hF hfirst hA hanc).resolve_left (Ne.symm hne) B' hB rfl
    have hend : Horn.Derives rules ⟨.dom, [A.terminator.id, j.id]⟩ :=
      hfacts.domTrans hdesc (hfacts.fromFirst hB hj)
    rcases hfacts.toTerminator hA hitr with rfl | hterm
    · exact hend
    · exact hfacts.domTrans hterm (.inr hend)

end Complete

/-- What two blocks have for a reachability fact. -/
theorem notReach_mem (h : addNotReachableFacts M fuel = .ok notReach) (hF : F ∈ M.functions) (hA : A ∈ F.blocks)
    (hB : B ∈ F.blocks) (hi : i ∈ A.tracked) (hj : j ∈ B.tracked)
    (hpath : ¬ Relation.TransGen F.Edge B.id A.id) : addNotReachFact j i ∈ notReach := by
  obtain ⟨facts, hfacts, hret⟩ := Fallible.bind_eq_ok.mp h
  cases hret
  obtain ⟨fF, hfF, hmapF⟩ := Fallible.mapM_mem_of_mem hfacts hF
  obtain ⟨fB, hfB, hmapB⟩ := Fallible.mapM_mem_of_mem hmapF hB
  obtain ⟨reach, hreach, hret⟩ := Fallible.bind_eq_ok.mp hmapB
  cases hret
  have hnot : A.id ∉ reach := fun hmem => hpath ((Function.forwardDfs_iff hreach).mp hmem)
  have hfact : addNotReachFact j i ∈ addNotReachableBlock B A :=
    List.mem_flatMap.mpr ⟨j, hj, List.mem_map.mpr ⟨i, hi, rfl⟩⟩
  refine List.mem_flatten.mpr ⟨_, List.mem_flatten.mpr ⟨_, hfF, hfB⟩, ?_⟩
  exact List.mem_flatMap.mpr ⟨A, List.mem_filter.mpr ⟨hA, by simpa using hnot⟩, hfact⟩

/-! ### What the facts mean -/

/-- What the two relations say. -/
def InThreadMeaning (M : Module) : GroundAtom → Prop
  | ⟨.dom, args⟩ => ∃ x y, args = [x, y] ∧ DomMeaning M x y
  | ⟨.notReach, args⟩ => ∃ x y, args = [x, y] ∧ NotReachMeaning M x y
  | _ => True

theorem inThreadMeaning_facts (htrees : trees.DomCorrect M)
    (hdoms : addDomLoadStoreFacts trees M threadFuncs = .ok doms)
    (hnotReach : addNotReachableFacts M fuel = .ok notReach) :
    ∀ r ∈ doms ++ notReach, r.Holds (InThreadMeaning M) := by
  intro r hr
  rcases List.mem_append.mp hr with hr | hr
  · rcases mem_addDomLoadStoreFacts_dom hdoms hr with rfl | ⟨F, hF, hdom⟩ | ⟨i, _, ⟨p, _, rfl⟩ | ⟨v, p, _, rfl⟩⟩
    · intro σ hb
      obtain ⟨x, y, hxy, hdom⟩ := hb (atom .dom (.bound 0) (.bound 1)) (.head _)
      obtain ⟨y', z, hyz, hdom'⟩ := hb (atom .dom (.bound 1) (.bound 2)) (.tail _ (.head _))
      obtain ⟨rfl, rfl⟩ := pair_eq hxy
      obtain ⟨rfl, rfl⟩ := pair_eq hyz
      exact ⟨_, _, rfl, hdom.trans hdom'⟩
    · obtain ⟨x, y, rfl, hxy⟩ := hdom.meaning htrees hF
      exact Horn.Rule.fact_holds ⟨x, y, rfl, hxy⟩
    · exact Horn.Rule.fact_holds trivial
    · exact Horn.Rule.fact_holds trivial
  · obtain ⟨x, y, rfl, hxy⟩ := (mem_addNotReachableFacts_blocks hnotReach hr).meaning
    exact Horn.Rule.fact_holds ⟨x, y, rfl, hxy⟩

/-- A statement of a reachable block that is preceded by another on every path is dominated by it. -/
theorem Function.AlwaysBefore.strictlyDominates (h : F.AlwaysBefore i j) (hA : A ∈ F.blocks) (hi : i ∈ A.instrs)
    (hB : B ∈ F.blocks) (hj : j ∈ B.instrs) (hreach : F.Reachable B.id) : F.StrictlyDominates i j := by
  obtain ⟨first, hfirst, _, hwalk⟩ := hreach
  obtain ⟨π, hπ, hfresh⟩ := hwalk.exists_fresh
  obtain ⟨ps, qs, hinstrs⟩ := List.append_of_mem hj
  have htracks : ∀ {ρ : List BlockId}, Flow.Walk F.Edge first.id ρ B.id →
      i ∈ ρ.flatMap F.instrsOf ∨ i ∈ ps := by
    intro ρ hρ
    refine List.mem_append.mp (h (ρ.flatMap F.instrsOf ++ ps) qs (.inr ⟨first, hfirst, ρ, B.id, hρ, ?_⟩))
    rw [List.flatMap_append, List.flatMap_singleton, Function.instrsOf_id hB, hinstrs, List.append_assoc]
  have hvisits : ∀ {ρ : List BlockId}, i ∈ ρ.flatMap F.instrsOf → A.id ∈ ρ := by
    intro ρ hmem
    obtain ⟨a, ha, hia⟩ := List.mem_flatMap.mp hmem
    obtain ⟨A', hA', rfl, hiA'⟩ := Function.mem_instrsOf hia
    rwa [F.block_unique hA hA' hi hiA']
  refine ⟨A, hA, B, hB, hi, hj, ?_⟩
  by_cases hAB : A = B
  · subst hAB
    have hps := (htracks hπ).resolve_left fun hmem => hfresh (hvisits hmem)
    obtain ⟨ps₁, ps₂, rfl⟩ := List.append_of_mem hps
    refine .inl ⟨rfl, ps₁, ps₂ ++ j :: qs, ?_, List.mem_append_right _ (.head _)⟩
    rw [hinstrs, List.append_assoc, List.cons_append]
  · have hne : A.id ≠ B.id := fun hid => hAB (List.inj_on_of_nodup_map F.blocks_nodup hA hB hid)
    refine .inr ⟨hne, fun entry hentry ρ hρ => .inl ?_⟩
    rw [hfirst] at hentry
    cases hentry
    rcases htracks hρ with hmem | hps
    · exact hvisits hmem
    · have hiB : i ∈ B.instrs := hinstrs ▸ List.mem_append_left _ hps
      exact absurd (F.block_unique hA hB hi hiB) hAB

/-- A dominated statement leads back only if its block leads to the block of the other. -/
theorem Function.StrictlyDominates.reaches_iff (h : F.StrictlyDominates i j) (hA : A ∈ F.blocks)
    (hi : i ∈ A.instrs) (hB : B ∈ F.blocks) (hj : j ∈ B.instrs) :
    F.Reaches j i ↔ Relation.TransGen F.Edge B.id A.id := by
  constructor
  · rintro ⟨B', hB', A', hA', hj', hi', hreach⟩
    obtain rfl := F.block_unique hA' hA hi' hi
    obtain rfl := F.block_unique hB' hB hj' hj
    rcases hreach with ⟨rfl, pre, post, hinstrs, hpost⟩ | hpath
    · obtain ⟨C, hC, D, hD, hiC, hjD, hdom⟩ := h
      obtain rfl := F.block_unique hC hA hiC hi
      obtain rfl := F.block_unique hD hA hjD hj
      rcases hdom with ⟨_, pre', post', hinstrs', hpost'⟩ | ⟨hne, _⟩
      · exact absurd ⟨pre, post, hinstrs, hpost⟩
          (not_before_of_before (F.instrs_nodup_of_mem hA) ⟨pre', post', hinstrs', hpost'⟩)
      · exact absurd rfl hne
    · exact hpath
  · exact fun hpath => ⟨B, hB, A, hA, hj, hi, .inr hpath⟩

/-- The premise of `addDomNotReachRule` for two statements. -/
def DomNotReach (rules : List Rule) (i j : Instruction) : Prop :=
  Horn.Derives rules ⟨.dom, [i.id, j.id]⟩ ∧ Horn.Derives rules ⟨.notReach, [j.id, i.id]⟩

/-- **The rule for one thread is exact**: its premises are derivable for two statements exactly when the
first dominates the second and no path leads back, and then every occurrence of the first comes before
every occurrence of the second. -/
theorem inThreadOrder_exact (trees : Trees) (M : Module) (htrees : trees.DomExact M) (threadFuncs : List FuncId)
    (fuel : Nat) (doms notReach : List Rule) (hdoms : addDomLoadStoreFacts trees M threadFuncs = .ok doms)
    (hnotReach : addNotReachableFacts M fuel = .ok notReach) (F : Function) (hF : F ∈ M.functions)
    (hthread : F.id ∈ threadFuncs) (A B : BasicBlock) (hA : A ∈ F.blocks) (hB : B ∈ F.blocks)
    (hreach : F.Reachable B.id) (i j : Instruction) (hi : i ∈ A.tracked) (hj : j ∈ B.tracked) :
    (DomNotReach (doms ++ notReach) i j ↔ F.StrictlyDominates i j ∧ ¬ F.Reaches j i) ∧
      (DomNotReach (doms ++ notReach) i j → F.AlwaysBefore i j ∧ F.NeverAfter i j) := by
  obtain ⟨hiA, hitr⟩ := List.mem_filter.mp hi
  obtain ⟨hjB, _⟩ := List.mem_filter.mp hj
  have hiF : i ∈ F.instrs := Function.mem_instrs.mpr ⟨A, hA, hiA⟩
  have hjF : j ∈ F.instrs := Function.mem_instrs.mpr ⟨B, hB, hjB⟩
  have hmeaning := inThreadMeaning_facts htrees.correct hdoms hnotReach
  have hsound : Horn.Derives (doms ++ notReach) ⟨.dom, [i.id, j.id]⟩ → F.StrictlyDominates i j := by
    intro hdom
    obtain ⟨x, y, hxy, F', hF', i', hi', j', hj', hid, hid', hbefore⟩ := hdom.sound hmeaning
    obtain ⟨rfl, rfl⟩ := pair_eq hxy
    obtain ⟨rfl, rfl⟩ := eq_of_id hF' hF hi' hiF hid
    obtain ⟨_, rfl⟩ := eq_of_id hF hF hj' hjF hid'
    exact hbefore.strictlyDominates hA hiA hB hjB hreach
  have hpath : Horn.Derives (doms ++ notReach) ⟨.notReach, [j.id, i.id]⟩ ↔
      ¬ Relation.TransGen F.Edge B.id A.id := by
    constructor
    · intro hnot
      obtain ⟨x, y, hxy, F', hF', B', hB', A', hA', ⟨j', hj', hidj⟩, ⟨i', hi', hidi⟩, hno⟩ := hnot.sound hmeaning
      obtain ⟨rfl, rfl⟩ := pair_eq hxy
      obtain ⟨rfl, rfl⟩ := eq_of_id hF' hF (Function.mem_instrs.mpr ⟨B', hB', hj'⟩) hjF hidj
      obtain ⟨_, rfl⟩ := eq_of_id hF hF (Function.mem_instrs.mpr ⟨A', hA', hi'⟩) hiF hidi
      rwa [F'.block_unique hB hB' hjB hj', F'.block_unique hA hA' hiA hi']
    · intro hno
      exact .fact (fun _ => 0) (List.mem_append_right _ (notReach_mem hnotReach hF hA hB hi hj hno))
  have hiff : DomNotReach (doms ++ notReach) i j ↔ F.StrictlyDominates i j ∧ ¬ F.Reaches j i := by
    unfold DomNotReach
    rw [hpath]
    constructor
    · rintro ⟨hdom, hno⟩
      have hstrict := hsound hdom
      exact ⟨hstrict, (hstrict.reaches_iff hA hiA hB hjB).not.mpr hno⟩
    · rintro ⟨hstrict, hno⟩
      have hhas := addDomLoadStoreFacts_has hdoms hF hthread
      have hdom := hhas.derives htrees hF hB hj hreach hitr hstrict
      exact ⟨hdom.mono fun _ => List.mem_append_left _, (hstrict.reaches_iff hA hiA hB hjB).not.mp hno⟩
  refine ⟨hiff, fun h => ?_⟩
  have hbefore := (hiff.mp h).1.alwaysBefore
  exact ⟨hbefore, hbefore.neverAfter hA hiA hB hjB (hpath.mp h.2)⟩

end Order

namespace TwoBlocks

def store : Instruction := ⟨1, .store (.value 5) 0, none, []⟩
def load : Instruction := ⟨3, .load 0, some 32, []⟩

def entry : BasicBlock := .ofInstrs 10 [store] ⟨2, .br 11, none, []⟩
def last : BasicBlock := .ofInstrs 11 [load] ⟨4, .ret, none, []⟩

/-- `store x; br; load x; return` -/
def main : Function :=
  .ofBlocks 0 [entry, last]

def program : Module :=
  .ofFunctions [main] [] (some 0)

def trees : Trees :=
  .ofEdges [(0, 10, 11)] fun _ b => [b]

def doms : List Rule :=
  (addDomLoadStoreFacts trees program [0]).toOption.getD []

def notReach : List Rule :=
  (addNotReachableFacts program 9).toOption.getD []

theorem edge_iff {a b : BlockId} : main.Edge a b ↔ a = 10 ∧ b = 11 := by
  constructor
  · intro h
    obtain ⟨A, hA, rfl⟩ := Function.edge_mem h
    unfold Function.Edge Function.succsOf at h
    rw [Function.block?_id hA] at h
    have hall : ∀ A ∈ main.blocks, ∀ b ∈ A.getSuccsFromBB, A.id = 10 ∧ b = 11 := by
      decide
    exact hall A hA b h
  · rintro ⟨rfl, rfl⟩
    exact .head _

theorem domExact : trees.DomExact program := by
  intro F hF first hfirst A hA c
  obtain rfl := List.mem_singleton.mp hF
  obtain rfl : entry = first := Option.some.inj hfirst
  have hreach : ∀ {π b}, Flow.Walk main.Edge 10 π b → b = 10 ∨ b = 11 ∧ 10 ∈ π := by
    intro π b hπ
    cases hπ with
    | start => exact .inl rfl
    | step _ hs =>
        obtain ⟨rfl, rfl⟩ := edge_iff.mp hs
        exact .inr ⟨rfl, List.mem_append_right _ (.head _)⟩
  constructor
  · intro hc
    have hall : ∀ A ∈ main.blocks, ∀ c ∈ trees.domChildren 0 A.id, A.id = 10 ∧ c = 11 := by
      decide
    obtain ⟨hid, rfl⟩ := hall A hA c hc
    rw [hid]
    exact .of_entry (edge_iff.mpr ⟨rfl, rfl⟩) (by decide)
  · intro himm
    obtain ⟨π, hπ⟩ := himm.reachable
    rcases hreach hπ with rfl | ⟨rfl, _⟩
    · rcases himm.dominates [] .start with h | h
      · cases h
      · exact absurd h himm.ne
    · have hids : ∀ A ∈ main.blocks, A.id = 10 ∨ A.id = 11 := by
        decide
      rcases hids A hA with hid | hid
      · rw [hid]
        decide
      · exact absurd hid himm.ne

/-- The store is ordered before the load. -/
theorem store_before_load :
    (DomNotReach (doms ++ notReach) store load ↔
        main.StrictlyDominates store load ∧ ¬ main.Reaches load store) ∧
      (DomNotReach (doms ++ notReach) store load → main.AlwaysBefore store load ∧ main.NeverAfter store load) :=
  inThreadOrder_exact trees program domExact [0] 9 doms notReach rfl rfl main (.head _) (.head _) entry last
    (.head _) (.tail _ (.head _)) ⟨entry, rfl, [10], .step .start (edge_iff.mpr ⟨rfl, rfl⟩)⟩ store load
    (by decide) (by decide)

end TwoBlocks

end Watts
