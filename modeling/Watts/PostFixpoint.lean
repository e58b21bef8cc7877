import Watts.Coverage
import Watts.TransferLaws

/-! The map that `analyzeFunc` returns.  It keeps, for each block, the fact processed last.  It is a
post-fixpoint of the block transfer functions when every popped fact was comparable with the stored
fact it met; the stored facts are above the popped ones throughout a run exactly in that case. -/

namespace Watts

open Worklist (Pop)

variable {ap : Apron}

/-- What the returned map is expected to be: above the entry fact at the entry block, closed under
executing the blocks, and above every fact that was popped. -/
structure IsPostFixpoint (cx : Ctx) (interf : InterfMap ap) (F : Function)
    (entryFact : LatticeFact ap) (ps : List (Pop BlockId (LatticeFact ap)))
    (res : Std.TreeMap BlockId (LatticeFact ap)) : Prop where
  entry : ∀ first, F.blocks.head? = some first → ∃ f, res[first.id]? = some f ∧ entryFact.leq f
  post : ∀ B ∈ F.blocks, ∀ f books outs books', res[B.id]? = some f →
    BBOps.runTransferFuncs cx interf cx.opts.noCombinsG B f books = .ok (outs, books') →
      ∀ p ∈ outs, ∃ g, res[p.1]? = some g ∧ p.2.leq g
  popped : ∀ p ∈ ps, ∃ f, res[p.key]? = some f ∧ p.fact.leq f

variable {o : BlockOrder} {cx : Ctx} {interf : InterfMap ap} {F : Function}

theorem system_preorder (hL : ap.Lattice) : (system cx interf F).Preorder where
  le_refl f := hL.leq_refl f.absVals
  le_trans h₁ h₂ := hL.leq_trans h₁ h₂
  bot_le f := hL.bottom_leq f.absVals

theorem system_upperJoin (hL : ap.Lattice) : (system cx interf F).UpperJoin where
  le_join_left f g := hL.join_left f.absVals g.absVals
  le_join_right f g := hL.join_right f.absVals g.absVals

/-- The facts go to successors of the block. -/
theorem outFacts_succ {t : Instruction} {f : LatticeFact ap}
    {outs : List (BlockId × LatticeFact ap)} (h : BBOps.outFacts cx t f = .ok outs) :
    ∀ p ∈ outs, p.1 ∈ t.successors := by
  unfold BBOps.outFacts at h
  split at h
  · next hk =>
      cases h
      simp [Instruction.successors, hk]
  · next cond tS fS hk =>
      cases ht : f.constrainTF cx.opts cond true cx.v2n with
      | error _ => simp [ht, bind, Except.bind] at h
      | ok trueF =>
          cases he : f.constrainTF cx.opts cond false cx.v2n with
          | error _ => simp [ht, he, bind, Except.bind] at h
          | ok falseF =>
              by_cases hte : tS = fS
              · simp [ht, he, hte, bind, Except.bind, throw, throwThe, MonadExceptOf.throw] at h
              · simp [ht, he, hte, bind, Except.bind, pure, Except.pure] at h
                subst h
                simp [Instruction.successors, hk]
  · cases h
    simp
  · cases h
    simp
  · cases h

theorem runTransferFuncs_succ {B : BasicBlock} (hB : B ∈ F.blocks) {f : LatticeFact ap}
    {books books' : Books ap} {outs : List (BlockId × LatticeFact ap)} {nc : Bool}
    (h : BBOps.runTransferFuncs cx interf nc B f books = .ok (outs, books')) :
    ∀ p ∈ outs, p.1 ∈ F.blocks.map BasicBlock.id := by
  obtain ⟨_, _, ho⟩ := BBOps.runTransferFuncs_ok.mp h
  exact fun p hp => F.succs_mem B hB p.1 (outFacts_succ ho p hp)

/-- Executing a block from a bottom fact sends bottom facts. -/
theorem runTransferFuncs_bottom (hL : ap.Lattice) (hS : ap.Strict) {B : BasicBlock}
    {f : LatticeFact ap} (hf : f.leq ⟨ap.bottom⟩) {books books' : Books ap} {nc : Bool}
    {outs : List (BlockId × LatticeFact ap)}
    (h : BBOps.runTransferFuncs cx interf nc B f books = .ok (outs, books')) :
    ∀ p ∈ outs, p.2.leq ⟨ap.bottom⟩ := by
  intro p hp
  have hR : Preserved fun f _ : LatticeFact ap => f.leq ⟨ap.bottom⟩ := preserved_bottom hL hS
  have hrel := hR.runTransferFuncs (f := f) (g := f) cx (hR.interfs_refl interf) nc B hf books books _ _ h h
  obtain ⟨i, hi, rfl⟩ := List.mem_iff_getElem.mp hp
  exact (List.forall₂_iff_get.mp hrel).2 i hi hi |>.2

namespace LoopRun

variable {books : Books ap} {entryFact : LatticeFact ap} {ps : List (Pop BlockId (LatticeFact ap))}
  {t : LoopState o ap}

/-- The blocks of the function are the keys of the stored facts. -/
theorem stored_eq (hrun : LoopRun o cx interf books entryFact F ps t) {b : BlockId}
    (hb : b ∈ F.blocks.map BasicBlock.id) : t.analState[b]? = some (t.abs.stored b) := by
  obtain ⟨first, _, hrun⟩ := hrun
  have hsome : (t.analState[b]?).isSome := by
    rw [hrun.keys, initLoop, initBBs_getElem?, if_pos hb]
    rfl
  obtain ⟨f, hf⟩ := Option.isSome_iff_exists.mp hsome
  simp [LoopState.abs, hf]

/-- Every popped fact belongs to a block of the function. -/
theorem popped_mem (hrun : LoopRun o cx interf books entryFact F ps t)
    {p : Pop BlockId (LatticeFact ap)} (hp : p ∈ ps) : p.key ∈ F.blocks.map BasicBlock.id := by
  obtain ⟨first, _, hrun⟩ := hrun
  induction hrun with
  | nil => exact absurd hp List.not_mem_nil
  | snoc _ hi ih =>
      rcases List.mem_append.mp hp with hp | hp
      · exact ih hp
      · rw [List.mem_singleton] at hp
        subst hp
        obtain ⟨_, _, B, hB, _⟩ := hi.cases
        exact Function.block?_isSome.mp (by rw [hB]; rfl)

/-- **Comparable pops make the returned map a post-fixpoint.** -/
theorem isPostFixpoint (hL : ap.Lattice) (hS : ap.Strict)
    (hrun : LoopRun o cx interf books entryFact F ps t) (hend : t.Finished)
    (hcmp : ∀ p ∈ ps, (system cx interf F).Comparable p) :
    IsPostFixpoint cx interf F entryFact ps t.analState := by
  have hP : (system cx interf F).Preorder := system_preorder hL
  have hJ : (system cx interf F).UpperJoin := system_upperJoin hL
  obtain ⟨first, hfirst, hr⟩ := hrun
  have hrun : LoopRun o cx interf books entryFact F ps t := ⟨first, hfirst, hr⟩
  have hinit := initLoop_stored (o := o) (F := F) first entryFact books
  refine ⟨fun first' hfirst' => ?_, ?_, fun p hp => ?_⟩
  · obtain rfl : first' = first := Option.some.inj (hfirst'.symm.trans hfirst)
    have hmem : first'.id ∈ F.blocks.map BasicBlock.id :=
      List.mem_map_of_mem (List.mem_of_mem_head? hfirst)
    refine ⟨_, hrun.stored_eq hmem, Worklist.initial_le_stored hP hJ hr.run hend hcmp ?_⟩
    rw [initLoop_pending, if_pos rfl]
  · intro B hB f bk outs bk' hf hexec p hp
    have hsucc := runTransferFuncs_succ hB hexec p hp
    refine ⟨_, hrun.stored_eq hsucc, ?_⟩
    have hfs : f = t.abs.stored B.id := by
      have := hrun.stored_eq (List.mem_map_of_mem hB)
      exact Option.some.inj (hf.symm.trans this)
    rcases Worklist.stored_visited hinit hr.run B.id with hb | ⟨q, hq, hqv, hqk, _⟩
    · have hfb : f.leq ⟨ap.bottom⟩ := by
        rw [hfs, hb]
        exact hL.leq_refl _
      exact hL.leq_trans (runTransferFuncs_bottom hL hS hfb hexec p hp) (hL.bottom_leq _)
    · refine Worklist.post_le_stored hP hJ hr.run hend hcmp ⟨q, hq, hqv, hqk⟩ ?_
      show (p.1, p.2) ∈ blockPost cx interf F B.id (t.abs.stored B.id)
      rw [← hfs, blockPost_eq (Function.block?_id hB) hexec]
      exact hp
  · exact ⟨_, hrun.stored_eq (hrun.popped_mem hp), Worklist.popped_le_stored hP hr.run hcmp p hp⟩

/-- **The stored facts are above the popped ones throughout a run exactly when all its pops are
comparable.** -/
theorem comparable_iff (hL : ap.Lattice) (hrun : LoopRun o cx interf books entryFact F ps t) :
    (∀ p ∈ ps, (system cx interf F).Comparable p) ↔
      ∀ qs u, qs <+: ps → LoopRun o cx interf books entryFact F qs u →
        ∀ p ∈ qs, p.fact.leq (u.abs.stored p.key) := by
  have hP : (system cx interf F).Preorder := system_preorder hL
  obtain ⟨first, hfirst, hr⟩ := hrun
  have hinit := initLoop_stored (o := o) (F := F) first entryFact books
  constructor
  · rintro hcmp qs u hqs ⟨first', hfirst', hq⟩ p hp
    exact Worklist.popped_le_stored hP hq.run (fun p hp => hcmp p (hqs.subset hp)) p hp
  · intro hup
    induction hr with
    | nil => exact fun _ hp => absurd hp List.not_mem_nil
    | snoc hr hi ih =>
        intro p hp
        rcases List.mem_append.mp hp with hp | hp
        · exact ih (fun qs u hqs => hup qs u (hqs.trans (List.prefix_append _ _))) p hp
        · rw [List.mem_singleton] at hp
          subst hp
          exact Worklist.comparable_of_popped_le hP hinit hr.run hi.step
            (hup _ _ List.prefix_rfl ⟨first, hfirst, .snoc hr hi⟩)

end LoopRun

/-! ### Checking a run -/

/-- Whether the loop pops comparable facts only, as far as the fuel goes. -/
def loopComparable {o : BlockOrder} (cx : Ctx) (interf : InterfMap ap) (F : Function) :
    Nat → LoopState o ap → Bool
  | fuel, s =>
    match s.worklist.toList with
    | [] => true
    | cur :: _ =>
      match fuel with
      | 0 => false
      | fuel + 1 =>
        decide ((system cx interf F).Comparable ⟨cur.1, cur.2, s.abs.stored cur.1⟩) &&
          match analyzeIter cx interf F cur s with
          | .error _ => true
          | .ok s' => loopComparable cx interf F fuel s'

theorem comparable_of_loopComparable {fuel : Nat} {s t : LoopState o ap}
    {ps : List (Pop BlockId (LatticeFact ap))} (h : loopComparable cx interf F fuel s = true)
    (hrun : LoopState.Run cx interf F s ps t) : ∀ p ∈ ps, (system cx interf F).Comparable p := by
  induction fuel generalizing s ps with
  | zero =>
      rcases hrun.uncons with ⟨rfl, _⟩ | ⟨p, u, qs, rfl, hu, _⟩
      · exact fun _ hp => absurd hp List.not_mem_nil
      · cases hu with
        | mk hpop _ =>
            unfold loopComparable at h
            simp [hpop] at h
  | succ fuel ih =>
      rcases hrun.uncons with ⟨rfl, _⟩ | ⟨p, u, qs, rfl, hu, hq⟩
      · exact fun _ hp => absurd hp List.not_mem_nil
      · cases hu with
        | mk hpop hiter =>
            unfold loopComparable at h
            simp only [hpop, hiter, Bool.and_eq_true, decide_eq_true_eq] at h
            intro q hq'
            rcases List.mem_cons.mp hq' with rfl | hq'
            · exact h.1
            · exact ih h.2 hq q hq'

/-- A check of the loop from its start checks every run. -/
theorem LoopRun.comparable {books : Books ap} {entryFact : LatticeFact ap} (first : BasicBlock)
    (fuel : Nat) (hfirst : F.blocks.head? = some first)
    (h : loopComparable cx interf F fuel (initLoop o F first entryFact books) = true)
    {ps : List (Pop BlockId (LatticeFact ap))} {t : LoopState o ap}
    (hrun : LoopRun o cx interf books entryFact F ps t) :
    ∀ p ∈ ps, (system cx interf F).Comparable p := by
  obtain ⟨first', hfirst', hrun⟩ := hrun
  obtain rfl : first' = first := Option.some.inj (hfirst'.symm.trans hfirst)
  exact comparable_of_loopComparable h hrun

/-- **The returned map.**  When every popped fact was comparable with the stored fact of its block,
the map is a post-fixpoint above all popped facts; and the pops are comparable exactly when after
each part of the run the stored facts are above the facts popped so far. -/
theorem analyzeFunc_postFixpoint (hL : ap.Lattice) (hS : ap.Strict) (o : BlockOrder) (cx : Ctx)
    (interf : InterfMap ap) (books books' : Books ap) (entryFact : LatticeFact ap) (F : Function)
    (mergeInterfs : Bool) (fuel : Nat) (res : Std.TreeMap BlockId (LatticeFact ap))
    (h : analyzeFunc o cx interf books entryFact F mergeInterfs fuel = .ok (res, books')) :
    ∃ ps, ∃ t : LoopState o ap, LoopRun o cx interf books entryFact F ps t ∧ t.Finished ∧
      t.analState = res ∧
      ((∀ p ∈ ps, (system cx interf F).Comparable p) →
        IsPostFixpoint cx interf F entryFact ps res) ∧
      ((∀ p ∈ ps, (system cx interf F).Comparable p) ↔
        ∀ qs u, qs <+: ps → LoopRun o cx interf books entryFact F qs u →
          ∀ p ∈ qs, p.fact.leq (u.abs.stored p.key)) := by
  obtain ⟨ps, t, hrun, hend, hres, _⟩ := analyzeFunc_run h
  exact ⟨ps, t, hrun, hend, hres, fun hcmp => hres ▸ hrun.isPostFixpoint hL hS hend hcmp,
    hrun.comparable_iff hL⟩

theorem analyzeFunc_postFixpoint_checkedLoad : ∃ ps res,
    (analyzeFunc .increasing (.single CheckedLoad.thread 4) CheckedLoad.readsOne {} (CheckedLoad.xIs 0)
      CheckedLoad.thread false 20).map Prod.fst = .ok res ∧
    IsPostFixpoint (.single CheckedLoad.thread 4) CheckedLoad.readsOne CheckedLoad.thread
      (CheckedLoad.xIs 0) ps res := by
  obtain ⟨r, hr⟩ := exists_ok (x := analyzeFunc .increasing (.single CheckedLoad.thread 4)
    CheckedLoad.readsOne {} (CheckedLoad.xIs 0) CheckedLoad.thread false 20) (by decide)
  obtain ⟨ps, t, hrun, _, _, hpost, _⟩ := analyzeFunc_postFixpoint Box.lattice Box.strict .increasing
    (.single CheckedLoad.thread 4) CheckedLoad.readsOne {} r.2 (CheckedLoad.xIs 0) CheckedLoad.thread
    false 20 r.1 hr
  have hcmp := hrun.comparable CheckedLoad.entry 20 rfl (by decide)
  exact ⟨ps, r.1, by rw [hr]; rfl, hpost hcmp⟩

namespace Overwritten

def entry : BasicBlock :=
  .ofInstrs 100 [⟨1, .load 0, some 32, []⟩, ⟨2, .icmp .sgt (.value 1) (i32 0), some 1, []⟩]
    ⟨10, .condBr (.icmp 2 .sgt (.value 1) (i32 0)) 101 102, none, []⟩

/-- A branch whose false side is an empty block that joins the true side: the join block is taken from
the worklist first, with the condition true, and then again with the condition false. -/
def thread : Function :=
  .ofBlocks 0 [entry, .ofInstrs 101 [] ⟨11, .ret, none, []⟩,
    .ofInstrs 102 [] ⟨12, .br 101, none, []⟩]

/-- Whether the entry block, executed from its returned fact, sends something that the returned map is
not above. -/
def notClosed (res : Std.TreeMap BlockId (LatticeFact boxes)) : Bool :=
  match res[100]?, res[101]? with
  | some f, some g =>
    match BBOps.runTransferFuncs (.single thread 3) {} false entry f {} with
    | .ok (outs, _) => outs.any fun p => p.1 == 101 && !p.2.leq g
    | .error _ => false
  | _, _ => false

/-- The returned map need not be a post-fixpoint. -/
theorem not_isPostFixpoint : ∃ r,
    analyzeFunc .increasing (.single thread 3) {} {} ⟨boxes.top⟩ thread false 20 = .ok r ∧
      ∀ ps, ¬ IsPostFixpoint (.single thread 3) {} thread ⟨boxes.top⟩ ps r.1 := by
  have hcheck : (match analyzeFunc .increasing (.single thread 3) {} {} ⟨boxes.top⟩ thread false 20 with
    | .ok r => notClosed r.1
    | .error _ => false) = true := by decide
  split at hcheck
  · next r hr =>
      refine ⟨r, hr, fun ps hpost => ?_⟩
      unfold notClosed at hcheck
      split at hcheck
      · next f g hf hg =>
          split at hcheck
          · next outs bk hexec =>
              obtain ⟨p, hp, hpk⟩ := List.any_eq_true.mp hcheck
              simp only [Bool.and_eq_true, beq_iff_eq, Bool.not_eq_true'] at hpk
              obtain ⟨g', hg', hle⟩ := hpost.post entry (.head _) f {} outs bk hf hexec p hp
              rw [hpk.1, hg] at hg'
              rw [← Option.some.inj hg', hpk.2] at hle
              cases hle
          · cases hcheck
      · cases hcheck
  · cases hcheck

end Overwritten

end Watts
