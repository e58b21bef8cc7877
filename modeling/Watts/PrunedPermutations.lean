import Watts.BlockOrder
import Watts.PermCache
import Watts.Library.Fallible

/-! Pruning more of the permutations of a thread finds less.  The analysis of one permutation does not
depend on what the earlier ones have recorded, and what it records is joined with that: an analysis that
skips more permutations reports no error and no fact that the other does not cover. -/

namespace Watts

open Fallible (Agree bind_eq_ok ok_bind)

variable {ap : Apron}

/-- The second bookkeeping has every entry of the first, in a larger fact. -/
abbrev Books.Below (bk bk' : Books ap) : Prop :=
  Books.Grows (fun f g => f.leq g) bk bk'

/-- Every fact of the first map has a larger one in the second. -/
def MapBelow (m m' : Std.TreeMap Value (LatticeFact ap)) : Prop :=
  ∀ (k : Value) f, m[k]? = some f → ∃ g, m'[k]? = some g ∧ f.leq g

theorem BBOps.joinInto_self_eq (m : Std.TreeMap Value (LatticeFact ap)) (k : Value) (f : LatticeFact ap) :
    (BBOps.joinInto m k f)[k]? = some ((m[k]?).elim f f.factJoin) := by
  unfold BBOps.joinInto
  cases m[k]? with
  | none => exact Std.TreeMap.getElem?_insert_self
  | some old => exact Std.TreeMap.getElem?_insert_self

section Lattice

variable (hL : ap.Lattice)
include hL

theorem MapBelow.refl (m : Std.TreeMap Value (LatticeFact ap)) : MapBelow m m :=
  fun _ f h => ⟨f, h, hL.leq_refl _⟩

theorem MapBelow.trans {m₁ m₂ m₃ : Std.TreeMap Value (LatticeFact ap)} (h₁ : MapBelow m₁ m₂)
    (h₂ : MapBelow m₂ m₃) : MapBelow m₁ m₃ := by
  intro k f hf
  obtain ⟨g, hg, hfg⟩ := h₁ k f hf
  obtain ⟨g', hg', hgg⟩ := h₂ k g hg
  exact ⟨g', hg', hL.leq_trans hfg hgg⟩

/-- Recording one fact in both maps. -/
theorem MapBelow.joinInto {m m' : Std.TreeMap Value (LatticeFact ap)} (h : MapBelow m m') (i : Value)
    (f : LatticeFact ap) : MapBelow (BBOps.joinInto m i f) (BBOps.joinInto m' i f) := by
  intro k g hg
  by_cases hk : k = i
  · subst hk
    rw [BBOps.joinInto_self_eq] at hg
    refine ⟨_, BBOps.joinInto_self_eq m' k f, ?_⟩
    rw [← Option.some.inj hg]
    cases hm : m[k]? with
    | none =>
        cases m'[k]? with
        | none => exact hL.leq_refl _
        | some old' => exact hL.join_left _ _
    | some old =>
        obtain ⟨old', hold', hle⟩ := h k old hm
        rw [hold']
        exact hL.join_least (hL.join_left _ _) (hL.leq_trans hle (hL.join_right _ _))
  · rw [BBOps.joinInto_of_ne _ _ hk] at hg
    rw [BBOps.joinInto_of_ne _ _ hk]
    exact h k g hg

theorem Books.Below.record {bk bk' : Books ap} (h : Books.Below bk bk') (fIn fOut : LatticeFact ap)
    (i : Instruction) : Books.Below (BBOps.record bk fIn fOut i) (BBOps.record bk' fIn fOut i) := by
  have hstores : MapBelow bk.reachStores bk'.reachStores := h.reachStores
  have hcreate : MapBelow bk.reachThreadCreate bk'.reachThreadCreate := h.reachThreadCreate
  cases hk : i.kind with
  | store val ptr =>
      simp only [BBOps.record, hk]
      exact ⟨h.rErrors, hstores.joinInto hL _ _, hcreate⟩
  | atomicRMW op ptr val =>
      simp only [BBOps.record, hk]
      exact ⟨h.rErrors, hstores.joinInto hL _ _, hcreate⟩
  | call callee =>
      cases callee with
      | pthreadCreate thread f args =>
          simp only [BBOps.record, hk]
          exact ⟨h.rErrors, hstores, hcreate.joinInto hL _ _⟩
      | assertFail =>
          simp only [BBOps.record, hk]
          refine ⟨fun e he => ?_, hstores, hcreate⟩
          rw [Std.TreeSet.mem_insert] at he ⊢
          exact he.imp_right (h.rErrors e)
      | _ => simpa only [BBOps.record, hk] using h
  | _ => simpa only [BBOps.record, hk] using h

end Lattice

/-! ### One permutation on two bookkeepings -/

/-- Recording an instruction in both bookkeepings keeps the relation. -/
def Books.Stable (R : Books ap → Books ap → Prop) : Prop :=
  ∀ bk bk' fIn fOut i, R bk bk' → R (BBOps.record bk fIn fOut i) (BBOps.record bk' fIn fOut i)

section Analysis

variable {R : Books ap → Books ap → Prop} (hR : Books.Stable R) {o : BlockOrder} {cx : Ctx} {interf : InterfMap ap}
  {F : Function}
include hR

theorem runBody_agree {nc : Bool} (is : List Instruction) (f : LatticeFact ap) {bk bk' : Books ap} (h : R bk bk') :
    Agree (fun p q => p.1 = q.1 ∧ R p.2 q.2) (BBOps.runBody cx interf nc is f bk)
      (BBOps.runBody cx interf nc is f bk') := by
  refine Agree.foldlM (fun i _ p q hpq => ?_) ⟨rfl, h⟩
  rw [BBOps.stepInst_eq, BBOps.stepInst_eq, hpq.1]
  exact Agree.bind_left fun newF => .ok ⟨rfl, hR _ _ _ _ i hpq.2⟩

theorem runTransferFuncs_agree {nc : Bool} (b : BasicBlock) (f : LatticeFact ap) {bk bk' : Books ap}
    (h : R bk bk') :
    Agree (fun p q => p.1 = q.1 ∧ R p.2 q.2) (BBOps.runTransferFuncs cx interf nc b f bk)
      (BBOps.runTransferFuncs cx interf nc b f bk') := by
  refine Agree.bind (runBody_agree hR b.body f h) fun p q hpq => ?_
  cases p with
  | mk endFact bk =>
      cases q with
      | mk endFact' bk' =>
          obtain ⟨hfact, hbk⟩ := hpq
          cases hfact
          exact Agree.bind_left fun outs => .ok ⟨rfl, hbk⟩

omit hR in
/-- Two states of the loop that differ in the bookkeeping only. -/
def LoopState.SameBut (R : Books ap → Books ap → Prop) (s t : LoopState o ap) : Prop :=
  ∃ bk, R s.books bk ∧ t = { s with books := bk }

theorem analyzeIter_agree (cur : BlockId × LatticeFact ap) {s t : LoopState o ap} (h : s.SameBut R t) :
    Agree (LoopState.SameBut R) (analyzeIter cx interf F cur s) (analyzeIter cx interf F cur t) := by
  obtain ⟨bk, hbk, rfl⟩ := h
  unfold analyzeIter
  dsimp only
  cases s.analState[cur.1]? with
  | none => exact .error _
  | some oldFact =>
      cases F.block? cur.1 with
      | none => exact .error _
      | some B =>
          dsimp only
          split_ifs
          · exact .ok ⟨bk, hbk, rfl⟩
          · refine Agree.bind (runTransferFuncs_agree hR B cur.2 hbk) fun p q hpq => ?_
            cases p with
            | mk outs bk =>
                cases q with
                | mk outs' bk' =>
                    obtain ⟨houts, hbk⟩ := hpq
                    cases houts
                    exact .ok ⟨bk', hbk, rfl⟩

theorem analyzeLoop_agree (fuel : Nat) {s t : LoopState o ap} (h : s.SameBut R t) :
    Agree (LoopState.SameBut R) (analyzeLoop cx interf F fuel s) (analyzeLoop cx interf F fuel t) := by
  induction fuel generalizing s t with
  | zero =>
      obtain ⟨bk, hbk, rfl⟩ := h
      unfold analyzeLoop
      dsimp only
      cases s.worklist.toList with
      | nil => exact .ok ⟨bk, hbk, rfl⟩
      | cons cur rest => exact .error _
  | succ fuel ih =>
      have hwl : t.worklist = s.worklist := by
        obtain ⟨bk, _, rfl⟩ := h
        rfl
      unfold analyzeLoop
      rw [hwl]
      cases s.worklist.toList with
      | nil => exact .ok h
      | cons cur rest =>
          dsimp only
          have hiter : Agree (LoopState.SameBut R) (analyzeIter cx interf F cur s) (analyzeIter cx interf F cur t) :=
            analyzeIter_agree hR cur h
          generalize analyzeIter cx interf F cur s = x at hiter ⊢
          generalize analyzeIter cx interf F cur t = y at hiter ⊢
          cases hiter with
          | ok hnext => exact ih hnext
          | error e => exact .error _

/-- **One permutation**: the facts of the blocks do not depend on the bookkeeping, and the bookkeepings stay
related. -/
theorem analyzeFunc_agree (entryFact : LatticeFact ap) (mergeInterfs : Bool) (fuel : Nat) {bk bk' : Books ap}
    (h : R bk bk') :
    Agree (fun p q => p.1 = q.1 ∧ R p.2 q.2)
      (analyzeFunc o cx interf bk entryFact F mergeInterfs fuel)
      (analyzeFunc o cx interf bk' entryFact F mergeInterfs fuel) := by
  unfold analyzeFunc
  cases F.blocks with
  | nil => exact .error _
  | cons first rest =>
      dsimp only
      refine Agree.bind (analyzeLoop_agree hR fuel (s := initLoop o F first entryFact bk) ⟨bk', h, rfl⟩) ?_
      rintro s t ⟨bk, hbk, rfl⟩
      exact .ok ⟨rfl, hbk⟩

end Analysis

section Lattice

variable (hL : ap.Lattice) {o : BlockOrder} {cx : Ctx} {interf : InterfMap ap} {F : Function}
include hL

/-- Larger bookkeeping stays larger. -/
theorem analyzeFunc_below (entryFact : LatticeFact ap) (mergeInterfs : Bool) (fuel : Nat) {bk bk' : Books ap}
    (h : Books.Below bk bk') :
    Agree (fun p q => p.1 = q.1 ∧ Books.Below p.2 q.2)
      (analyzeFunc o cx interf bk entryFact F mergeInterfs fuel)
      (analyzeFunc o cx interf bk' entryFact F mergeInterfs fuel) := by
  have hstable : Books.Stable fun bk bk' : Books ap => Books.Below bk bk' :=
    fun _ _ fIn fOut i h => h.record hL fIn fOut i
  exact analyzeFunc_agree hstable entryFact mergeInterfs fuel h

/-- Whether the analysis returns does not depend on the bookkeeping. -/
theorem analyzeFunc_ok_of_empty {entryFact : LatticeFact ap} {mergeInterfs : Bool} {fuel : Nat}
    (h : (analyzeFunc o cx interf {} entryFact F mergeInterfs fuel).isOk = true) (bk : Books ap) :
    ∃ r, analyzeFunc o cx interf bk entryFact F mergeInterfs fuel = .ok r := by
  obtain ⟨r, hr⟩ := exists_ok h
  have hempty : Books.Below {} bk :=
    ⟨fun i hi => by simp at hi, fun i f hf => by simp at hf, fun i f hf => by simp at hf⟩
  obtain ⟨r', hr', _⟩ := (analyzeFunc_below hL entryFact mergeInterfs fuel hempty).exists_right hr
  exact ⟨r', hr'⟩

/-- The analysis keeps what it finds in the bookkeeping. -/
theorem analyzeFunc_books_below {entryFact : LatticeFact ap} {mergeInterfs : Bool} {fuel : Nat}
    {bk : Books ap} {r : Std.TreeMap BlockId (LatticeFact ap) × Books ap}
    (h : analyzeFunc o cx interf bk entryFact F mergeInterfs fuel = .ok r) : Books.Below bk r.2 := by
  obtain ⟨ps, t, ⟨first, _, hrun⟩, _, _, hbooks⟩ := analyzeFunc_run (show _ = Except.ok (r.1, r.2) from h)
  rw [← hbooks]
  exact hrun.grows (leq_joinOrder hL)

/-! ### The permutations of a thread -/

omit hL in
/-- Merging facts at different blocks one after the other. -/
theorem foldl_merge_getElem? {step : Std.TreeMap BlockId (LatticeFact ap) → BlockId × LatticeFact ap →
      Std.TreeMap BlockId (LatticeFact ap)}
    (hstep : ∀ m p (b : BlockId),
      (step m p)[b]? = if p.1 = b then some ((m[b]?).elim p.2 p.2.factJoin) else m[b]?) (b : BlockId)
    {ps : List (BlockId × LatticeFact ap)} (hkeys : ps.Pairwise fun p q => p.1 ≠ q.1)
    (m : Std.TreeMap BlockId (LatticeFact ap)) :
    ((∀ f, (b, f) ∉ ps) → (ps.foldl step m)[b]? = m[b]?) ∧
      ∀ f, (b, f) ∈ ps → (ps.foldl step m)[b]? = some ((m[b]?).elim f f.factJoin) := by
  induction ps generalizing m with
  | nil => exact ⟨fun _ => rfl, fun f hf => absurd hf List.not_mem_nil⟩
  | cons p ps ih =>
      obtain ⟨hp, hps⟩ := List.pairwise_cons.mp hkeys
      obtain ⟨hout, hin⟩ := ih hps (step m p)
      rw [List.foldl_cons]
      constructor
      · intro hb
        rw [hout fun f hf => hb f (.tail _ hf), hstep, if_neg]
        intro hpb
        exact hb p.2 (by rw [← hpb]; exact .head _)
      · intro f hf
        rcases List.mem_cons.mp hf with hf | hf
        · subst hf
          rw [hout fun g hg => hp _ hg rfl, hstep, if_pos rfl]
        · rw [hin f hf, hstep, if_neg (hp _ hf)]

omit hL in
/-- The facts of both maps, joined where both have one. -/
theorem mergeFactMaps_getElem? (m₁ m₂ : Std.TreeMap BlockId (LatticeFact ap)) (b : BlockId) :
    (mergeFactMaps m₁ m₂)[b]? =
      (m₂[b]?).elim m₁[b]? fun f => some ((m₁[b]?).elim f f.factJoin) := by
  have hkeys : m₂.toList.Pairwise fun p q => p.1 ≠ q.1 :=
    m₂.distinct_keys_toList.imp fun h heq => h (Nat.compare_eq_eq.mpr heq)
  have hstep : ∀ (m : Std.TreeMap BlockId (LatticeFact ap)) (p : BlockId × LatticeFact ap) (b : BlockId),
      (mergeFactMaps m (.insert ∅ p.1 p.2))[b]? =
        if p.1 = b then some ((m[b]?).elim p.2 p.2.factJoin) else m[b]? := by
    intro m p b
    change (List.foldl _ m [p])[b]? = _
    rw [List.foldl_cons, List.foldl_nil]
    by_cases hpb : p.1 = b
    · subst hpb
      rw [if_pos rfl]
      cases m[p.1]? with
      | none => exact Std.TreeMap.getElem?_insert_self
      | some otherF => exact Std.TreeMap.getElem?_insert_self
    · rw [if_neg hpb]
      cases m[p.1]? with
      | none => simp [Std.TreeMap.getElem?_insert, hpb]
      | some otherF => simp [Std.TreeMap.getElem?_insert, Std.TreeMap.getElem?_erase, hpb]
  unfold mergeFactMaps
  cases hf : m₂[b]? with
  | none =>
      refine (foldl_merge_getElem? hstep b hkeys m₁).1 fun f hmem => ?_
      rw [Std.TreeMap.mem_toList_iff_getElem?_eq_some.mp hmem] at hf
      cases hf
  | some f =>
      exact (foldl_merge_getElem? hstep b hkeys m₁).2 f (Std.TreeMap.mem_toList_iff_getElem?_eq_some.mpr hf)

theorem MapBelow.mergeFactMaps {m₁ m₁' m₂ : Std.TreeMap BlockId (LatticeFact ap)} (h : MapBelow m₁ m₁') :
    MapBelow (mergeFactMaps m₁ m₂) (mergeFactMaps m₁' m₂) := by
  intro b f hf
  rw [mergeFactMaps_getElem?] at hf
  rw [mergeFactMaps_getElem?]
  cases hb : m₂[b]? with
  | none =>
      rw [hb] at hf
      exact h b f hf
  | some g =>
      rw [hb] at hf
      refine ⟨_, rfl, ?_⟩
      rw [← Option.some.inj hf]
      cases hm : m₁[b]? with
      | none =>
          cases m₁'[b]? with
          | none => exact hL.leq_refl _
          | some old' => exact hL.join_left _ _
      | some old =>
          obtain ⟨old', hold', hle⟩ := h b old hm
          rw [hold']
          exact hL.join_least (hL.join_left _ _) (hL.leq_trans hle (hL.join_right _ _))

theorem mapBelow_mergeFactMaps (m₁ m₂ : Std.TreeMap BlockId (LatticeFact ap)) :
    MapBelow m₁ (mergeFactMaps m₁ m₂) := by
  intro b f hf
  rw [mergeFactMaps_getElem?, hf]
  cases m₂[b]? with
  | none => exact ⟨f, rfl, hL.leq_refl _⟩
  | some g => exact ⟨g.factJoin f, rfl, hL.join_right _ _⟩

end Lattice

/-- The cached verdicts of two explorations: the same permutations have one, and what the second skips the
first skips. -/
def SkipsMore (permCache permCache' : PermCache) : Prop :=
  ∀ perm : List Nat, (permCache[perm]?).isSome = (permCache'[perm]?).isSome ∧
    (permCache'[perm]? = some true → permCache[perm]? = some true)

theorem SkipsMore.insert {permCache permCache' : PermCache} (h : SkipsMore permCache permCache')
    (perm : List Nat) {violates violates' : Bool} (hv : violates' = true → violates = true) :
    SkipsMore (permCache.insert perm violates) (permCache'.insert perm violates') := by
  intro perm'
  rw [Std.TreeMap.getElem?_insert, Std.TreeMap.getElem?_insert]
  split_ifs
  · exact ⟨rfl, fun hskip => congrArg some (hv (Option.some.inj hskip))⟩
  · exact h perm'

/-- The first exploration has found nothing that the second has not, and skips more. -/
structure PermState.Below (s t : PermState ap) : Prop where
  books : Books.Below s.books t.books
  res : MapBelow s.res t.res
  permCache : SkipsMore s.permCache t.permCache

/-- The first solver rejects every choice that the second rejects. -/
def PrunesMore (z3 z3' : Solver) (rules rules' : List Rule) : Prop :=
  ∀ interfs rfs, violatesProgOrder z3' rules' interfs rfs = true → violatesProgOrder z3 rules interfs rfs = true

/-- What one test does, by the verdict on its permutation. -/
theorem testCurPerm_eq (o : BlockOrder) (cx : Ctx) (z3 : Solver) (rules : List Rule) (F : Function)
    (createSite : Option Instruction) (perm : List Nat) (interfs : LoadStores) (stFacts : StoreFacts ap)
    (entryFact : LatticeFact ap) (fuel : Nat) (s : PermState ap) :
    testCurPerm o cx z3 rules F createSite perm interfs stFacts entryFact fuel s =
      gatherChoices cx createSite perm interfs stFacts fuel >>= fun c =>
        let check := checkPermCache z3 rules cx.opts.useConstraintsG perm c s.permCache
        if check.1 then .ok (false, { s with permCache := check.2 })
        else
          analyzeFunc o cx c.curInterfMap s.books entryFact F false fuel >>= fun r =>
            .ok (true, ⟨r.2, mergeFactMaps s.res r.1, check.2⟩) :=
  rfl

section Permutations

variable {z3 z3' : Solver} {rules rules' : List Rule} (hprune : PrunesMore z3 z3' rules rules')
include hprune

theorem PrunesMore.checkPermCache (useConstraintsG : Bool) (perm : List Nat) (c : Choices ap)
    {permCache permCache' : PermCache} (h : SkipsMore permCache permCache') :
    ((Watts.checkPermCache z3' rules' useConstraintsG perm c permCache').1 = true →
        (Watts.checkPermCache z3 rules useConstraintsG perm c permCache).1 = true) ∧
      SkipsMore (Watts.checkPermCache z3 rules useConstraintsG perm c permCache).2
        (Watts.checkPermCache z3' rules' useConstraintsG perm c permCache').2 := by
  obtain ⟨hsome, hskip⟩ := h perm
  unfold Watts.checkPermCache
  split_ifs
  · cases hp : permCache[perm]? with
    | none =>
        cases hp' : permCache'[perm]? with
        | none => exact ⟨hprune _ _, h.insert perm (hprune _ _)⟩
        | some violates' =>
            rw [hp, hp'] at hsome
            cases hsome
    | some violates =>
        cases hp' : permCache'[perm]? with
        | none =>
            rw [hp, hp'] at hsome
            cases hsome
        | some violates' =>
            rw [hp, hp'] at hskip
            exact ⟨fun hv => Option.some.inj (hskip (congrArg some hv)), h⟩
  · exact ⟨id, h⟩

variable (hL : ap.Lattice) {o : BlockOrder} {cx : Ctx} {F : Function} {createSite : Option Instruction}
  {interfs : LoadStores} {stFacts : StoreFacts ap} {entryFact : LatticeFact ap} {fuel : Nat}
include hL

/-- One permutation, which the first exploration may skip. -/
theorem PrunesMore.testCurPerm {perm : List Nat} {s t : PermState ap} (h : s.Below t)
    {r' : Bool × PermState ap}
    (hr' : Watts.testCurPerm o cx z3' rules' F createSite perm interfs stFacts entryFact fuel t = .ok r') :
    ∃ r, Watts.testCurPerm o cx z3 rules F createSite perm interfs stFacts entryFact fuel s = .ok r ∧
      r.2.Below r'.2 := by
  rw [testCurPerm_eq] at hr' ⊢
  obtain ⟨c, hc, hr'⟩ := bind_eq_ok.mp hr'
  obtain ⟨hskip, hcache⟩ := hprune.checkPermCache cx.opts.useConstraintsG perm c h.permCache
  rw [hc, ok_bind]
  dsimp only at hr' ⊢
  by_cases hskip' : (Watts.checkPermCache z3' rules' cx.opts.useConstraintsG perm c t.permCache).1 = true
  · rw [if_pos hskip'] at hr'
    cases hr'
    rw [if_pos (hskip hskip')]
    exact ⟨_, rfl, h.books, h.res, hcache⟩
  · rw [if_neg hskip'] at hr'
    obtain ⟨⟨newRes, books'⟩, hrun', hr'⟩ := bind_eq_ok.mp hr'
    cases hr'
    split_ifs
    · -- only the second exploration analyses the permutation
      refine ⟨_, rfl, ?_, h.res.trans hL (mapBelow_mergeFactMaps hL _ _), hcache⟩
      exact h.books.trans (leq_joinOrder hL) (analyzeFunc_books_below hL hrun')
    · obtain ⟨⟨newRes, books⟩, hrun, hnew, hbooks⟩ :=
        (analyzeFunc_below hL entryFact false fuel h.books).exists_left hrun'
      cases hnew
      rw [hrun]
      exact ⟨_, rfl, hbooks, h.res.mergeFactMaps hL, hcache⟩

theorem PrunesMore.permLoop (n : Nat) (cp : CartesianProduct) {s t t' : PermState ap} (h : s.Below t)
    (ht' : Watts.permLoop o cx z3' rules' F createSite interfs stFacts entryFact fuel n cp t = .ok t') :
    ∃ s', Watts.permLoop o cx z3 rules F createSite interfs stFacts entryFact fuel n cp s = .ok s' ∧
      s'.Below t' := by
  induction n generalizing cp s t with
  | zero =>
      unfold Watts.permLoop at ht' ⊢
      split_ifs at ht' with hend
      cases ht'
      rw [if_pos hend]
      exact ⟨s, rfl, h⟩
  | succ n ih =>
      unfold Watts.permLoop at ht' ⊢
      split_ifs at ht' with hend
      · cases ht'
        rw [if_pos hend]
        exact ⟨s, rfl, h⟩
      · obtain ⟨r', hr', ht'⟩ := bind_eq_ok.mp ht'
        obtain ⟨cp', hcp', ht'⟩ := bind_eq_ok.mp ht'
        obtain ⟨r, hr, hbelow⟩ := hprune.testCurPerm hL h hr'
        obtain ⟨s', hs', hbelow'⟩ := ih cp' hbelow ht'
        refine ⟨s', ?_, hbelow'⟩
        rw [if_neg hend]
        exact bind_eq_ok.mpr ⟨r, hr, bind_eq_ok.mpr ⟨cp', hcp', hs'⟩⟩

/-- The analysis of a thread. -/
theorem PrunesMore.analyzeThreadInterf (o : BlockOrder) (cx : Ctx) (F : Function)
    (createSite : Option Instruction) (interfs : LoadStores) (stFacts : StoreFacts ap) (books : Books ap)
    {permCache permCache' : PermCache} (hcache : SkipsMore permCache permCache') (entryFact : LatticeFact ap)
    (fuel : Nat) {t : PermState ap}
    (h : Watts.analyzeThreadInterf o cx z3' rules' F createSite interfs stFacts books permCache' entryFact
      fuel = .ok t) :
    ∃ s, Watts.analyzeThreadInterf o cx z3 rules F createSite interfs stFacts books permCache entryFact
      fuel = .ok s ∧ s.Below t := by
  have hrefl : ∀ bk : Books ap, Books.Below bk bk := Books.Grows.refl (leq_joinOrder hL)
  unfold Watts.analyzeThreadInterf at h ⊢
  split_ifs at h ⊢
  · obtain ⟨⟨res, bk⟩, hrun, h⟩ := bind_eq_ok.mp h
    cases h
    rw [hrun]
    exact ⟨_, rfl, hrefl bk, MapBelow.refl hL res, hcache⟩
  · obtain ⟨allInterfs, hjoin, h⟩ := bind_eq_ok.mp h
    obtain ⟨⟨res, bk⟩, hrun, h⟩ := bind_eq_ok.mp h
    cases h
    rw [hjoin, ok_bind, hrun]
    exact ⟨_, rfl, hrefl bk, MapBelow.refl hL res, hcache⟩
  · obtain ⟨cp, hcp, h⟩ := bind_eq_ok.mp h
    rw [hcp, ok_bind]
    exact hprune.permLoop hL fuel cp (s := ⟨books, {}, permCache⟩) ⟨hrefl books, MapBelow.refl hL {}, hcache⟩ h

end Permutations

/-- **Pruning more finds less.**  When the analysis of a thread returns with one solver, it returns with a
solver that rejects more permutations, and every error, fact at a store, fact at a thread creation and fact
of a block that this one finds the other covers. -/
theorem analyzeThreadInterf_prunesMore (hL : ap.Lattice) (o : BlockOrder) (cx : Ctx) (z3 z3' : Solver)
    (rules rules' : List Rule) (hprune : PrunesMore z3 z3' rules rules') (F : Function)
    (createSite : Option Instruction) (interfs : LoadStores) (stFacts : StoreFacts ap) (books : Books ap)
    (permCache permCache' : PermCache) (hcache : SkipsMore permCache permCache')
    (entryFact : LatticeFact ap) (fuel : Nat) (t : PermState ap)
    (h : analyzeThreadInterf o cx z3' rules' F createSite interfs stFacts books permCache' entryFact fuel =
      .ok t) :
    ∃ s, analyzeThreadInterf o cx z3 rules F createSite interfs stFacts books permCache entryFact fuel =
      .ok s ∧ s.Below t :=
  hprune.analyzeThreadInterf hL o cx F createSite interfs stFacts books hcache entryFact fuel h

open SameIndices (cx rules thread2 create2 call) in
/-- A thread with two permutations, under a solver that rejects none and under one that rejects all that read
from other threads. -/
theorem analyzeThreadInterf_prunesMore_thread2 : ∃ t s : PermState boxes,
    analyzeThreadInterf .increasing cx (fun _ _ => .lUndef) rules thread2 (some create2)
      (call thread2 create2 [0]).interfs (call thread2 create2 [0]).stFacts {} {}
      (call thread2 create2 [0]).entryFact 50 = .ok t ∧
    analyzeThreadInterf .increasing cx (fun _ _ => .lTrue) rules thread2 (some create2)
      (call thread2 create2 [0]).interfs (call thread2 create2 [0]).stFacts {} {}
      (call thread2 create2 [0]).entryFact 50 = .ok s ∧ s.Below t := by
  have hprune : PrunesMore (fun _ _ => .lTrue) (fun _ _ => .lUndef) rules rules := by
    intro interfs rfs h
    unfold violatesProgOrder queryNotReads at h
    split_ifs at h
    simp at h
  obtain ⟨t, ht⟩ := exists_ok (x := analyzeThreadInterf .increasing cx (fun _ _ => .lUndef) rules thread2
    (some create2) (call thread2 create2 [0]).interfs (call thread2 create2 [0]).stFacts {} {}
    (call thread2 create2 [0]).entryFact 50) (by decide)
  obtain ⟨s, hs, hbelow⟩ := analyzeThreadInterf_prunesMore Box.lattice .increasing cx (fun _ _ => .lTrue)
    (fun _ _ => .lUndef) rules rules hprune thread2 (some create2) (call thread2 create2 [0]).interfs
    (call thread2 create2 [0]).stFacts {} {} {} (fun _ => ⟨rfl, id⟩) (call thread2 create2 [0]).entryFact 50 t ht
  exact ⟨t, s, ht, hs, hbelow⟩

end Watts
