import Watts.AnalyzeFunc

/-! Runs of `analyzeFunc`.  A run is the list of the facts popped from the worklist.  Each iteration
is a step of the general worklist iteration, whose consequences are the facts that the block sends
to its successors, and the bookkeeping is the one that the processed facts leave behind, in order. -/

namespace Watts

open Worklist (Pop)

variable {ap : Apron}

theorem Ctx.not_sliced (cx : Ctx) (i : Value) :
    (cx.opts.assertSliceG && cx.assertSlice.contains i) = false := by
  rw [getAssertSliceInvIfEnabled_eq_empty cx.assertSlice_eq]
  simp

namespace BBOps

/-- The pass never skips an instruction of a block. -/
theorem stepInst_eq (cx : Ctx) (interf : InterfMap ap) (nc : Bool)
    (s : LatticeFact ap × Books ap) (i : Instruction) :
    stepInst cx interf nc s i = transferFunc cx interf nc s.1 i s.2 := by
  unfold stepInst
  rw [if_neg (by simp [cx.not_sliced])]

theorem runBody_nil (cx : Ctx) (interf : InterfMap ap) (nc : Bool) (f : LatticeFact ap)
    (books : Books ap) : runBody cx interf nc [] f books = .ok (f, books) :=
  rfl

theorem runBody_cons {cx : Ctx} {interf : InterfMap ap} {nc : Bool} {i : Instruction}
    {is : List Instruction} {f : LatticeFact ap} {books : Books ap}
    {r : LatticeFact ap × Books ap} :
    runBody cx interf nc (i :: is) f books = .ok r ↔
      ∃ f', transferFact cx interf nc f i = .ok f' ∧
        runBody cx interf nc is f' (record books f f' i) = .ok r := by
  unfold runBody
  rw [List.foldlM_cons, stepInst_eq]
  unfold transferFunc
  cases transferFact cx interf nc f i with
  | error e => simp [bind, Except.bind]
  | ok f' => simp [bind, Except.bind, pure, Except.pure]

theorem runBody_append {cx : Ctx} {interf : InterfMap ap} {nc : Bool} (is js : List Instruction)
    {f : LatticeFact ap} {books : Books ap} {r : LatticeFact ap × Books ap} :
    runBody cx interf nc (is ++ js) f books = .ok r ↔
      ∃ m, runBody cx interf nc is f books = .ok m ∧ runBody cx interf nc js m.1 m.2 = .ok r := by
  induction is generalizing f books with
  | nil => simp [runBody_nil]
  | cons i is ih =>
      rw [List.cons_append, runBody_cons]
      constructor
      · rintro ⟨f', hf', h⟩
        obtain ⟨m, hm, hr⟩ := ih.mp h
        exact ⟨m, runBody_cons.mpr ⟨f', hf', hm⟩, hr⟩
      · rintro ⟨m, hm, hr⟩
        obtain ⟨f', hf', h⟩ := runBody_cons.mp hm
        exact ⟨f', hf', ih.mpr ⟨m, h, hr⟩⟩

/-- The fact at the end of a block does not depend on the bookkeeping. -/
theorem runBody_books {cx : Ctx} {interf : InterfMap ap} {nc : Bool} {is : List Instruction}
    {f f' : LatticeFact ap} {books books' : Books ap}
    (h : runBody cx interf nc is f books = .ok (f', books')) (bk : Books ap) :
    ∃ bk', runBody cx interf nc is f bk = .ok (f', bk') := by
  induction is generalizing f books bk with
  | nil =>
      rw [runBody_nil] at h
      cases h
      exact ⟨bk, rfl⟩
  | cons i is ih =>
      obtain ⟨f₁, hf₁, h⟩ := runBody_cons.mp h
      obtain ⟨bk', hbk'⟩ := ih h (record bk f f₁ i)
      exact ⟨bk', runBody_cons.mpr ⟨f₁, hf₁, hbk'⟩⟩

theorem runTransferFuncs_ok {cx : Ctx} {interf : InterfMap ap} {nc : Bool} {b : BasicBlock}
    {f : LatticeFact ap} {books books' : Books ap} {outs : List (BlockId × LatticeFact ap)} :
    runTransferFuncs cx interf nc b f books = .ok (outs, books') ↔
      ∃ endFact, runBody cx interf nc b.body f books = .ok (endFact, books') ∧
        outFacts cx b.terminator endFact = .ok outs := by
  unfold runTransferFuncs
  cases hb : runBody cx interf nc b.body f books with
  | error e => simp [bind, Except.bind]
  | ok r =>
      obtain ⟨endFact, bk⟩ := r
      cases ho : outFacts cx b.terminator endFact with
      | error e => simp [bind, Except.bind, ho]
      | ok outs' =>
          simp only [bind, Except.bind, ho, pure, Except.pure, Except.ok.injEq, Prod.mk.injEq]
          constructor
          · rintro ⟨rfl, rfl⟩
            exact ⟨endFact, ⟨rfl, rfl⟩, ho⟩
          · rintro ⟨ef, ⟨rfl, rfl⟩, h⟩
            rw [ho] at h
            exact ⟨Except.ok.inj h, rfl⟩

theorem runTransferFuncs_books {cx : Ctx} {interf : InterfMap ap} {nc : Bool} {b : BasicBlock}
    {f : LatticeFact ap} {books books' : Books ap} {outs : List (BlockId × LatticeFact ap)}
    (h : runTransferFuncs cx interf nc b f books = .ok (outs, books')) (bk : Books ap) :
    ∃ bk', runTransferFuncs cx interf nc b f bk = .ok (outs, bk') := by
  obtain ⟨endFact, hb, ho⟩ := runTransferFuncs_ok.mp h
  obtain ⟨bk', hb'⟩ := runBody_books hb bk
  exact ⟨bk', runTransferFuncs_ok.mpr ⟨endFact, hb', ho⟩⟩

end BBOps

/-! ### The worklist iteration of a function -/

/-- The facts that the block at an address sends to its successors, none if it cannot be executed. -/
def blockPost (cx : Ctx) (interf : InterfMap ap) (F : Function) (b : BlockId) (f : LatticeFact ap) :
    List (BlockId × LatticeFact ap) :=
  match F.block? b with
  | none => []
  | some B =>
    match BBOps.runTransferFuncs cx interf cx.opts.noCombinsG B f {} with
    | .ok r => r.1
    | .error _ => []

/-- The worklist iteration that `analyzeFunc` performs. -/
def system (cx : Ctx) (interf : InterfMap ap) (F : Function) :
    Worklist.System BlockId (LatticeFact ap) where
  le := LatticeFact.leq
  join := LatticeFact.factJoin
  bot := ⟨ap.bottom⟩
  post := blockPost cx interf F

theorem blockPost_eq {cx : Ctx} {interf : InterfMap ap} {F : Function} {B : BasicBlock}
    {f : LatticeFact ap} {books books' : Books ap} {outs : List (BlockId × LatticeFact ap)}
    (hB : F.block? B.id = some B)
    (h : BBOps.runTransferFuncs cx interf cx.opts.noCombinsG B f books = .ok (outs, books')) :
    blockPost cx interf F B.id f = outs := by
  obtain ⟨bk, hbk⟩ := BBOps.runTransferFuncs_books h {}
  simp [blockPost, hB, hbk]

namespace LoopState

variable {o : BlockOrder}

/-- The worklist and the stored facts of a loop state, as a state of the general iteration. -/
def abs (s : LoopState o ap) : Worklist.State BlockId (LatticeFact ap) where
  pending b := s.worklist[b]?
  stored b := (s.analState[b]?).getD ⟨ap.bottom⟩

/-- One pass through the loop body. -/
inductive Iter (cx : Ctx) (interf : InterfMap ap) (F : Function) :
    LoopState o ap → Pop BlockId (LatticeFact ap) → LoopState o ap → Prop
  | mk {s t : LoopState o ap} {cur : BlockId × LatticeFact ap}
      {rest : List (BlockId × LatticeFact ap)} (hpop : s.worklist.toList = cur :: rest)
      (hiter : analyzeIter cx interf F cur s = .ok t) :
      Iter cx interf F s ⟨cur.1, cur.2, s.abs.stored cur.1⟩ t

/-- A run of the loop with the popped facts, in order. -/
inductive Run (cx : Ctx) (interf : InterfMap ap) (F : Function) :
    LoopState o ap → List (Pop BlockId (LatticeFact ap)) → LoopState o ap → Prop
  | nil (s : LoopState o ap) : Run cx interf F s [] s
  | snoc {s t u : LoopState o ap} {ps : List (Pop BlockId (LatticeFact ap))}
      {p : Pop BlockId (LatticeFact ap)} :
      Run cx interf F s ps t → Iter cx interf F t p u → Run cx interf F s (ps ++ [p]) u

end LoopState

section Refinement

variable {o : BlockOrder} {cx : Ctx} {interf : InterfMap ap} {F : Function}

variable (cx interf F) in
theorem mergePair_getElem? (wl : WorklistT o ap) (p : BlockId × LatticeFact ap) (k : BlockId) :
    (mergePair wl p)[k]? = (system cx interf F).mergeOne (fun b => wl[b]?) p.1 p.2 k := by
  obtain ⟨b, f⟩ := p
  unfold mergePair Worklist.System.mergeOne
  by_cases hk : k = b
  · subst hk
    cases hw : wl[k]? with
    | none => simp [hw]
    | some g => simp [hw, system]
  · have hne : o.cmp b k ≠ .eq := fun h => hk ((o.cmp_eq_iff.mp h).symm)
    cases hw : wl[b]? with
    | none => simp [Std.TreeMap.getElem?_insert, hne, Function.update_of_ne hk]
    | some g =>
        simp [Std.TreeMap.getElem?_insert, Std.TreeMap.getElem?_erase, hne, Function.update_of_ne hk]

variable (cx interf F) in
/-- Merging into the `std::map` is merging into the abstract worklist. -/
theorem mergeWorklist_getElem? (ps : List (BlockId × LatticeFact ap)) (wl : WorklistT o ap) :
    (fun k => (mergeWorklist wl ps)[k]?) =
      (system cx interf F).merge (fun b => wl[b]?) ps := by
  induction ps generalizing wl with
  | nil => rfl
  | cons p ps ih =>
      have h := ih (mergePair wl p)
      have hp : (fun b => (mergePair wl p)[b]?) =
          (system cx interf F).mergeOne (fun b => wl[b]?) p.1 p.2 :=
        funext (mergePair_getElem? cx interf F wl p)
      rw [hp] at h
      exact h

theorem erase_getElem? (wl : WorklistT o ap) (b : BlockId) :
    (fun k => (wl.erase b)[k]?) = Function.update (fun k => wl[k]?) b none := by
  funext k
  by_cases hk : k = b
  · subst hk
    simp
  · have hne : o.cmp b k ≠ .eq := fun h => hk ((o.cmp_eq_iff.mp h).symm)
    simp [Std.TreeMap.getElem?_erase, hne, Function.update_of_ne hk]

/-- What one iteration does: the popped fact is pending; it is dropped, or its block is executed and
its consequences are merged. -/
theorem LoopState.Iter.cases {s t : LoopState o ap} {p : Pop BlockId (LatticeFact ap)}
    (h : LoopState.Iter cx interf F s p t) :
    s.abs.pending p.key = some p.fact ∧ p.old = s.abs.stored p.key ∧
      ∃ B, F.block? p.key = some B ∧
        ((p.fact.leq p.old = true ∧ t.books = s.books ∧
            t.abs = ⟨Function.update s.abs.pending p.key none, s.abs.stored⟩) ∨
          (p.fact.leq p.old = false ∧ ∃ outs,
            BBOps.runTransferFuncs cx interf cx.opts.noCombinsG B p.fact s.books =
              .ok (outs, t.books) ∧
            t.abs = ⟨(system cx interf F).merge (Function.update s.abs.pending p.key none) outs,
              Function.update s.abs.stored p.key p.fact⟩)) := by
  rcases h with @⟨_, ⟨b, f⟩, rest, hpop, hiter⟩
  have hpend : s.worklist[b]? = some f :=
    Std.TreeMap.mem_toList_iff_getElem?_eq_some.mp (hpop ▸ List.mem_cons_self)
  unfold analyzeIter at hiter
  dsimp only at hiter ⊢
  cases hst : s.analState[b]? with
  | none => simp [hst] at hiter
  | some old =>
      have hold : s.abs.stored b = old := by simp [LoopState.abs, hst]
      cases hB : F.block? b with
      | none => simp [hst, hB] at hiter
      | some B =>
          refine ⟨hpend, rfl, B, rfl, ?_⟩
          simp only [hst, hB] at hiter
          cases hle : f.leq old with
          | true =>
              rw [if_pos hle] at hiter
              cases hiter
              refine .inl ⟨by rw [hold]; exact hle, rfl, ?_⟩
              simp only [LoopState.abs, erase_getElem?]
          | false =>
              rw [if_neg (by simp [hle])] at hiter
              cases hrun : BBOps.runTransferFuncs cx interf cx.opts.noCombinsG B f s.books with
              | error e => simp [hrun, bind, Except.bind] at hiter
              | ok r =>
                  obtain ⟨outs, books⟩ := r
                  simp only [hrun, bind, Except.bind, pure, Except.pure, Except.ok.injEq] at hiter
                  subst hiter
                  refine .inr ⟨by rw [hold]; exact hle, outs, rfl, ?_⟩
                  simp only [LoopState.abs]
                  congr 1
                  · rw [mergeWorklist_getElem? cx interf F, erase_getElem?]
                  · funext k
                    by_cases hk : k = b
                    · subst hk
                      simp
                    · have hne : compare b k ≠ .eq := fun h => hk (Nat.compare_eq_eq.mp h).symm
                      simp [Std.TreeMap.getElem?_insert, Std.TreeMap.getElem?_erase, hne,
                        Function.update_of_ne hk]

/-- An iteration stores facts only at blocks that have one. -/
theorem LoopState.Iter.keys {s t : LoopState o ap} {p : Pop BlockId (LatticeFact ap)}
    (h : LoopState.Iter cx interf F s p t) (b : BlockId) :
    (t.analState[b]?).isSome = (s.analState[b]?).isSome := by
  rcases h with @⟨_, ⟨b', f⟩, rest, _, hiter⟩
  unfold analyzeIter at hiter
  dsimp only at hiter
  split at hiter
  · next old B hst hB =>
      split_ifs at hiter with hle
      · cases hiter
        rfl
      · cases hrun : BBOps.runTransferFuncs cx interf cx.opts.noCombinsG B f s.books with
        | error e => simp [hrun, bind, Except.bind] at hiter
        | ok r =>
            simp only [hrun, bind, Except.bind, pure, Except.pure, Except.ok.injEq] at hiter
            subst hiter
            by_cases hb : b' = b
            · subst hb
              simp [hst]
            · simp [Std.TreeMap.getElem?_insert, Std.TreeMap.getElem?_erase, hb]
  · cases hiter

theorem LoopState.Run.keys {s t : LoopState o ap} {ps : List (Pop BlockId (LatticeFact ap))}
    (h : LoopState.Run cx interf F s ps t) (b : BlockId) :
    (t.analState[b]?).isSome = (s.analState[b]?).isSome := by
  induction h with
  | nil => rfl
  | snoc _ hi ih => rw [hi.keys, ih]

/-- **Each iteration of the loop is a step of the general iteration.** -/
theorem LoopState.Iter.step {s t : LoopState o ap} {p : Pop BlockId (LatticeFact ap)}
    (h : LoopState.Iter cx interf F s p t) : (system cx interf F).Step s.abs p t.abs := by
  obtain ⟨hpend, hold, B, hB, hcase⟩ := h.cases
  obtain ⟨b, f, old⟩ := p
  simp only at hpend hold hB hcase
  subst hold
  rcases hcase with ⟨hle, _, ht⟩ | ⟨hle, outs, hrun, ht⟩
  · rw [ht]
    exact .skip hpend hle
  · have hid : B.id = b := (Function.block?_mem hB).2
    have hpost : blockPost cx interf F b f = outs := by
      rw [← hid]
      exact blockPost_eq (hid ▸ hB) hrun
    rw [ht, ← hpost]
    exact .visit hpend hle

theorem LoopState.Run.run {s t : LoopState o ap} {ps : List (Pop BlockId (LatticeFact ap))}
    (h : LoopState.Run cx interf F s ps t) : (system cx interf F).Run s.abs ps t.abs := by
  induction h with
  | nil => exact .nil _
  | snoc _ hi ih => exact .snoc ih hi.step

theorem LoopState.Run.cons {s t u : LoopState o ap} {p : Pop BlockId (LatticeFact ap)}
    {ps : List (Pop BlockId (LatticeFact ap))} (h₁ : LoopState.Iter cx interf F s p t)
    (h₂ : LoopState.Run cx interf F t ps u) : LoopState.Run cx interf F s (p :: ps) u := by
  induction h₂ with
  | nil => exact .snoc (.nil s) h₁
  | snoc _ hi ih => rw [← List.cons_append]; exact .snoc ih hi

/-- The first iteration of a run. -/
theorem LoopState.Run.uncons {s t : LoopState o ap} {ps : List (Pop BlockId (LatticeFact ap))}
    (h : LoopState.Run cx interf F s ps t) :
    (ps = [] ∧ t = s) ∨ ∃ p u qs, ps = p :: qs ∧ LoopState.Iter cx interf F s p u ∧
      LoopState.Run cx interf F u qs t := by
  induction h with
  | nil => exact .inl ⟨rfl, rfl⟩
  | @snoc t v ps p hr hi ih =>
      rcases ih with ⟨rfl, rfl⟩ | ⟨q, u, qs, rfl, hu, hq⟩
      · exact .inr ⟨p, v, [], rfl, hi, .nil v⟩
      · exact .inr ⟨q, u, qs ++ [p], rfl, hu, .snoc hq hi⟩

/-- A loop that ends has made a run to an empty worklist. -/
theorem analyzeLoop_run {fuel : Nat} {s t : LoopState o ap}
    (h : analyzeLoop cx interf F fuel s = .ok t) :
    ∃ ps, LoopState.Run cx interf F s ps t ∧ ps.length ≤ fuel ∧ ∀ b, t.abs.pending b = none := by
  induction fuel generalizing s with
  | zero =>
      unfold analyzeLoop at h
      cases hl : s.worklist.toList with
      | nil =>
          rw [hl] at h
          cases h
          refine ⟨[], .nil _, le_rfl, fun b => ?_⟩
          have : t.worklist.isEmpty := by rw [← Std.TreeMap.isEmpty_toList, hl]; rfl
          simpa [LoopState.abs] using Std.TreeMap.isEmpty_iff_forall_not_mem.mp this b
      | cons cur rest => simp [hl] at h
  | succ fuel ih =>
      unfold analyzeLoop at h
      cases hl : s.worklist.toList with
      | nil =>
          rw [hl] at h
          cases h
          refine ⟨[], .nil _, Nat.zero_le _, fun b => ?_⟩
          have : t.worklist.isEmpty := by rw [← Std.TreeMap.isEmpty_toList, hl]; rfl
          simpa [LoopState.abs] using Std.TreeMap.isEmpty_iff_forall_not_mem.mp this b
      | cons cur rest =>
          simp only [hl] at h
          cases hi : analyzeIter cx interf F cur s with
          | error e => simp [hi] at h
          | ok s' =>
              simp only [hi] at h
              obtain ⟨ps, hrun, hlen, hend⟩ := ih h
              exact ⟨_ :: ps, .cons (.mk hl hi) hrun, Nat.succ_le_succ hlen, hend⟩

/-- A loop that ran out of fuel has made that many iterations. -/
theorem analyzeLoop_outOfFuel {fuel : Nat} {s : LoopState o ap}
    (h : analyzeLoop cx interf F fuel s = .error .outOfFuel) :
    ∃ ps t, LoopState.Run cx interf F s ps t ∧ ps.length = fuel ∧ t.worklist.toList ≠ [] := by
  induction fuel generalizing s with
  | zero =>
      unfold analyzeLoop at h
      cases hl : s.worklist.toList with
      | nil => simp [hl] at h
      | cons cur rest => exact ⟨[], s, .nil s, rfl, by simp [hl]⟩
  | succ fuel ih =>
      unfold analyzeLoop at h
      cases hl : s.worklist.toList with
      | nil => simp [hl] at h
      | cons cur rest =>
          simp only [hl] at h
          cases hi : analyzeIter cx interf F cur s with
          | error e => simp [hi] at h
          | ok s' =>
              simp only [hi] at h
              obtain ⟨ps, t, hrun, hlen, hne⟩ := ih h
              exact ⟨_ :: ps, t, .cons (.mk hl hi) hrun, by simp [hlen], hne⟩

/-- A run longer than the fuel exhausts it. -/
theorem LoopState.Run.outOfFuel {s t : LoopState o ap} {ps : List (Pop BlockId (LatticeFact ap))}
    (h : LoopState.Run cx interf F s ps t) {fuel : Nat} (hlen : fuel < ps.length) :
    analyzeLoop cx interf F fuel s = .error .outOfFuel := by
  induction fuel generalizing s ps with
  | zero =>
      rcases h.uncons with ⟨rfl, _⟩ | ⟨p, u, qs, rfl, hu, _⟩
      · simp at hlen
      · cases hu with
        | mk hpop _ =>
            unfold analyzeLoop
            simp [hpop]
  | succ fuel ih =>
      rcases h.uncons with ⟨rfl, _⟩ | ⟨p, u, qs, rfl, hu, hq⟩
      · simp at hlen
      · cases hu with
        | mk hpop hiter =>
            unfold analyzeLoop
            simp only [hpop, hiter]
            exact ih hq (by simpa using hlen)

theorem initBBs_getElem? (init : LatticeFact ap) (F : Function) (b : BlockId) :
    (initBBs init F)[b]? = if b ∈ F.blocks.map BasicBlock.id then some init else none := by
  have key : ∀ (bs : List BasicBlock) (m : Std.TreeMap BlockId (LatticeFact ap)),
      (bs.foldl (fun ret bb => ret.insert bb.id init) m)[b]? =
        if b ∈ bs.map BasicBlock.id then some init else m[b]? := by
    intro bs
    induction bs with
    | nil => simp
    | cons B bs ih =>
        intro m
        rw [List.foldl_cons, ih, Std.TreeMap.getElem?_insert]
        by_cases hB : B.id = b
        · simp [hB]
        · have hne : b ≠ B.id := fun h => hB h.symm
          simp [hB, hne]
  simpa [initBBs] using key F.blocks {}

theorem initLoop_stored (first : BasicBlock) (entryFact : LatticeFact ap) (books : Books ap)
    (b : BlockId) : (initLoop o F first entryFact books).abs.stored b = ⟨ap.bottom⟩ := by
  simp only [LoopState.abs, initLoop, initBBs_getElem?]
  split <;> rfl

theorem initLoop_pending (first : BasicBlock) (entryFact : LatticeFact ap) (books : Books ap)
    (b : BlockId) : (initLoop o F first entryFact books).abs.pending b =
      if b = first.id then some entryFact else none := by
  simp only [LoopState.abs, initLoop]
  by_cases hb : b = first.id
  · subst hb
    simp
  · have hne : o.cmp first.id b ≠ .eq := fun h => hb ((o.cmp_eq_iff.mp h).symm)
    simp [hne, hb]

/-- A run of the loop of `analyzeFunc` from its start, with the facts it popped. -/
def LoopRun (o : BlockOrder) (cx : Ctx) (interf : InterfMap ap) (books : Books ap)
    (entryFact : LatticeFact ap) (F : Function) (ps : List (Pop BlockId (LatticeFact ap)))
    (t : LoopState o ap) : Prop :=
  ∃ first, F.blocks.head? = some first ∧
    LoopState.Run cx interf F (initLoop o F first entryFact books) ps t

/-- The run has emptied the worklist. -/
def LoopState.Finished (t : LoopState o ap) : Prop :=
  ∀ b, t.abs.pending b = none

/-- A call of `analyzeFunc` that returns has made a run to an empty worklist. -/
theorem analyzeFunc_run {books books' : Books ap} {entryFact : LatticeFact ap} {mergeInterfs : Bool}
    {fuel : Nat} {res : Std.TreeMap BlockId (LatticeFact ap)}
    (h : analyzeFunc o cx interf books entryFact F mergeInterfs fuel = .ok (res, books')) :
    ∃ ps, ∃ t : LoopState o ap, LoopRun o cx interf books entryFact F ps t ∧ t.Finished ∧
      t.analState = res ∧ t.books = books' := by
  unfold analyzeFunc at h
  split at h
  · cases h
  · next first rest hbl =>
      cases hl : analyzeLoop cx interf F fuel (initLoop o F first entryFact books) with
      | error e => simp [hl, bind, Except.bind] at h
      | ok t =>
          simp only [hl, bind, Except.bind, pure, Except.pure, Except.ok.injEq,
            Prod.mk.injEq] at h
          obtain ⟨ps, hrun, _, hend⟩ := analyzeLoop_run hl
          exact ⟨ps, t, ⟨first, by rw [hbl]; rfl, hrun⟩, hend, h.1, h.2⟩

end Refinement

end Watts
