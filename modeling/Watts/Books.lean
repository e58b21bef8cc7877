import Watts.AnalyzeRuns

/-! What a run of `analyzeFunc` leaves in the bookkeeping: everything that a processed fact records
stays there, in a fact that may have grown by joins, and nothing else gets in. -/

namespace Watts

open Worklist (Pop)

variable {ap : Apron}

/-- An order on facts for which the join is an upper bound. -/
structure JoinOrder (R : LatticeFact ap → LatticeFact ap → Prop) : Prop where
  refl : ∀ f, R f f
  trans : ∀ {f g h}, R f g → R g h → R f h
  left : ∀ f g : LatticeFact ap, R f (f.factJoin g)
  right : ∀ f g : LatticeFact ap, R g (f.factJoin g)

namespace BBOps

section JoinInto

variable {R : LatticeFact ap → LatticeFact ap → Prop}

theorem joinInto_self (hR : JoinOrder R) (m : Std.TreeMap Value (LatticeFact ap)) (i : Value)
    (f : LatticeFact ap) : ∃ g, (joinInto m i f)[i]? = some g ∧ R f g := by
  unfold joinInto
  cases m[i]? with
  | none => exact ⟨f, by simp, hR.refl f⟩
  | some old => exact ⟨f.factJoin old, by simp, hR.left f old⟩

theorem joinInto_of_ne (m : Std.TreeMap Value (LatticeFact ap)) {i k : Value}
    (f : LatticeFact ap) (h : k ≠ i) : (joinInto m i f)[k]? = m[k]? := by
  have hne : ¬ i = k := fun h' => h h'.symm
  unfold joinInto
  cases m[i]? <;> simp [Std.TreeMap.getElem?_insert, hne]

theorem joinInto_grows (hR : JoinOrder R) {m : Std.TreeMap Value (LatticeFact ap)} {i k : Value}
    {f x : LatticeFact ap} (h : m[k]? = some x) : ∃ g, (joinInto m i f)[k]? = some g ∧ R x g := by
  by_cases hk : k = i
  · subst hk
    exact ⟨f.factJoin x, by simp [joinInto, h], hR.right f x⟩
  · exact ⟨x, by rw [joinInto_of_ne m f hk, h], hR.refl x⟩

theorem joinInto_bounded {P : Value → LatticeFact ap → Prop}
    (hP : ∀ k (f g : LatticeFact ap), P k f → P k g → P k (f.factJoin g))
    {m : Std.TreeMap Value (LatticeFact ap)}
    {i : Value} {f : LatticeFact ap} (hm : ∀ k x, m[k]? = some x → P k x) (hf : P i f) :
    ∀ k x, (joinInto m i f)[k]? = some x → P k x := by
  intro k x h
  by_cases hk : k = i
  · subst hk
    unfold joinInto at h
    cases hmk : m[k]? with
    | none =>
        simp only [hmk, Std.TreeMap.getElem?_insert_self, Option.some.injEq] at h
        exact h ▸ hf
    | some old =>
        simp only [hmk, Std.TreeMap.getElem?_insert_self, Option.some.injEq] at h
        exact h ▸ hP k f old hf (hm k old hmk)
  · exact hm k x (by rwa [joinInto_of_ne m f hk] at h)

end JoinInto

end BBOps

namespace Books

/-- The later bookkeeping keeps every entry, in a fact that is above the earlier one. -/
structure Grows (R : LatticeFact ap → LatticeFact ap → Prop) (bk bk' : Books ap) : Prop where
  rErrors : ∀ i ∈ bk.rErrors, i ∈ bk'.rErrors
  reachStores : ∀ (i : Value) f, bk.reachStores[i]? = some f →
    ∃ g, bk'.reachStores[i]? = some g ∧ R f g
  reachThreadCreate : ∀ (i : Value) f, bk.reachThreadCreate[i]? = some f →
    ∃ g, bk'.reachThreadCreate[i]? = some g ∧ R f g

/-- The bookkeeping accounts for the execution of an instruction that took one fact to another. -/
def Records (R : LatticeFact ap → LatticeFact ap → Prop) (bk : Books ap) (i : Instruction)
    (fIn fOut : LatticeFact ap) : Prop :=
  match i.kind with
  | .store .. | .atomicRMW .. => ∃ g, bk.reachStores[i.id]? = some g ∧ R fOut g
  | .call (.pthreadCreate ..) => ∃ g, bk.reachThreadCreate[i.id]? = some g ∧ R fIn g
  | .call .assertFail => i.id ∈ bk.rErrors
  | _ => True

/-- Bounds on the entries of the bookkeeping. -/
structure Bound (ap : Apron) where
  error : Value → Prop
  store : Value → LatticeFact ap → Prop
  create : Value → LatticeFact ap → Prop

/-- All entries are within the bounds. -/
structure Within (P : Bound ap) (bk : Books ap) : Prop where
  rErrors : ∀ i ∈ bk.rErrors, P.error i
  reachStores : ∀ (i : Value) f, bk.reachStores[i]? = some f → P.store i f
  reachThreadCreate : ∀ (i : Value) f, bk.reachThreadCreate[i]? = some f → P.create i f

/-- What an instruction records is within the bounds. -/
def Allows (P : Bound ap) (i : Instruction) (fIn fOut : LatticeFact ap) : Prop :=
  match i.kind with
  | .store .. | .atomicRMW .. => P.store i.id fOut
  | .call (.pthreadCreate ..) => P.create i.id fIn
  | .call .assertFail => P.error i.id
  | _ => True

section Record

variable {R : LatticeFact ap → LatticeFact ap → Prop}

theorem Grows.refl (hR : JoinOrder R) (bk : Books ap) : Grows R bk bk :=
  ⟨fun _ h => h, fun _ f h => ⟨f, h, hR.refl f⟩, fun _ f h => ⟨f, h, hR.refl f⟩⟩

theorem Grows.trans (hR : JoinOrder R) {bk₁ bk₂ bk₃ : Books ap} (h₁ : Grows R bk₁ bk₂)
    (h₂ : Grows R bk₂ bk₃) : Grows R bk₁ bk₃ := by
  refine ⟨fun i h => h₂.rErrors i (h₁.rErrors i h), fun i f h => ?_, fun i f h => ?_⟩
  · obtain ⟨g, hg, hfg⟩ := h₁.reachStores i f h
    obtain ⟨g', hg', hgg⟩ := h₂.reachStores i g hg
    exact ⟨g', hg', hR.trans hfg hgg⟩
  · obtain ⟨g, hg, hfg⟩ := h₁.reachThreadCreate i f h
    obtain ⟨g', hg', hgg⟩ := h₂.reachThreadCreate i g hg
    exact ⟨g', hg', hR.trans hfg hgg⟩

theorem Records.mono (hR : JoinOrder R) {bk bk' : Books ap} (h : Grows R bk bk') {i : Instruction}
    {fIn fOut : LatticeFact ap} (hr : Records R bk i fIn fOut) : Records R bk' i fIn fOut := by
  unfold Records at hr ⊢
  split at hr
  · obtain ⟨g, hg, hfg⟩ := hr
    obtain ⟨g', hg', hgg⟩ := h.reachStores _ _ hg
    exact ⟨g', hg', hR.trans hfg hgg⟩
  · obtain ⟨g, hg, hfg⟩ := hr
    obtain ⟨g', hg', hgg⟩ := h.reachStores _ _ hg
    exact ⟨g', hg', hR.trans hfg hgg⟩
  · obtain ⟨g, hg, hfg⟩ := hr
    obtain ⟨g', hg', hgg⟩ := h.reachThreadCreate _ _ hg
    exact ⟨g', hg', hR.trans hfg hgg⟩
  · exact h.rErrors _ hr
  · trivial

theorem record_grows (hR : JoinOrder R) (bk : Books ap) (fIn fOut : LatticeFact ap)
    (i : Instruction) : Grows R bk (BBOps.record bk fIn fOut i) := by
  have hb := Grows.refl hR bk
  unfold BBOps.record
  split
  · exact ⟨hb.rErrors, fun _ _ h => BBOps.joinInto_grows hR h, hb.reachThreadCreate⟩
  · exact ⟨hb.rErrors, fun _ _ h => BBOps.joinInto_grows hR h, hb.reachThreadCreate⟩
  · exact ⟨hb.rErrors, hb.reachStores, fun _ _ h => BBOps.joinInto_grows hR h⟩
  · exact ⟨fun _ h => Std.TreeSet.mem_insert.mpr (.inr h), hb.reachStores, hb.reachThreadCreate⟩
  · exact hb

theorem record_records (hR : JoinOrder R) (bk : Books ap) (fIn fOut : LatticeFact ap)
    (i : Instruction) : Records R (BBOps.record bk fIn fOut i) i fIn fOut := by
  unfold Records BBOps.record
  cases i.kind with
  | store val ptr => exact BBOps.joinInto_self hR _ _ _
  | atomicRMW op ptr val => exact BBOps.joinInto_self hR _ _ _
  | call callee =>
      cases callee with
      | pthreadCreate t f args => exact BBOps.joinInto_self hR _ _ _
      | assertFail => exact Std.TreeSet.mem_insert_self
      | _ => trivial
  | _ => trivial

/-- Bounds that the join keeps. -/
structure Bound.JoinClosed (P : Bound ap) : Prop where
  store : ∀ k (f g : LatticeFact ap), P.store k f → P.store k g → P.store k (f.factJoin g)
  create : ∀ k (f g : LatticeFact ap), P.create k f → P.create k g → P.create k (f.factJoin g)

theorem record_within {P : Bound ap} (hP : P.JoinClosed) {bk : Books ap} (h : Within P bk)
    {fIn fOut : LatticeFact ap} {i : Instruction} (ha : Allows P i fIn fOut) :
    Within P (BBOps.record bk fIn fOut i) := by
  cases hk : i.kind with
  | store val ptr =>
      simp only [Allows, BBOps.record, hk] at ha ⊢
      exact ⟨h.rErrors, BBOps.joinInto_bounded hP.store h.reachStores ha, h.reachThreadCreate⟩
  | atomicRMW op ptr val =>
      simp only [Allows, BBOps.record, hk] at ha ⊢
      exact ⟨h.rErrors, BBOps.joinInto_bounded hP.store h.reachStores ha, h.reachThreadCreate⟩
  | call callee =>
      cases callee with
      | pthreadCreate thread f args =>
          simp only [Allows, BBOps.record, hk] at ha ⊢
          exact ⟨h.rErrors, h.reachStores, BBOps.joinInto_bounded hP.create h.reachThreadCreate ha⟩
      | assertFail =>
          simp only [Allows, BBOps.record, hk] at ha ⊢
          refine ⟨fun k hmem => ?_, h.reachStores, h.reachThreadCreate⟩
          rcases Std.TreeSet.mem_insert.mp hmem with hmem | hmem
          · rwa [← Nat.compare_eq_eq.mp hmem]
          · exact h.rErrors k hmem
      | _ => simpa only [BBOps.record, hk] using h
  | _ => simpa only [BBOps.record, hk] using h

end Record

end Books

/-! ### Executing a block -/

/-- Executing the block `B` from the fact `f` reaches the instruction `i` with the fact `fIn` and
leaves it with `fOut`. -/
def Occurs (cx : Ctx) (interf : InterfMap ap) (B : BasicBlock) (f : LatticeFact ap) (i : Instruction)
    (fIn fOut : LatticeFact ap) : Prop :=
  ∃ pre post bk, B.body = pre ++ i :: post ∧
    BBOps.runBody cx interf cx.opts.noCombinsG pre f {} = .ok (fIn, bk) ∧
    BBOps.transferFact cx interf cx.opts.noCombinsG fIn i = .ok fOut

section Block

variable {cx : Ctx} {interf : InterfMap ap} {R : LatticeFact ap → LatticeFact ap → Prop}

theorem runBody_grows (hR : JoinOrder R) {nc : Bool} {is : List Instruction} {f : LatticeFact ap}
    {bk : Books ap} {r : LatticeFact ap × Books ap}
    (h : BBOps.runBody cx interf nc is f bk = .ok r) : Books.Grows R bk r.2 := by
  induction is generalizing f bk with
  | nil =>
      rw [BBOps.runBody_nil] at h
      cases h
      exact .refl hR bk
  | cons i is ih =>
      obtain ⟨f', _, h⟩ := BBOps.runBody_cons.mp h
      exact .trans hR (Books.record_grows hR bk f f' i) (ih h)

/-- Every instruction of an executed block occurs in it and is recorded. -/
theorem runTransferFuncs_records (hR : JoinOrder R) {B : BasicBlock} {f : LatticeFact ap}
    {bk bk' : Books ap} {outs : List (BlockId × LatticeFact ap)}
    (h : BBOps.runTransferFuncs cx interf cx.opts.noCombinsG B f bk = .ok (outs, bk'))
    {i : Instruction} {fIn fOut : LatticeFact ap} (ho : Occurs cx interf B f i fIn fOut) :
    Books.Records R bk' i fIn fOut := by
  obtain ⟨pre, post, bk₀, hbody, hpre, htr⟩ := ho
  obtain ⟨endFact, hrun, _⟩ := BBOps.runTransferFuncs_ok.mp h
  rw [hbody] at hrun
  obtain ⟨⟨f₁, bk₁⟩, h₁, h₂⟩ := (BBOps.runBody_append pre (i :: post)).mp hrun
  obtain ⟨bk₂, hpre₂⟩ := BBOps.runBody_books hpre bk
  obtain ⟨rfl, rfl⟩ := Prod.mk.injEq .. ▸ Except.ok.inj (h₁.symm.trans hpre₂)
  obtain ⟨f', hf', h₃⟩ := BBOps.runBody_cons.mp h₂
  have hff : f' = fOut := Except.ok.inj (hf'.symm.trans htr)
  subst hff
  exact (Books.record_records hR bk₁ f₁ f' i).mono hR (runBody_grows hR h₃)

theorem runTransferFuncs_grows (hR : JoinOrder R) {B : BasicBlock} {f : LatticeFact ap}
    {bk bk' : Books ap} {outs : List (BlockId × LatticeFact ap)}
    (h : BBOps.runTransferFuncs cx interf cx.opts.noCombinsG B f bk = .ok (outs, bk')) :
    Books.Grows R bk bk' := by
  obtain ⟨_, hrun, _⟩ := BBOps.runTransferFuncs_ok.mp h
  exact runBody_grows hR hrun

theorem runBody_within {P : Books.Bound ap} (hP : P.JoinClosed) {nc : Bool} :
    ∀ {is : List Instruction} {f : LatticeFact ap} {bk : Books ap} {r : LatticeFact ap × Books ap},
      BBOps.runBody cx interf nc is f bk = .ok r → Books.Within P bk →
      (∀ pre i post fIn fOut bk₀, is = pre ++ i :: post →
        BBOps.runBody cx interf nc pre f {} = .ok (fIn, bk₀) →
        BBOps.transferFact cx interf nc fIn i = .ok fOut → Books.Allows P i fIn fOut) →
      Books.Within P r.2 := by
  intro is
  induction is with
  | nil =>
      intro f bk r h hw _
      rw [BBOps.runBody_nil] at h
      cases h
      exact hw
  | cons i is ih =>
      intro f bk r h hw ha
      obtain ⟨f', hf', h⟩ := BBOps.runBody_cons.mp h
      refine ih h (Books.record_within hP hw (ha [] i is f f' {} rfl rfl hf')) ?_
      intro pre j post fIn fOut bk₀ his hpre htr
      obtain ⟨bk₁, hbk₁⟩ := BBOps.runBody_books hpre (BBOps.record {} f f' i)
      exact ha (i :: pre) j post fIn fOut bk₁ (by rw [his]; rfl)
        (BBOps.runBody_cons.mpr ⟨f', hf', hbk₁⟩) htr

theorem runTransferFuncs_within {P : Books.Bound ap} (hP : P.JoinClosed) {B : BasicBlock}
    {f : LatticeFact ap} {bk bk' : Books ap} {outs : List (BlockId × LatticeFact ap)}
    (h : BBOps.runTransferFuncs cx interf cx.opts.noCombinsG B f bk = .ok (outs, bk'))
    (hw : Books.Within P bk)
    (ha : ∀ i fIn fOut, Occurs cx interf B f i fIn fOut → Books.Allows P i fIn fOut) :
    Books.Within P bk' := by
  obtain ⟨_, hrun, _⟩ := BBOps.runTransferFuncs_ok.mp h
  exact runBody_within hP hrun hw fun pre i post fIn fOut bk₀ his hpre htr =>
    ha i fIn fOut ⟨pre, post, bk₀, his, hpre, htr⟩

/-- An executed block reaches each of its instructions. -/
theorem runTransferFuncs_occurs {B : BasicBlock} {f : LatticeFact ap} {bk bk' : Books ap}
    {outs : List (BlockId × LatticeFact ap)}
    (h : BBOps.runTransferFuncs cx interf cx.opts.noCombinsG B f bk = .ok (outs, bk'))
    {i : Instruction} (hi : i ∈ B.body) : ∃ fIn fOut, Occurs cx interf B f i fIn fOut := by
  obtain ⟨pre, post, hbody⟩ := List.append_of_mem hi
  obtain ⟨endFact, hrun, _⟩ := BBOps.runTransferFuncs_ok.mp h
  rw [hbody] at hrun
  obtain ⟨⟨f₁, bk₁⟩, h₁, h₂⟩ := (BBOps.runBody_append pre (i :: post)).mp hrun
  obtain ⟨f', hf', _⟩ := BBOps.runBody_cons.mp h₂
  obtain ⟨bk₀, hpre⟩ := BBOps.runBody_books h₁ {}
  exact ⟨f₁, f', pre, post, bk₀, hbody, hpre, hf'⟩

end Block

/-! ### Runs -/

section Runs

variable {o : BlockOrder} {cx : Ctx} {interf : InterfMap ap} {F : Function}
  {R : LatticeFact ap → LatticeFact ap → Prop}

theorem LoopState.Iter.grows (hR : JoinOrder R) {s t : LoopState o ap}
    {p : Pop BlockId (LatticeFact ap)} (h : LoopState.Iter cx interf F s p t) :
    Books.Grows R s.books t.books := by
  obtain ⟨_, _, B, _, ⟨_, hbk, _⟩ | ⟨_, outs, hrun, _⟩⟩ := h.cases
  · rw [hbk]
    exact .refl hR _
  · exact runTransferFuncs_grows hR hrun

theorem LoopState.Run.grows (hR : JoinOrder R) {s t : LoopState o ap}
    {ps : List (Pop BlockId (LatticeFact ap))} (h : LoopState.Run cx interf F s ps t) :
    Books.Grows R s.books t.books := by
  induction h with
  | nil => exact .refl hR _
  | snoc _ hi ih => exact ih.trans hR (hi.grows hR)

/-- A processed fact was executed successfully, on some bookkeeping. -/
theorem LoopState.Run.executed {s t : LoopState o ap} {ps : List (Pop BlockId (LatticeFact ap))}
    (h : LoopState.Run cx interf F s ps t) {p : Pop BlockId (LatticeFact ap)} (hp : p ∈ ps)
    (hv : (system cx interf F).Visits p) :
    ∃ B outs bk bk', F.block? p.key = some B ∧
      BBOps.runTransferFuncs cx interf cx.opts.noCombinsG B p.fact bk = .ok (outs, bk') := by
  induction h with
  | nil => exact absurd hp List.not_mem_nil
  | snoc _ hi ih =>
      rcases List.mem_append.mp hp with hp | hp
      · exact ih hp
      · rw [List.mem_singleton] at hp
        subst hp
        obtain ⟨_, _, B, hB, ⟨hle, _, _⟩ | ⟨_, outs, hrun, _⟩⟩ := hi.cases
        · exact absurd hv (by simp [Worklist.System.Visits, system, hle])
        · exact ⟨B, outs, _, _, hB, hrun⟩

/-- **Everything a run executes is recorded** when the run ends. -/
theorem LoopState.Run.records (hR : JoinOrder R) {s t : LoopState o ap}
    {ps : List (Pop BlockId (LatticeFact ap))} (h : LoopState.Run cx interf F s ps t)
    {p : Pop BlockId (LatticeFact ap)} (hp : p ∈ ps) (hv : (system cx interf F).Visits p)
    {B : BasicBlock} (hB : F.block? p.key = some B) {i : Instruction} {fIn fOut : LatticeFact ap}
    (ho : Occurs cx interf B p.fact i fIn fOut) : Books.Records R t.books i fIn fOut := by
  induction h with
  | nil => exact absurd hp List.not_mem_nil
  | snoc _ hi ih =>
      rcases List.mem_append.mp hp with hp | hp
      · exact (ih hp).mono hR (hi.grows hR)
      · rw [List.mem_singleton] at hp
        subst hp
        obtain ⟨_, _, B', hB', ⟨hle, _, _⟩ | ⟨_, outs, hrun, _⟩⟩ := hi.cases
        · exact absurd hv (by simp [Worklist.System.Visits, system, hle])
        · have hBB : B' = B := Option.some.inj (hB'.symm.trans hB)
          subst hBB
          exact runTransferFuncs_records hR hrun ho

/-- **Nothing else is recorded**: bounds that hold at the start and of everything executed hold at
the end. -/
theorem LoopState.Run.within {P : Books.Bound ap} (hP : P.JoinClosed) {s t : LoopState o ap}
    {ps : List (Pop BlockId (LatticeFact ap))} (h : LoopState.Run cx interf F s ps t)
    (hw : Books.Within P s.books)
    (ha : ∀ p ∈ ps, (system cx interf F).Visits p → ∀ B, F.block? p.key = some B →
      ∀ i fIn fOut, Occurs cx interf B p.fact i fIn fOut → Books.Allows P i fIn fOut) :
    Books.Within P t.books := by
  induction h with
  | nil => exact hw
  | snoc _ hi ih =>
      have hw' := ih (fun p hp => ha p (List.mem_append_left _ hp))
      obtain ⟨_, _, B, hB, ⟨_, hbk, _⟩ | ⟨hle, outs, hrun, _⟩⟩ := hi.cases
      · rw [hbk]
        exact hw'
      · exact runTransferFuncs_within hP hrun hw' (ha _ (by simp) hle B hB)

end Runs

/-- Bounds on the bookkeeping that every instruction of the function keeps hold after its analysis. -/
theorem analyzeFunc_within {o : BlockOrder} {cx : Ctx} {interf : InterfMap ap} {F : Function}
    {P : Books.Bound ap} (hP : P.JoinClosed) {books books' : Books ap} {entryFact : LatticeFact ap}
    {mergeInterfs : Bool} {fuel : Nat} {res : Std.TreeMap BlockId (LatticeFact ap)}
    (hw : Books.Within P books) (ha : ∀ i ∈ F.instrs, ∀ fIn fOut, Books.Allows P i fIn fOut)
    (h : analyzeFunc o cx interf books entryFact F mergeInterfs fuel = .ok (res, books')) :
    Books.Within P books' := by
  obtain ⟨ps, t, ⟨first, _, hrun⟩, _, _, hbooks⟩ := analyzeFunc_run h
  rw [← hbooks]
  refine hrun.within hP hw fun p _ _ B hB i fIn fOut hocc => ha i ?_ fIn fOut
  obtain ⟨pre, post, _, hbody, _⟩ := hocc
  have hi : i ∈ B.body := by
    rw [hbody]
    exact List.mem_append_right _ (.head _)
  exact Function.mem_instrs.mpr ⟨B, (Function.block?_mem hB).1, BasicBlock.mem_instrs.mpr (.inl hi)⟩

end Watts
