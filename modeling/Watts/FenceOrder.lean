import Watts.ConstraintFacts
import Watts.ReorderRules

/-! Fences under the weaker memory models.  The two rules that would order an access and a fence ask for
an access to itself and for an access to the fence, so no fence is ordered with anything. -/

namespace Watts

namespace Instruction

/-- A fence of the target, a call of `MFENCE` or `MSYNC` or an atomic operation.  The null function of a
call through a pointer, which the source dereferences here, is left out. -/
def isFence (i : Instruction) : Bool :=
  match i.kind with
  | .call .mfence | .call .msync => true
  | .call _ => false
  | .atomicRMW .. | .atomicCmpXchg _ => true
  | _ => false

/-- A call of `MLWSYNC`; here too the called function is known. -/
def isLwSync (i : Instruction) : Bool :=
  match i.kind with
  | .call .mlwsync => true
  | _ => false

end Instruction

def addFenceFact (f : Instruction) : Rule := .fact .fence [f.id]

/-- The fences of the thread functions; a lightweight fence counts as a fence. -/
def addFenceFacts (M : Module) (threadFuncs : List FuncId) : Except Stop (List Rule) := do
  let facts ← threadFuncs.mapM fun f =>
    match M.func? f with
    | some F => .ok (F.instrs.flatMap fun i =>
        (if i.isFence then [addFenceFact i] else []) ++ (if i.isLwSync then [addFenceFact i] else []))
    | none => .error (.undefinedBehaviour "function outside the module")
  return facts.flatten

/-- The facts of a module for the weaker memory models. -/
def addWeakFacts (trees : Trees) (M : Module) (threadFuncs : List FuncId) (fuel : Nat) :
    Except LoopStop (List Rule) := do
  let doms ← addDomLoadStoreFacts trees M threadFuncs
  let fences ← addFenceFacts M threadFuncs
  let creates ← addCreateFacts trees M
  let joins ← addJoinFacts M fuel
  let notReach ← addNotReachableFacts M fuel
  return doms ++ fences ++ creates ++ joins ++ notReach

/-- All constraints of a module under the memory model of the flags. -/
def addConstraintsOf (opts : Options) (trees : Trees) (M : Module) (threadFuncs : List FuncId)
    (fuel : Nat) : Except LoopStop (List Rule) :=
  match opts.memoryModel with
  | none => addConstraints trees M threadFuncs fuel
  | some model => do
    let facts ← addWeakFacts trees M threadFuncs fuel
    return facts ++ model.rules

/-! ### The order of the statements of a function -/

namespace Function

/-- There is an edge between two blocks. -/
def Edge (F : Function) (a b : BlockId) : Prop :=
  b ∈ F.succsOf a

/-- A block dominates another: every path from the entry goes through it. -/
def DominatesBlock (F : Function) (a b : BlockId) : Prop :=
  ∀ entry, F.blocks.head? = some entry → Flow.Dominates F.Edge entry.id a b

/-- An instruction stands before another in a block. -/
def Before (B : BasicBlock) (i j : Instruction) : Prop :=
  ∃ pre post, B.instrs = pre ++ i :: post ∧ j ∈ post

/-- Every path from the entry to `j` has passed `i`. -/
def StrictlyDominates (F : Function) (i j : Instruction) : Prop :=
  ∃ A ∈ F.blocks, ∃ B ∈ F.blocks, i ∈ A.instrs ∧ j ∈ B.instrs ∧
    (A = B ∧ Before A i j ∨ A.id ≠ B.id ∧ F.DominatesBlock A.id B.id)

/-- Some path leads from `i` to `j`. -/
def Reaches (F : Function) (i j : Instruction) : Prop :=
  ∃ A ∈ F.blocks, ∃ B ∈ F.blocks, i ∈ A.instrs ∧ j ∈ B.instrs ∧
    (A = B ∧ Before A i j ∨ Relation.TransGen F.Edge A.id B.id)

/-- The load or store comes before the fence and never after it. -/
def OrderedBefore (F : Function) (a f : Instruction) : Prop :=
  a ∈ F.instrs ∧ (a.isLoadInst || a.isStoreInst) = true ∧ F.StrictlyDominates a f ∧ ¬ F.Reaches f a

/-- The load or store comes after the fence and never before it. -/
def OrderedAfter (F : Function) (f b : Instruction) : Prop :=
  b ∈ F.instrs ∧ (b.isLoadInst || b.isStoreInst) = true ∧ F.StrictlyDominates f b ∧ ¬ F.Reaches b f

end Function

/-- The rules derive the order of a fence and the accesses on both sides of it. -/
def FenceOrders (rules : List Rule) (F : Function) (f : Instruction) : Prop :=
  (∀ a, F.OrderedBefore a f → Horn.Derives rules ⟨.mhb, [a.id, f.id]⟩) ∧
    (∀ b, F.OrderedAfter f b → Horn.Derives rules ⟨.mhb, [f.id, b.id]⟩) ∧
    ∀ a b, F.OrderedBefore a f → F.OrderedAfter f b → Horn.Derives rules ⟨.mhb, [a.id, b.id]⟩

/-! ### What the relations say about fences -/

section Meaning

variable {M : Module}

/-- The address of a fence. -/
def FenceId (M : Module) (v : Value) : Prop :=
  ∃ i ∈ M.instrs, (i.isFence || i.isLwSync) = true ∧ i.id = v

/-- The address of the first load, store or call of a function. -/
def FirstId (M : Module) (v : Value) : Prop :=
  ∃ F ∈ M.functions, ∃ b, F.blocks.head? = some b ∧ b.getFirstLoadStoreCallTerm.id = v

/-- No access goes through its own result, and fences have no pointers as results. -/
def PointersTyped (M : Module) : Prop :=
  ∀ i ∈ M.instrs, ∀ p, (i.kind = .load p ∨ ∃ v, i.kind = .store v p) → p ≠ i.id ∧ ¬ FenceId M p

/-- Nothing happens after a fence, and before a fence only what is before the first statement of a
function. -/
def FenceMeaning (M : Module) : GroundAtom → Prop
  | ⟨.mhb, args⟩ => ∃ x y, args = [x, y] ∧ ¬ FenceId M x ∧ (FenceId M y → FirstId M y)
  | ⟨.noReorder, args⟩ => ∃ x y, args = [x, y] ∧ ¬ FenceId M x ∧ ¬ FenceId M y
  | ⟨.ld, args⟩ | ⟨.st, args⟩ => ∃ x p, args = [x, p] ∧ ¬ FenceId M x ∧ ¬ FenceId M p ∧ p ≠ x
  | ⟨.fence, args⟩ => ∃ x, args = [x] ∧ FenceId M x
  | ⟨.rf, _⟩ => False
  | _ => True

theorem FenceMeaning.pair {x y a b : Value} (h : [a, b] = [x, y]) : a = x ∧ b = y := by
  simpa using h

theorem fenceMeaning_other {r : Rule} (h : r.head.pred ∈ [Rel.dom, .notReach, .notRf]) :
    r.Holds (FenceMeaning M) := by
  intro σ _
  unfold Horn.Atom.inst
  generalize r.head.pred = p at h
  cases p <;> trivial

theorem not_fenceId {i : Instruction} (hi : i ∈ M.instrs) (h : (i.isFence || i.isLwSync) = false) :
    ¬ FenceId M i.id := by
  rintro ⟨j, hj, hfence, hid⟩
  rw [Module.eq_of_id_eq hj hi hid, h] at hfence
  cases hfence

theorem fenceMeaning_access {fd : Rel} (hfd : fd = .ld ∨ fd = .st) {args : List Value} :
    FenceMeaning M ⟨fd, args⟩ ↔ ∃ x p, args = [x, p] ∧ ¬ FenceId M x ∧ ¬ FenceId M p ∧ p ≠ x := by
  rcases hfd with rfl | rfl <;> exact Iff.rfl

/-- **The reorder rules** say nothing about fences: those with a fence have no instance. -/
theorem reorderRules_fence (model : MemoryModel) : ∀ r ∈ model.reorderRules, r.Holds (FenceMeaning M) := by
  have hfirst : ∀ fd, fd = .ld ∨ fd = .st → (addNoReoFunc1Func2 .fence fd).Holds (FenceMeaning M) := by
    intro fd hfd σ hb
    obtain ⟨x, p, heq, _, _, hne⟩ := (fenceMeaning_access hfd).mp
      (hb (atom fd (.bound 1) (.bound 1)) (.tail _ (.head _)))
    obtain ⟨rfl, rfl⟩ := FenceMeaning.pair heq
    exact absurd rfl hne
  have hsecond : ∀ fd, fd = .ld ∨ fd = .st → (addNoReoFunc2Func1 fd .fence).Holds (FenceMeaning M) := by
    intro fd hfd σ hb
    obtain ⟨x, p, heq, _, hp, _⟩ := (fenceMeaning_access hfd).mp
      (hb (atom fd (.bound 0) (.bound 1)) (.head _))
    obtain ⟨y, hy, hfence⟩ := hb ⟨.fence, [.bound 1]⟩ (.tail _ (.head _))
    obtain ⟨rfl, rfl⟩ := FenceMeaning.pair heq
    obtain rfl : σ 1 = y := List.singleton_inj.mp hy
    exact absurd hfence hp
  intro r hr
  rcases mem_reorderRules.mp hr with ⟨p, hp, rfl⟩ | hr
  · have hkinds : (p.1 = .ld ∨ p.1 = .st) ∧ (p.2 = .ld ∨ p.2 = .st) := by
      simp only [MemoryModel.sameVariable, List.mem_cons, List.not_mem_nil, or_false] at hp
      rcases hp with rfl | rfl | rfl <;> decide
    intro σ hb
    obtain ⟨x, _, hx, hxf, _⟩ := (fenceMeaning_access hkinds.1).mp (hb _ (.head _))
    obtain ⟨y, _, hy, hyf, _⟩ := (fenceMeaning_access hkinds.2).mp (hb _ (.tail _ (.head _)))
    obtain ⟨rfl, _⟩ := FenceMeaning.pair hx
    obtain ⟨rfl, _⟩ := FenceMeaning.pair hy
    exact ⟨σ 0, σ 1, rfl, hxf, hyf⟩
  · simp only [addFenceReorderRules, List.mem_cons, List.not_mem_nil, or_false] at hr
    rcases hr with rfl | rfl | rfl | rfl
    · exact hfirst .st (.inr rfl)
    · exact hfirst .ld (.inl rfl)
    · exact hsecond .st (.inr rfl)
    · exact hsecond .ld (.inl rfl)

theorem addNoReorderRules_fence : ∀ r ∈ addNoReorderRules, r.Holds (FenceMeaning M) := by
  intro r hr
  simp only [addNoReorderRules, List.mem_cons, List.not_mem_nil, or_false] at hr
  rcases hr with rfl | rfl | rfl | rfl | rfl | rfl
  · intro σ hb
    obtain ⟨x, y, heq, hx, hy⟩ := hb (atom .noReorder (.bound 0) (.bound 1)) (.tail _ (.tail _ (.head _)))
    obtain ⟨rfl, rfl⟩ := FenceMeaning.pair heq
    exact ⟨σ 0, σ 1, rfl, hx, fun h => absurd h hy⟩
  · exact fun σ hb => absurd (hb (atom .rf (.bound 0) (.bound 1)) (.head _)) id
  · exact fun σ hb => absurd (hb (atom .rf (.bound 2) (.bound 0)) (.head _)) id
  · intro σ hb
    obtain ⟨x, y, heq, hx, _⟩ := hb (atom .mhb (.bound 0) (.bound 1)) (.head _)
    obtain ⟨y', z, heq', _, hz⟩ := hb (atom .mhb (.bound 1) (.bound 2)) (.tail _ (.head _))
    obtain ⟨rfl, rfl⟩ := FenceMeaning.pair heq
    obtain ⟨_, rfl⟩ := FenceMeaning.pair heq'
    exact ⟨σ 0, σ 2, rfl, hx, hz⟩
  · exact fenceMeaning_other (by decide)
  · exact fenceMeaning_other (by decide)

end Meaning

section Facts

variable {trees : Trees} {M : Module} {threadFuncs : List FuncId} {fuel : Nat} {rules : List Rule} {r : Rule}

theorem mem_addFenceFacts (h : addFenceFacts M threadFuncs = .ok rules) (hr : r ∈ rules) :
    ∃ i ∈ M.instrs, (i.isFence || i.isLwSync) = true ∧ r = addFenceFact i := by
  obtain ⟨facts, hfacts, hret⟩ := Fallible.bind_eq_ok.mp h
  cases hret
  obtain ⟨fs, hfs, hr⟩ := List.mem_flatten.mp hr
  obtain ⟨f, _, hf⟩ := (Fallible.mapM_mem hfacts).mp hfs
  cases hF : M.func? f with
  | none =>
      rw [hF] at hf
      cases hf
  | some F =>
      rw [hF] at hf
      cases hf
      obtain ⟨i, hi, hr⟩ := List.mem_flatMap.mp hr
      refine ⟨i, Module.mem_instrs.mpr ⟨F, (Module.func?_mem hF).1, hi⟩, ?_⟩
      rcases List.mem_append.mp hr with hr | hr
      · split_ifs at hr with hfence
        · exact ⟨by rw [hfence, Bool.true_or], List.mem_singleton.mp hr⟩
        · cases hr
      · split_ifs at hr with hsync
        · exact ⟨by rw [hsync, Bool.or_true], List.mem_singleton.mp hr⟩
        · cases hr

/-- The facts of a module, by what they say. -/
theorem mem_addWeakFacts (h : addWeakFacts trees M threadFuncs fuel = .ok rules) (hr : r ∈ rules) :
    r.head.pred ∈ [Rel.dom, .notReach, .notRf] ∨ IsAccessFact M r ∨
      (∃ i ∈ M.instrs, (i.isFence || i.isLwSync) = true ∧ r = addFenceFact i) ∨
      IsCreateFact M r ∨ IsJoinFact M fuel r := by
  obtain ⟨doms, hdoms, h⟩ := Fallible.bind_eq_ok.mp h
  obtain ⟨fences, hfences, h⟩ := Fallible.bind_eq_ok.mp h
  obtain ⟨creates, hcreates, h⟩ := Fallible.bind_eq_ok.mp h
  obtain ⟨joins, hjoins, h⟩ := Fallible.bind_eq_ok.mp h
  obtain ⟨notReach, hnotReach, h⟩ := Fallible.bind_eq_ok.mp h
  cases h
  simp only [List.mem_append] at hr
  rcases hr with (((hr | hr) | hr) | hr) | hr
  · rcases mem_addDomLoadStoreFacts (liftStop_eq_ok.mp hdoms) hr with h | h
    · exact .inl (by rw [show r.head.pred = .dom from h]; decide)
    · exact .inr (.inl h)
  · exact .inr (.inr (.inl (mem_addFenceFacts (liftStop_eq_ok.mp hfences) hr)))
  · rcases mem_addCreateFacts (liftStop_eq_ok.mp hcreates) hr with h | h
    · exact .inl (by rw [h]; decide)
    · exact .inr (.inr (.inr (.inl h)))
  · exact .inr (.inr (.inr (.inr (mem_addJoinFacts hjoins hr))))
  · exact .inl (by rw [mem_addNotReachableFacts hnotReach hr]; decide)

theorem not_fence_of_kind {i : Instruction}
    (h : (∃ p, i.kind = .load p) ∨ (∃ v p, i.kind = .store v p) ∨ (∃ t, i.kind = .call (.pthreadJoin t)) ∨
      i.isPthreadCreate = true ∨ i.isReturn = true) : (i.isFence || i.isLwSync) = false := by
  unfold Instruction.isPthreadCreate Instruction.isReturn at h
  unfold Instruction.isFence Instruction.isLwSync
  generalize i.kind = k at h ⊢
  cases k with
  | call callee => cases callee <;> simp at h ⊢
  | _ => simp at h ⊢

theorem addWeakFacts_fence (hptr : PointersTyped M) (h : addWeakFacts trees M threadFuncs fuel = .ok rules) :
    ∀ r ∈ rules, r.Holds (FenceMeaning M) := by
  intro r hr
  rcases mem_addWeakFacts h hr with hpred | ⟨i, hi, hacc⟩ | ⟨i, hi, hfence, rfl⟩ |
    ⟨ci, hci, hcreate, F, hF, _, b, hb, rfl⟩ | ⟨i, hi, t, hk, F, hF, _, ret, hret, rfl⟩
  · exact fenceMeaning_other hpred
  · have hnot : ¬ FenceId M i.id := by
      refine not_fenceId hi (not_fence_of_kind ?_)
      rcases hacc with ⟨p, hk, _⟩ | ⟨v, p, hk, _⟩
      · exact .inl ⟨p, hk⟩
      · exact .inr (.inl ⟨v, p, hk⟩)
    rcases hacc with ⟨p, hk, rfl⟩ | ⟨v, p, hk, rfl⟩
    · obtain ⟨hne, hp⟩ := hptr i hi p (.inl hk)
      exact Horn.Rule.fact_holds ⟨_, _, rfl, hnot, hp, hne⟩
    · obtain ⟨hne, hp⟩ := hptr i hi p (.inr ⟨v, hk⟩)
      exact Horn.Rule.fact_holds ⟨_, _, rfl, hnot, hp, hne⟩
  · exact Horn.Rule.fact_holds ⟨_, rfl, i, hi, hfence, rfl⟩
  · have hnot := not_fenceId hci (not_fence_of_kind (.inr (.inr (.inr (.inl hcreate)))))
    exact Horn.Rule.fact_holds ⟨_, _, rfl, hnot, fun _ => ⟨F, hF, b, hb, rfl⟩⟩
  · obtain ⟨hretF, hreturn⟩ := List.mem_filter.mp hret
    have hmem : ret ∈ M.instrs := Module.mem_instrs.mpr ⟨F, hF, hretF⟩
    have hnot := not_fenceId hmem (not_fence_of_kind (.inr (.inr (.inr (.inr hreturn)))))
    have hnot' := not_fenceId hi (not_fence_of_kind (.inr (.inr (.inl ⟨t, hk⟩))))
    exact Horn.Rule.fact_holds ⟨_, _, rfl, hnot, fun hfence => absurd hfence hnot'⟩

theorem rel_disjoint {p : Rel} (h : p ∈ [Rel.dom, .notReach, .notRf]) : p ∉ [Rel.ld, .st, .fence] := by
  cases p <;> simp at h ⊢

/-- The fences and the accesses among the facts of a module. -/
theorem fence_of_fact (h : addWeakFacts trees M threadFuncs fuel = .ok rules) {a : Value}
    (ha : Horn.Rule.fact .fence [a] ∈ rules) : FenceId M a := by
  rcases mem_addWeakFacts h ha with hother | ⟨i, _, ⟨p, _, heq⟩ | ⟨v, p, _, heq⟩⟩ | ⟨i, hi, hf, heq⟩ |
    ⟨ci, _, _, F, _, _, b, _, heq⟩ | ⟨i, _, t, _, F, _, _, ret, _, heq⟩
  · exact absurd (by simp [Horn.Rule.fact]) (rel_disjoint hother)
  · cases heq
  · cases heq
  · refine ⟨i, hi, hf, ?_⟩
    have hargs := congrArg (fun r : Rule => r.head.args) heq
    simpa [addFenceFact, Horn.Rule.fact] using hargs.symm
  · cases heq
  · cases heq

theorem not_fenceId_of_access (h : addWeakFacts trees M threadFuncs fuel = .ok rules) {a : Value}
    (ha : IsAccess rules a) : ¬ FenceId M a := by
  obtain ⟨v, hv⟩ := ha
  have hacc : ∀ fd, fd ∈ [Rel.ld, .st] → Horn.Rule.fact fd [a, v] ∈ rules → ¬ FenceId M a := by
    intro fd hfd hmem
    have hpred : fd ∈ [Rel.ld, .st, .fence] := List.mem_append_left [Rel.fence] hfd
    rcases mem_addWeakFacts h hmem with hother | ⟨i, hi, hk⟩ | ⟨i, _, _, heq⟩ |
      ⟨ci, _, _, F, _, _, b, _, heq⟩ | ⟨i, _, t, _, F, _, _, ret, _, heq⟩
    · exact absurd hpred (rel_disjoint hother)
    · have hid : i.id = a := by
        rcases hk with ⟨p, _, heq⟩ | ⟨w, p, _, heq⟩ <;>
        · have hargs := congrArg (fun r : Rule => r.head.args) heq
          simp only [Horn.Rule.fact, addLoadFact, addStoreFact, List.map_cons, List.map_nil,
            List.cons.injEq, Horn.Term.const.injEq] at hargs
          exact hargs.1.symm
      rw [← hid]
      refine not_fenceId hi (not_fence_of_kind ?_)
      rcases hk with ⟨p, hk, _⟩ | ⟨w, p, hk, _⟩
      · exact .inl ⟨p, hk⟩
      · exact .inr (.inl ⟨w, p, hk⟩)
    all_goals
      have hfd' : fd = _ := congrArg (fun r : Rule => r.head.pred) heq
      rw [hfd'] at hfd
      revert hfd
      simp [addFenceFact, addMHBFact, Horn.Rule.fact]
  exact hv.elim (hacc .ld (by decide)) (hacc .st (by decide))

/-- The facts of a module are facts to which a memory model can be added. -/
theorem addWeakFacts_baseRules (h : addWeakFacts trees M threadFuncs fuel = .ok rules) : BaseRules rules where
  noReorder := by
    intro r hr hpred
    rcases mem_addWeakFacts h hr with hother | ⟨i, hi, ⟨p, _, rfl⟩ | ⟨v, p, _, rfl⟩⟩ | ⟨i, _, _, rfl⟩ |
      ⟨ci, _, _, F, _, _, b, _, rfl⟩ | ⟨i, _, t, _, F, _, _, ret, _, rfl⟩
    · rw [hpred] at hother
      simp at hother
    all_goals cases hpred
  facts := by
    intro r hr hpred
    rcases mem_addWeakFacts h hr with hother | ⟨i, hi, ⟨p, _, rfl⟩ | ⟨v, p, _, rfl⟩⟩ | ⟨i, _, _, rfl⟩ |
      ⟨ci, _, _, F, _, _, b, _, rfl⟩ | ⟨i, _, t, _, F, _, _, ret, _, rfl⟩
    · exact absurd hpred (rel_disjoint hother)
    all_goals exact ⟨_, rfl⟩
  fence := fun _ ha hacc => not_fenceId_of_access h hacc (fence_of_fact h ha)

end Facts

section Order

variable {M : Module} {F : Function}

/-- The first element of a kind is not after one of that kind. -/
theorem find?_mem_prefix {α : Type} {p : α → Bool} (pre post : List α) {a : α} (ha : p a = true) :
    ∃ x ∈ pre ++ [a], (pre ++ a :: post).find? p = some x := by
  rw [List.find?_append]
  cases hpre : pre.find? p with
  | some x => exact ⟨x, List.mem_append_left _ (List.mem_of_find?_eq_some hpre), rfl⟩
  | none => exact ⟨a, List.mem_append_right _ (List.mem_singleton_self a), List.find?_cons_of_pos ha⟩

/-- **Nothing is ordered before the first load, store or call of a function.** -/
theorem not_orderedBefore_first (hF : F ∈ M.functions) {a f : Instruction} (hf : f ∈ F.instrs)
    (hfirst : FirstId M f.id) : ¬ F.OrderedBefore a f := by
  rintro ⟨_, hacc, ⟨A, hA, B, hB, haA, hfB, hdom⟩, _⟩
  obtain ⟨F', hF', b, hb, hid⟩ := hfirst
  have hb' : b ∈ F'.blocks := List.mem_of_mem_head? hb
  have hmem := getFirstLoadStoreCallTerm_mem b
  have hmemF : b.getFirstLoadStoreCallTerm ∈ F'.instrs := Function.mem_instrs.mpr ⟨b, hb', hmem⟩
  have heq : b.getFirstLoadStoreCallTerm = f :=
    M.eq_of_id_eq (Module.mem_instrs.mpr ⟨F', hF', hmemF⟩) (Module.mem_instrs.mpr ⟨F, hF, hf⟩) hid
  rw [heq] at hmem hmemF
  obtain rfl := M.function_unique hF' hF hmemF hf
  obtain rfl := F'.block_unique hb' hB hmem hfB
  rcases hdom with ⟨rfl, pre, post, hinstrs, hpost⟩ | ⟨hne, hdom⟩
  · have hkind : a.isaStoreLoadCall = true := by
      unfold Instruction.isaStoreLoadCall
      rcases Bool.or_eq_true_iff.mp hacc with h | h <;> simp [h]
    obtain ⟨x, hx, hfind⟩ := find?_mem_prefix pre post hkind
    have hxf : x = f := by
      rw [← heq]
      unfold BasicBlock.getFirstLoadStoreCallTerm
      rw [hinstrs, hfind]
      rfl
    have hnodup : A.instrs.Nodup :=
      ((List.Nodup.of_map _ F'.instrs_nodup).sublist (List.sublist_flatten_of_mem (List.mem_map_of_mem hb')))
    rw [hinstrs, ← List.singleton_append, ← List.append_assoc] at hnodup
    exact (List.nodup_append.mp hnodup).2.2 x hx f hpost hxf
  · rcases hdom b hb [] .start with h | h
    · cases h
    · exact hne h

end Order

section Ordered

variable {trees : Trees} {M : Module} {threadFuncs : List FuncId} {fuel : Nat} {facts : List Rule}
  (hptr : PointersTyped M) (hfacts : addWeakFacts trees M threadFuncs fuel = .ok facts)
include hptr hfacts

theorem weakRules_fence (model : MemoryModel) : ∀ r ∈ facts ++ model.rules, r.Holds (FenceMeaning M) := by
  intro r hr
  rcases List.mem_append.mp hr with hr | hr
  · exact addWeakFacts_fence hptr hfacts r hr
  · rcases List.mem_append.mp hr with hr | hr
    · rcases List.mem_append.mp hr with hr | hr
      · exact addNoReorderRules_fence r hr
      · exact reorderRules_fence model r hr
    · rw [List.mem_singleton.mp hr]
      exact fun σ hb => absurd (hb (atom .rf (.bound 3) (.bound 2)) (.head _)) id

/-- The order of a fence with an access is never derived. -/
theorem not_orderedBefore_of_derives {model : MemoryModel} {F : Function} (hF : F ∈ M.functions)
    {f : Instruction} (hf : f ∈ F.instrs) (hfence : (f.isFence || f.isLwSync) = true) {a : Instruction}
    (h : Horn.Derives (facts ++ model.rules) ⟨.mhb, [a.id, f.id]⟩) : ¬ F.OrderedBefore a f := by
  obtain ⟨x, y, heq, _, hfirst⟩ := h.sound (weakRules_fence hptr hfacts model)
  obtain ⟨_, rfl⟩ := FenceMeaning.pair heq
  exact not_orderedBefore_first hF hf (hfirst ⟨f, Module.mem_instrs.mpr ⟨F, hF, hf⟩, hfence, rfl⟩)

theorem not_derives_after {model : MemoryModel} {F : Function} (hF : F ∈ M.functions) {f : Instruction}
    (hf : f ∈ F.instrs) (hfence : (f.isFence || f.isLwSync) = true) (b : Instruction) :
    ¬ Horn.Derives (facts ++ model.rules) ⟨.mhb, [f.id, b.id]⟩ := by
  intro h
  obtain ⟨x, y, heq, hx, _⟩ := h.sound (weakRules_fence hptr hfacts model)
  obtain ⟨rfl, _⟩ := FenceMeaning.pair heq
  exact hx ⟨f, Module.mem_instrs.mpr ⟨F, hF, hf⟩, hfence, rfl⟩

end Ordered

theorem addConstraintsOf_weak {opts : Options} {trees : Trees} {M : Module} {threadFuncs : List FuncId}
    {fuel : Nat} {rules : List Rule} (hweak : opts.memoryModel ≠ none)
    (h : addConstraintsOf opts trees M threadFuncs fuel = .ok rules) :
    ∃ (model : MemoryModel) (facts : List Rule), addWeakFacts trees M threadFuncs fuel = .ok facts ∧
      rules = facts ++ model.rules := by
  unfold addConstraintsOf at h
  cases hmodel : opts.memoryModel with
  | none => exact absurd hmodel hweak
  | some model =>
      rw [hmodel] at h
      obtain ⟨facts, hfacts, hret⟩ := Fallible.bind_eq_ok.mp h
      exact ⟨model, facts, hfacts, (Except.ok.inj hret).symm⟩

/-- **Fences.**  In every weaker memory model the accesses around a fence are ordered with it exactly when
there are none to order. -/
theorem fenceOrders_iff (opts : Options) (hweak : opts.memoryModel ≠ none) (trees : Trees) (M : Module)
    (hptr : PointersTyped M) (threadFuncs : List FuncId) (fuel : Nat) (rules : List Rule)
    (hrules : addConstraintsOf opts trees M threadFuncs fuel = .ok rules) (F : Function)
    (hF : F ∈ M.functions) (f : Instruction) (hf : f ∈ F.instrs)
    (hfence : (f.isFence || f.isLwSync) = true) :
    FenceOrders rules F f ↔ (∀ a, ¬ F.OrderedBefore a f) ∧ ∀ b, ¬ F.OrderedAfter f b := by
  obtain ⟨model, facts, hfacts, rfl⟩ := addConstraintsOf_weak hweak hrules
  constructor
  · rintro ⟨hbefore, hafter, _⟩
    refine ⟨fun a ha => ?_, fun b hb => ?_⟩
    · exact not_orderedBefore_of_derives hptr hfacts hF hf hfence (hbefore a ha) ha
    · exact not_derives_after hptr hfacts hF hf hfence b (hafter b hb)
  · rintro ⟨hbefore, hafter⟩
    exact ⟨fun a ha => absurd ha (hbefore a), fun b hb => absurd hb (hafter b),
      fun a _ ha => absurd ha (hbefore a)⟩

namespace StoreFence

def store : Instruction := ⟨1, .store (.value 5) 0, none, []⟩
def fence : Instruction := ⟨2, .call .mfence, none, []⟩
def load : Instruction := ⟨3, .load 0, some 32, []⟩
def ret : Instruction := ⟨4, .ret, none, []⟩

/-- `store x; MFENCE(); load x` -/
def main : Function :=
  .ofBlocks 0 [.ofInstrs 10 [store, fence, load] ret]

def program : Module :=
  .ofFunctions [main] [⟨0, some (.constantInt ⟨32, 0⟩)⟩] (some 0)

/-- `MFENCE(); return` -/
def onlyFence : Function :=
  .ofBlocks 0 [.ofInstrs 10 [fence] ret]

def onlyFenceProgram : Module :=
  .ofFunctions [onlyFence] [] (some 0)

def trees : Trees where
  domChildren _ _ := []
  postDomDescendants _ _ := []

def opts : Options :=
  { tsoConstrG := true }

def rules (M : Module) : List Rule :=
  (addConstraintsOf opts trees M [0] 9).toOption.getD []

theorem rules_eq : addConstraintsOf opts trees program [0] 9 = .ok (rules program) := by
  rfl

theorem onlyFence_rules_eq : addConstraintsOf opts trees onlyFenceProgram [0] 9 =
    .ok (rules onlyFenceProgram) := by
  rfl

theorem pointersTyped : PointersTyped program := by
  intro i hi p hp
  have hall : ∀ i ∈ program.instrs, ∀ p, (i.kind = .load p ∨ ∃ v, i.kind = .store v p) → p = 0 := by
    intro i hi p hp
    rw [show program.instrs = [store, fence, load, ret] from rfl] at hi
    simp only [List.mem_cons, List.not_mem_nil, or_false] at hi
    rcases hi with rfl | rfl | rfl | rfl <;>
      rcases hp with hp | ⟨v, hp⟩ <;> first | (cases hp; rfl) | cases hp
  obtain rfl := hall i hi p hp
  have hids : ∀ j ∈ program.instrs, j.id ≠ 0 := by decide
  exact ⟨fun h => hids i hi h.symm, fun ⟨j, hj, _, hid⟩ => hids j hj hid⟩

theorem onlyFence_pointersTyped : PointersTyped onlyFenceProgram := by
  intro i hi p hp
  rw [show onlyFenceProgram.instrs = [fence, ret] from rfl] at hi
  rcases List.mem_pair.mp hi with rfl | rfl <;>
    rcases hp with hp | ⟨v, hp⟩ <;> cases hp

theorem store_before : main.OrderedBefore store fence := by
  have hblocks : main.blocks = [.ofInstrs 10 [store, fence, load] ret] := rfl
  have hinstrs : (BasicBlock.ofInstrs 10 [store, fence, load] ret).instrs = [store, fence, load, ret] := rfl
  refine ⟨.head _, rfl, ?_, ?_⟩
  · refine ⟨_, .head _, _, .head _, .head _, .tail _ (.head _), .inl ⟨rfl, [], [fence, load, ret], rfl, .head _⟩⟩
  · rintro ⟨A, hA, B, hB, _, _, ⟨rfl, pre, post, heq, hmem⟩ | hreach⟩
    · obtain rfl : A = _ := List.mem_singleton.mp (hblocks ▸ hA)
      rw [hinstrs] at heq
      have hsub : ∀ pre post : List Instruction, [store, fence, load, ret] = pre ++ fence :: post →
          post = [load, ret] := by
        intro pre post h
        rcases pre with _ | ⟨x, _ | ⟨y, _ | ⟨z, _ | ⟨w, pre⟩⟩⟩⟩ <;> simp [store, fence, load, ret] at h ⊢
        exact h.2.symm
      rw [hsub pre post heq] at hmem
      revert hmem
      decide
    · obtain rfl : A = _ := List.mem_singleton.mp (hblocks ▸ hA)
      have hnone : ∀ b, ¬ main.Edge 10 b := fun b h => absurd h (by simp [Function.Edge, show main.succsOf 10 = [] from rfl])
      obtain ⟨c, hc, _⟩ := Relation.TransGen.head'_iff.mp hreach
      exact hnone c hc

/-- **The fence between a store and a load** is ordered with neither. -/
theorem not_fenceOrders : ¬ FenceOrders (rules program) main fence := by
  intro h
  obtain ⟨model, facts, hfacts, hrules⟩ := addConstraintsOf_weak (by decide) rules_eq
  rw [hrules] at h
  exact not_orderedBefore_of_derives pointersTyped hfacts (.head _) (.tail _ (.head _)) rfl
    (h.1 store store_before) store_before

theorem fenceOrders_onlyFence : FenceOrders (rules onlyFenceProgram) onlyFence fence :=
  (fenceOrders_iff opts (by decide) trees onlyFenceProgram onlyFence_pointersTyped [0] 9
    (rules onlyFenceProgram) onlyFence_rules_eq onlyFence (.head _) fence (.head _) rfl).mpr (by
      have hacc : ∀ a ∈ onlyFence.instrs, (a.isLoadInst || a.isStoreInst) = false := by decide
      refine ⟨fun a ha => ?_, fun b hb => ?_⟩
      · exact absurd ha.2.1 (by rw [hacc a ha.1]; decide)
      · exact absurd hb.2.1 (by rw [hacc b hb.1]; decide))

end StoreFence

end Watts
