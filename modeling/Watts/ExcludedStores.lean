import Watts.FenceOrder
import Watts.PruningSound

/-! Which stores the constraints keep from the loads of a created thread.  The rule for the stores that
must happen before the creation has its conclusion the wrong way round, so that only the stores that
are listed for the creating function are excluded. -/

namespace Watts

section Rules

variable {opts : Options} {trees : Trees} {M : Module} {threadFuncs : List FuncId} {fuel : Nat}
  {rules : List Rule} {r : Rule} {l s : Instruction}

/-! ### The rules by their conclusions -/

/-- The store is listed for a call that creates the thread of the load. -/
def ListedAtCreation (trees : Trees) (M : Module) (l s : Instruction) : Prop :=
  ∃ F ∈ M.functions, ∃ b ∈ F.blocks, ∃ ci ∈ b.instrs, ∃ T ∈ M.functions, ci.createdFunc = some T.id ∧
    l ∈ T.getLoads ∧ s ∈ getThreadLocalNotRead trees F b ci

/-- A rule that neither concludes nor asks that a load does not read from a store, and whose conclusion
is not given by the permutation or by the program text. -/
def IsOrderRule (r : Rule) : Prop :=
  r.head.pred ∉ [Rel.notRf, .rf, .st] ∧ ∀ a ∈ r.body, a.pred ≠ .notRf

theorem IsOrderRule.of_fact {p : Rel} {cs : List Value} (hp : p ∉ [Rel.notRf, .rf, .st]) :
    IsOrderRule (.fact p cs) :=
  ⟨hp, fun _ ha => absurd ha List.not_mem_nil⟩

/-- What the rules of all memory models are. -/
def IsModelRule (r : Rule) : Prop :=
  IsOrderRule r ∨ r = addMHBNotReads ∨ r = addOverwriteNotReads

theorem addPruningRules_model : ∀ r ∈ addPruningRules ++ [addReadsFromIsMHB], IsModelRule r := by
  have hall : ∀ r ∈ addPruningRules ++ [addReadsFromIsMHB],
      (r.head.pred ∉ [Rel.notRf, .rf, .st] ∧ ∀ a ∈ r.body, a.pred ≠ .notRf) ∨ r = addMHBNotReads ∨
        r = addOverwriteNotReads := by
    decide
  exact hall

theorem memoryModel_rules_model (model : MemoryModel) : ∀ r ∈ model.rules, IsModelRule r := by
  have hall : ∀ model ∈ [MemoryModel.tso, .pso, .rmo], ∀ r ∈ model.rules,
      (r.head.pred ∉ [Rel.notRf, .rf, .st] ∧ ∀ a ∈ r.body, a.pred ≠ .notRf) ∨ r = addMHBNotReads ∨
        r = addOverwriteNotReads := by
    decide
  refine hall model ?_
  cases model <;> decide

theorem mem_doms (h : addDomLoadStoreFacts trees M threadFuncs = .ok rules) (hr : r ∈ rules) :
    IsOrderRule r ∨ IsAccessFact M r := by
  rcases mem_addDomLoadStoreFacts_dom h hr with rfl | ⟨F, _, hdom⟩ | hacc
  · exact .inl ⟨by decide, by decide⟩
  · left
    cases hdom <;> exact .of_fact (by decide)
  · exact .inr hacc

theorem mem_fences (h : addFenceFacts M threadFuncs = .ok rules) (hr : r ∈ rules) : IsOrderRule r := by
  obtain ⟨i, _, _, rfl⟩ := mem_addFenceFacts h hr
  exact .of_fact (by decide)

theorem mem_creates (h : addCreateFacts trees M = .ok rules) (hr : r ∈ rules) :
    IsOrderRule r ∨ IsCreateNotRfFact trees M r := by
  rcases mem_addCreateFacts_notRf h hr with hnot | ⟨ci, _, _, F, _, _, b, _, rfl⟩
  · exact .inr hnot
  · exact .inl (.of_fact (by decide))

theorem mem_joins (h : addJoinFacts M fuel = .ok rules) (hr : r ∈ rules) : IsOrderRule r := by
  obtain ⟨i, _, _, _, _, _, _, ret, _, rfl⟩ := mem_addJoinFacts h hr
  exact .of_fact (by decide)

theorem mem_notReach (h : addNotReachableFacts M fuel = .ok rules) (hr : r ∈ rules) : IsOrderRule r := by
  obtain ⟨_, _, _, _, _, _, _, _, _, _, _, _, _, rfl⟩ := mem_addNotReachableFacts_blocks h hr
  exact .of_fact (by decide)

/-- Where the constraints of a module come from, under every memory model. -/
theorem addConstraintsOf_parts (h : addConstraintsOf opts trees M threadFuncs fuel = .ok rules) :
    ∃ doms fences creates joins notReach own, addDomLoadStoreFacts trees M threadFuncs = .ok doms ∧
      (fences = [] ∨ addFenceFacts M threadFuncs = .ok fences) ∧ addCreateFacts trees M = .ok creates ∧
      addJoinFacts M fuel = .ok joins ∧ addNotReachableFacts M fuel = .ok notReach ∧
      (own = addPruningRules ++ [addReadsFromIsMHB] ∨ ∃ model : MemoryModel, own = model.rules) ∧
      ∀ r, r ∈ rules ↔ r ∈ doms ∨ r ∈ fences ∨ r ∈ creates ∨ r ∈ joins ∨ r ∈ notReach ∨ r ∈ own := by
  unfold addConstraintsOf at h
  cases hmodel : opts.memoryModel with
  | none =>
      rw [hmodel] at h
      obtain ⟨doms, hdoms, h⟩ := Fallible.bind_eq_ok.mp h
      obtain ⟨creates, hcreates, h⟩ := Fallible.bind_eq_ok.mp h
      obtain ⟨joins, hjoins, h⟩ := Fallible.bind_eq_ok.mp h
      obtain ⟨notReach, hnotReach, h⟩ := Fallible.bind_eq_ok.mp h
      cases h
      refine ⟨doms, [], creates, joins, notReach, _, liftStop_eq_ok.mp hdoms, .inl rfl, liftStop_eq_ok.mp hcreates,
        hjoins, hnotReach, .inl rfl, fun r => ?_⟩
      rw [List.append_assoc]
      simp only [List.mem_append, List.not_mem_nil, false_or, or_assoc]
  | some model =>
      rw [hmodel] at h
      obtain ⟨facts, hfacts, hret⟩ := Fallible.bind_eq_ok.mp h
      cases hret
      obtain ⟨doms, hdoms, h⟩ := Fallible.bind_eq_ok.mp hfacts
      obtain ⟨fences, hfences, h⟩ := Fallible.bind_eq_ok.mp h
      obtain ⟨creates, hcreates, h⟩ := Fallible.bind_eq_ok.mp h
      obtain ⟨joins, hjoins, h⟩ := Fallible.bind_eq_ok.mp h
      obtain ⟨notReach, hnotReach, h⟩ := Fallible.bind_eq_ok.mp h
      cases h
      refine ⟨doms, fences, creates, joins, notReach, _, liftStop_eq_ok.mp hdoms, .inr (liftStop_eq_ok.mp hfences),
        liftStop_eq_ok.mp hcreates, hjoins, hnotReach, .inr ⟨model, rfl⟩, fun r => ?_⟩
      simp only [List.mem_append, or_assoc]

/-- All constraints of a module. -/
theorem mem_addConstraintsOf (h : addConstraintsOf opts trees M threadFuncs fuel = .ok rules)
    (hr : r ∈ rules) : IsModelRule r ∨ IsAccessFact M r ∨ IsCreateNotRfFact trees M r := by
  obtain ⟨doms, fences, creates, joins, notReach, own, hdoms, hfences, hcreates, hjoins, hnotReach, hown, hmem⟩ :=
    addConstraintsOf_parts h
  rcases (hmem r).mp hr with hr | hr | hr | hr | hr | hr
  · exact (mem_doms hdoms hr).imp .inl .inl
  · rcases hfences with rfl | hfences
    · cases hr
    · exact .inl (.inl (mem_fences hfences hr))
  · exact (mem_creates hcreates hr).imp .inl .inr
  · exact .inl (.inl (mem_joins hjoins hr))
  · exact .inl (.inl (mem_notReach hnotReach hr))
  · rcases hown with rfl | ⟨model, rfl⟩
    · exact .inl (addPruningRules_model r hr)
    · exact .inl (memoryModel_rules_model model r hr)

/-! ### What is excluded -/

/-- What the constraints say that a load does not read from, besides all that they derive: no
permutation is chosen, and the reversed rule only speaks of stores in the place of the load. -/
def ExclusionMeaning (trees : Trees) (M : Module) (rules : List Rule) : GroundAtom → Prop
  | ⟨.notRf, args⟩ => ∃ x y, args = [x, y] ∧ (Horn.Derives rules ⟨.mhb, [x, y]⟩ ∨
      (∃ l s, ListedAtCreation trees M l s ∧ l.id = x ∧ s.id = y) ∨
        ∃ i ∈ M.instrs, (∃ v p, i.kind = .store v p) ∧ i.id = x)
  | ⟨.rf, _⟩ => False
  | ⟨.st, args⟩ => Horn.Derives rules ⟨.st, args⟩ ∧
      ∃ i ∈ M.instrs, ∃ v p, i.kind = .store v p ∧ args = [i.id, p]
  | a => Horn.Derives rules a

theorem ExclusionMeaning.derives {a : GroundAtom} (hp : a.pred ≠ .notRf)
    (h : ExclusionMeaning trees M rules a) : Horn.Derives rules a := by
  obtain ⟨p, args⟩ := a
  cases p with
  | notRf => exact absurd rfl hp
  | rf => exact absurd h id
  | st => exact h.1
  | _ => exact h

theorem exclusionMeaning_of_derives {a : GroundAtom} (hp : a.pred ∉ [Rel.notRf, .rf, .st])
    (h : Horn.Derives rules a) : ExclusionMeaning trees M rules a := by
  obtain ⟨p, args⟩ := a
  cases p with
  | notRf => exact absurd (.head _) hp
  | rf => exact absurd (.tail _ (.head _)) hp
  | st => exact absurd (.tail _ (.tail _ (.head _))) hp
  | _ => exact h

theorem addConstraintsOf_exclusionMeaning
    (h : addConstraintsOf opts trees M threadFuncs fuel = .ok rules) :
    ∀ r ∈ rules, r.Holds (ExclusionMeaning trees M rules) := by
  intro r hr σ hb
  have hderives : (∀ a ∈ r.body, a.pred ≠ .notRf) → Horn.Derives rules (r.head.inst σ) := fun hbody =>
    Horn.Derives.closed hr σ fun a ha => (hb a ha).derives (hbody a ha)
  rcases mem_addConstraintsOf h hr with (⟨hhead, hbody⟩ | rfl | rfl) | ⟨i, hi, hacc⟩ | hcreate
  · exact exclusionMeaning_of_derives hhead (hderives hbody)
  · exact ⟨_, _, rfl, .inl ((hb _ (.head _)).derives nofun)⟩
  · exact absurd (hb (atom .rf (.bound 0) (.bound 2)) (.head _)) id
  · rcases hacc with ⟨p, _, rfl⟩ | ⟨v, p, hk, rfl⟩
    · exact hderives (fun _ ha => absurd ha List.not_mem_nil)
    · exact ⟨hderives (fun _ ha => absurd ha List.not_mem_nil), i, hi, v, p, hk, rfl⟩
  · obtain ⟨F, hF, b, hb', ci, hci, T, hT, hcf, l, hl, rfl | ⟨s, hs, rfl⟩⟩ := hcreate
    · obtain ⟨_, i, hi, v, p, hk, hargs⟩ := hb (atom .st (.bound 0) (.bound 1)) (.head _)
      exact ⟨_, _, rfl, .inr (.inr ⟨i, hi, ⟨v, p, hk⟩, (pair_eq hargs).1.symm⟩)⟩
    · exact ⟨_, _, rfl, .inr (.inl ⟨l, s, ⟨F, hF, b, hb', ci, hci, T, hT, hcf, hl, hs⟩, rfl, rfl⟩)⟩

/-- The stores of the list are stores of the creating function. -/
theorem mem_getThreadLocalNotRead {F : Function} {b : BasicBlock} {ci : Instruction} (hb : b ∈ F.blocks)
    (h : s ∈ getThreadLocalNotRead trees F b ci) : s ∈ F.instrs ∧ s.isStoreInst = true := by
  rcases List.mem_append.mp h with h | h
  · obtain ⟨hmem, hstore⟩ := List.mem_filter.mp h
    exact ⟨Function.mem_instrs.mpr ⟨b, hb, (List.takeWhile_prefix _).subset hmem⟩, hstore⟩
  · obtain ⟨d, _, hs⟩ := List.mem_flatMap.mp h
    cases hD : F.block? d with
    | none =>
        rw [hD] at hs
        cases hs
    | some D =>
        rw [hD] at hs
        obtain ⟨hmem, hstore⟩ := List.mem_filter.mp hs
        exact ⟨Function.mem_instrs.mpr ⟨D, (Function.block?_mem hD).1, hmem⟩, hstore⟩

theorem not_store_of_isSomeLoad (h : l.isSomeLoad = true) : ¬ ∃ v p, l.kind = .store v p := by
  rintro ⟨v, p, hk⟩
  unfold Instruction.isSomeLoad at h
  rw [hk] at h
  cases h

/-- The facts of one call. -/
theorem listed_mem_call {F T : Function} {b : BasicBlock} {ci : Instruction} (hT : T ∈ M.functions)
    (hcf : ci.createdFunc = some T.id) (hl : l ∈ T.getLoads)
    (hs : s ∈ getThreadLocalNotRead trees F b ci) (h : addCreateFactsCall trees M F b ci = .ok rules) :
    addNotReadFact l s ∈ rules := by
  have hfunc : getPThreadThreadFunc ci = .ok T.id := by
    unfold getPThreadThreadFunc
    rw [hcf]
  unfold addCreateFactsCall at h
  rw [hfunc] at h
  obtain ⟨f, hf, h⟩ := Fallible.bind_eq_ok.mp h
  cases hf
  rw [Module.func?_id hT] at h
  dsimp only at h
  cases hblocks : T.blocks with
  | nil =>
      obtain ⟨b', hb', _⟩ := Function.mem_instrs.mp (List.mem_filter.mp hl).1
      rw [hblocks] at hb'
      cases hb'
  | cons first rest =>
      rw [hblocks] at h
      cases h
      apply List.mem_append_right
      exact List.mem_flatMap.mpr ⟨s, hs, List.mem_map.mpr ⟨l, hl, rfl⟩⟩

theorem listed_mem_creates (hlisted : ListedAtCreation trees M l s) (h : addCreateFacts trees M = .ok rules) :
    addNotReadFact l s ∈ rules := by
  obtain ⟨F, hF, b, hb, ci, hci, T, hT, hcf, hl, hs⟩ := hlisted
  obtain ⟨facts, hfacts, hret⟩ := Fallible.bind_eq_ok.mp h
  cases hret
  have hcreate : ci.isPthreadCreate = true := by
    obtain ⟨thread, args, hk⟩ := Instruction.kind_of_createdFunc hcf
    unfold Instruction.isPthreadCreate
    rw [hk]
  obtain ⟨fF, hfF, hmapF⟩ := Fallible.mapM_mem_of_mem hfacts hF
  obtain ⟨fb, hfb, hmapb⟩ := Fallible.mapM_mem_of_mem hmapF hb
  obtain ⟨fc, hfc, hcall⟩ := Fallible.mapM_mem_of_mem hmapb (List.mem_filter.mpr ⟨hci, hcreate⟩)
  have hmem := listed_mem_call hT hcf hl hs hcall
  exact List.mem_flatten.mpr ⟨fc, List.mem_flatten.mpr ⟨fb, List.mem_flatten.mpr ⟨fF, hfF, hfb⟩, hfc⟩, hmem⟩

theorem listed_mem (hlisted : ListedAtCreation trees M l s)
    (h : addConstraintsOf opts trees M threadFuncs fuel = .ok rules) : addNotReadFact l s ∈ rules := by
  obtain ⟨_, _, creates, _, _, _, _, _, hcreates, _, _, _, hmem⟩ := addConstraintsOf_parts h
  exact (hmem _).mpr (.inr (.inr (.inl (listed_mem_creates hlisted hcreates))))

theorem addMHBNotReads_mem (h : addConstraintsOf opts trees M threadFuncs fuel = .ok rules) :
    addMHBNotReads ∈ rules := by
  obtain ⟨_, _, _, _, _, own, _, _, _, _, _, hown, hmem⟩ := addConstraintsOf_parts h
  have hrule : addMHBNotReads ∈ own := by
    rcases hown with rfl | ⟨model, rfl⟩
    · decide
    · cases model <;> decide
  exact (hmem _).mpr (.inr (.inr (.inr (.inr (.inr hrule)))))

/-- **Which stores are excluded for a load**, as long as no permutation is chosen: those that it must
happen before and those that are listed. -/
theorem derives_notRf_iff (h : addConstraintsOf opts trees M threadFuncs fuel = .ok rules)
    (hl : l ∈ M.instrs) (hload : l.isSomeLoad = true) (hs : s ∈ M.instrs) :
    Horn.Derives rules ⟨.notRf, [l.id, s.id]⟩ ↔
      Horn.Derives rules ⟨.mhb, [l.id, s.id]⟩ ∨ ListedAtCreation trees M l s := by
  constructor
  · intro hnot
    obtain ⟨x, y, hxy, hmean⟩ := hnot.sound (addConstraintsOf_exclusionMeaning h)
    obtain ⟨rfl, rfl⟩ := pair_eq hxy
    rcases hmean with hmhb | ⟨l', s', hlisted, hlid, hsid⟩ | ⟨i, hi, hstore, hid⟩
    · exact .inl hmhb
    · obtain ⟨F, hF, b, hb, ci, hci, T, hT, hcf, hl', hs'⟩ := id hlisted
      have hlM := Module.mem_instrs.mpr ⟨T, hT, (List.mem_filter.mp hl').1⟩
      have hsM := Module.mem_instrs.mpr ⟨F, hF, (mem_getThreadLocalNotRead hb hs').1⟩
      obtain rfl := M.eq_of_id_eq hlM hl hlid
      obtain rfl := M.eq_of_id_eq hsM hs hsid
      exact .inr hlisted
    · obtain rfl := M.eq_of_id_eq hi hl hid
      exact absurd hstore (not_store_of_isSomeLoad hload)
  · rintro (hmhb | hlisted)
    · have hrule := Horn.Derives.closed (addMHBNotReads_mem h)
      refine hrule (fun i => if i = 0 then l.id else s.id) fun a ha => ?_
      obtain rfl := List.mem_singleton.mp ha
      exact hmhb
    · exact .fact (fun _ => 0) (listed_mem hlisted h)

/-- A store that must happen before a creation of a thread is excluded for a load of the thread. -/
def ExcludedFor (z3 : Solver) (M : Module) (rules : List Rule) (T : Function) (l s : Instruction) : Prop :=
  ∀ ci ∈ M.instrs, ci.createdFunc = some T.id → queryMHB z3 rules s.id ci.id = .lTrue →
    queryNotReads z3 rules l.id s.id = .lTrue

/-- **The rule for the stores before a creation excludes nothing**: a store is excluded when the list of a
creating function has it, or when the load must happen before it. -/
theorem excludedFor_iff (z3 : Solver) (hz3 : z3.LeastModel) (opts : Options) (trees : Trees) (M : Module)
    (threadFuncs : List FuncId) (fuel : Nat) (rules : List Rule)
    (h : addConstraintsOf opts trees M threadFuncs fuel = .ok rules) (T : Function) (hT : T ∈ M.functions)
    (l : Instruction) (hl : l ∈ T.getLoads) (s : Instruction) (hs : s ∈ M.instrs) :
    ExcludedFor z3 M rules T l s ↔
      ∀ ci ∈ M.instrs, ci.createdFunc = some T.id → queryMHB z3 rules s.id ci.id = .lTrue →
        queryMHB z3 rules l.id s.id = .lTrue ∨ ListedAtCreation trees M l s := by
  obtain ⟨hlT, hload⟩ := List.mem_filter.mp hl
  have hiff : queryNotReads z3 rules l.id s.id = .lTrue ↔
      queryMHB z3 rules l.id s.id = .lTrue ∨ ListedAtCreation trees M l s := by
    unfold queryNotReads queryMHB
    rw [hz3, hz3]
    exact derives_notRf_iff h (Module.mem_instrs.mpr ⟨T, hT, hlT⟩) hload hs
  unfold ExcludedFor
  rw [hiff]

end Rules

namespace GrandParent

/-- `x = 3; create(t); return` -/
def main : Function :=
  .ofBlocks 0 [.ofInstrs 10 [allocaAt 1, storeAt 2 3 100, createAt 3 1 1] (retAt 4)]

/-- `load x; create(u); return` -/
def t : Function :=
  .ofBlocks 1 [.ofInstrs 20 [allocaAt 21, loadAt 24 100, createAt 22 21 2] (retAt 23)]

/-- `load x; return` -/
def u : Function :=
  .ofBlocks 2 [.ofInstrs 30 [loadAt 31 100] (retAt 32)]

def program : Module :=
  .ofFunctions [main, t, u] [⟨100, some (.constantInt ⟨32, 0⟩)⟩] (some 0)

def trees : Trees :=
  .ofEdges [] fun _ b => [b]

def rules : List Rule :=
  (addConstraintsOf {} trees program [0, 1, 2] 20).toOption.getD []

theorem rules_eq : addConstraintsOf {} trees program [0, 1, 2] 20 = .ok rules := by
  rfl

theorem domCorrect : trees.DomCorrect program := by
  exact Trees.domCorrect_ofEdges fun p hp => absurd hp List.not_mem_nil

/-- The store of `main` happens before `main` creates `t`, and before `t` creates `u`. -/
theorem derives_mhb : Horn.Derives rules ⟨.mhb, [2, 22]⟩ := by
  have hrule : addDomNotReachRule ∈ rules := addPruningRules_mem rules_eq _ (by decide)
  have htrans : addMHBTrans ∈ rules := addPruningRules_mem rules_eq _ (by decide)
  have hfacts : ∀ p ∈ [(Rel.dom, [2, 3]), (.notReach, [3, 2]), (.mhb, [3, 24]), (.dom, [24, 22]),
      (.notReach, [22, 24])], Horn.Rule.fact p.1 p.2 ∈ rules := by
    decide
  have hmain : Horn.Derives rules ⟨.mhb, [2, 3]⟩ :=
    derives_ordered hrule (.fact (fun _ => 0) (hfacts (_, _) (by decide))) (hfacts (_, _) (by decide))
  have hcreate : Horn.Derives rules ⟨.mhb, [3, 24]⟩ := .fact (fun _ => 0) (hfacts (_, _) (by decide))
  have ht : Horn.Derives rules ⟨.mhb, [24, 22]⟩ :=
    derives_ordered hrule (.fact (fun _ => 0) (hfacts (_, _) (by decide))) (hfacts (_, _) (by decide))
  exact derives_trans htrans hmain (derives_trans htrans hcreate ht)

/-- **The store of the grandparent is not excluded** for the load of `u`. -/
theorem not_excludedFor : (addConstraintsOf {} trees program [0, 1, 2] 20 = .ok rules ∧
      trees.DomCorrect program) ∧
    ¬ ExcludedFor .least program rules u (loadAt 31 100) (storeAt 2 3 100) := by
  refine ⟨⟨rules_eq, domCorrect⟩, fun h => ?_⟩
  have hquery := h (createAt 22 21 2) (by decide) rfl ((Solver.least_leastModel _ _).mpr derives_mhb)
  have hkeeps : ∀ r ∈ rules, KeepsOrder [1, 2, 3, 4, 21, 24, 22, 23, 31, 32].idxOf 31 2 100 [24, 31] r := by
    decide
  exact not_derives_of_keepsOrder (by decide) (by decide) hkeeps ((Solver.least_leastModel _ _).mp hquery)

/-- The store of the parent is excluded for the load of `t`. -/
theorem excludedFor_parent : ExcludedFor .least program rules t (loadAt 24 100) (storeAt 2 3 100) :=
  (excludedFor_iff .least Solver.least_leastModel {} trees program [0, 1, 2] 20 rules rules_eq t
    (.tail _ (.head _)) (loadAt 24 100) (by decide) (storeAt 2 3 100) (by decide)).mpr
    fun _ _ _ _ => .inr ⟨main, .head _, _, .head _, createAt 3 1 1, by decide, t, .tail _ (.head _), rfl,
      by decide, by decide⟩

end GrandParent

/-! ### The listed stores after the creation -/

namespace Function

/-- A block without successors. -/
def Exits (F : Function) (b : BlockId) : Prop :=
  ∃ B ∈ F.blocks, B.id = b ∧ B.getSuccsFromBB = []

end Function

/-- The post-dominator tree of LLVM. -/
def Trees.PostDomCorrect (trees : Trees) (M : Module) : Prop :=
  ∀ F ∈ M.functions, ∀ A ∈ F.blocks, ∀ d, d ∈ trees.postDomDescendants F.id A.id ↔
    d ∈ F.blocks.map BasicBlock.id ∧ Flow.PostDominates F.Edge F.Exits A.id d

section Runs

variable {trees : Trees} {M : Module} {F : Function} {b D : BasicBlock} {ci s : Instruction}

/-- The listed stores of the block of the call stand before it. -/
theorem not_mem_after_call (hb : b ∈ F.blocks) (hs : s ∈ getThreadLocalNotRead trees F b ci)
    {ps qs : List Instruction} (hinstrs : b.instrs = ps ++ ci :: qs) : s ∉ qs := by
  intro hqs
  rcases List.mem_append.mp hs with hs | hs
  · obtain ⟨hmem, _⟩ := List.mem_filter.mp hs
    have hnodup := Function.instrs_nodup_of_mem hb
    rw [hinstrs] at hmem hnodup
    rw [Function.takeWhile_ne_middle (Function.not_mem_of_nodup_middle hnodup).1] at hmem
    exact (List.nodup_append.mp hnodup).2.2 s hmem s (.tail _ hqs) rfl
  · obtain ⟨d, hd, hs⟩ := List.mem_flatMap.mp hs
    obtain ⟨_, hne⟩ := List.mem_filter.mp hd
    cases hD : F.block? d with
    | none =>
        rw [hD] at hs
        cases hs
    | some D =>
        rw [hD] at hs
        obtain ⟨hDF, rfl⟩ := Function.block?_mem hD
        have hsb : s ∈ b.instrs := hinstrs ▸ List.mem_append_right _ (.tail _ hqs)
        obtain rfl := F.block_unique hDF hb (List.mem_filter.mp hs).1 hsb
        simp at hne

/-- A path from the block of one instruction to that of another passes the second after the first. -/
theorem Function.Reachable.passes (hreach : F.Reachable b.id) (hb : b ∈ F.blocks) (hD : D ∈ F.blocks)
    (hpath : Relation.TransGen F.Edge b.id D.id) (hci : ci ∈ b.instrs) (hs : s ∈ D.instrs) :
    ∃ us vs, F.Tracks (us ++ ci :: vs) ∧ s ∈ vs := by
  obtain ⟨first, hfirst, π, hwalk⟩ := hreach
  obtain ⟨c, hedge, hrest⟩ := Relation.TransGen.head'_iff.mp hpath
  obtain ⟨π', hwalk'⟩ := (hwalk.step hedge).extend hrest
  obtain ⟨ps, qs, hinstrs⟩ := List.append_of_mem hci
  refine ⟨π.flatMap F.instrsOf ++ ps, qs ++ (π'.flatMap F.instrsOf ++ D.instrs), ?_, ?_⟩
  · refine .inr ⟨first, hfirst, _, D.id, hwalk', ?_⟩
    rw [List.flatMap_append, List.flatMap_append, List.flatMap_append, List.flatMap_singleton,
      List.flatMap_singleton, Function.instrsOf_id hb, Function.instrsOf_id hD, hinstrs]
    simp only [List.append_assoc, List.cons_append]
    exact List.prefix_refl _
  · exact List.mem_append_right _ (List.mem_append_right _ hs)

/-- **The stores listed for a call never run after it exactly when no path leads from the call back to
one of them.** -/
theorem listed_neverAfter_iff (trees : Trees) (F : Function) (b : BasicBlock) (hb : b ∈ F.blocks)
    (ci : Instruction) (hci : ci ∈ b.instrs) :
    (∀ s ∈ getThreadLocalNotRead trees F b ci, F.NeverAfter s ci) ↔
      ¬ F.Reachable b.id ∨ ∀ s ∈ getThreadLocalNotRead trees F b ci, ∀ D ∈ F.blocks, s ∈ D.instrs →
        ¬ Relation.TransGen F.Edge b.id D.id := by
  constructor
  · intro h
    rw [or_iff_not_imp_left, not_not]
    intro hreach s hs D hD hsD hpath
    obtain ⟨us, vs, htracks, hvs⟩ := hreach.passes hb hD hpath hci hsD
    exact h s hs us vs htracks hvs
  · intro h s hs us vs htracks hvs
    obtain ⟨first, hfirst, π₁, π₂, B, hB, ps, qs, hwalk, hinstrs, _, hpre, hlater⟩ := htracks.place
    obtain rfl := F.block_unique hB hb (hinstrs ▸ List.mem_append_right _ (.head _)) hci
    have hpaths := h.resolve_left (fun hno => hno ⟨first, hfirst, π₁, hwalk⟩)
    rcases List.mem_append.mp (hpre.subset hvs) with hqs | hπ
    · exact not_mem_after_call hb hs hinstrs hqs
    · obtain ⟨d, hd, hsd⟩ := List.mem_flatMap.mp hπ
      obtain ⟨D, hD, rfl, hsD⟩ := Function.mem_instrsOf hsd
      exact hpaths s hs D hD hsD (hlater _ hd)

/-- With a correct tree such a path is part of a cycle through the block of the call. -/
theorem listed_on_cycle (htrees : trees.PostDomCorrect M) (hF : F ∈ M.functions) (hb : b ∈ F.blocks)
    (hs : s ∈ getThreadLocalNotRead trees F b ci) (hD : D ∈ F.blocks) (hsD : s ∈ D.instrs)
    (hpath : Relation.TransGen F.Edge b.id D.id) : Relation.TransGen F.Edge b.id b.id := by
  rcases List.mem_append.mp hs with hs | hs
  · obtain ⟨hmem, _⟩ := List.mem_filter.mp hs
    obtain rfl := F.block_unique hD hb hsD ((List.takeWhile_prefix _).subset hmem)
    exact hpath
  · obtain ⟨d, hd, hs⟩ := List.mem_flatMap.mp hs
    obtain ⟨hd, _⟩ := List.mem_filter.mp hd
    cases hD' : F.block? d with
    | none =>
        rw [hD'] at hs
        cases hs
    | some D' =>
        rw [hD'] at hs
        obtain ⟨hD'F, rfl⟩ := Function.block?_mem hD'
        obtain rfl := F.block_unique hD'F hD (List.mem_filter.mp hs).1 hsD
        obtain ⟨_, ⟨e, he, hreach⟩, hvisits⟩ := (htrees F hF b hb D'.id).mp hd
        obtain ⟨π, hπ⟩ := Flow.Walk.start.extend hreach
        rw [List.nil_append] at hπ
        rcases hvisits e he π hπ with hmem | rfl
        · obtain ⟨π₁, π₂, rfl⟩ := List.append_of_mem hmem
          exact hpath.trans_left (hπ.split rfl).1.reflTransGen
        · exact hpath.trans_left hreach

/-- What never runs after an instruction of its function has no event after it in any interleaving. -/
theorem Function.NeverAfter.not_after {sem : Semantics} {init : Env} {main : FuncId} {i j : Instruction}
    (h : F.NeverAfter i j) (hF : F ∈ M.functions) (hi : i ∈ F.instrs) (hj : j ∈ F.instrs)
    {pre post : List Event} {e : Event} {c : Config}
    (hrun : Interleaving sem M init main (pre ++ e :: post) c) (he : e.inst = j) :
    ∀ e' ∈ post, e'.inst ≠ i := by
  intro e' he' heq
  obtain ⟨_, _, htracks⟩ := tracks_of_event hrun hF hj (by rw [he])
  obtain ⟨_, hthread'⟩ := thread_eq_of_mem hrun (List.mem_append_right _ (.tail _ he')) hF hi (by rw [heq])
  refine h _ _ htracks ?_
  rw [← hthread', ← heq]
  exact mem_executedBy he'

end Runs

namespace RepeatedStore

/-- `do { x = 1; create(t) } while (c); return` -/
def main : Function :=
  .ofBlocks 0 [.ofInstrs 10 [allocaAt 1] (brAt 2 11),
    .ofInstrs 11 [storeAt 3 1 100, createAt 4 1 1] (condBrAt 5 50 11 12), .ofInstrs 12 [] (retAt 6)]

/-- `load x; return` -/
def t : Function :=
  .ofBlocks 1 [.ofInstrs 20 [loadAt 21 100] (retAt 22)]

def program : Module :=
  .ofFunctions [main, t] [⟨100, some (.constantInt ⟨32, 0⟩)⟩] (some 0)

def trees : Trees :=
  .ofEdges [(0, 10, 11), (0, 11, 12)] fun _ b =>
    if b = 11 then [11, 10] else if b = 12 then [12, 11, 10] else [b]

def loop : BasicBlock :=
  .ofInstrs 11 [storeAt 3 1 100, createAt 4 1 1] (condBrAt 5 50 11 12)

theorem main_edge {a b : BlockId} (h : main.Edge a b) :
    a = 10 ∧ b = 11 ∨ a = 11 ∧ b = 11 ∨ a = 11 ∧ b = 12 := by
  unfold Function.Edge Function.succsOf at h
  cases hA : main.block? a with
  | none =>
      rw [hA] at h
      cases h
  | some A =>
      rw [hA] at h
      obtain ⟨hmem, rfl⟩ := Function.block?_mem hA
      have hall : ∀ A ∈ main.blocks, ∀ b ∈ A.getSuccsFromBB,
          A.id = 10 ∧ b = 11 ∨ A.id = 11 ∧ b = 11 ∨ A.id = 11 ∧ b = 12 := by
        decide
      exact hall A hmem b h

theorem main_exits {e : BlockId} : main.Exits e ↔ e = 12 := by
  constructor
  · rintro ⟨B, hB, rfl, hsuccs⟩
    have hall : ∀ B ∈ main.blocks, B.getSuccsFromBB = [] → B.id = 12 := by
      decide
    exact hall B hB hsuccs
  · rintro rfl
    exact ⟨_, .tail _ (.tail _ (.head _)), rfl, rfl⟩

theorem main_postDominates {a d : BlockId} (ha : a ∈ main.blocks.map BasicBlock.id)
    (hd : d ∈ main.blocks.map BasicBlock.id) :
    d ∈ trees.postDomDescendants 0 a ↔ Flow.PostDominates main.Edge main.Exits a d := by
  have h₁ : main.Edge 10 11 := .head _
  have h₂ : main.Edge 11 12 := .tail _ (.head _)
  have hexit : main.Exits 12 := main_exits.mpr rfl
  have hreach : Relation.ReflTransGen main.Edge 11 12 := .single h₂
  have honly : ∀ d, main.Edge 10 d → d = 11 := by
    intro d hd
    rcases main_edge hd with ⟨_, h⟩ | ⟨h, _⟩ | ⟨h, _⟩
    · exact h
    · exact absurd h (by decide)
    · exact absurd h (by decide)
  have h11 : Flow.PostDominates main.Edge main.Exits 11 11 := .refl hexit hreach
  have h12 : ∀ {a}, Relation.ReflTransGen main.Edge a 12 → Flow.PostDominates main.Edge main.Exits 12 a :=
    fun h => .of_only hexit (fun e he => main_exits.mp he) h
  have hids : ∀ x ∈ main.blocks.map BasicBlock.id, x = 10 ∨ x = 11 ∨ x = 12 := by
    decide
  rcases hids a ha with rfl | rfl | rfl <;> rcases hids d hd with rfl | rfl | rfl
  · exact ⟨fun _ => .refl hexit (.head h₁ hreach), fun _ => .head _⟩
  · refine ⟨fun h => absurd h (by decide), fun h => ?_⟩
    exact absurd (h.visits 12 hexit _ (.step .start h₂)) (by decide)
  · exact ⟨fun h => absurd h (by decide), fun h => absurd (h.visits 12 hexit _ .start) (by decide)⟩
  · exact ⟨fun _ => .of_succ h₁ honly (fun h => absurd (main_exits.mp h) (by decide)) h11, fun _ => by decide⟩
  · exact ⟨fun _ => h11, fun _ => by decide⟩
  · exact ⟨fun h => absurd h (by decide), fun h => absurd (h.visits 12 hexit _ .start) (by decide)⟩
  · exact ⟨fun _ => h12 (.head h₁ hreach), fun _ => by decide⟩
  · exact ⟨fun _ => h12 hreach, fun _ => by decide⟩
  · exact ⟨fun _ => h12 .refl, fun _ => by decide⟩

theorem t_postDominates {a d : BlockId} (ha : a ∈ t.blocks.map BasicBlock.id)
    (hd : d ∈ t.blocks.map BasicBlock.id) :
    d ∈ trees.postDomDescendants 1 a ↔ Flow.PostDominates t.Edge t.Exits a d := by
  obtain rfl : a = 20 := List.mem_singleton.mp ha
  obtain rfl : d = 20 := List.mem_singleton.mp hd
  exact ⟨fun _ => .refl ⟨_, .head _, rfl, rfl⟩ .refl, fun _ => by decide⟩

theorem postDomCorrect : trees.PostDomCorrect program := by
  intro F hF A hA d
  have hA' : A.id ∈ F.blocks.map BasicBlock.id := List.mem_map_of_mem hA
  have hdesc : ∀ F ∈ program.functions, ∀ A ∈ F.blocks, ∀ d ∈ trees.postDomDescendants F.id A.id,
      d ∈ F.blocks.map BasicBlock.id := by
    decide
  have hiff : d ∈ F.blocks.map BasicBlock.id →
      (d ∈ trees.postDomDescendants F.id A.id ↔ Flow.PostDominates F.Edge F.Exits A.id d) := by
    intro hd
    rcases List.mem_pair.mp hF with rfl | rfl
    · exact main_postDominates hA' hd
    · exact t_postDominates hA' hd
  exact ⟨fun h => ⟨hdesc F hF A hA d h, (hiff (hdesc F hF A hA d h)).mp h⟩, fun h => (hiff h.1).mpr h.2⟩

def rules : List Rule :=
  (addConstraintsOf {} trees program [0, 1] 20).toOption.getD []

theorem rules_eq : addConstraintsOf {} trees program [0, 1] 20 = .ok rules := by
  rfl

/-- The loop is entered again after the creation, and then the load is executed. -/
def run : List Event :=
  scheduled program (Function.update (fun _ => 0) 50 1) (fun _ => none) 0 [0, 0, 0, 0, 0, 0, 1]

theorem run_insts : run.map (·.inst) =
    [allocaAt 1, brAt 2 11, storeAt 3 1 100] ++ createAt 4 1 1 ::
      [condBrAt 5 50 11 12, storeAt 3 1 100, loadAt 21 100] := by
  decide

theorem listed : storeAt 3 1 100 ∈ getThreadLocalNotRead trees main loop (createAt 4 1 1) := by
  decide

/-- **The store in the loop runs after the creation**, and the load of the thread reads it. -/
theorem not_neverAfter : (trees.PostDomCorrect program ∧
      addConstraintsOf {} trees program [0, 1] 20 = .ok rules) ∧
    addNotReadFact (loadAt 21 100) (storeAt 3 1 100) ∈ rules ∧
    (∃ c, Interleaving registers program (Function.update (fun _ => 0) 50 1) 0 run c) ∧
    run.map (·.inst) = [allocaAt 1, brAt 2 11, storeAt 3 1 100] ++ createAt 4 1 1 ::
      [condBrAt 5 50 11 12, storeAt 3 1 100, loadAt 21 100] ∧
    ¬ ∀ s ∈ getThreadLocalNotRead trees main loop (createAt 4 1 1), main.NeverAfter s (createAt 4 1 1) := by
  obtain ⟨c, hc⟩ : ∃ c, Interleaving registers program (Function.update (fun _ => 0) 50 1) 0 run c :=
    scheduled_interleaving (fun _ _ h => by cases h) 0 [0, 0, 0, 0, 0, 0, 1]
  refine ⟨⟨postDomCorrect, rules_eq⟩, by decide, ⟨c, hc⟩, run_insts, fun h => ?_⟩
  have hinsts := run_insts
  obtain ⟨pre, rest, hrun, hpre, hrest⟩ := List.map_eq_append_iff.mp hinsts
  obtain ⟨e, post, rfl, he, hpost⟩ := List.map_eq_cons_iff.mp hrest
  have hstore : storeAt 3 1 100 ∈ post.map (·.inst) := by
    rw [hpost]
    decide
  obtain ⟨e', he', heq⟩ := List.mem_map.mp hstore
  have hc' : Interleaving registers program (Function.update (fun _ => 0) 50 1) 0 (pre ++ e :: post) c := by
    rw [← hrun]
    exact hc
  exact (h _ listed).not_after (.head _) (by decide) (by decide) hc' he e' he' heq

/-- Without the way back the listed store is before the creation. -/
theorem neverAfter_once : GrandParent.main.NeverAfter (storeAt 2 3 100) (createAt 3 1 1) :=
  (listed_neverAfter_iff GrandParent.trees GrandParent.main
    (.ofInstrs 10 [allocaAt 1, storeAt 2 3 100, createAt 3 1 1] (retAt 4)) (.head _) (createAt 3 1 1)
    (by decide)).mpr (by
      refine .inr fun s _ D hD _ hpath => ?_
      obtain rfl := List.mem_singleton.mp hD
      obtain ⟨c, hc, _⟩ := Relation.TransGen.head'_iff.mp hpath
      exact absurd hc List.not_mem_nil) _ (by decide)

end RepeatedStore

end Watts
