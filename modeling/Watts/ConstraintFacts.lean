import Watts.Constraints
import Watts.Library.Fallible

/-! The constraints that the pass collects from a module, by what they say. -/

namespace Watts

variable {trees : Trees} {M : Module} {threadFuncs : List FuncId} {fuel : Nat} {rules : List Rule} {r : Rule}

/-- A dominance fact or its transitivity. -/
def IsDomRule (r : Rule) : Prop :=
  r.head.pred = .dom

/-- What an instruction loads or stores. -/
def IsAccessFact (M : Module) (r : Rule) : Prop :=
  ∃ i ∈ M.instrs, (∃ p, i.kind = .load p ∧ r = addLoadFact i p) ∨
    ∃ v p, i.kind = .store v p ∧ r = addStoreFact i p

/-- The creation of a thread before its first load, store or call. -/
def IsCreateFact (M : Module) (r : Rule) : Prop :=
  ∃ ci ∈ M.instrs, ci.isPthreadCreate = true ∧ ∃ F ∈ M.functions, ci.createdFunc = some F.id ∧
    ∃ b, F.blocks.head? = some b ∧ r = addMHBFact ci b.getFirstLoadStoreCallTerm

/-- A return of a joined thread before the join. -/
def IsJoinFact (M : Module) (fuel : Nat) (r : Rule) : Prop :=
  ∃ i ∈ M.instrs, ∃ thread, i.kind = .call (.pthreadJoin thread) ∧ ∃ F ∈ M.functions,
    findCreateFromJoin M fuel thread = .ok (some F.id) ∧ ∃ ret ∈ getRets F, r = addMHBFact ret i

/-- The first access of a block stands in the block. -/
theorem getFirstLoadStoreCallTerm_mem (b : BasicBlock) : b.getFirstLoadStoreCallTerm ∈ b.instrs := by
  unfold BasicBlock.getFirstLoadStoreCallTerm
  cases hfind : b.instrs.find? Instruction.isaStoreLoadCall with
  | none => exact BasicBlock.mem_instrs.mpr (.inr rfl)
  | some x => exact List.mem_of_find?_eq_some hfind

theorem mem_addLoadStoreFacts {b : BasicBlock} {r : Rule} (h : r ∈ addLoadStoreFacts b) :
    ∃ i ∈ b.instrs, (∃ p, i.kind = .load p ∧ r = addLoadFact i p) ∨
      ∃ v p, i.kind = .store v p ∧ r = addStoreFact i p := by
  obtain ⟨i, hi, hr⟩ := List.mem_flatMap.mp h
  refine ⟨i, hi, ?_⟩
  cases hk : i.kind with
  | load p =>
      rw [hk] at hr
      exact .inl ⟨p, rfl, List.mem_singleton.mp hr⟩
  | store v p =>
      rw [hk] at hr
      exact .inr ⟨v, p, rfl, List.mem_singleton.mp hr⟩
  | _ =>
      rw [hk] at hr
      cases hr

/-- The order of two instructions of a function: the first instruction and the first access, two
neighbours in a block, or the end of a block and the beginning of a child in the dominator tree. -/
inductive IsDomFact (trees : Trees) (F : Function) : Rule → Prop
  | first {b : BasicBlock} (hb : F.blocks.head? = some b) (hne : b.front ≠ b.getFirstLoadStoreCallTerm) :
      IsDomFact trees F (addDomFact b.front b.getFirstLoadStoreCallTerm)
  | inBlock {b : BasicBlock} (hb : b ∈ F.blocks) {p : Instruction × Instruction}
      (hp : p ∈ (b.getLoadStoreCallOrdered ++ [b.terminator]).zip
        (b.getLoadStoreCallOrdered ++ [b.terminator]).tail) : IsDomFact trees F (addDomFact p.1 p.2)
  | child {b C : BasicBlock} (hb : b ∈ F.blocks) {c : BlockId} (hc : c ∈ trees.domChildren F.id b.id)
      (hC : F.block? c = some C) :
      IsDomFact trees F (addDomFact b.terminator C.getFirstLoadStoreCallTerm)

theorem mem_addDomLoadStoreFactsFunc {F : Function} (hF : F ∈ M.functions)
    (h : addDomLoadStoreFactsFunc trees F = .ok rules) (hr : r ∈ rules) :
    IsDomFact trees F r ∨ IsAccessFact M r := by
  unfold addDomLoadStoreFactsFunc at h
  cases hblocks : F.blocks with
  | nil =>
      rw [hblocks] at h
      cases h
  | cons first rest =>
      rw [hblocks] at h
      cases h
      rw [← hblocks] at hr
      have hfirst : F.blocks.head? = some first := by rw [hblocks]; rfl
      rcases List.mem_append.mp hr with hr | hr
      · left
        split_ifs at hr with hne
        · rw [List.mem_singleton.mp hr]
          exact .first hfirst hne
        · cases hr
      · obtain ⟨b, hb, hr⟩ := List.mem_flatMap.mp hr
        rcases List.mem_append.mp hr with hr | hr
        · rcases List.mem_append.mp hr with hr | hr
          · obtain ⟨p, hp, rfl⟩ := List.mem_map.mp hr
            exact .inl (.inBlock hb hp)
          · obtain ⟨i, hi, hkind⟩ := mem_addLoadStoreFacts hr
            exact .inr ⟨i, Module.mem_instrs.mpr ⟨F, hF, Function.mem_instrs.mpr ⟨b, hb, hi⟩⟩, hkind⟩
        · obtain ⟨c, hc, hr⟩ := List.mem_filterMap.mp hr
          obtain ⟨C, hC, rfl⟩ := Option.map_eq_some_iff.mp hr
          exact .inl (.child hb hc hC)

theorem mem_addDomLoadStoreFacts_dom (h : addDomLoadStoreFacts trees M threadFuncs = .ok rules)
    (hr : r ∈ rules) :
    r = addTransRuleBVBV .dom ∨ (∃ F ∈ M.functions, IsDomFact trees F r) ∨ IsAccessFact M r := by
  obtain ⟨facts, hfacts, hret⟩ := Fallible.bind_eq_ok.mp h
  cases hret
  rcases List.mem_cons.mp hr with rfl | hr
  · exact .inl rfl
  obtain ⟨fs, hfs, hr⟩ := List.mem_flatten.mp hr
  obtain ⟨f, _, hf⟩ := (Fallible.mapM_mem hfacts).mp hfs
  cases hF : M.func? f with
  | none =>
      rw [hF] at hf
      cases hf
  | some F =>
      rw [hF] at hf
      have hmem := (Module.func?_mem hF).1
      exact .inr ((mem_addDomLoadStoreFactsFunc hmem hf hr).imp_left fun hdom => ⟨F, hmem, hdom⟩)

theorem mem_addDomLoadStoreFacts (h : addDomLoadStoreFacts trees M threadFuncs = .ok rules)
    (hr : r ∈ rules) : IsDomRule r ∨ IsAccessFact M r := by
  rcases mem_addDomLoadStoreFacts_dom h hr with rfl | ⟨F, _, hdom⟩ | hacc
  · exact .inl rfl
  · left
    cases hdom <;> rfl
  · exact .inr hacc

/-- The instructions of two blocks of which the second was not found in a search from the first. -/
def IsNotReachFact (M : Module) (fuel : Nat) (r : Rule) : Prop :=
  ∃ F ∈ M.functions, ∃ B ∈ F.blocks, ∃ N ∈ F.blocks, ∃ reach, F.forwardDfs B.id fuel = .ok reach ∧
    N.id ∉ reach ∧ ∃ i ∈ B.instrs, ∃ nr ∈ N.instrs, r = addNotReachFact i nr

theorem mem_addNotReachableFacts_blocks (h : addNotReachableFacts M fuel = .ok rules) (hr : r ∈ rules) :
    IsNotReachFact M fuel r := by
  obtain ⟨facts, hfacts, hret⟩ := Fallible.bind_eq_ok.mp h
  cases hret
  obtain ⟨fs, hfs, hr⟩ := List.mem_flatten.mp hr
  obtain ⟨fss, hfss, hfs⟩ := List.mem_flatten.mp hfs
  obtain ⟨F, hF, hmapF⟩ := (Fallible.mapM_mem hfacts).mp hfss
  obtain ⟨B, hB, hmapB⟩ := (Fallible.mapM_mem hmapF).mp hfs
  obtain ⟨reach, hreach, hret⟩ := Fallible.bind_eq_ok.mp hmapB
  cases hret
  obtain ⟨N, hN, hr⟩ := List.mem_flatMap.mp hr
  obtain ⟨hN, hnot⟩ := List.mem_filter.mp hN
  obtain ⟨i, hi, hr⟩ := List.mem_flatMap.mp hr
  obtain ⟨nr, hnr, rfl⟩ := List.mem_map.mp hr
  refine ⟨F, hF, B, hB, N, hN, reach, hreach, by simpa using hnot, i, (List.mem_filter.mp hi).1, nr,
    (List.mem_filter.mp hnr).1, rfl⟩

theorem mem_addNotReachableFacts (h : addNotReachableFacts M fuel = .ok rules) (hr : r ∈ rules) :
    r.head.pred = .notReach := by
  obtain ⟨_, _, _, _, _, _, _, _, _, _, _, _, _, rfl⟩ := mem_addNotReachableFacts_blocks h hr
  rfl

/-- A load of a created thread that does not read from a store before the creation: from every store that
must happen before the call, once that is known, and from those that the pass finds before it. -/
def IsCreateNotRfFact (trees : Trees) (M : Module) (r : Rule) : Prop :=
  ∃ F ∈ M.functions, ∃ b ∈ F.blocks, ∃ ci ∈ b.instrs, ∃ T ∈ M.functions, ci.createdFunc = some T.id ∧
    ∃ l ∈ T.getLoads, r = addStoreCreateLoadFact ci l ∨
      ∃ s ∈ getThreadLocalNotRead trees F b ci, r = addNotReadFact l s

theorem mem_addCreateFactsCall {F : Function} {b : BasicBlock} {ci : Instruction} (hF : F ∈ M.functions)
    (hb : b ∈ F.blocks) (hci : ci ∈ b.instrs) (hcreate : ci.isPthreadCreate = true)
    (h : addCreateFactsCall trees M F b ci = .ok rules) (hr : r ∈ rules) :
    IsCreateNotRfFact trees M r ∨ IsCreateFact M r := by
  obtain ⟨f, hf, h⟩ := Fallible.bind_eq_ok.mp h
  cases hT : M.func? f with
  | none =>
      rw [hT] at h
      cases h
  | some tFunc =>
      rw [hT] at h
      dsimp only at h
      obtain ⟨htFunc, rfl⟩ := Module.func?_mem hT
      have hcf := createdFunc_of_getPThreadThreadFunc hf
      cases hblocks : tFunc.blocks with
      | nil =>
          rw [hblocks] at h
          cases h
          cases hr
      | cons first rest =>
          rw [hblocks] at h
          cases h
          rcases List.mem_append.mp hr with hr | hr
          · rcases List.mem_cons.mp hr with rfl | hr
            · exact .inr ⟨ci, Module.mem_instrs.mpr ⟨F, hF, Function.mem_instrs.mpr ⟨b, hb, hci⟩⟩, hcreate,
                tFunc, htFunc, hcf, first, by rw [hblocks]; rfl, rfl⟩
            · obtain ⟨l, hl, rfl⟩ := List.mem_map.mp hr
              exact .inl ⟨F, hF, b, hb, ci, hci, tFunc, htFunc, hcf, l, hl, .inl rfl⟩
          · obtain ⟨s, hs, hr⟩ := List.mem_flatMap.mp hr
            obtain ⟨l, hl, rfl⟩ := List.mem_map.mp hr
            exact .inl ⟨F, hF, b, hb, ci, hci, tFunc, htFunc, hcf, l, hl, .inr ⟨s, hs, rfl⟩⟩

theorem mem_addCreateFacts_notRf (h : addCreateFacts trees M = .ok rules) (hr : r ∈ rules) :
    IsCreateNotRfFact trees M r ∨ IsCreateFact M r := by
  obtain ⟨facts, hfacts, hret⟩ := Fallible.bind_eq_ok.mp h
  cases hret
  obtain ⟨fs, hfs, hr⟩ := List.mem_flatten.mp hr
  obtain ⟨fss, hfss, hfs⟩ := List.mem_flatten.mp hfs
  obtain ⟨fsss, hfsss, hfss⟩ := List.mem_flatten.mp hfss
  obtain ⟨F, hF, hmapF⟩ := (Fallible.mapM_mem hfacts).mp hfsss
  obtain ⟨b, hb, hmapb⟩ := (Fallible.mapM_mem hmapF).mp hfss
  obtain ⟨ci, hci, hcall⟩ := (Fallible.mapM_mem hmapb).mp hfs
  obtain ⟨hci, hcreate⟩ := List.mem_filter.mp hci
  exact mem_addCreateFactsCall hF hb hci hcreate hcall hr

theorem mem_addCreateFacts (h : addCreateFacts trees M = .ok rules) (hr : r ∈ rules) :
    r.head.pred = .notRf ∨ IsCreateFact M r := by
  refine (mem_addCreateFacts_notRf h hr).imp_left ?_
  rintro ⟨_, _, _, _, _, _, _, _, _, _, _, rfl | ⟨_, _, rfl⟩⟩ <;> rfl

theorem mem_addJoinFacts (h : addJoinFacts M fuel = .ok rules) (hr : r ∈ rules) : IsJoinFact M fuel r := by
  obtain ⟨facts, hfacts, hret⟩ := Fallible.bind_eq_ok.mp h
  cases hret
  obtain ⟨fs, hfs, hr⟩ := List.mem_flatten.mp hr
  obtain ⟨i, hi, hcall⟩ := (Fallible.mapM_mem hfacts).mp hfs
  have hnone : ∀ fs', (.ok [] : Except LoopStop (List Rule)) = .ok fs' → r ∉ fs' := by
    rintro fs' h hr
    cases h
    cases hr
  cases hk : i.kind with
  | call callee =>
      cases callee with
      | pthreadJoin thread =>
          rw [hk] at hcall
          dsimp only at hcall
          obtain ⟨found, hfound, hcall⟩ := Fallible.bind_eq_ok.mp hcall
          cases found with
          | none => exact absurd hr (hnone _ hcall)
          | some f =>
              dsimp only at hcall
              cases hT : M.func? f with
              | none =>
                  rw [hT] at hcall
                  cases hcall
              | some thrdFunc =>
                  rw [hT] at hcall
                  dsimp only at hcall
                  obtain ⟨hmem, rfl⟩ := Module.func?_mem hT
                  by_cases hempty : thrdFunc.blocks.isEmpty = true
                  · rw [if_pos hempty] at hcall
                    exact absurd hr (hnone _ hcall)
                  · rw [if_neg hempty] at hcall
                    by_cases hrets : (getRets thrdFunc).isEmpty = true
                    · simp only [hrets, if_true] at hcall
                      cases hcall
                    · simp only [hrets] at hcall
                      cases hcall
                      obtain ⟨ret, hret, rfl⟩ := List.mem_map.mp hr
                      exact ⟨i, hi, thread, hk, thrdFunc, hmem, hfound, ret, hret, rfl⟩
      | _ =>
          rw [hk] at hcall
          exact absurd hr (hnone _ hcall)
  | _ =>
      rw [hk] at hcall
      exact absurd hr (hnone _ hcall)

theorem addPruningRules_mem (h : addConstraints trees M threadFuncs fuel = .ok rules) :
    ∀ r ∈ addPruningRules, r ∈ rules := by
  obtain ⟨doms, _, h⟩ := Fallible.bind_eq_ok.mp h
  obtain ⟨creates, _, h⟩ := Fallible.bind_eq_ok.mp h
  obtain ⟨joins, _, h⟩ := Fallible.bind_eq_ok.mp h
  obtain ⟨notReach, _, h⟩ := Fallible.bind_eq_ok.mp h
  cases h
  intro r hr
  simp only [List.mem_append, hr, true_or, or_true]

/-! ### Reads in an order -/

section Order

variable (rank : Value → Nat) (l s v : Value)

/-- What holds when the values stand in an order, the load `l` reads the store `s`, and that is the only one to
`v`. -/
def inOrder (a : GroundAtom) : Bool :=
  match a.pred, a.args with
  | .dom, [x, y] => rank x < rank y
  | .mhb, [x, y] => rank x < rank y
  | .rf, [x, y] => x = l ∧ y = s
  | .st, [x, p] => x = s ↔ p = v
  | .notRf, [x, y] => ¬ (x = l ∧ y = s)
  | _, _ => true

/-- A fact that holds in the order, a rule about all values, or a rule that excludes the reading of other values
than `s`. -/
def KeepsOrder (others : List Value) (r : Rule) : Prop :=
  (∃ a ∈ r.ground?, inOrder rank l s v a = true) ∨ r = addTransRuleBVBV .dom ∨
    r ∈ addPruningRules ++ [addReadsFromIsMHB] ∨ ∃ d ∈ others, r.head = atom .notRf (.bound 0) (.const d)

instance (others : List Value) (r : Rule) : Decidable (KeepsOrder rank l s v others r) := by
  unfold KeepsOrder
  infer_instance

variable {rank l s v}

/-- The rules about all values hold. -/
theorem inOrder_rule (hls : rank s < rank l) {r : Rule}
    (hr : r = addTransRuleBVBV .dom ∨ r ∈ addPruningRules ++ [addReadsFromIsMHB]) :
    r.Holds fun a => inOrder rank l s v a = true := by
  intro σ hb
  simp only [addPruningRules, List.cons_append, List.nil_append, List.mem_cons, List.not_mem_nil,
    or_false] at hr
  rcases hr with rfl | rfl | rfl | rfl | rfl | rfl | rfl | rfl
  · have h₁ := of_decide_eq_true (hb (atom .dom (.bound 0) (.bound 1)) (.head _))
    have h₂ := of_decide_eq_true (hb (atom .dom (.bound 1) (.bound 2)) (.tail _ (.head _)))
    exact decide_eq_true (h₁.trans h₂)
  · obtain ⟨hl, hs⟩ := of_decide_eq_true (hb (atom .rf (.bound 0) (.bound 1)) (.head _))
    exact decide_eq_true (by rw [hl, hs]; exact hls)
  · exact hb (atom .dom (.bound 0) (.bound 1)) (.head _)
  · -- the store after `s` would be `s` itself
    obtain ⟨_, hs⟩ := of_decide_eq_true (hb (atom .rf (.bound 2) (.bound 0)) (.head _))
    have hlt := of_decide_eq_true (hb (atom .mhb (.bound 0) (.bound 1)) (.tail _ (.head _)))
    have hst := of_decide_eq_true (hb (atom .st (.bound 0) (.bound 3)) (.tail _ (.tail _ (.tail _ (.head _)))))
    have hst' := of_decide_eq_true
      (hb (atom .st (.bound 1) (.bound 3)) (.tail _ (.tail _ (.tail _ (.tail _ (.head _))))))
    have hs' := hst'.mpr (hst.mp hs)
    rw [hs, hs'] at hlt
    exact absurd hlt (Nat.lt_irrefl _)
  · have h₁ := of_decide_eq_true (hb (atom .mhb (.bound 0) (.bound 1)) (.head _))
    have h₂ := of_decide_eq_true (hb (atom .mhb (.bound 1) (.bound 2)) (.tail _ (.head _)))
    exact decide_eq_true (h₁.trans h₂)
  · have hlt := of_decide_eq_true (hb (atom .mhb (.bound 0) (.bound 1)) (.head _))
    refine decide_eq_true fun heq => ?_
    rw [heq.1, heq.2] at hlt
    exact absurd hlt hls.asymm
  · obtain ⟨hl, _⟩ := of_decide_eq_true (hb (atom .rf (.bound 0) (.bound 2)) (.head _))
    have h₁ := of_decide_eq_true (hb (atom .mhb (.bound 0) (.bound 3)) (.tail _ (.head _)))
    have h₂ := of_decide_eq_true (hb (atom .mhb (.bound 3) (.bound 1)) (.tail _ (.tail _ (.head _))))
    refine decide_eq_true fun heq => ?_
    rw [hl] at h₁
    rw [heq.1] at h₂
    exact absurd h₁ h₂.asymm
  · obtain ⟨hl, hs⟩ := of_decide_eq_true (hb (atom .rf (.bound 3) (.bound 2)) (.head _))
    exact decide_eq_true (by rw [hl, hs]; exact hls)

/-- **A read that keeps to an order is not excluded.** -/
theorem not_derives_of_keepsOrder {R : List Rule} (hls : rank s < rank l) {others : List Value} (hs : s ∉ others)
    (hR : ∀ r ∈ R, KeepsOrder rank l s v others r) : ¬ Horn.Derives R ⟨.notRf, [l, s]⟩ := by
  intro hder
  refine of_decide_eq_true (hder.sound (I := fun a => inOrder rank l s v a = true) fun r hr => ?_) ⟨rfl, rfl⟩
  rcases hR r hr with ⟨a, ha, hmeaning⟩ | hdom | hrule | ⟨d, hd, hhead⟩
  · exact Horn.Rule.ground?_holds ha hmeaning
  · exact inOrder_rule hls (.inl hdom)
  · exact inOrder_rule hls (.inr hrule)
  · intro σ _
    rw [hhead]
    exact decide_eq_true fun heq => hs (heq.2 ▸ hd)

end Order

end Watts
