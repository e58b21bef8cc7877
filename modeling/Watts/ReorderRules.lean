import Watts.Constraints

/-! The rules of the memory models weaker than sequential consistency.  In all three tables the two
variables of a pair of accesses are the same bound variable, so that also the rules for different
variables only relate accesses to one variable. -/

namespace Watts

/-- `(=> (and (dom a b) (not-reach b a) (noreorder a b)) (mhb a b))` -/
def addDomNotReachReorderRule : Rule :=
  let a : Horn.Term Value := .bound 0
  let b : Horn.Term Value := .bound 1
  ⟨[atom .dom a b, atom .notReach b a, atom .noReorder a b], atom .mhb a b⟩

/-- `(=> (and (fd1 a v1) (fd2 b v2)) (noreorder a b))` -/
def addNoReoFunc2Func2 (fd1 fd2 : Rel) (v1 v2 : Horn.Term Value) : Rule :=
  let a : Horn.Term Value := .bound 0
  let b : Horn.Term Value := .bound 1
  ⟨[atom fd1 a v1, atom fd2 b v2], atom .noReorder a b⟩

/-- Meant as `(=> (and (fd1 a) (fd2 b v)) (noreorder a b))`; `v` has the index of `b`. -/
def addNoReoFunc1Func2 (fd1 fd2 : Rel) : Rule :=
  let a : Horn.Term Value := .bound 0
  let b : Horn.Term Value := .bound 1
  let v : Horn.Term Value := .bound 1
  ⟨[⟨fd1, [a]⟩, atom fd2 b v], atom .noReorder a b⟩

/-- Meant as `(=> (and (fd1 a v) (fd2 b)) (noreorder a b))`; `v` has the index of `b`. -/
def addNoReoFunc2Func1 (fd1 fd2 : Rel) : Rule :=
  let a : Horn.Term Value := .bound 0
  let b : Horn.Term Value := .bound 1
  let v : Horn.Term Value := .bound 1
  ⟨[atom fd1 a v, ⟨fd2, [b]⟩], atom .noReorder a b⟩

def addFenceReorderRules : List Rule :=
  [addNoReoFunc1Func2 .fence .st, addNoReoFunc1Func2 .fence .ld, addNoReoFunc2Func1 .st .fence,
    addNoReoFunc2Func1 .ld .fence]

def addTSOReorderRules : List Rule :=
  let v1 : Horn.Term Value := .bound 2
  let v2 : Horn.Term Value := .bound 2
  [addNoReoFunc2Func2 .ld .ld v1 v1, addNoReoFunc2Func2 .ld .st v1 v1,
    addNoReoFunc2Func2 .st .st v1 v1, addNoReoFunc2Func2 .ld .ld v1 v2,
    addNoReoFunc2Func2 .ld .st v1 v2, addNoReoFunc2Func2 .st .st v1 v2] ++ addFenceReorderRules

def addPSOReorderRules : List Rule :=
  let v1 : Horn.Term Value := .bound 2
  let v2 : Horn.Term Value := .bound 2
  [addNoReoFunc2Func2 .ld .ld v1 v1, addNoReoFunc2Func2 .ld .st v1 v1,
    addNoReoFunc2Func2 .st .st v1 v1, addNoReoFunc2Func2 .ld .ld v1 v2,
    addNoReoFunc2Func2 .ld .st v1 v2] ++ addFenceReorderRules

def addRMOReorderRules : List Rule :=
  let v1 : Horn.Term Value := .bound 2
  [addNoReoFunc2Func2 .ld .ld v1 v1, addNoReoFunc2Func2 .ld .st v1 v1,
    addNoReoFunc2Func2 .st .st v1 v1] ++ addFenceReorderRules

def addNoReorderRules : List Rule :=
  [addDomNotReachReorderRule, addMHBNRFRule, addReadsFromMHB, addMHBTrans, addMHBNotReads,
    addOverwriteNotReads]

/-- The memory models that the flags select. -/
inductive MemoryModel
  | tso | pso | rmo
deriving DecidableEq, Repr

/-- The memory model of the flags; none for sequential consistency. -/
def Options.memoryModel (o : Options) : Option MemoryModel :=
  if o.tsoConstrG then some .tso
  else if o.psoConstrG then some .pso
  else if o.rmoConstrG then some .rmo
  else none

namespace MemoryModel

def reorderRules : MemoryModel → List Rule
  | .tso => addTSOReorderRules
  | .pso => addPSOReorderRules
  | .rmo => addRMOReorderRules

/-- All rules of a memory model. -/
def rules (model : MemoryModel) : List Rule :=
  addNoReorderRules ++ model.reorderRules ++ [addReadsFromIsMHB]

/-- The documented pairs of accesses to the same variable. -/
def sameVariable : List (Rel × Rel) :=
  [(.ld, .ld), (.ld, .st), (.st, .st)]

/-- The documented pairs of accesses to any two variables. -/
def anyVariables : MemoryModel → List (Rel × Rel)
  | .tso => [(.ld, .ld), (.ld, .st), (.st, .st)]
  | .pso => [(.ld, .ld), (.ld, .st)]
  | .rmo => []

end MemoryModel

/-! ### What is derived -/

section Derived

variable {base : List Rule}

/-- The facts have an access of a kind to a variable. -/
def Access (base : List Rule) (fd : Rel) (a v : Value) : Prop :=
  Horn.Rule.fact fd [a, v] ∈ base

/-- A load or a store of some variable. -/
def IsAccess (base : List Rule) (a : Value) : Prop :=
  ∃ v, Access base .ld a v ∨ Access base .st a v

/-- Facts and rules to which a memory model is added: the accesses and the fences are facts, and no
access is a fence. -/
structure BaseRules (base : List Rule) : Prop where
  noReorder : ∀ r ∈ base, r.head.pred ≠ .noReorder
  facts : ∀ r ∈ base, r.head.pred ∈ [Rel.ld, .st, .fence] → ∃ cs, r = .fact r.head.pred cs
  fence : ∀ a, Horn.Rule.fact .fence [a] ∈ base → ¬ IsAccess base a

/-- Two accesses to one variable, of kinds that are not reordered there. -/
def SameVariable (base : List Rule) (a b : Value) : Prop :=
  ∃ p ∈ MemoryModel.sameVariable, ∃ v, Access base p.1 a v ∧ Access base p.2 b v

/-- The pairs that the comments of the tables list. -/
def Documented (model : MemoryModel) (base : List Rule) (a b : Value) : Prop :=
  SameVariable base a b ∨ ∃ p ∈ model.anyVariables, ∃ v w, Access base p.1 a v ∧ Access base p.2 b w

/-- What the relations of a memory model say: an access and a fence are facts, and two statements that
are not reordered access one variable or are not both accesses. -/
def ReorderMeaning (base : List Rule) : GroundAtom → Prop
  | ⟨.noReorder, args⟩ => ∃ a b, args = [a, b] ∧
      (SameVariable base a b ∨ Horn.Rule.fact .fence [a] ∈ base ∨ Horn.Rule.fact .fence [b] ∈ base)
  | ⟨.ld, args⟩ => Horn.Rule.fact .ld args ∈ base
  | ⟨.st, args⟩ => Horn.Rule.fact .st args ∈ base
  | ⟨.fence, args⟩ => Horn.Rule.fact .fence args ∈ base
  | _ => True

theorem reorderMeaning_fact {fd : Rel} (hfd : fd ∈ [Rel.ld, .st, .fence]) {args : List Value} :
    ReorderMeaning base ⟨fd, args⟩ ↔ Horn.Rule.fact fd args ∈ base := by
  simp only [List.mem_cons, List.not_mem_nil, or_false] at hfd
  rcases hfd with rfl | rfl | rfl <;> exact Iff.rfl

theorem reorderMeaning_other {r : Rule} (h : r.head.pred ∉ [Rel.noReorder, .ld, .st, .fence]) :
    r.Holds (ReorderMeaning base) := by
  intro σ _
  unfold Horn.Atom.inst
  generalize r.head.pred = p at h
  cases p <;> trivial

/-- The rules for a pair of accesses. -/
theorem addNoReoFunc2Func2_holds {p : Rel × Rel} (hp : p ∈ MemoryModel.sameVariable) :
    (addNoReoFunc2Func2 p.1 p.2 (.bound 2) (.bound 2)).Holds (ReorderMeaning base) := by
  intro σ hb
  have h₁ := hb (atom p.1 (.bound 0) (.bound 2)) (.head _)
  have h₂ := hb (atom p.2 (.bound 1) (.bound 2)) (.tail _ (.head _))
  have hkinds : p.1 ∈ [Rel.ld, .st, .fence] ∧ p.2 ∈ [Rel.ld, .st, .fence] := by
    simp only [MemoryModel.sameVariable, List.mem_cons, List.not_mem_nil, or_false] at hp
    rcases hp with rfl | rfl | rfl <;> decide
  exact ⟨σ 0, σ 1, rfl, .inl ⟨p, hp, σ 2, (reorderMeaning_fact hkinds.1).mp h₁,
    (reorderMeaning_fact hkinds.2).mp h₂⟩⟩

theorem addFenceReorderRules_hold : ∀ r ∈ addFenceReorderRules, r.Holds (ReorderMeaning base) := by
  have hfirst : ∀ fd, (addNoReoFunc1Func2 .fence fd).Holds (ReorderMeaning base) :=
    fun fd σ hb => ⟨σ 0, σ 1, rfl, .inr (.inl (hb ⟨.fence, [.bound 0]⟩ (.head _)))⟩
  have hsecond : ∀ fd, (addNoReoFunc2Func1 fd .fence).Holds (ReorderMeaning base) :=
    fun fd σ hb => ⟨σ 0, σ 1, rfl, .inr (.inr (hb ⟨.fence, [.bound 1]⟩ (.tail _ (.head _))))⟩
  intro r hr
  simp only [addFenceReorderRules, List.mem_cons, List.not_mem_nil, or_false] at hr
  rcases hr with rfl | rfl | rfl | rfl
  · exact hfirst .st
  · exact hfirst .ld
  · exact hsecond .st
  · exact hsecond .ld

/-- The rules for two variables are those for one. -/
theorem mem_reorderRules {model : MemoryModel} {r : Rule} :
    r ∈ model.reorderRules ↔
      (∃ p ∈ MemoryModel.sameVariable, r = addNoReoFunc2Func2 p.1 p.2 (.bound 2) (.bound 2)) ∨
        r ∈ addFenceReorderRules := by
  have hpairs : ∀ r : Rule,
      (∃ p ∈ MemoryModel.sameVariable, r = addNoReoFunc2Func2 p.1 p.2 (.bound 2) (.bound 2)) ↔
        r ∈ [addNoReoFunc2Func2 .ld .ld (.bound 2) (.bound 2), addNoReoFunc2Func2 .ld .st (.bound 2) (.bound 2),
          addNoReoFunc2Func2 .st .st (.bound 2) (.bound 2)] := by
    intro r
    simp [MemoryModel.sameVariable]
  rw [hpairs]
  cases model <;>
    simp only [MemoryModel.reorderRules, addTSOReorderRules, addPSOReorderRules, addRMOReorderRules,
      List.mem_append, List.mem_cons, List.not_mem_nil, or_false] <;>
    tauto

theorem rules_hold (hbase : BaseRules base) (model : MemoryModel) :
    ∀ r ∈ base ++ model.rules, r.Holds (ReorderMeaning base) := by
  intro r hr
  rcases List.mem_append.mp hr with hr | hr
  · by_cases hfd : r.head.pred ∈ [Rel.ld, .st, .fence]
    · obtain ⟨cs, hcs⟩ := hbase.facts r hr hfd
      rw [hcs]
      refine Horn.Rule.fact_holds ((reorderMeaning_fact hfd).mpr ?_)
      rwa [← hcs]
    · exact reorderMeaning_other fun h => (List.mem_cons.mp h).elim (hbase.noReorder r hr) hfd
  · unfold MemoryModel.rules at hr
    rcases List.mem_append.mp hr with hr | hr
    · rcases List.mem_append.mp hr with hr | hr
      · refine reorderMeaning_other ?_
        simp only [addNoReorderRules, List.mem_cons, List.not_mem_nil, or_false] at hr
        rcases hr with rfl | rfl | rfl | rfl | rfl | rfl <;> decide
      · rcases mem_reorderRules.mp hr with ⟨p, hp, rfl⟩ | hr
        · exact addNoReoFunc2Func2_holds hp
        · exact addFenceReorderRules_hold r hr
    · rw [List.mem_singleton.mp hr]
      exact reorderMeaning_other (by decide)

/-- **In each memory model** two accesses are derived not to be reordered exactly when they access one
variable. -/
theorem derives_noReorder_iff (hbase : BaseRules base) (model : MemoryModel) {a b : Value}
    (ha : IsAccess base a) (hb : IsAccess base b) :
    Horn.Derives (base ++ model.rules) ⟨.noReorder, [a, b]⟩ ↔ SameVariable base a b := by
  constructor
  · intro h
    obtain ⟨a', b', heq, hmeaning⟩ := h.sound (rules_hold hbase model)
    obtain ⟨rfl, rfl⟩ : a = a' ∧ b = b' := by simpa using heq
    rcases hmeaning with hsame | hfence | hfence
    · exact hsame
    · exact absurd ha (hbase.fence a hfence)
    · exact absurd hb (hbase.fence b hfence)
  · rintro ⟨p, hp, v, hav, hbv⟩
    let σ : Nat → Value := fun i => if i = 0 then a else if i = 1 then b else v
    have hrule : addNoReoFunc2Func2 p.1 p.2 (.bound 2) (.bound 2) ∈ base ++ model.rules :=
      List.mem_append_right _ (List.mem_append_left _ (List.mem_append_right _
        (mem_reorderRules.mpr (.inl ⟨p, hp, rfl⟩))))
    refine Horn.Derives.closed hrule σ ?_
    intro x hx
    rcases List.mem_pair.mp hx with rfl | rfl
    · exact Horn.Derives.fact σ (List.mem_append_left _ hav)
    · exact Horn.Derives.fact σ (List.mem_append_left _ hbv)

/-- Two accesses of kinds that the table of the model lists for any two variables have a variable, and
kinds, in common that are not reordered. -/
def OneVariable (model : MemoryModel) (base : List Rule) : Prop :=
  ∀ p ∈ model.anyVariables, ∀ a b v w, Access base p.1 a v → Access base p.2 b w → SameVariable base a b

theorem isAccess_of_mem {model : MemoryModel} {p : Rel × Rel} (hp : p ∈ model.anyVariables) {a b v w : Value}
    (ha : Access base p.1 a v) (hb : Access base p.2 b w) : IsAccess base a ∧ IsAccess base b := by
  have hkinds : (p.1 = .ld ∨ p.1 = .st) ∧ (p.2 = .ld ∨ p.2 = .st) := by
    cases model <;>
      simp only [MemoryModel.anyVariables, List.mem_cons, List.not_mem_nil, or_false] at hp
    · rcases hp with rfl | rfl | rfl <;> decide
    · rcases hp with rfl | rfl <;> decide
  refine ⟨⟨v, ?_⟩, ⟨w, ?_⟩⟩
  · rcases hkinds.1 with h | h
    · exact .inl (h ▸ ha)
    · exact .inr (h ▸ ha)
  · rcases hkinds.2 with h | h
    · exact .inl (h ▸ hb)
    · exact .inr (h ▸ hb)

end Derived

/-- For every two accesses it is derived that they are not reordered exactly when the comments list them. -/
def AsDocumented (model : MemoryModel) (base : List Rule) : Prop :=
  ∀ a b, IsAccess base a → IsAccess base b →
    (Horn.Derives (base ++ model.rules) ⟨.noReorder, [a, b]⟩ ↔ Documented model base a b)

/-- **The tables.**  The derived pairs of accesses are the documented ones exactly when the accesses of
the kinds that are listed for any two variables access one variable. -/
theorem noReorder_documented_iff (model : MemoryModel) (base : List Rule) (hbase : BaseRules base) :
    AsDocumented model base ↔ OneVariable model base := by
  constructor
  · intro h p hp a b v w hav hbw
    obtain ⟨ha, hb⟩ := isAccess_of_mem hp hav hbw
    rw [← derives_noReorder_iff hbase model ha hb, h a b ha hb]
    exact .inr ⟨p, hp, v, w, hav, hbw⟩
  · intro h a b ha hb
    rw [derives_noReorder_iff hbase model ha hb]
    constructor
    · exact .inl
    · rintro (hsame | ⟨p, hp, v, w, hav, hbw⟩)
      · exact hsame
      · exact h p hp a b v w hav hbw

namespace TwoLoads

/-- The facts of a load of the variable `0` and a load of the variable `v`. -/
def base (v : Value) : List Rule :=
  [.fact .ld [10, 0], .fact .ld [11, v]]

theorem baseRules (v : Value) : BaseRules (base v) where
  noReorder := by
    intro r hr
    rcases List.mem_pair.mp hr with rfl | rfl <;> exact nofun
  facts := by
    intro r hr _
    rcases List.mem_pair.mp hr with rfl | rfl
    · exact ⟨_, rfl⟩
    · exact ⟨_, rfl⟩
  fence := by
    intro a ha
    rcases List.mem_pair.mp ha with h | h <;> simp [Horn.Rule.fact] at h

/-- **Two loads of different variables** may be reordered under TSO and PSO. -/
theorem not_documented : ¬ AsDocumented .tso (base 1) := by
  intro h
  have h₁ : IsAccess (base 1) 10 := ⟨0, .inl (.head _)⟩
  have h₂ : IsAccess (base 1) 11 := ⟨1, .inl (.tail _ (.head _))⟩
  have hdoc : Documented .tso (base 1) 10 11 :=
    .inr ⟨(.ld, .ld), .head _, 0, 1, .head _, .tail _ (.head _)⟩
  obtain ⟨p, hp, v, hav, hbv⟩ := (derives_noReorder_iff (baseRules 1) .tso h₁ h₂).mp ((h 10 11 h₁ h₂).mpr hdoc)
  rcases List.mem_pair.mp hav with h₁ | h₁ <;> rcases List.mem_pair.mp hbv with h₂ | h₂ <;>
    simp [Horn.Rule.fact] at h₁ h₂
  exact absurd (h₁.2.symm.trans h₂.2) (by decide)

theorem documented_same : AsDocumented .tso (base 0) :=
  (noReorder_documented_iff .tso (base 0) (baseRules 0)).mpr (by
    have hload : ∀ fd a v, Access (base 0) fd a v → fd = .ld ∧ v = 0 := by
      intro fd a v h
      rcases List.mem_pair.mp h with h | h <;> simp [Horn.Rule.fact] at h <;> exact ⟨h.1, h.2.2⟩
    intro p _ a b v w hav hbw
    obtain ⟨h₁, rfl⟩ := hload _ _ _ hav
    obtain ⟨h₂, rfl⟩ := hload _ _ _ hbw
    exact ⟨(.ld, .ld), .head _, 0, h₁ ▸ hav, h₂ ▸ hbw⟩)

end TwoLoads

end Watts
