import Watts.Books
import Mathlib.Logic.Function.Basic

/-! Concrete executions.  A state of a thread gives each register its value and each pointer the
value that the thread last saw in the cell behind it.  What instructions other than loads and stores
compute, and which way a branch may go, is a parameter; what a load may read is another one, so that
the same steps serve for a thread alone, under interference, and inside an interleaving. -/

namespace Watts

/-- A concrete state of a thread. -/
abbrev Env := Value → Int

/-- The meaning of the instructions on the registers of a thread. -/
structure Semantics where
  /-- The values that an operand may have. -/
  operand : Env → Operand → Int → Prop
  /-- The effect of an instruction that does not access memory. -/
  exec : Instruction → Env → Env → Prop
  /-- The values that a read-modify-write may store, for a value it read. -/
  rmw : Instruction → Env → Int → Int → Prop
  /-- The directions that a conditional branch may take. -/
  branch : Condition → Env → Bool → Prop

/-- What a load may read: for the load, its pointer and the thread's state. -/
abbrev ReadRel := Instruction → Value → Env → Int → Prop

variable (sem : Semantics) (reads : ReadRel)

/-- One execution of an instruction before the terminator.  Calls leave the registers alone. -/
inductive InstStep : Instruction → Env → Env → Prop
  | alloca {i : Instruction} {σ : Env} (hk : i.kind = .alloca) : InstStep i σ σ
  | store {i : Instruction} {σ : Env} {val : Operand} {ptr : Value} {v : Int}
      (hk : i.kind = .store val ptr) (hv : sem.operand σ val v) :
      InstStep i σ (Function.update σ ptr v)
  | load {i : Instruction} {σ : Env} {ptr : Value} {v : Int} (hk : i.kind = .load ptr)
      (hr : reads i ptr σ v) :
      InstStep i σ (Function.update (Function.update σ ptr v) i.id v)
  | rmw {i : Instruction} {σ : Env} {op : RMWOp} {ptr : Value} {val : Operand} {v w : Int}
      (hk : i.kind = .atomicRMW op ptr val) (hr : reads i ptr σ v) (hw : sem.rmw i σ v w) :
      InstStep i σ (Function.update (Function.update σ i.id v) ptr w)
  | cmpXchg {i : Instruction} {σ : Env} {ptr : Value} {v w : Int}
      (hk : i.kind = .atomicCmpXchg ptr) (hr : reads i ptr σ v) (hw : sem.rmw i σ v w) :
      InstStep i σ (Function.update (Function.update σ i.id v) ptr w)
  | call {i : Instruction} {σ : Env} {c : Callee} (hk : i.kind = .call c) : InstStep i σ σ
  | other {i : Instruction} {σ σ' : Env} (hs : i.getStorePtr = none) (hl : i.getLoadPtr = none)
      (hc : i.isCall = false) (hx : sem.exec i σ σ') : InstStep i σ σ'

/-- The successors that a terminator may choose. -/
def Branches (t : Instruction) (σ : Env) (b : BlockId) : Prop :=
  match t.kind with
  | .condBr cond trueSucc falseSucc =>
    (sem.branch cond σ true ∧ b = trueSucc) ∨ (sem.branch cond σ false ∧ b = falseSucc)
  | _ => b ∈ t.successors

theorem Branches.mem_successors {t : Instruction} {σ : Env} {b : BlockId} (h : Branches sem t σ b) :
    b ∈ t.successors := by
  unfold Branches at h
  split at h
  · next hk => rcases h with ⟨_, rfl⟩ | ⟨_, rfl⟩ <;> simp [Instruction.successors, hk]
  · exact h

/-- Where a path stands: the block, the instructions of its body still to execute, the state. -/
structure PathConf where
  block : BasicBlock
  rest : List Instruction
  env : Env

/-- An executed instruction with the states before and after it. -/
structure Executed where
  inst : Instruction
  before : Env
  after : Env

/-- The paths of a function, with the instructions they execute. -/
inductive Path (F : Function) : PathConf → List Executed → PathConf → Prop
  | nil (c : PathConf) : Path F c [] c
  | inst {c : PathConf} {tr : List Executed} {B : BasicBlock} {i : Instruction}
      {is : List Instruction} {σ σ' : Env} :
      Path F c tr ⟨B, i :: is, σ⟩ → InstStep sem reads i σ σ' →
      Path F c (tr ++ [⟨i, σ, σ'⟩]) ⟨B, is, σ'⟩
  | jump {c : PathConf} {tr : List Executed} {B B' : BasicBlock} {σ : Env} :
      Path F c tr ⟨B, [], σ⟩ → Branches sem B.terminator σ B'.id → B' ∈ F.blocks →
      Path F c tr ⟨B', B'.body, σ⟩

variable {sem reads} in
/-- A step stays one when the load may read more. -/
theorem InstStep.mono {reads' : ReadRel} {i : Instruction} {σ σ' : Env}
    (h : ∀ ptr v, i.getLoadPtr = some ptr → reads i ptr σ v → reads' i ptr σ v) (hs : InstStep sem reads i σ σ') :
    InstStep sem reads' i σ σ' := by
  cases hs with
  | alloca hk => exact .alloca hk
  | store hk hv => exact .store hk hv
  | load hk hr => exact .load hk (h _ _ (by rw [Instruction.getLoadPtr, hk]) hr)
  | rmw hk hr hw => exact .rmw hk (h _ _ (by rw [Instruction.getLoadPtr, hk]) hr) hw
  | cmpXchg hk hr hw => exact .cmpXchg hk (h _ _ (by rw [Instruction.getLoadPtr, hk]) hr) hw
  | call hk => exact .call hk
  | other hs hl hc hx => exact .other hs hl hc hx

variable {sem reads} in
/-- A path stays one when its loads may read more. -/
theorem Path.mono {reads' : ReadRel} {F : Function} {c c' : PathConf} {tr : List Executed}
    (h : ∀ i ptr σ v, reads i ptr σ v → reads' i ptr σ v) (hp : Path sem reads F c tr c') :
    Path sem reads' F c tr c' := by
  induction hp with
  | nil => exact .nil _
  | inst _ hs ih => exact .inst ih (hs.mono fun _ _ _ => h _ _ _ _)
  | jump _ hb hB ih => exact .jump ih hb hB

/-! ### Concretisation -/

/-- What the facts mean: sets of states, ordered by `leq`, with the join as an upper bound and an
empty bottom. -/
structure Concretisation (ap : Apron) where
  γ : LatticeFact ap → Set Env
  leq_sound : ∀ {f g : LatticeFact ap}, f.leq g → γ f ⊆ γ g
  join_left : ∀ f g : LatticeFact ap, γ f ⊆ γ (f.factJoin g)
  join_right : ∀ f g : LatticeFact ap, γ g ⊆ γ (f.factJoin g)
  bottom_empty : γ ⟨ap.bottom⟩ = ∅

namespace Concretisation

variable {ap : Apron} (K : Concretisation ap)

theorem joinOrder : JoinOrder fun f g : LatticeFact ap => K.γ f ⊆ K.γ g where
  refl _ := subset_rfl
  trans h₁ h₂ := h₁.trans h₂
  left := K.join_left
  right := K.join_right

/-- A load in the interference map reads a value that its interference allows, or in the
non-combinational mode that or the thread's own value; other loads read the thread's own value. -/
def Reads (interf : InterfMap ap) (nc : Bool) : ReadRel := fun i ptr σ v =>
  match interf[i.id]? with
  | none => v = σ ptr
  | some itf => (∃ τ ∈ K.γ itf, v = τ ptr) ∨ (nc = true ∧ v = σ ptr)

/-- The transfer functions of a function's instructions over-approximate their meaning. -/
def SoundTransfer (cx : Ctx) (interf : InterfMap ap) (F : Function) : Prop :=
  ∀ i ∈ F.instrs, ∀ (f f' : LatticeFact ap) (σ σ' : Env), σ ∈ K.γ f →
    InstStep sem (K.Reads interf cx.opts.noCombinsG) i σ σ' →
    BBOps.transferFact cx interf cx.opts.noCombinsG f i = .ok f' → σ' ∈ K.γ f'

/-- The refinements at a function's conditional branches over-approximate the directions taken. -/
def SoundBranch (cx : Ctx) (F : Function) : Prop :=
  ∀ i ∈ F.instrs, ∀ cond t e, i.kind = .condBr cond t e →
    ∀ (f f' : LatticeFact ap) (σ : Env) (dir : Bool), σ ∈ K.γ f → sem.branch cond σ dir →
      f.constrainTF cx.opts cond dir cx.v2n = .ok f' → σ ∈ K.γ f'

/-- The bookkeeping accounts for an executed instruction: an error call is a reachable error, a
store has a fact that contains the state after it, a thread creation one that contains the state at
it. -/
def Accounts (books : Books ap) (e : Executed) : Prop :=
  match e.inst.kind with
  | .store .. | .atomicRMW .. => ∃ f, books.reachStores[e.inst.id]? = some f ∧ e.after ∈ K.γ f
  | .call (.pthreadCreate ..) =>
    ∃ f, books.reachThreadCreate[e.inst.id]? = some f ∧ e.before ∈ K.γ f
  | .call .assertFail => e.inst.id ∈ books.rErrors
  | _ => True

theorem accounts_of_records {books : Books ap} {i : Instruction} {fIn fOut : LatticeFact ap}
    {σ σ' : Env} (h : Books.Records (fun f g => K.γ f ⊆ K.γ g) books i fIn fOut)
    (hσ : σ ∈ K.γ fIn) (hσ' : σ' ∈ K.γ fOut) : K.Accounts books ⟨i, σ, σ'⟩ := by
  cases hk : i.kind with
  | store val ptr =>
      simp only [Books.Records, Accounts, hk] at h ⊢
      obtain ⟨g, hg, hsub⟩ := h
      exact ⟨g, hg, hsub hσ'⟩
  | atomicRMW op ptr val =>
      simp only [Books.Records, Accounts, hk] at h ⊢
      obtain ⟨g, hg, hsub⟩ := h
      exact ⟨g, hg, hsub hσ'⟩
  | call callee =>
      cases callee with
      | pthreadCreate thread f args =>
          simp only [Books.Records, Accounts, hk] at h ⊢
          obtain ⟨g, hg, hsub⟩ := h
          exact ⟨g, hg, hsub hσ⟩
      | assertFail => simpa only [Books.Records, Accounts, hk] using h
      | _ => simp only [Accounts, hk]
  | _ => simp only [Accounts, hk]

theorem accounts_mono {books books' : Books ap}
    (hg : Books.Grows (fun f g => K.γ f ⊆ K.γ g) books books') {e : Executed}
    (h : K.Accounts books e) : K.Accounts books' e := by
  unfold Accounts at h ⊢
  split at h
  · obtain ⟨f, hf, hm⟩ := h
    obtain ⟨g, hgg, hsub⟩ := hg.reachStores _ _ hf
    exact ⟨g, hgg, hsub hm⟩
  · obtain ⟨f, hf, hm⟩ := h
    obtain ⟨g, hgg, hsub⟩ := hg.reachStores _ _ hf
    exact ⟨g, hgg, hsub hm⟩
  · obtain ⟨f, hf, hm⟩ := h
    obtain ⟨g, hgg, hsub⟩ := hg.reachThreadCreate _ _ hf
    exact ⟨g, hgg, hsub hm⟩
  · exact hg.rErrors _ h
  · trivial

end Concretisation

end Watts
