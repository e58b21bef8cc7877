import Watts.InterferenceFixpoint
import Watts.PruningSound

/-! Thread-modular soundness of the non-combinational mode.  In an interleaving every cell holds what a thread
last saw in it or what another thread has stored since, and the last analysis of each thread allows both for
each of its loads.  So each thread stays on track of its last analysis, whose bookkeeping is what the pass
returns. -/

namespace Watts

open Runs (Run)
open Worklist (Pop)

variable {ap : Apron}

/-! ### What is assumed -/

/-- A pointer that an instruction loads from or stores to. -/
def Module.Pointer (M : Module) (q : Value) : Prop :=
  ∃ i ∈ M.instrs, i.getLoadPtr = some q ∨ i.getStorePtr = some q

/-- Cells and registers are apart: a load fills no cell and only stores write cells.  The pass has one variable
for a pointer and for the cell behind it. -/
structure Semantics.CellsApart (sem : Semantics) (M : Module) : Prop where
  load : ∀ i ∈ M.instrs, i.getLoadPtr.isSome → ¬ M.Pointer i.id
  exec : ∀ i ∈ M.instrs, ∀ σ σ', sem.exec i σ σ' → ∀ q, M.Pointer q → σ' q = σ q

/-- The state has the initial values of the globals. -/
def Module.InitialState (M : Module) (init : Env) : Prop :=
  ∀ g ∈ M.globals, ∀ ci, g.initializer = some (.constantInt ci) → init g.id = ci.val.toInt

/-- The facts over-approximate the states by name. -/
structure Concretisation.Names (K : Concretisation ap) (v2n : NameMap) : Prop where
  top : ∀ σ, σ ∈ K.γ ⟨ap.top⟩
  assignInt : ∀ {f : LatticeFact ap} {σ : Env} {v : Value} {n : Var}, σ ∈ K.γ f → v2n[v]? = some n → ∀ c,
    Function.update σ v c ∈ K.γ (f.assignInt n c)
  bound : ∀ {f : LatticeFact ap} {σ : Env} {v : Value} {n : Var}, σ ∈ K.γ f → v2n[v]? = some n →
    (f.getVarInterval n).Mem (σ v)

/-- A program in which each thread runs once, with transfer functions and branch refinements that
over-approximate their meaning, analysed in non-combinational mode. -/
structure NonCombSetting (K : Concretisation ap) (sem : Semantics) (cx : Ctx) (init : Env) : Prop where
  lattice : ap.Lattice
  names : K.Names cx.v2n
  transfer : ∀ F ∈ cx.module.functions, ∀ interf, K.SoundTransfer sem cx interf F
  branch : ∀ F ∈ cx.module.functions, K.SoundBranch sem cx F
  cells : sem.CellsApart cx.module
  once : cx.module.StartedOnce
  init : cx.module.InitialState init
  noCombs : cx.opts.noCombinsG = true
  static : cx.opts.dynInitG = false
  unfiltered : cx.opts.filterMHB = false

/-- The threads start in the entry fact. -/
theorem getInitState_sound {K : Concretisation ap} {v2n : NameMap} (hK : K.Names v2n) {M : Module} {init : Env}
    (hinit : M.InitialState init) {f : LatticeFact ap} (h : getInitState M ⟨ap.top⟩ v2n = .ok f) : init ∈ K.γ f := by
  unfold getInitState at h
  refine Fallible.foldlM_preserves (fun f : LatticeFact ap => init ∈ K.γ f) ?_ (hK.top init) h
  intro g hg f f' hf hstep
  cases hi : g.initializer with
  | none =>
      rw [hi] at hstep
      cases hstep
  | some c =>
      cases c with
      | other =>
          rw [hi] at hstep
          cases hstep
          exact hf
      | constantInt ci =>
          rw [hi] at hstep
          obtain ⟨n, hn, hstep⟩ := Fallible.bind_eq_ok.mp hstep
          obtain ⟨c, hc, hstep⟩ := Fallible.bind_eq_ok.mp hstep
          cases hstep
          have hval : init g.id = c := by
            rw [hinit g hg ci hi]
            unfold getConstantIntUnsafe at hc
            split_ifs at hc
            exact Except.ok.inj hc
          have hmem := hK.assignInt hf (Box.mapAtUnsafe_ok hn) c
          rw [← hval, Function.update_eq_self] at hmem
          rwa [← hval]

/-- A store that the analysis executes is of a named pointer, and is no `cmpxchg`. -/
theorem transferFact_store {cx : Ctx} {interf : InterfMap ap} {nonCombinInterfs : Bool} {f f' : LatticeFact ap}
    {i : Instruction} (h : BBOps.transferFact cx interf nonCombinInterfs f i = .ok f') {p : Value}
    (hp : i.getStorePtr = some p) : (∀ q, i.kind ≠ .atomicCmpXchg q) ∧ ∃ n, cx.v2n[p]? = some n := by
  unfold BBOps.transferFact at h
  unfold Instruction.getStorePtr at hp
  have hbinOp : ∀ {val op1 : Operand} {g : LatticeFact ap},
      BBOps.performBinOp cx.v2n .add p val op1 g = .ok f' → ∃ n, cx.v2n[p]? = some n := by
    intro val op1 g hbin
    obtain ⟨n, hn, _⟩ := Fallible.bind_eq_ok.mp hbin
    exact ⟨n, Box.mapAtUnsafe_ok hn⟩
  cases hk : i.kind <;> rw [hk] at hp <;> cases hp <;> simp only [hk] at h
  case store val =>
    obtain ⟨n, hn, _⟩ := Fallible.bind_eq_ok.mp h
    exact ⟨fun _ => nofun, n, Box.mapAtUnsafe_ok hn⟩
  case atomicRMW op val =>
    refine ⟨fun _ => nofun, ?_⟩
    cases hitf : interf[i.id]? with
    | none =>
        rw [hitf] at h
        obtain ⟨g, _, h⟩ := Fallible.bind_eq_ok.mp h
        cases op with
        | add => exact hbinOp h
        | other => cases h
    | some itf =>
        rw [hitf] at h
        obtain ⟨g, _, h⟩ := Fallible.bind_eq_ok.mp h
        cases op with
        | add => exact hbinOp h
        | other => cases h
  case atomicCmpXchg => cases h

/-! ### Steps of an interleaving -/

theorem Instruction.getStorePtr_of_isTerminator {i : Instruction} (h : i.isTerminator = true) :
    i.getStorePtr = none := by
  unfold Instruction.isTerminator at h
  unfold Instruction.getStorePtr
  cases hk : i.kind <;> rw [hk] at h <;> first | rfl | cases h

section Steps

variable {sem : Semantics} {M : Module} {init : Env}

theorem Moves.env {f : FuncId} {p : PathConf} {e : Executed} {t : Thread} (h : Moves sem M f p e t) :
    e.before = p.env ∧ ∀ p', t = .running p' → p'.env = e.after := by
  cases h <;> refine ⟨rfl, fun p' hp' => ?_⟩ <;> cases hp' <;> rfl

/-- What a step does to the cells. -/
theorem Step.mem {c c' : Config} {e : Event} (h : Step sem M init c e c') :
    (∀ q, e.inst.getStorePtr = some q → c'.mem q = e.after q) ∧
      ∀ q, e.inst.getStorePtr ≠ some q → c'.mem q = c.mem q := by
  have hsame : e.inst.getStorePtr = none → c'.mem = c.mem →
      (∀ q, e.inst.getStorePtr = some q → c'.mem q = e.after q) ∧
        ∀ q, e.inst.getStorePtr ≠ some q → c'.mem q = c.mem q := by
    intro hnone hmem
    rw [hnone, hmem]
    exact ⟨fun q hq => absurd hq nofun, fun _ _ => rfl⟩
  cases h with
  | @inst f p e t hrun hm hlocal hinst hs =>
      dsimp only
      unfold Instruction.writeBack
      cases hp : e.inst.getStorePtr with
      | none => exact ⟨fun q hq => absurd hq nofun, fun _ _ => rfl⟩
      | some p =>
          refine ⟨fun q hq => ?_, fun q hq => ?_⟩
          · rw [← Option.some.inj hq]
            exact Function.update_self ..
          · exact Function.update_of_ne (fun heq => hq (congrArg some heq.symm)) ..
  | @control f p e t hrun hm hcontrol =>
      refine hsame ?_ rfl
      dsimp only
      rcases hcontrol with hterm | ⟨hk, _⟩
      · exact Instruction.getStorePtr_of_isTerminator hterm
      · rw [Instruction.getStorePtr, hk]
  | @create f g p i σ t hrun hm hg hidle =>
      obtain ⟨_, _, hk⟩ := Instruction.kind_of_createdFunc hg
      exact hsame (by rw [Instruction.getStorePtr, hk]) rfl
  | @join f p i σ t v hrun hm hk hwait => exact hsame (by rw [Instruction.getStorePtr, hk]) rfl

/-- An event that is not a terminator executes an instruction on the cells. -/
theorem Step.executes {c c' : Config} {e : Event} (h : Step sem M init c e c')
    (hterm : e.inst.isTerminator = false) :
    InstStep sem (fun _ ptr _ v => v = c.mem ptr) e.inst e.before e.after := by
  cases h with
  | inst _ _ _ _ hs => exact hs
  | @control f p e t hrun hm hcontrol =>
      dsimp only at hterm ⊢
      rcases hcontrol with hyes | ⟨hk, rfl⟩
      · rw [hyes] at hterm
        cases hterm
      · cases hm with
        | exit _ => exact .call hk
        | ret _ => exact .call hk
  | @create f g p i σ t hrun hm hg hidle =>
      obtain ⟨_, _, hk⟩ := Instruction.kind_of_createdFunc hg
      exact .call hk
  | join _ _ hk => exact .call hk

/-- An instruction leaves each cell as it was, or as it is in the memory after it. -/
theorem InstStep.cells (hcells : sem.CellsApart M) {i : Instruction} (hi : i ∈ M.instrs) {mem mem' σ σ' : Env}
    (h : InstStep sem (fun _ ptr _ v => v = mem ptr) i σ σ')
    (hstored : ∀ q, i.getStorePtr = some q → mem' q = σ' q)
    (hkept : ∀ q, i.getStorePtr ≠ some q → mem' q = mem q) {q : Value} (hq : M.Pointer q) :
    σ' q = σ q ∨ mem' q = σ' q := by
  by_cases hs : i.getStorePtr = some q
  · exact .inr (hstored q hs)
  have hne : i.getLoadPtr.isSome → q ≠ i.id := fun hl heq => hcells.load i hi hl (heq ▸ hq)
  cases h with
  | alloca hk => exact .inl rfl
  | @store val ptr v hk hv =>
      refine .inl (Function.update_of_ne (fun heq => hs ?_) ..)
      rw [Instruction.getStorePtr, hk, heq]
  | @load ptr v hk hr =>
      have hreg : q ≠ i.id := hne (by rw [Instruction.getLoadPtr, hk]; rfl)
      rw [Function.update_of_ne hreg]
      by_cases hptr : q = ptr
      · subst hptr
        rw [Function.update_self]
        exact .inr ((hkept q hs).trans hr.symm)
      · exact .inl (Function.update_of_ne hptr ..)
  | @rmw op ptr val v w hk hr hw =>
      have hreg : q ≠ i.id := hne (by rw [Instruction.getLoadPtr, hk]; rfl)
      have hptr : q ≠ ptr := fun heq => hs (by rw [Instruction.getStorePtr, hk, heq])
      rw [Function.update_of_ne hptr, Function.update_of_ne hreg]
      exact .inl rfl
  | @cmpXchg ptr v w hk hr hw =>
      have hreg : q ≠ i.id := hne (by rw [Instruction.getLoadPtr, hk]; rfl)
      have hptr : q ≠ ptr := fun heq => hs (by rw [Instruction.getStorePtr, hk, heq])
      rw [Function.update_of_ne hptr, Function.update_of_ne hreg]
      exact .inl rfl
  | call hk => exact .inl rfl
  | other _ _ _ hx => exact .inl (hcells.exec i hi _ _ hx q hq)

/-! ### What a thread sees -/

/-- Each cell holds what the thread last saw in it or what another thread has stored. -/
def Sees (M : Module) (tr : List Event) (f : FuncId) (mem σ : Env) : Prop :=
  ∀ q, M.Pointer q → mem q = σ q ∨ ∃ e ∈ tr, e.thread ≠ f ∧ e.inst.getStorePtr = some q ∧ e.after q = mem q

theorem Sees.refl (tr : List Event) (f : FuncId) (σ : Env) : Sees M tr f σ σ :=
  fun _ _ => .inl rfl

/-- A step keeps what a thread sees: the other threads' stores are events, the own step is in the state. -/
theorem Sees.step {c c' : Config} {e : Event} (h : Step sem M init c e c') {tr : List Event} {f : FuncId}
    {σ σ' : Env} (hsees : Sees M tr f c.mem σ)
    (hown : ∀ q, M.Pointer q → σ' q = σ q ∨ c'.mem q = σ' q)
    (hother : e.thread = f → ∀ q, e.inst.getStorePtr = some q → c'.mem q = σ' q) :
    Sees M (tr ++ [e]) f c'.mem σ' := by
  obtain ⟨hstored, hkept⟩ := h.mem
  intro q hq
  rcases hown q hq with hσ | hmem
  · by_cases hs : e.inst.getStorePtr = some q
    · by_cases hf : e.thread = f
      · exact .inl (hother hf q hs)
      · exact .inr ⟨e, List.mem_append_right _ (.head _), hf, hs, (hstored q hs).symm⟩
    · rw [hkept q hs, hσ]
      rcases hsees q hq with heq | ⟨e', he', hrest⟩
      · exact .inl heq
      · exact .inr ⟨e', List.mem_append_left _ he', hrest⟩
  · exact .inl hmem

end Steps

/-! ### The invariant -/

section Invariant

variable {K : Concretisation ap} {sem : Semantics} {o : BlockOrder} {cx : Ctx} {init : Env} {main : FuncId}
  {entryFact : LatticeFact ap} {t : RunState ap}

/-- The final state accounts for an event: an error call is a reachable error, a store has a fact that contains
the state after it. -/
structure Recorded (K : Concretisation ap) (cx : Ctx) (t : RunState ap) (e : Event) : Prop where
  error : e.inst.kind = .call .assertFail → e.inst.id ∈ t.rErrors
  plain : ∀ q, e.inst.kind ≠ .atomicCmpXchg q
  store : ∀ p, e.inst.getStorePtr = some p → (∃ n, cx.v2n[p]? = some n) ∧
    ∃ sts f, t.newReachStores[e.thread]? = some sts ∧ sts[e.inst.id]? = some f ∧ e.after ∈ K.γ f

/-- A thread stands on the track of the last analysis of its function and sees all cells. -/
def Followed (K : Concretisation ap) (o : BlockOrder) (cx : Ctx) (entryFact : LatticeFact ap) (t : RunState ap)
    (f : FuncId) (p : PathConf) : Prop :=
  ∃ F interf ps w, cx.module.func? f = some F ∧ FinalAnalysis K o cx entryFact t F interf ps w ∧
    OnTrack K cx interf F ps p

/-- **The invariant of an interleaving**: what has been executed is recorded, and each thread sees all cells and
is followed by an analysis. -/
structure Followable (K : Concretisation ap) (o : BlockOrder) (cx : Ctx) (init : Env) (entryFact : LatticeFact ap)
    (t : RunState ap) (tr : List Event) (c : Config) : Prop where
  recorded : ∀ e ∈ tr, Recorded K cx t e
  running : ∀ f p, c.threads f = .running p → Sees cx.module tr f c.mem p.env ∧ Followed K o cx entryFact t f p
  idle : ∀ f, c.threads f = .idle → Sees cx.module tr f c.mem init

/-- What the cell of a load holds, the interferences of the last analysis allow it to read. -/
theorem FinalAnalysis.reads {F : Function} {interf : InterfMap ap} {ps : List (Pop BlockId (LatticeFact ap))}
    {w : LoopState o ap} (hfa : FinalAnalysis K o cx entryFact t F interf ps w)
    (hnc : cx.opts.noCombinsG = true) {tr : List Event} (hrec : ∀ e ∈ tr, Recorded K cx t e)
    (hmem : ∀ e ∈ tr, e.inst ∈ cx.module.instrs) {mem σ : Env} (hsees : Sees cx.module tr F.id mem σ)
    (hF : F ∈ cx.module.functions) {i : Instruction} (hi : i ∈ F.instrs)
    (hplain : ∀ q, i.kind ≠ .atomicCmpXchg q) {ptr : Value} (hptr : i.getLoadPtr = some ptr) :
    K.Reads interf cx.opts.noCombinsG i ptr σ (mem ptr) := by
  have hiM : i ∈ cx.module.instrs := Module.mem_instrs.mpr ⟨F, hF, hi⟩
  unfold Concretisation.Reads
  rcases hsees ptr ⟨i, hiM, .inl hptr⟩ with hown | ⟨e, he, hne, hst, hval⟩
  · cases interf[i.id]? with
    | none => exact hown
    | some itf => exact .inr ⟨hnc, hown⟩
  · obtain ⟨_, sts, f, hsts, hf, hγ⟩ := (hrec e he).store ptr hst
    have hsame : loadStoreSameVal e.inst i = .ok true := by
      unfold loadStoreSameVal
      unfold Instruction.getLoadPtr at hptr
      unfold Instruction.getStorePtr at hst
      cases hk : i.kind <;> rw [hk] at hptr <;> cases hptr <;> cases hk' : e.inst.kind <;> rw [hk'] at hst <;>
        cases hst
      all_goals first
        | exact congrArg Except.ok (beq_self_eq_true _)
        | exact absurd hk (hplain _)
        | exact absurd hk' ((hrec e he).plain _)
    have hload : i ∈ F.getLoads :=
      List.mem_filter.mpr ⟨hi, by rw [Instruction.isSomeLoad_iff, hptr]; rfl⟩
    obtain ⟨J, hJ, hsub⟩ := hfa.interferes i.id e.inst.id f
      ⟨e.thread, sts, hsts, hne, Std.TreeMap.mem_iff_isSome_getElem?.mpr (by rw [hf]; rfl), i, hload, rfl,
        e.inst, Module.instr?_id (hmem e he), hsame⟩ ⟨e.thread, sts, hsts, hf⟩
    rw [hJ]
    exact .inl ⟨e.after, hsub hγ, hval.symm⟩

theorem recorded_of_terminator {e : Event} (h : e.inst.isTerminator = true) : Recorded K cx t e := by
  refine ⟨fun hk => ?_, fun q hk => ?_, fun p hp => ?_⟩
  · rw [Instruction.isTerminator, hk] at h
    cases h
  · rw [Instruction.isTerminator, hk] at h
    cases h
  · rw [Instruction.getStorePtr_of_isTerminator h] at hp
    cases hp

/-- What the bookkeeping of the last analysis accounts for is recorded. -/
theorem FinalAnalysis.recorded {F : Function} {interf : InterfMap ap} {ps : List (Pop BlockId (LatticeFact ap))}
    {w : LoopState o ap} (hfa : FinalAnalysis K o cx entryFact t F interf ps w) {e : Event}
    (hthread : F.id = e.thread) (hplain : ∀ q, e.inst.kind ≠ .atomicCmpXchg q)
    (hnames : ∀ p, e.inst.getStorePtr = some p → ∃ n, cx.v2n[p]? = some n)
    (hacc : K.Accounts w.books e.toExecuted) : Recorded K cx t e := by
  unfold Concretisation.Accounts at hacc
  refine ⟨fun hk => ?_, hplain, fun p hp => ⟨hnames p hp, w.books.reachStores, ?_⟩⟩
  · rw [hk] at hacc
    exact hfa.rErrors _ hacc
  · have hstores := hfa.stores
    rw [hthread] at hstores
    unfold Instruction.getStorePtr at hp
    cases hk : e.inst.kind <;> rw [hk] at hp hacc <;> cases hp
    · obtain ⟨f, hf, hγ⟩ := hacc
      exact ⟨f, hstores, hf, hγ⟩
    · obtain ⟨f, hf, hγ⟩ := hacc
      exact ⟨f, hstores, hf, hγ⟩
    · exact absurd hk (hplain _)

/-- **The step of a followed thread** is recorded, and the thread stays followed. -/
theorem Followed.moves (hS : NonCombSetting K sem cx init) {e : Event} {p : PathConf} {th : Thread}
    {tr : List Event} {mem : Env} (hp : Followed K o cx entryFact t e.thread p)
    (hm : Moves sem cx.module e.thread p e.toExecuted th) (hrec : ∀ e ∈ tr, Recorded K cx t e)
    (hmem : ∀ e ∈ tr, e.inst ∈ cx.module.instrs) (hsees : Sees cx.module tr e.thread mem p.env)
    (hexec : e.inst.isTerminator = false →
      InstStep sem (fun _ ptr _ v => v = mem ptr) e.inst e.before e.after) :
    Recorded K cx t e ∧ (e.inst.isTerminator = true → e.after = e.before) ∧
      ∀ p', th = .running p' → Followed K o cx entryFact t e.thread p' := by
  obtain ⟨F, interf, ps, w, hfunc, hfa, htrack⟩ := hp
  obtain ⟨hF, hid⟩ := Module.func?_mem hfunc
  obtain ⟨books, first, hfirst, hrun⟩ := hfa.run
  obtain ⟨⟨i, σ, σ'⟩, f⟩ := e
  dsimp only at hm hfunc hid hsees hexec ⊢
  subst hid
  cases hm with
  | @inst B _ rest =>
      obtain ⟨_, _, _, _, pre, fact, _, fact', hbody, _, _, htransfer⟩ := onTrack_executed hrun htrack
      have hiB : i ∈ B.body := by
        rw [hbody]
        exact List.mem_append_right _ (.head _)
      have hiF : i ∈ F.instrs :=
        Function.mem_instrs.mpr ⟨B, htrack.1, BasicBlock.mem_instrs.mpr (.inl hiB)⟩
      have hterm := B.body_not_terminator i hiB
      have hplain : ∀ q, i.kind ≠ .atomicCmpXchg q := fun q hk =>
        (transferFact_store htransfer (by rw [Instruction.getStorePtr, hk])).1 q hk
      have hstep := (hexec hterm).mono fun ptr v hptr hv =>
        hv ▸ hfa.reads hS.noCombs hrec hmem hsees hF hiF hplain hptr
      obtain ⟨hnext, hacc⟩ := onTrack_inst hrun (hS.transfer F hF interf) htrack hstep
      refine ⟨hfa.recorded rfl hplain (fun p hp => (transferFact_store htransfer hp).2) hacc, fun hyes => ?_,
        fun p' hp' => ?_⟩
      · rw [hterm] at hyes
        cases hyes
      · cases hp'
        exact ⟨F, interf, ps, w, hfunc, hfa, hnext⟩
  | exit hk =>
      refine ⟨⟨fun hk' => ?_, fun q hk' => ?_, fun p hp => ?_⟩, fun _ => rfl, fun p' hp' => by cases hp'⟩
      · rw [hk] at hk'
        cases hk'
      · rw [hk] at hk'
        cases hk'
      · rw [Instruction.getStorePtr, hk] at hp
        cases hp
  | @jump F' B B' _ hF' hb hB' =>
      obtain rfl : F' = F := Option.some.inj (hF'.symm.trans hfunc)
      refine ⟨recorded_of_terminator B.terminator_is, fun _ => rfl, fun p' hp' => ?_⟩
      cases hp'
      exact ⟨F', interf, ps, w, hfunc, hfa, onTrack_jump hrun (hS.branch F' hF)
        (initLoop_stored first entryFact books) hfa.finished htrack hb hB'⟩
  | @ret B _ hr =>
      exact ⟨recorded_of_terminator B.terminator_is, fun _ => rfl, fun p' hp' => by cases hp'⟩

/-- A new thread is followed from its entry. -/
theorem followed_start (hinit : init ∈ K.γ entryFact) {F : Function} {interf : InterfMap ap}
    {ps : List (Pop BlockId (LatticeFact ap))} {w : LoopState o ap}
    (hfa : FinalAnalysis K o cx entryFact t F interf ps w) {f : FuncId} (hfunc : cx.module.func? f = some F)
    {p : PathConf} (h : cx.module.start init f = .running p) :
    p.env = init ∧ Followed K o cx entryFact t f p := by
  unfold Module.start at h
  rw [hfunc, Option.bind_some] at h
  obtain ⟨books, first, hfirst, hrun⟩ := hfa.run
  rw [hfirst] at h
  cases h
  exact ⟨rfl, F, interf, ps, w, hfunc, hfa,
    LoopRun.onTrack (List.mem_of_mem_head? hfirst) hrun hfa.finished hinit⟩

/-- **The step lemma.** -/
theorem Followable.step (hS : NonCombSetting K sem cx init) (hinit : init ∈ K.γ entryFact)
    (hcreated : ∀ e : Event, e.inst ∈ cx.module.instrs → ∀ g, e.inst.createdFunc = some g →
      ∃ F interf ps w, cx.module.func? g = some F ∧ FinalAnalysis K o cx entryFact t F interf ps w)
    {tr : List Event} {c c' : Config} {e : Event} (hI : Followable K o cx init entryFact t tr c)
    (hmem : ∀ e' ∈ tr ++ [e], e'.inst ∈ cx.module.instrs) (hs : Step sem cx.module init c e c') :
    Followable K o cx init entryFact t (tr ++ [e]) c' := by
  have hmemE : e.inst ∈ cx.module.instrs := hmem e (List.mem_append_right _ (.head _))
  obtain ⟨p, th, hrun, hm, hthreads⟩ := hs.threads
  obtain ⟨hsees, hfollowed⟩ := hI.running _ _ hrun
  obtain ⟨hrecorded, hafter, hnext⟩ := hfollowed.moves hS hm hI.recorded
    (fun e' he' => hmem e' (List.mem_append_left _ he')) hsees hs.executes
  have hself : Sees cx.module (tr ++ [e]) e.thread c'.mem e.after := by
    refine hsees.step hs (fun q hq => ?_) fun _ q hq => hs.mem.1 q hq
    rw [← hm.env.1]
    cases hterm : e.inst.isTerminator with
    | true => exact .inl (congrFun (hafter hterm) q)
    | false => exact (hs.executes hterm).cells hS.cells hmemE hs.mem.1 hs.mem.2 hq
  have hother : ∀ f σ, f ≠ e.thread → Sees cx.module tr f c.mem σ → Sees cx.module (tr ++ [e]) f c'.mem σ :=
    fun f σ hne hf => hf.step hs (fun _ _ => .inl rfl) fun heq => absurd heq.symm hne
  -- the threads after the move, before a thread is created
  have hmove : ∀ f p', Function.update c.threads e.thread th f = .running p' →
      Sees cx.module (tr ++ [e]) f c'.mem p'.env ∧ Followed K o cx entryFact t f p' := by
    intro f p' hp'
    by_cases hf : f = e.thread
    · rw [hf] at hp' ⊢
      rw [Function.update_self] at hp'
      exact ⟨hm.env.2 p' hp' ▸ hself, hnext p' hp'⟩
    · rw [Function.update_of_ne hf] at hp'
      exact ⟨hother f _ hf (hI.running f p' hp').1, (hI.running f p' hp').2⟩
  have hidle : ∀ f, Function.update c.threads e.thread th f = .idle →
      Sees cx.module (tr ++ [e]) f c'.mem init := by
    intro f hp'
    by_cases hf : f = e.thread
    · rw [hf, Function.update_self] at hp'
      exact absurd hp' hm.ne_idle
    · rw [Function.update_of_ne hf] at hp'
      exact hother f init hf (hI.idle f hp')
  refine ⟨fun e' he' => ?_, fun f p' hp' => ?_, fun f hp' => ?_⟩
  · rcases List.mem_append.mp he' with he' | he'
    · exact hI.recorded e' he'
    · rw [List.mem_singleton.mp he']
      exact hrecorded
  · rcases hthreads with ⟨_, hc'⟩ | ⟨g, hg, hgidle, hc'⟩
    · rw [hc'] at hp'
      exact hmove f p' hp'
    · rw [hc'] at hp'
      by_cases hfg : f = g
      · subst hfg
        have hne : f ≠ e.thread := by
          intro heq
          rw [heq, hrun] at hgidle
          cases hgidle
        rw [Function.update_self] at hp'
        obtain ⟨F, interf, ps, w, hfunc, hfa⟩ := hcreated e hmemE f hg
        obtain ⟨henv, hfollowed'⟩ := followed_start hinit hfa hfunc hp'
        rw [henv]
        exact ⟨hother f init hne (hI.idle f hgidle), hfollowed'⟩
      · rw [Function.update_of_ne hfg] at hp'
        exact hmove f p' hp'
  · rcases hthreads with ⟨_, hc'⟩ | ⟨g, hg, hgidle, hc'⟩
    · rw [hc'] at hp'
      exact hidle f hp'
    · rw [hc'] at hp'
      by_cases hfg : f = g
      · subst hfg
        rw [Function.update_self] at hp'
        exact absurd hp' (start_ne_idle f)
      · rw [Function.update_of_ne hfg] at hp'
        exact hidle f hp'

/-- **The run lemma**: every interleaving is followed by the last analyses. -/
theorem followable_of_interleaving (hS : NonCombSetting K sem cx init) (hinit : init ∈ K.γ entryFact)
    (hcreated : ∀ e : Event, e.inst ∈ cx.module.instrs → ∀ g, e.inst.createdFunc = some g →
      ∃ F interf ps w, cx.module.func? g = some F ∧ FinalAnalysis K o cx entryFact t F interf ps w)
    (hmain : ∃ F interf ps w, cx.module.func? main = some F ∧ FinalAnalysis K o cx entryFact t F interf ps w)
    {tr : List Event} {c : Config} (h : Interleaving sem cx.module init main tr c) :
    Followable K o cx init entryFact t tr c := by
  induction h with
  | nil =>
      refine ⟨fun _ he => absurd he List.not_mem_nil, fun f p hp => ?_, fun f _ => .refl _ _ _⟩
      have hp' : Function.update (fun _ => Thread.idle) main (cx.module.start init main) f = .running p := hp
      by_cases hf : f = main
      · subst hf
        rw [Function.update_self] at hp'
        obtain ⟨F, interf, ps, w, hfunc, hfa⟩ := hmain
        obtain ⟨henv, hfollowed⟩ := followed_start hinit hfa hfunc hp'
        rw [henv]
        exact ⟨.refl _ _ _, hfollowed⟩
      · rw [Function.update_of_ne hf] at hp'
        cases hp'
  | snoc hr hs ih =>
      exact ih.step hS hinit hcreated (fun e he => mem_instrs_of_mem (.snoc hr hs) he) hs

end Invariant

/-! ### Soundness -/

/-- What the pass promises about an event: an error call is reported, and a stored value is in the interval
that is recorded for the store. -/
structure Promised (cx : Ctx) (t : RunState ap) (e : Event) : Prop where
  error : e.inst.kind = .call .assertFail → e.inst.id ∈ t.rErrors
  store : ∀ p, e.inst.getStorePtr = some p → ∃ sts f n, t.newReachStores[e.thread]? = some sts ∧
    sts[e.inst.id]? = some f ∧ cx.v2n[p]? = some n ∧ (f.getVarInterval n).Mem (e.after p)

/-- **Thread-modular soundness.**  When the facts that the pass has compared at the end of its loop are
comparable, it reports every error call that an interleaving executes and has every stored value in the
interval of the store. -/
theorem runOnModule_sound (K : Concretisation ap) (sem : Semantics) (o : BlockOrder) (cx : Ctx) (z3 : Solver)
    (rules : List Rule) (fuel : Nat) (init : Env) (hS : NonCombSetting K sem cx init) (t : RunState ap)
    (h : runOnModule o cx z3 rules fuel = .ok t)
    (hcomp : ∀ oldI newI : ReachStores ap, StopsAfter o cx z3 rules fuel oldI newI → AllComparable oldI newI)
    (main : FuncId) (hmain : cx.module.main = some main) (tr : List Event) (c : Config)
    (hrun : Interleaving sem cx.module init main tr c) : ∀ e ∈ tr, Promised cx t e := by
  obtain ⟨l, hl, hsites⟩ := runOnModule_finalAnalysis K hS.lattice hS.once hS.noCombs hS.static hS.unfiltered h hcomp
  obtain rfl : l.main.id = main := Option.some.inj (hl.main.symm.trans hmain)
  have hanalysed : ∀ g, (∃ ci ∈ l.threadSites, ∀ F, siteFunc cx l.main ci = .ok F → F.id = g) →
      ∃ F interf ps w, cx.module.func? g = some F ∧ FinalAnalysis K o cx l.progInitState t F interf ps w := by
    rintro g ⟨ci, hci, hg⟩
    obtain ⟨F, hF, interf, ps, w, hfa⟩ := hsites ci hci
    exact ⟨F, interf, ps, w, hg F hF ▸ siteFunc_func? hl.func hF, hfa⟩
  have hfollow := followable_of_interleaving hS (getInitState_sound hS.names hS.init hl.init)
    (fun e he g hg => hanalysed g ?_) (hanalysed l.main.id ?_) hrun
  · intro e he
    refine ⟨(hfollow.recorded e he).error, fun p hp => ?_⟩
    obtain ⟨⟨n, hn⟩, sts, f, hsts, hf, hγ⟩ := (hfollow.recorded e he).store p hp
    exact ⟨sts, f, n, hsts, hf, hn, hS.names.bound hγ hn⟩
  · refine ⟨some e.inst, ?_, fun F hF => Option.some.inj ((siteFunc_created hF).symm.trans hg)⟩
    rw [hl.threadSites_eq hS.static]
    refine List.mem_append_left _ (List.mem_map.mpr ⟨e.inst, List.mem_filter.mpr ⟨he, ?_⟩, rfl⟩)
    obtain ⟨_, _, hk⟩ := Instruction.kind_of_createdFunc hg
    rw [Instruction.isPthreadCreate, hk]
  · refine ⟨none, ?_, fun F hF => ?_⟩
    · rw [hl.threadSites_eq hS.static]
      exact List.mem_append_right _ (.head _)
    · cases hF
      rfl

/-! ### Boxes -/

instance (M : Module) (q : Value) : Decidable (M.Pointer q) :=
  inferInstanceAs (Decidable (∃ i ∈ M.instrs, i.getLoadPtr = some q ∨ i.getStorePtr = some q))

/-- Cells and registers are apart when the pointers are no results of instructions but `alloca`. -/
theorem registers_cellsApart {M : Module} (h : ∀ i ∈ M.instrs, M.Pointer i.id → i.kind = .alloca) :
    registers.CellsApart M := by
  refine ⟨fun i hi hl hp => ?_, fun i hi σ σ' hx q hq => ?_⟩
  · rw [Instruction.getLoadPtr, h i hi hp] at hl
    cases hl
  · obtain ⟨z, hz, rfl⟩ := hx
    by_cases hqi : q = i.id
    · subst hqi
      rw [Function.update_self]
      simpa only [Registers.result, h i hi hq] using hz
    · exact Function.update_of_ne hqi ..

namespace Box

/-- Names for different values take any values. -/
theorem exists_named {v2n : NameMap} (hinj : NamesInjective v2n) (σ : Env) : ∃ τ, Named v2n σ τ := by
  classical
  refine ⟨fun n => if h : ∃ v, v2n[v]? = some n then σ h.choose else 0, fun v n hv => ?_⟩
  have h : ∃ v, v2n[v]? = some n := ⟨v, hv⟩
  dsimp only
  rw [dif_pos h]
  exact congrArg σ (hinj _ _ _ hv h.choose_spec)

theorem names {v2n : NameMap} (hinj : NamesInjective v2n) : (concretisation v2n).Names v2n where
  top σ := by
    obtain ⟨τ, hτ⟩ := exists_named hinj σ
    exact ⟨[], τ, rfl, fun _ => Intervals.Itv.mem_top _, hτ⟩
  assignInt hσ hv c := assignInt_sound hinj hσ hv c
  bound hσ hv := getVarInterval_mem hσ hv

/-- The value is the initial one, when that is an integer. -/
def startsAt (g : GlobalVariable) (x : Int) : Bool :=
  match g.initializer with
  | some (.constantInt ci) => x == ci.val.toInt
  | _ => true

/-- The setting of a module of plain instructions. -/
theorem nonCombSetting {M : Module} {k : Nat} {init : Env} (main : FuncId)
    (hplain : ∀ i ∈ M.instrs, Plain i) (hcells : ∀ i ∈ M.instrs, M.Pointer i.id → i.kind = .alloca)
    (hmain : M.main = some main) (hnot : ∀ c ∈ M.instrs, c.createdFunc ≠ some main)
    (hsite : ∀ c ∈ M.instrs, ∀ c' ∈ M.instrs, c.createdFunc = c'.createdFunc → c.createdFunc = none ∨ c = c')
    (hinit : ∀ g ∈ M.globals, startsAt g (init g.id) = true) :
    NonCombSetting (concretisation (numbered k)) registers
      (.ofModule M k { useBoxG := true, noCombinsG := true }) init where
  lattice := lattice
  names := names (numbered_injective k)
  transfer F hF interf :=
    soundTransfer (.ofModule M k { useBoxG := true, noCombinsG := true }) (numbered_injective k) interf F
      fun i hi => hplain i (Module.mem_instrs.mpr ⟨F, hF, hi⟩)
  branch F hF := soundBranch (.ofModule M k { useBoxG := true, noCombinsG := true }) F
    fun i hi => hplain i (Module.mem_instrs.mpr ⟨F, hF, hi⟩)
  cells := registers_cellsApart hcells
  once := Module.startedOnce_of_creates hmain hnot hsite
  init g hg ci hci := by
    have hstarts := hinit g hg
    unfold startsAt at hstarts
    rw [hci] at hstarts
    exact eq_of_beq hstarts
  noCombs := rfl
  static := rfl
  unfiltered := rfl

end Box

/-- A comparison of a variable with a constant, and a branch on it. -/
def icmpAt (id v : Value) (pred : Predicate) (n : Int) : Instruction :=
  ⟨id, .icmp pred (.value v) (i32 n), some 1, []⟩

def brIcmpAt (id ic v : Value) (pred : Predicate) (n : Int) (t e : BlockId) : Instruction :=
  ⟨id, .condBr (.icmp ic pred (.value v) (i32 n)) t e, none, []⟩

namespace StoppedEarly

def storeVal (id v p : Value) : Instruction := ⟨id, .store (.value v) p, none, []⟩

/-- `k = 3` -/
def h : Function := .ofBlocks 1 [.ofInstrs 100 [storeAt 20 3 0] (retAt 21)]

/-- `if (p > 1) error` -/
def m : Function :=
  .ofBlocks 2
    [.ofInstrs 110 [loadAt 6 2, icmpAt 7 6 .sgt 1] (brIcmpAt 22 7 6 .sgt 1 111 112),
    .ofInstrs 111 [⟨23, .call .assertFail, none, []⟩] ⟨24, .unreachable, none, []⟩,
    .ofInstrs 112 [] (retAt 25)]

/-- `c = u > 0; while (1) { if ((t = k) > 0) { p = t; k2 = 5; x = 0 } else if (k2 > 0) x = 2 else { k = c; k2 = 2; continue }
if (x != 1) break; q = 9 }` -/
def g : Function :=
  .ofBlocks 3
    [.ofInstrs 120 [loadAt 8 5, icmpAt 9 8 .sgt 0] (brAt 30 127),
    .ofInstrs 121 [storeVal 31 10 2, storeAt 32 5 1] (brAt 33 122),
    .ofInstrs 122 [storeAt 34 0 3] (brAt 35 125),
    .ofInstrs 123 [loadAt 12 1, icmpAt 13 12 .sgt 0] (brIcmpAt 36 13 12 .sgt 0 124 126),
    .ofInstrs 124 [storeAt 37 2 3] (brAt 38 125),
    .ofInstrs 125 [loadAt 14 3, icmpAt 15 14 .eq 1] (brIcmpAt 39 15 14 .eq 1 128 129),
    .ofInstrs 126 [storeVal 40 9 0, storeAt 41 2 1] (brAt 42 127),
    .ofInstrs 127 [loadAt 10 0, icmpAt 11 10 .sgt 0] (brIcmpAt 43 11 10 .sgt 0 121 123),
    .ofInstrs 128 [storeAt 44 9 4] (brAt 45 127),
    .ofInstrs 129 [] (retAt 46)]

def main : Function :=
  .ofBlocks 0 [.ofInstrs 90 [createAt 50 60 2, createAt 51 61 3, createAt 52 62 1] (retAt 53)]

/-- The globals `k`, `k2`, `p`, `x` and `q` are `0` at the start; `u` is initialised with `undef`, which is
anything. -/
def program : Module :=
  .ofFunctions [main, h, m, g]
    [⟨0, some (.constantInt ⟨32, 0⟩)⟩, ⟨1, some (.constantInt ⟨32, 0⟩)⟩, ⟨2, some (.constantInt ⟨32, 0⟩)⟩,
      ⟨3, some (.constantInt ⟨32, 0⟩)⟩, ⟨4, some (.constantInt ⟨32, 0⟩)⟩, ⟨5, some .other⟩] (some 0)

def cx : Ctx :=
  .ofModule program 16 { useBoxG := true, noCombinsG := true }

def pass : Except LoopStop (RunState boxes) :=
  runOnModule .increasing cx (fun _ _ => .lUndef) [] 60

theorem pass_errors : pass.toOption.map (fun t => t.rErrors.toList) = some [] := by
  decide

theorem setting : NonCombSetting (Box.concretisation cx.v2n) registers cx (fun _ => 0) :=
  Box.nonCombSetting 0 (by decide) (by decide) rfl (by decide) (by decide)
    (by decide)

/-- `h` sets `k`, `g` copies it to `p`, and `m` finds it there. -/
def run : List Event :=
  scheduled program (fun _ => 0) (fun _ => none) 0 [0, 0, 0, 1, 3, 3, 3, 3, 3, 3, 3, 2, 2, 2, 2]

theorem error_mem_run : (⟨23, .call .assertFail, none, []⟩ : Instruction) ∈ run.map (·.inst) := by
  decide

/-- **An error that is reached and not reported.**  The second iteration has a larger `p` and a smaller `q` than
the first at the store to `p`, which counts as stable, and `m` has been analysed with the first. -/
theorem error_unreported : checkCommandLineArgs cx.opts = .ok cx.opts ∧
    NonCombSetting (Box.concretisation cx.v2n) registers cx (fun _ => 0) ∧ cx.module.main = some 0 ∧
    ∃ t, pass = .ok t ∧ (∃ c, Interleaving registers cx.module (fun _ => 0) 0 run c) ∧
      ∃ e ∈ run, ¬ Promised cx t e := by
  obtain ⟨t, ht, herrors⟩ := Fallible.exists_ok_of_toOption pass_errors
  obtain ⟨e, he, hinst⟩ := List.mem_map.mp error_mem_run
  refine ⟨rfl, setting, rfl, t, ht, scheduled_interleaving (fun _ _ hw => by cases hw) 0 _, e, he, fun hpromised => ?_⟩
  have hmem := hpromised.error (by rw [hinst])
  rw [← Std.TreeSet.mem_toList, herrors] at hmem
  cases hmem

end StoppedEarly

namespace RaisedFlag

/-- `flag = 1` -/
def raises : Function := .ofBlocks 1 [.ofInstrs 100 [storeAt 20 1 0] (retAt 21)]

/-- Creates the thread and reports an error when it sees the flag. -/
def main : Function :=
  .ofBlocks 0
    [.ofInstrs 90 [createAt 10 60 1, loadAt 2 0, icmpAt 3 2 .sgt 0]
      (brIcmpAt 11 3 2 .sgt 0 91 92),
    .ofInstrs 91 [⟨12, .call .assertFail, none, []⟩] ⟨13, .unreachable, none, []⟩,
    .ofInstrs 92 [] (retAt 14)]

def program : Module :=
  .ofFunctions [main, raises] [⟨0, some (.constantInt ⟨32, 0⟩)⟩] (some 0)

def cx : Ctx :=
  .ofModule program 4 { useBoxG := true, noCombinsG := true }

def pass : Except LoopStop (RunState boxes) :=
  runOnModule .increasing cx (fun _ _ => .lUndef) [] 40

theorem pass_comparable :
    pass.toOption.map (fun t => decide (AllComparable t.allReachStores t.newReachStores)) = some true := by
  decide

theorem setting : NonCombSetting (Box.concretisation cx.v2n) registers cx (fun _ => 0) :=
  Box.nonCombSetting 0 (by decide) (by decide) rfl (by decide) (by decide)
    (by decide)

/-- The thread raises the flag before `main` looks at it. -/
def run : List Event :=
  scheduled program (fun _ => 0) (fun _ => none) 0 [0, 1, 0, 0, 0, 0]

theorem runOnModule_sound_run : ∃ t, pass = .ok t ∧ ∀ e ∈ run, Promised cx t e := by
  obtain ⟨t, ht, hcomp⟩ := Fallible.exists_ok_of_toOption pass_comparable
  obtain ⟨c, hc⟩ : ∃ c, Interleaving registers program (fun _ => 0) 0 run c :=
    scheduled_interleaving (fun _ _ hw => by cases hw) 0 _
  refine ⟨t, ht, runOnModule_sound (Box.concretisation cx.v2n) registers .increasing cx (fun _ _ => .lUndef) [] 40
    (fun _ => 0) setting t ht (fun oldI newI hstops => ?_) 0 rfl run c hc⟩
  obtain ⟨rfl, rfl⟩ := hstops.eq ht
  exact of_decide_eq_true hcomp

end RaisedFlag

end Watts
