import Watts.BoxSound

/-! Coverage of `analyzeFunc`.  Stored facts are overwritten and popped facts are dropped, so the
facts at the blocks need not grow; what is never lost is that each arrived state lies in some pending
fact or in some fact that was processed at its block.  Along a path this gives, at each instruction,
a processed fact whose execution up to that instruction contains the current state. -/

namespace Watts

open Worklist (Pop Covered)

variable {ap : Apron} {K : Concretisation ap} {sem : Semantics} {cx : Ctx} {interf : InterfMap ap}
  {F : Function} {o : BlockOrder}

section Block

/-- The state of a path is in the fact that some processed fact of its block has become. -/
def OnTrack (K : Concretisation ap) (cx : Ctx) (interf : InterfMap ap) (F : Function)
    (ps : List (Pop BlockId (LatticeFact ap))) (c : PathConf) : Prop :=
  c.block ∈ F.blocks ∧ ∃ p ∈ ps, (system cx interf F).Visits p ∧ p.key = c.block.id ∧
    ∃ pre f bk, c.block.body = pre ++ c.rest ∧
      BBOps.runBody cx interf cx.opts.noCombinsG pre p.fact {} = .ok (f, bk) ∧ c.env ∈ K.γ f

/-- A branch taken at the end of an executed block goes to one of the facts sent out. -/
theorem outFacts_sound (hbr : K.SoundBranch sem cx F) {B : BasicBlock} (hB : B ∈ F.blocks)
    {f : LatticeFact ap} {outs : List (BlockId × LatticeFact ap)} {σ : Env} {b : BlockId}
    (hσ : σ ∈ K.γ f) (ho : BBOps.outFacts cx B.terminator f = .ok outs)
    (hb : Branches sem B.terminator σ b) : ∃ g, (b, g) ∈ outs ∧ σ ∈ K.γ g := by
  have hmem : B.terminator ∈ F.instrs :=
    Function.mem_instrs.mpr ⟨B, hB, BasicBlock.mem_instrs.mpr (.inr rfl)⟩
  unfold BBOps.outFacts at ho
  unfold Branches at hb
  split at ho
  · next succ hk =>
      cases ho
      simp only [hk, Instruction.successors, List.mem_singleton] at hb
      exact ⟨f, by simp [hb], hσ⟩
  · next cond t e hk =>
      simp only [hk] at hb
      cases ht : f.constrainTF cx.opts cond true cx.v2n with
      | error _ => simp [ht, bind, Except.bind] at ho
      | ok trueF =>
          cases he : f.constrainTF cx.opts cond false cx.v2n with
          | error _ => simp [ht, he, bind, Except.bind] at ho
          | ok falseF =>
              by_cases hte : t = e
              · simp [ht, he, hte, bind, Except.bind, throw, throwThe, MonadExceptOf.throw] at ho
              · simp [ht, he, hte, bind, Except.bind, pure, Except.pure] at ho
                subst ho
                rcases hb with ⟨hbr', rfl⟩ | ⟨hbr', rfl⟩
                · exact ⟨trueF, by simp, hbr _ hmem cond _ _ hk f trueF σ true hσ hbr' ht⟩
                · exact ⟨falseF, by simp, hbr _ hmem cond _ _ hk f falseF σ false hσ hbr' he⟩
  · next hk => simp [hk, Instruction.successors] at hb
  · next hk => simp [hk, Instruction.successors] at hb
  · cases ho

end Block

section Runs

variable {s t : LoopState o ap} {ps : List (Pop BlockId (LatticeFact ap))}

/-- A state covered at a block when the worklist is empty is on track at the start of the block. -/
theorem onTrack_of_covered {B : BasicBlock} (hB : B ∈ F.blocks) {σ : Env}
    (hend : ∀ b, t.abs.pending b = none)
    (h : Covered K.γ (system cx interf F) t.abs ps B.id σ) :
    OnTrack K cx interf F ps ⟨B, B.body, σ⟩ := by
  rcases h with ⟨f, hf, _⟩ | ⟨p, hp, hv, hk, hσ⟩ | hσ
  · exact absurd hf (by simp [hend])
  · exact ⟨hB, p, hp, hv, hk, [], p.fact, {}, rfl, rfl, hσ⟩
  · have : σ ∈ K.γ ⟨ap.bottom⟩ := hσ
    rw [K.bottom_empty] at this
    exact absurd this (Set.notMem_empty σ)

variable (hrun : LoopState.Run cx interf F s ps t)
include hrun

/-- An instruction on track is executed with a fact that contains the state. -/
theorem onTrack_executed {B : BasicBlock} {i : Instruction} {is : List Instruction} {σ : Env}
    (h : OnTrack K cx interf F ps ⟨B, i :: is, σ⟩) :
    ∃ p ∈ ps, (system cx interf F).Visits p ∧ p.key = B.id ∧ ∃ pre f bk f', B.body = pre ++ i :: is ∧
      BBOps.runBody cx interf cx.opts.noCombinsG pre p.fact {} = .ok (f, bk) ∧ σ ∈ K.γ f ∧
        BBOps.transferFact cx interf cx.opts.noCombinsG f i = .ok f' := by
  obtain ⟨hB, p, hp, hv, hk, pre, f, bk, hbody, hpre, hσ⟩ := h
  simp only at hB hk hbody hσ
  have hBid : F.block? p.key = some B := hk ▸ Function.block?_id hB
  obtain ⟨B', outs, bk₁, bk₂, hB', hexec⟩ := hrun.executed hp hv
  obtain rfl : B' = B := Option.some.inj (hB'.symm.trans hBid)
  obtain ⟨_, hbodyrun, _⟩ := BBOps.runTransferFuncs_ok.mp hexec
  rw [hbody] at hbodyrun
  obtain ⟨⟨f₁, bk₃⟩, hpre₁, hrest⟩ := (BBOps.runBody_append pre (i :: is)).mp hbodyrun
  obtain ⟨bk₄, hpre₂⟩ := BBOps.runBody_books hpre₁ {}
  have hff : f₁ = f := (Prod.mk.inj (Except.ok.inj (hpre₂.symm.trans hpre))).1
  subst hff
  obtain ⟨f', hf', _⟩ := BBOps.runBody_cons.mp hrest
  exact ⟨p, hp, hv, hk, pre, f₁, bk, f', hbody, hpre, hσ, hf'⟩

/-- **Executing an instruction stays on track**, and the instruction is accounted for. -/
theorem onTrack_inst (htr : K.SoundTransfer sem cx interf F) {B : BasicBlock} {i : Instruction}
    {is : List Instruction} {σ σ' : Env} (h : OnTrack K cx interf F ps ⟨B, i :: is, σ⟩)
    (hstep : InstStep sem (K.Reads interf cx.opts.noCombinsG) i σ σ') :
    OnTrack K cx interf F ps ⟨B, is, σ'⟩ ∧ K.Accounts t.books ⟨i, σ, σ'⟩ := by
  have hB : B ∈ F.blocks := h.1
  obtain ⟨p, hp, hv, hk, pre, f, bk, f', hbody, hpre, hσ, hf'⟩ := onTrack_executed hrun h
  have hBid : F.block? p.key = some B := hk ▸ Function.block?_id hB
  have hi : i ∈ F.instrs :=
    Function.mem_instrs.mpr ⟨B, hB, BasicBlock.mem_instrs.mpr (.inl (by simp [hbody]))⟩
  have hσ' : σ' ∈ K.γ f' := htr i hi f f' σ σ' hσ hstep hf'
  have hpre' : BBOps.runBody cx interf cx.opts.noCombinsG (pre ++ [i]) p.fact {} =
      .ok (f', BBOps.record bk f f' i) :=
    (BBOps.runBody_append pre [i]).mpr ⟨_, hpre, BBOps.runBody_cons.mpr ⟨f', hf', rfl⟩⟩
  refine ⟨⟨hB, p, hp, hv, hk, pre ++ [i], f', _, by simp [hbody], hpre', hσ'⟩, ?_⟩
  exact K.accounts_of_records
    (hrun.records K.joinOrder hp hv hBid ⟨pre, is, bk, hbody, hpre, hf'⟩) hσ hσ'

/-- **A jump stays on track**: the fact sent to the successor is covered when the run ends. -/
theorem onTrack_jump (hbr : K.SoundBranch sem cx F)
    (hinit : ∀ b, s.abs.stored b = ⟨ap.bottom⟩) (hend : ∀ b, t.abs.pending b = none)
    {B B' : BasicBlock} {σ : Env} (h : OnTrack K cx interf F ps ⟨B, [], σ⟩)
    (hjump : Branches sem B.terminator σ B'.id) (hB' : B' ∈ F.blocks) :
    OnTrack K cx interf F ps ⟨B', B'.body, σ⟩ := by
  obtain ⟨hB, p, hp, hv, hk, pre, f, bk, hbody, hpre, hσ⟩ := h
  simp only [List.append_nil] at hB hk hbody hσ
  have hBid : F.block? p.key = some B := hk ▸ Function.block?_id hB
  obtain ⟨B₁, outs, bk₁, bk₂, hB₁, hexec⟩ := hrun.executed hp hv
  obtain rfl : B₁ = B := Option.some.inj (hB₁.symm.trans hBid)
  obtain ⟨endFact, hbodyrun, hout⟩ := BBOps.runTransferFuncs_ok.mp hexec
  rw [hbody] at hbodyrun
  obtain ⟨bk₃, hpre₁⟩ := BBOps.runBody_books hbodyrun {}
  have hff : endFact = f := (Prod.mk.inj (Except.ok.inj (hpre₁.symm.trans hpre))).1
  subst hff
  obtain ⟨g, hg, hσg⟩ := outFacts_sound hbr hB hσ hout hjump
  have hpost : (B'.id, g) ∈ (system cx interf F).post p.key p.fact := by
    rw [hk]
    show (B'.id, g) ∈ blockPost cx interf F B₁.id p.fact
    rw [blockPost_eq (Function.block?_id hB) hexec]
    exact hg
  exact onTrack_of_covered hB' hend
    (Worklist.covered_post K.leq_sound K.join_left K.join_right hinit hrun.run hp hv hpost hσg)

theorem onTrack_path (htr : K.SoundTransfer sem cx interf F) (hbr : K.SoundBranch sem cx F)
    (hinit : ∀ b, s.abs.stored b = ⟨ap.bottom⟩) (hend : ∀ b, t.abs.pending b = none)
    {c c' : PathConf} {tr : List Executed} (h : OnTrack K cx interf F ps c)
    (hpath : Path sem (K.Reads interf cx.opts.noCombinsG) F c tr c') :
    OnTrack K cx interf F ps c' ∧ ∀ e ∈ tr, K.Accounts t.books e := by
  induction hpath with
  | nil => exact ⟨h, fun _ he => absurd he List.not_mem_nil⟩
  | inst _ hstep ih =>
      obtain ⟨hc, hacc⟩ := onTrack_inst hrun htr ih.1 hstep
      refine ⟨hc, fun e he => ?_⟩
      rcases List.mem_append.mp he with he | he
      · exact ih.2 e he
      · exact List.mem_singleton.mp he ▸ hacc
  | jump _ hjump hB' ih =>
      exact ⟨onTrack_jump hrun hbr hinit hend ih.1 hjump hB', ih.2⟩

end Runs

/-- The entry state is on track in a run from a fact that contains it. -/
theorem LoopRun.onTrack {books : Books ap} {entryFact : LatticeFact ap} {first : BasicBlock}
    {ps : List (Pop BlockId (LatticeFact ap))} {t : LoopState o ap} (hmem : first ∈ F.blocks)
    (hrun : LoopState.Run cx interf F (initLoop o F first entryFact books) ps t)
    (hend : ∀ b, t.abs.pending b = none) {σ : Env} (hσ : σ ∈ K.γ entryFact) :
    OnTrack K cx interf F ps ⟨first, first.body, σ⟩ := by
  have hinit := initLoop_stored (o := o) (F := F) first entryFact books
  have hpend : (initLoop o F first entryFact books).abs.pending first.id = some entryFact := by
    rw [initLoop_pending, if_pos rfl]
  have hcov : Covered K.γ (system cx interf F) t.abs ps first.id σ :=
    Worklist.covered_run K.leq_sound K.join_left hinit (.nil _) hrun.run
      (.inl ⟨entryFact, hpend, hσ⟩)
  exact onTrack_of_covered hmem hend hcov

/-- Whatever a path executes whose loads read no more than the interference allows is accounted for. -/
theorem analyzeFunc_accounts {reads : ReadRel} {books books' : Books ap} {entryFact : LatticeFact ap}
    {mergeInterfs : Bool} {fuel : Nat} {res : Std.TreeMap BlockId (LatticeFact ap)}
    (htr : K.SoundTransfer sem cx interf F) (hbr : K.SoundBranch sem cx F)
    (h : analyzeFunc o cx interf books entryFact F mergeInterfs fuel = .ok (res, books'))
    (hreads : ∀ i ptr σ v, reads i ptr σ v → K.Reads interf cx.opts.noCombinsG i ptr σ v)
    {first : BasicBlock} (hfirst : F.blocks.head? = some first) {σ : Env} (hσ : σ ∈ K.γ entryFact)
    {tr : List Executed} {c : PathConf} (hpath : Path sem reads F ⟨first, first.body, σ⟩ tr c) :
    ∀ e ∈ tr, K.Accounts books' e := by
  obtain ⟨ps, t, ⟨first', hfirst', hrun⟩, hend, _, hbooks⟩ := analyzeFunc_run h
  obtain rfl : first' = first := Option.some.inj (hfirst'.symm.trans hfirst)
  have hinit := initLoop_stored (o := o) (F := F) first' entryFact books
  have htrack := LoopRun.onTrack (K := K) (List.mem_of_mem_head? hfirst) hrun hend hσ
  rw [← hbooks]
  exact (onTrack_path hrun htr hbr hinit hend htrack (hpath.mono hreads)).2

/-- **Coverage of `analyzeFunc`.**  Whatever a path from the entry fact executes is accounted for in
the bookkeeping when the worklist loop ends, for every order of the blocks. -/
theorem analyzeFunc_covers (K : Concretisation ap) (sem : Semantics) (o : BlockOrder) (cx : Ctx)
    (interf : InterfMap ap) (F : Function) (books books' : Books ap) (entryFact : LatticeFact ap)
    (mergeInterfs : Bool) (fuel : Nat) (res : Std.TreeMap BlockId (LatticeFact ap))
    (htr : K.SoundTransfer sem cx interf F) (hbr : K.SoundBranch sem cx F)
    (h : analyzeFunc o cx interf books entryFact F mergeInterfs fuel = .ok (res, books'))
    (first : BasicBlock) (hfirst : F.blocks.head? = some first) (σ : Env) (hσ : σ ∈ K.γ entryFact)
    (tr : List Executed) (c : PathConf)
    (hpath : Path sem (K.Reads interf cx.opts.noCombinsG) F ⟨first, first.body, σ⟩ tr c) :
    ∀ e ∈ tr, K.Accounts books' e := by
  intro e he
  exact analyzeFunc_accounts htr hbr h (fun _ _ _ _ hr => hr) hfirst hσ hpath e he

namespace CheckedLoad

def load : Instruction := ⟨1, .load 0, some 32, []⟩
def cmp : Instruction := ⟨2, .icmp .eq (.value 1) (i32 1), some 1, []⟩
def error : Instruction := ⟨3, .call .assertFail, none, []⟩

def entry : BasicBlock :=
  .ofInstrs 100 [load, cmp] ⟨10, .condBr (.icmp 2 .eq (.value 1) (i32 1)) 101 102, none, []⟩

def fails : BasicBlock :=
  .ofInstrs 101 [error] ⟨11, .unreachable, none, []⟩

/-- A thread that loads `x`, the value `0`, and reports an error when it reads `1`. -/
def thread : Function :=
  .ofBlocks 0 [entry, fails, .ofInstrs 102 [] ⟨12, .ret, none, []⟩]

/-- The interference of `x` with the value `1`. -/
def readsOne : InterfMap boxes :=
  Std.TreeMap.insert ∅ 1 ⟨some [.const 1]⟩

/-- The fact that `x` is `c`. -/
def xIs (c : Int) : LatticeFact boxes :=
  ⟨some [.const c]⟩

theorem mem_xIs {k : Nat} {c : Int} {σ : Env} (h : σ 0 = c) :
    σ ∈ (Box.concretisation (Box.numbered k)).γ (xIs c) := by
  apply Box.mem_numbered
  apply Box.mem_consts [c]
  intro v hv
  obtain rfl : v = 0 := by simpa using hv
  exact h

theorem plain : ∀ i ∈ thread.instrs, Box.Plain i := by
  decide

/-- The path that reads the interfering value. -/
theorem path : ∃ τ σ', Path registers ((Box.concretisation (Box.numbered 4)).Reads readsOne false) thread
    ⟨entry, entry.body, fun _ => 0⟩ [⟨load, fun _ => 0, τ⟩, ⟨cmp, τ, σ'⟩, ⟨error, σ', σ'⟩]
    ⟨fails, [], σ'⟩ := by
  have hread : (Box.concretisation (Box.numbered 4)).Reads readsOne false load 0 (fun _ => 0) 1 := by
    unfold Concretisation.Reads readsOne
    rw [show load.id = 1 from rfl, Std.TreeMap.getElem?_insert_self]
    exact .inl ⟨fun _ => 1, mem_xIs rfl, rfl⟩
  have hload : InstStep registers ((Box.concretisation (Box.numbered 4)).Reads readsOne false) load
      (fun _ => 0) _ := .load rfl hread
  have hcmp : InstStep registers ((Box.concretisation (Box.numbered 4)).Reads readsOne false) cmp
      (Function.update (Function.update (fun _ => 0) 0 1) 1 1) _ :=
    .other rfl rfl rfl ⟨1, ⟨1, 1, rfl, rfl, .inl ⟨rfl, rfl⟩⟩, rfl⟩
  have hjump : Branches registers entry.terminator
      (Function.update (Function.update (Function.update (fun _ => 0) 0 1) 1 1) 2 1) fails.id :=
    .inl ⟨⟨rfl, 1, 1, rfl, rfl, by simp [Predicate.Holds]⟩, rfl⟩
  exact ⟨_, _, .inst (.jump (.inst (.inst (.nil _) hload) hcmp) hjump (.tail _ (.head _))) (.call rfl)⟩

theorem analyzeFunc_covers_thread :
    ∃ r, analyzeFunc .increasing (.single thread 4) readsOne {} (xIs 0) thread false 20 = .ok r ∧
      3 ∈ r.2.rErrors := by
  obtain ⟨r, hr⟩ := exists_ok (x := analyzeFunc .increasing (.single thread 4) readsOne {} (xIs 0) thread
    false 20) (by decide)
  obtain ⟨τ, σ', hpath⟩ := path
  have hcov := analyzeFunc_covers (Box.concretisation (Box.numbered 4)) registers .increasing
    (.single thread 4) readsOne thread {} r.2 (xIs 0) false 20 r.1
    (Box.soundTransfer (.single thread 4) (Box.numbered_injective 4) _ _ plain)
    (Box.soundBranch (.single thread 4) _ plain) hr entry rfl (fun _ => 0) (mem_xIs rfl) _ _ hpath
  exact ⟨r, hr, hcov _ (.tail _ (.tail _ (.head _)))⟩

end CheckedLoad

end Watts
