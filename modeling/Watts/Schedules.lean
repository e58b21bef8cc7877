import Watts.BoxSound
import Watts.Concurrency

/-! Interleavings by schedule.  Given the threads that take the next steps, one after another, and the thread
that each join waits for, the steps themselves are computed; unspecified results are zero. -/

namespace Watts

open Runs (Run)

instance (pred : Predicate) (x y : Int) : Decidable (pred.Holds x y) :=
  match pred with
  | .eq => inferInstanceAs (Decidable (x = y))
  | .ne => inferInstanceAs (Decidable (x ≠ y))
  | .sgt => inferInstanceAs (Decidable (x > y))
  | .sge => inferInstanceAs (Decidable (x ≥ y))
  | .slt => inferInstanceAs (Decidable (x < y))
  | .sle => inferInstanceAs (Decidable (x ≤ y))
  | .ugt => inferInstanceAs (Decidable (x % 2 ^ 64 > y % 2 ^ 64))
  | .uge => inferInstanceAs (Decidable (x % 2 ^ 64 ≥ y % 2 ^ 64))
  | .ult => inferInstanceAs (Decidable (x % 2 ^ 64 < y % 2 ^ 64))
  | .ule => inferInstanceAs (Decidable (x % 2 ^ 64 ≤ y % 2 ^ 64))

namespace Registers

def operandVal (σ : Env) : Operand → Int
  | .constantInt ci | .constantExpr (some ci) => ci.val.toInt
  | .constantPointerNull | .constantExpr none => 0
  | .value v => σ v

theorem operand_operandVal (σ : Env) (op : Operand) : operand σ op (operandVal σ op) := by
  cases op with
  | constantExpr folded => cases folded <;> first | rfl | trivial
  | _ => rfl

/-- The truth value of a comparison. -/
def cmpVal (pred : Predicate) (op0 op1 : Operand) (σ : Env) : Int :=
  if pred.Holds (operandVal σ op0) (operandVal σ op1) then 1 else 0

/-- The direction of a branch, when the register of the condition has a truth value that fits. -/
def direction? (cond : Condition) (σ : Env) : Option Bool :=
  match cond with
  | .value v => if σ v = 1 then some true else if σ v = 0 then some false else none
  | .icmp ic pred op0 op1 =>
    if σ ic = cmpVal pred op0 op1 σ then
      some (decide (pred.Holds (operandVal σ op0) (operandVal σ op1)))
    else none

theorem branch_of_direction? {cond : Condition} {σ : Env} {dir : Bool} (h : direction? cond σ = some dir) :
    registers.branch cond σ dir := by
  cases cond with
  | value v =>
      unfold direction? at h
      dsimp only at h
      split_ifs at h with h₁ h₀ <;> cases h
      · exact h₁
      · exact h₀
  | icmp ic pred op0 op1 =>
      unfold direction? at h
      dsimp only at h
      split_ifs at h with hic
      cases h
      refine ⟨?_, _, _, operand_operandVal σ op0, operand_operandVal σ op1, decide_eq_true_iff.symm⟩
      rw [hic, cmpVal]
      by_cases hp : pred.Holds (operandVal σ op0) (operandVal σ op1) <;> simp [hp]

end Registers

section Schedules

variable (M : Module) (init : Env) (waits : Value → Option FuncId)

/-- The state after an instruction that reads and writes only registers and memory, if it is one. -/
def Config.local? (mem : Env) (i : Instruction) (σ : Env) : Option Env :=
  match i.kind with
  | .alloca | .call .other | .call .assertFail => some σ
  | .store val ptr => some (Function.update σ ptr (Registers.operandVal σ val))
  | .load ptr => some (Function.update (Function.update σ ptr (mem ptr)) i.id (mem ptr))
  | .icmp pred op0 op1 => some (Function.update σ i.id (Registers.cmpVal pred op0 op1 σ))
  | _ => none

/-- The block that a thread enters at the end of a block. -/
def Config.target? (t : Instruction) (σ : Env) : Option BlockId :=
  match t.kind with
  | .br b => some b
  | .condBr cond trueSucc falseSucc =>
    (Registers.direction? cond σ).map fun dir => if dir then trueSucc else falseSucc
  | _ => none

/-- The next step of a thread, unless it waits or executes something else. -/
def Config.advance (c : Config) (f : FuncId) : Option (Event × Config) :=
  match c.threads f with
  | .running ⟨B, i :: rest, σ⟩ =>
    match i.kind with
    | .call (.pthreadCreate _ (some g) _) =>
      match c.threads g with
      | .idle => some (⟨⟨i, σ, σ⟩, f⟩, ⟨c.mem, Function.update
          (Function.update c.threads f (.running ⟨B, rest, σ⟩)) g (M.start init g)⟩)
      | _ => none
    | .call (.pthreadJoin v) =>
      match (waits v).map c.threads with
      | some .finished => some (⟨⟨i, σ, σ⟩, f⟩, ⟨c.mem, Function.update c.threads f (.running ⟨B, rest, σ⟩)⟩)
      | _ => none
    | _ => (Config.local? c.mem i σ).map fun σ' =>
        (⟨⟨i, σ, σ'⟩, f⟩, ⟨i.writeBack c.mem σ', Function.update c.threads f (.running ⟨B, rest, σ'⟩)⟩)
  | .running ⟨B, [], σ⟩ =>
    if B.terminator.isReturn then
      some (⟨⟨B.terminator, σ, σ⟩, f⟩, ⟨c.mem, Function.update c.threads f .finished⟩)
    else do
      let B' ← (M.func? f).bind fun F => (Config.target? B.terminator σ).bind F.block?
      return (⟨⟨B.terminator, σ, σ⟩, f⟩, ⟨c.mem, Function.update c.threads f (.running ⟨B', B'.body, σ⟩)⟩)
  | _ => none

/-- The events of a schedule and the state after it. -/
def Config.follow : List FuncId → Config → Option (List Event × Config)
  | [], c => some ([], c)
  | f :: fs, c => do
    let (e, c') ← c.advance M init waits f
    let (es, c'') ← Config.follow fs c'
    return (e :: es, c'')

variable {M init waits}

theorem local?_step {mem : Env} {i : Instruction} {σ σ' : Env} (h : Config.local? mem i σ = some σ') :
    i.isThreadCall = false ∧ i.isTerminator = false ∧
      InstStep registers (fun _ ptr _ v => v = mem ptr) i σ σ' := by
  unfold Config.local? at h
  unfold Instruction.isThreadCall Instruction.isTerminator
  cases hk : i.kind with
  | alloca =>
      rw [hk] at h
      cases h
      exact ⟨rfl, rfl, .alloca hk⟩
  | store val ptr =>
      rw [hk] at h
      cases h
      exact ⟨rfl, rfl, .store hk (Registers.operand_operandVal σ val)⟩
  | load ptr =>
      rw [hk] at h
      cases h
      exact ⟨rfl, rfl, .load hk rfl⟩
  | icmp pred op0 op1 =>
      rw [hk] at h
      cases h
      refine ⟨rfl, rfl, .other (by rw [Instruction.getStorePtr, hk]) (by rw [Instruction.getLoadPtr, hk])
        (by rw [Instruction.isCall, hk]) ⟨_, ?_, rfl⟩⟩
      rw [Registers.result, hk]
      refine ⟨_, _, Registers.operand_operandVal σ op0, Registers.operand_operandVal σ op1, ?_⟩
      unfold Registers.cmpVal
      split_ifs with hp
      · exact .inl ⟨hp, rfl⟩
      · exact .inr ⟨hp, rfl⟩
  | call callee =>
      cases callee <;> rw [hk] at h <;> first | (cases h; exact ⟨rfl, rfl, .call hk⟩) | cases h
  | _ =>
      rw [hk] at h
      cases h

theorem target?_branches {t : Instruction} {σ : Env} {b : BlockId} (h : Config.target? t σ = some b) :
    Branches registers t σ b := by
  unfold Config.target? at h
  unfold Branches
  cases hk : t.kind with
  | br b' =>
      rw [hk] at h
      cases h
      show b ∈ t.successors
      rw [Instruction.successors, hk]
      exact .head _
  | condBr cond trueSucc falseSucc =>
      rw [hk] at h
      obtain ⟨dir, hdir, rfl⟩ := Option.map_eq_some_iff.mp h
      have hbranch := Registers.branch_of_direction? hdir
      cases dir
      · exact .inr ⟨hbranch, rfl⟩
      · exact .inl ⟨hbranch, rfl⟩
  | _ =>
      rw [hk] at h
      cases h

theorem Config.local?_advance {c c' : Config} {f : FuncId} {B : BasicBlock} {i : Instruction}
    {rest : List Instruction} {σ : Env} {e : Event} (hrun : c.threads f = .running ⟨B, i :: rest, σ⟩)
    (h : (Config.local? c.mem i σ).map (fun σ' => ((⟨⟨i, σ, σ'⟩, f⟩ : Event),
      (⟨i.writeBack c.mem σ', Function.update c.threads f (.running ⟨B, rest, σ'⟩)⟩ : Config))) = some (e, c')) :
    Step registers M init c e c' := by
  obtain ⟨σ', hσ', heq⟩ := Option.map_eq_some_iff.mp h
  cases heq
  obtain ⟨hlocal, hterm, hstep⟩ := local?_step hσ'
  exact .inst hrun .inst hlocal hterm hstep

/-- **What is computed for a thread** is a step of the program. -/
theorem Config.advance_step (hwaits : ∀ v g, waits v = some g → M.Joins v g) {c c' : Config} {f : FuncId}
    {e : Event} (h : c.advance M init waits f = some (e, c')) : Step registers M init c e c' := by
  unfold Config.advance at h
  cases hrun : c.threads f with
  | idle =>
      rw [hrun] at h
      cases h
  | finished =>
      rw [hrun] at h
      cases h
  | running p =>
      obtain ⟨B, rest, σ⟩ := p
      rw [hrun] at h
      cases rest with
      | cons i rest =>
          dsimp only at h
          cases hk : i.kind with
          | call callee =>
              cases callee with
              | pthreadCreate t g args =>
                  cases g with
                  | none =>
                      rw [hk] at h
                      exact local?_advance hrun h
                  | some g =>
                      rw [hk] at h
                      dsimp only at h
                      cases hidle : c.threads g with
                      | idle =>
                          rw [hidle] at h
                          cases h
                          exact .create hrun .inst (by rw [Instruction.createdFunc, hk]) hidle
                      | _ =>
                          rw [hidle] at h
                          cases h
              | pthreadJoin v =>
                  rw [hk] at h
                  dsimp only at h
                  cases hv : waits v with
                  | none =>
                      rw [hv] at h
                      cases h
                  | some g =>
                      cases hfinished : c.threads g with
                      | finished =>
                          rw [hv, Option.map_some, hfinished] at h
                          cases h
                          exact .join hrun .inst hk fun _ => ⟨g, hwaits v g hv, hfinished⟩
                      | _ =>
                          rw [hv, Option.map_some, hfinished] at h
                          cases h
              | _ =>
                  rw [hk] at h
                  exact local?_advance hrun h
          | _ =>
              rw [hk] at h
              exact local?_advance hrun h
      | nil =>
          dsimp only at h
          split_ifs at h with hret
          · cases h
            exact .control hrun (.ret hret) (.inl B.terminator_is)
          · obtain ⟨B', hB', heq⟩ := Option.bind_eq_some_iff.mp h
            cases heq
            obtain ⟨F, hF, hB'⟩ := Option.bind_eq_some_iff.mp hB'
            obtain ⟨b, hb, hB'⟩ := Option.bind_eq_some_iff.mp hB'
            obtain ⟨hmem, rfl⟩ := Function.block?_mem hB'
            exact .control hrun (.jump hF (target?_branches hb) hmem) (.inl B.terminator_is)

theorem Config.follow_run (hwaits : ∀ v g, waits v = some g → M.Joins v g) {fs : List FuncId}
    {c c' : Config} {tr : List Event} (h : Config.follow M init waits fs c = some (tr, c')) :
    Run (Step registers M init) c tr c' := by
  induction fs generalizing c tr with
  | nil =>
      cases h
      exact .nil
  | cons f fs ih =>
      obtain ⟨⟨e, c₁⟩, hstep, h⟩ := Option.bind_eq_some_iff.mp h
      obtain ⟨⟨es, c₂⟩, hrest, heq⟩ := Option.bind_eq_some_iff.mp h
      cases heq
      exact Run.append (.snoc .nil (Config.advance_step hwaits hstep)) (ih hrest)

variable (M init waits)

/-- The interleaving of a schedule; no events when a thread cannot take its step. -/
def scheduled (main : FuncId) (fs : List FuncId) : List Event :=
  ((Config.follow M init waits fs (Config.initial M init main)).map Prod.fst).getD []

variable {M init waits}

theorem scheduled_interleaving (hwaits : ∀ v g, waits v = some g → M.Joins v g) (main : FuncId)
    (fs : List FuncId) : ∃ c, Interleaving registers M init main (scheduled M init waits main fs) c := by
  unfold scheduled
  cases h : Config.follow M init waits fs (Config.initial M init main) with
  | none => exact ⟨_, .nil⟩
  | some r => exact ⟨r.2, Config.follow_run hwaits h⟩

end Schedules

end Watts
