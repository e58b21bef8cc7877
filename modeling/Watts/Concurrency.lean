import Watts.Library.Runs
import Watts.FenceOrder
import Watts.Semantics

/-! Interleavings under sequential consistency.  The threads run the functions of the module over one
memory, in which each pointer names a cell of its own, as it does for the pass.  A function is run by one
thread at most, so that threads go by their functions. -/

namespace Watts

/-- What a thread does: it is not created, it stands somewhere in its function, or it has ended. -/
inductive Thread
  | idle
  | running (p : PathConf)
  | finished

/-- The state of a program. -/
structure Config where
  mem : Env
  threads : FuncId → Thread

/-- An executed instruction with its thread and the states of the thread before and after it. -/
structure Event extends Executed where
  thread : FuncId

namespace Instruction

/-- A call that starts, awaits or ends a thread. -/
def isThreadCall (i : Instruction) : Bool :=
  match i.kind with
  | .call (.pthreadCreate ..) | .call (.pthreadJoin _) | .call .pthreadExit => true
  | _ => false

theorem kind_of_createdFunc {i : Instruction} {g : FuncId} (h : i.createdFunc = some g) :
    ∃ t args, i.kind = .call (.pthreadCreate t (some g) args) := by
  unfold createdFunc at h
  split at h
  · next t f args hk =>
      subst h
      exact ⟨t, args, hk⟩
  · cases h

/-- The memory after an instruction: the cell that it writes has the value that the thread sees there. -/
def writeBack (i : Instruction) (mem σ' : Env) : Env :=
  match i.getStorePtr with
  | some p => Function.update mem p (σ' p)
  | none => mem

end Instruction

namespace Module

/-- A value is among the operands of the instruction at an address. -/
def UsedBy (M : Module) (v w : Value) : Prop :=
  ∃ i ∈ M.instrs, i.id = w ∧ v ∈ i.operands

/-- A value is loaded from the variable at an address. -/
def LoadedFrom (M : Module) (v p : Value) : Prop :=
  ∃ i ∈ M.instrs, i.id = v ∧ i.kind = .load p

/-- A `pthread_t` may belong to a thread: it is loaded from a variable that a `pthread_create` of the
thread uses. -/
def Joins (M : Module) (v : Value) (g : FuncId) : Prop :=
  ∃ p, Relation.ReflTransGen M.LoadedFrom v p ∧
    ∃ c ∈ M.instrs, c.createdFunc = some g ∧ Relation.ReflTransGen M.UsedBy p c.id

/-- A new thread stands at the entry of its function; a function without body ends at once. -/
def start (M : Module) (init : Env) (f : FuncId) : Thread :=
  match (M.func? f).bind (·.blocks.head?) with
  | some first => .running ⟨first, first.body, init⟩
  | none => .finished

end Module

section Interleavings

variable (sem : Semantics) (M : Module) (init : Env)

/-- How a thread moves when it executes an instruction. -/
inductive Moves (f : FuncId) : PathConf → Executed → Thread → Prop
  | inst {B : BasicBlock} {i : Instruction} {rest : List Instruction} {σ σ' : Env} :
      Moves f ⟨B, i :: rest, σ⟩ ⟨i, σ, σ'⟩ (.running ⟨B, rest, σ'⟩)
  | exit {B : BasicBlock} {i : Instruction} {rest : List Instruction} {σ : Env}
      (hk : i.kind = .call .pthreadExit) : Moves f ⟨B, i :: rest, σ⟩ ⟨i, σ, σ⟩ .finished
  | jump {F : Function} {B B' : BasicBlock} {σ : Env} (hF : M.func? f = some F)
      (hb : Branches sem B.terminator σ B'.id) (hB' : B' ∈ F.blocks) :
      Moves f ⟨B, [], σ⟩ ⟨B.terminator, σ, σ⟩ (.running ⟨B', B'.body, σ⟩)
  | ret {B : BasicBlock} {σ : Env} (hr : B.terminator.isReturn = true) :
      Moves f ⟨B, [], σ⟩ ⟨B.terminator, σ, σ⟩ .finished

/-- One step of a program: a thread executes an instruction.  A load reads the cell of its pointer, a join
waits for a thread that its `pthread_t` may belong to, and a thread is created once only.  That the return
of `main` ends the other threads is left out; it only cuts runs short. -/
inductive Step : Config → Event → Config → Prop
  | inst {c : Config} {f : FuncId} {p : PathConf} {e : Executed} {t : Thread}
      (hrun : c.threads f = .running p) (hm : Moves sem M f p e t)
      (hlocal : e.inst.isThreadCall = false) (hinst : e.inst.isTerminator = false)
      (hs : InstStep sem (fun _ ptr _ v => v = c.mem ptr) e.inst e.before e.after) :
      Step c ⟨e, f⟩ ⟨e.inst.writeBack c.mem e.after, Function.update c.threads f t⟩
  | control {c : Config} {f : FuncId} {p : PathConf} {e : Executed} {t : Thread}
      (hrun : c.threads f = .running p) (hm : Moves sem M f p e t)
      (hcontrol : e.inst.isTerminator = true ∨ e.inst.kind = .call .pthreadExit ∧ t = .finished) :
      Step c ⟨e, f⟩ ⟨c.mem, Function.update c.threads f t⟩
  | create {c : Config} {f g : FuncId} {p : PathConf} {i : Instruction} {σ : Env} {t : Thread}
      (hrun : c.threads f = .running p) (hm : Moves sem M f p ⟨i, σ, σ⟩ t)
      (hg : i.createdFunc = some g) (hidle : c.threads g = .idle) :
      Step c ⟨⟨i, σ, σ⟩, f⟩
        ⟨c.mem, Function.update (Function.update c.threads f t) g (M.start init g)⟩
  | join {c : Config} {f : FuncId} {p : PathConf} {i : Instruction} {σ : Env} {t : Thread} {v : Value}
      (hrun : c.threads f = .running p) (hm : Moves sem M f p ⟨i, σ, σ⟩ t)
      (hk : i.kind = .call (.pthreadJoin v))
      (hwait : (∃ g, M.Joins v g) → ∃ g, M.Joins v g ∧ c.threads g = .finished) :
      Step c ⟨⟨i, σ, σ⟩, f⟩ ⟨c.mem, Function.update c.threads f t⟩

/-- The start of a program: `main` stands at its entry and no other thread is created. -/
def Config.initial (main : FuncId) : Config :=
  ⟨init, Function.update (fun _ => .idle) main (M.start init main)⟩

/-- The interleavings of a program. -/
abbrev Interleaving (main : FuncId) : List Event → Config → Prop :=
  Runs.Run (Step sem M init) (Config.initial M init main)

end Interleavings

end Watts
