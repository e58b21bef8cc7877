import Watts.ConstraintFacts
import Watts.Histories
import Watts.Interferences
import Watts.Schedules

/-! The must-happen-before relation of the constraints, read over interleavings.  `mhb x y` says that from
the point on where `y` is done `x` is not executed any more.  An instruction also counts as done when its
thread has been joined and a return of the thread is always preceded by it: the pass derives an order
through each of the returns, and a thread takes one of them. -/

namespace Watts

open Runs (Run)

/-- The dominator tree of LLVM. -/
def Trees.DomCorrect (trees : Trees) (M : Module) : Prop :=
  ∀ F ∈ M.functions, ∀ first, F.blocks.head? = some first → ∀ A ∈ F.blocks,
    ∀ c ∈ trees.domChildren F.id A.id, Flow.ImmediatelyDominates F.Edge first.id A.id c

/-- An instruction is a return of the function or always before one. -/
def Function.LeadsToRet (F : Function) (i : Instruction) : Prop :=
  ∃ r ∈ getRets F, i = r ∨ F.AlwaysBefore i r

namespace Module

/-- Each thread function is created at one place and `main` at none, and each `pthread_t` that is joined
belongs to one thread. -/
structure CreatedOnce (M : Module) (main : FuncId) : Prop where
  not_main : ∀ c ∈ M.instrs, c.createdFunc ≠ some main
  site : ∀ c ∈ M.instrs, ∀ c' ∈ M.instrs, ∀ g, c.createdFunc = some g → c'.createdFunc = some g → c = c'
  joined : ∀ j ∈ M.instrs, ∀ v, j.kind = .call (.pthreadJoin v) → ∀ g g', M.Joins v g → M.Joins v g' → g = g'

/-- A join of a thread that the pass finds. -/
def JoinOf (M : Module) (fuel : Nat) (j : Instruction) (g : FuncId) : Prop :=
  ∃ v, j.kind = .call (.pthreadJoin v) ∧ findCreateFromJoin M fuel v = .ok (some g)

end Module

/-- When a thread is joined, it has executed the joins that one of its returns is always preceded by. -/
def CompleteJoins (M : Module) (fuel : Nat) (tr : List Event) : Prop :=
  ∀ pre e post, tr = pre ++ e :: post → ∀ F ∈ M.functions, M.JoinOf fuel e.inst F.id →
    ∀ j ∈ F.instrs, (∃ g, M.JoinOf fuel j g) → F.LeadsToRet j → ∃ e' ∈ pre, e'.inst = j

/-- An instruction is done: it has been executed, or its thread has been joined and one of the returns of
the thread is always preceded by it. -/
def Done (M : Module) (fuel : Nat) (pre : List Event) (y : Value) : Prop :=
  (∃ e ∈ pre, e.inst.id = y) ∨
    ∃ F ∈ M.functions, ∃ i ∈ F.instrs, i.id = y ∧ F.LeadsToRet i ∧ ∃ e ∈ pre, M.JoinOf fuel e.inst F.id

/-- Where `y` is done, `x` is done and will not be executed. -/
def Ordered (M : Module) (fuel : Nat) (tr : List Event) (x y : Value) : Prop :=
  ∀ pre post, tr = pre ++ post → Done M fuel pre y → Done M fuel pre x ∧ ∀ e ∈ post, e.inst.id ≠ x

/-- No instance of `y` is executed before an instance of `x`. -/
def NeverBefore (tr : List Event) (y x : Value) : Prop :=
  tr.Pairwise fun e e' => ¬ (e.inst.id = y ∧ e'.inst.id = x)

/-- It depends on the instructions only. -/
theorem neverBefore_iff {tr : List Event} {x y : Value} :
    NeverBefore tr y x ↔ (tr.map (·.inst)).Pairwise fun i j => ¬ (i.id = y ∧ j.id = x) := by
  unfold NeverBefore
  rw [List.pairwise_map]

theorem Ordered.trans {M : Module} {fuel : Nat} {tr : List Event} {x y z : Value} (hxy : Ordered M fuel tr x y)
    (hyz : Ordered M fuel tr y z) : Ordered M fuel tr x z :=
  fun pre post htr hz => hxy pre post htr (hyz pre post htr hz).1

theorem Ordered.neverBefore {M : Module} {fuel : Nat} {tr : List Event} {x y : Value}
    (h : Ordered M fuel tr x y) : NeverBefore tr y x := by
  refine List.pairwise_iff_forall_sublist.mpr fun {e e'} hsub ⟨hy, hx⟩ => ?_
  obtain ⟨pre, post, rfl, he, he'⟩ := List.cons_sublist_iff.mp hsub
  exact (h pre post rfl (.inl ⟨e, he, hy⟩)).2 e' (List.singleton_sublist.mp he') hx

/-! ### The thread of a join -/

section Joins

variable {M : Module} {fuel : Nat}

theorem mem_users {v : Value} {i : Instruction} (h : i ∈ M.users v) : i ∈ M.instrs ∧ M.UsedBy v i.id := by
  obtain ⟨hi, hv⟩ := List.mem_filter.mp (List.mem_reverse.mp h)
  exact ⟨hi, i, hi, rfl, List.contains_iff_mem.mp hv⟩

theorem created_of_liftStop {ci : Instruction} {f : FuncId}
    (h : liftStop ((getPThreadThreadFunc ci).map some) = .ok (some f)) : ci.createdFunc = some f := by
  cases hg : getPThreadThreadFunc ci with
  | error s =>
      rw [hg] at h
      cases h
  | ok g =>
      rw [hg] at h
      cases h
      exact createdFunc_of_getPThreadThreadFunc hg

/-- The forward search finds a creation that the variable flows into. -/
theorem forwardSearchCreate_used {stack : List Instruction} {f : FuncId}
    (h : forwardSearchCreate M fuel stack = .ok (some f)) :
    ∃ i ∈ stack, ∃ c ∈ M.instrs, c.createdFunc = some f ∧ Relation.ReflTransGen M.UsedBy i.id c.id := by
  induction fuel generalizing stack with
  | zero => cases stack <;> cases h
  | succ fuel ih =>
      cases stack with
      | nil => cases h
      | cons cur stack =>
          unfold forwardSearchCreate at h
          dsimp only at h
          cases hfind : (M.users cur.id).find? Instruction.isPthreadCreate with
          | some ci =>
              rw [hfind] at h
              obtain ⟨hci, hused⟩ := mem_users (List.mem_of_find?_eq_some hfind)
              exact ⟨cur, .head _, ci, hci, created_of_liftStop h, .single hused⟩
          | none =>
              rw [hfind] at h
              obtain ⟨i, hi, c, hc, hcf, hused⟩ := ih h
              rcases List.mem_append.mp hi with hi | hi
              · obtain ⟨_, hcur⟩ := mem_users (List.mem_reverse.mp hi)
                exact ⟨cur, .head _, c, hc, hcf, .head hcur hused⟩
              · exact ⟨i, .tail _ hi, c, hc, hcf, hused⟩

theorem findCreateFromJoinLoop_joins {v : Value} {f : FuncId}
    (h : findCreateFromJoinLoop M fuel v = .ok (some f)) : M.Joins v f := by
  induction fuel generalizing v with
  | zero => cases h
  | succ fuel ih =>
      unfold findCreateFromJoinLoop at h
      cases hi : M.instr? v with
      | none =>
          rw [hi] at h
          cases h
      | some i =>
          rw [hi] at h
          dsimp only at h
          obtain ⟨hmem, rfl⟩ := Module.instr?_mem hi
          cases hk : i.kind with
          | call callee =>
              cases callee with
              | pthreadCreate t g args =>
                  rw [hk] at h
                  exact ⟨i.id, .refl, i, hmem, created_of_liftStop h, .refl⟩
              | _ =>
                  rw [hk] at h
                  cases h
          | alloca =>
              rw [hk] at h
              obtain ⟨j, hj, c, hc, hcf, hused⟩ := forwardSearchCreate_used h
              rw [List.mem_singleton.mp hj] at hused
              exact ⟨i.id, .refl, c, hc, hcf, hused⟩
          | load ptr =>
              rw [hk] at h
              obtain ⟨p, hp, hc⟩ := ih h
              exact ⟨p, .head ⟨i, hmem, rfl, hk⟩ hp, hc⟩
          | _ =>
              rw [hk] at h
              cases h

/-- **The thread that the pass finds** for a join is one that its `pthread_t` may belong to. -/
theorem findCreateFromJoin_joins {v : Value} {f : FuncId} (h : findCreateFromJoin M fuel v = .ok (some f)) :
    M.Joins v f := by
  unfold findCreateFromJoin at h
  cases hi : M.instr? v with
  | none =>
      rw [hi] at h
      cases h
  | some i =>
      rw [hi] at h
      exact findCreateFromJoinLoop_joins h

end Joins

/-! ### The order of each kind of fact -/

section Run

variable {sem : Semantics} {M : Module} {init : Env} {main : FuncId} {fuel : Nat}

/-- Two instructions of functions of the module with one address are one instruction of one function. -/
theorem eq_of_id {F F' : Function} (hF : F ∈ M.functions) (hF' : F' ∈ M.functions) {i j : Instruction}
    (hi : i ∈ F.instrs) (hj : j ∈ F'.instrs) (h : i.id = j.id) : F = F' ∧ i = j := by
  obtain rfl : i = j := M.eq_of_id_eq (Module.mem_instrs.mpr ⟨F, hF, hi⟩) (Module.mem_instrs.mpr ⟨F', hF', hj⟩) h
  exact ⟨M.function_unique hF hF' hi hj, rfl⟩

/-- A join finds its thread ended. -/
theorem finished_at_join (hM : M.CreatedOnce main) {pre post : List Event} {e : Event} {c : Config}
    (h : Interleaving sem M init main (pre ++ e :: post) c) {g : FuncId} (hj : M.JoinOf fuel e.inst g) :
    ∃ m, Interleaving sem M init main pre m ∧ Run (Step sem M init) m (e :: post) c ∧
      m.threads g = .finished := by
  obtain ⟨m, m', hpre, hstep, hpost⟩ := h.split_event
  refine ⟨m, hpre, Run.append (.snoc .nil hstep) hpost, ?_⟩
  obtain ⟨v, hk, hfind⟩ := hj
  have hjoins := findCreateFromJoin_joins hfind
  obtain ⟨g', hg', hfinished⟩ := hstep.joined hk ⟨g, hjoins⟩
  obtain ⟨F, hF, _, hi⟩ := mem_instrs_of_interleaving h (List.mem_append_right _ (.head _))
  have hmem : e.inst ∈ M.instrs := Module.mem_instrs.mpr ⟨F, hF, hi⟩
  rwa [hM.joined e.inst hmem v hk g' g hg' hjoins] at hfinished

/-- A thread that has been joined has ended. -/
theorem joined_finished (hM : M.CreatedOnce main) {pre post : List Event} {c : Config}
    (h : Interleaving sem M init main (pre ++ post) c) {e : Event} (he : e ∈ pre) {g : FuncId}
    (hj : M.JoinOf fuel e.inst g) :
    ∃ m, Interleaving sem M init main pre m ∧ Run (Step sem M init) m post c ∧ m.threads g = .finished := by
  obtain ⟨m, hpre, hpost⟩ := h.split
  refine ⟨m, hpre, hpost, ?_⟩
  obtain ⟨p₁, p₂, rfl⟩ := List.append_of_mem he
  obtain ⟨t, _, hrest, hfinished⟩ := finished_at_join hM hpre hj
  exact (hrest.preserves (fun c => c.threads g = .finished) (fun _ => True) hfinished
    fun _ _ _ hc hs => ⟨(hs.finished hc).1, trivial⟩).1

/-- Nothing of a thread that has been joined is executed any more. -/
theorem not_executed_of_joined (hM : M.CreatedOnce main) {pre post : List Event} {c : Config}
    (h : Interleaving sem M init main (pre ++ post) c) {F : Function} (hF : F ∈ M.functions) {e : Event}
    (he : e ∈ pre) (hj : M.JoinOf fuel e.inst F.id) {i : Instruction} (hi : i ∈ F.instrs) :
    ∀ e' ∈ post, e'.inst.id ≠ i.id := by
  intro e' he' hid
  obtain ⟨m, _, hpost, hfinished⟩ := joined_finished hM h he hj
  exact no_event_of_finished hpost hfinished e' he'
    (thread_eq_of_mem h (List.mem_append_right _ he') hF hi hid).2

/-- An instruction that is always before another and never after it has been executed before each of its
instances and is not executed from there on. -/
theorem Function.AlwaysBefore.executed {pre post : List Event} {e : Event} {c : Config}
    (h : Interleaving sem M init main (pre ++ e :: post) c) {F : Function} (hF : F ∈ M.functions)
    {i j : Instruction} (hi : i ∈ F.instrs) (hj : j ∈ F.instrs) (hbefore : F.AlwaysBefore i j)
    (hafter : F.NeverAfter i j) (hid : e.inst.id = j.id) :
    (∃ e' ∈ pre, e'.inst = i) ∧ ∀ e' ∈ e :: post, e'.inst.id ≠ i.id := by
  obtain ⟨heq, hthread, htracks⟩ := tracks_of_event h hF hj hid
  have hius := hbefore _ _ htracks
  have hnodup : i ≠ j := by
    rintro rfl
    obtain ⟨us, vs, hus⟩ := List.append_of_mem hius
    rw [hus, List.append_assoc, List.cons_append] at htracks
    exact hafter _ _ htracks (List.mem_append_right _ (.head _))
  constructor
  · obtain ⟨e', he', _, heq'⟩ := exists_of_mem_executedBy hius
    exact ⟨e', he', heq'⟩
  · intro e' he' hid'
    obtain ⟨heq', hthread'⟩ := thread_eq_of_mem h (List.mem_append_right _ he') hF hi hid'
    rcases List.mem_cons.mp he' with rfl | he'
    · exact hnodup (heq'.symm.trans heq)
    · refine hafter _ _ htracks ?_
      rw [← heq', ← hthread']
      exact mem_executedBy he'

/-- **Dominance** without a way back. -/
theorem Function.AlwaysBefore.ordered (hM : M.CreatedOnce main) {tr : List Event} {c : Config}
    (h : Interleaving sem M init main tr c) {F : Function} (hF : F ∈ M.functions) {i j : Instruction}
    (hi : i ∈ F.instrs) (hj : j ∈ F.instrs) (hbefore : F.AlwaysBefore i j) (hafter : F.NeverAfter i j) :
    Ordered M fuel tr i.id j.id := by
  rintro pre post rfl (⟨e, he, hid⟩ | ⟨F', hF', j', hj', hid, ⟨r, hr, hjr⟩, e, he, hjoin⟩)
  · obtain ⟨p₁, p₂, rfl⟩ := List.append_of_mem he
    rw [List.append_assoc, List.cons_append] at h
    obtain ⟨⟨e', he', heq⟩, hno⟩ := hbefore.executed h hF hi hj hafter hid
    refine ⟨.inl ⟨e', List.mem_append_left _ he', by rw [heq]⟩, fun e'' he'' => hno e'' ?_⟩
    exact .tail _ (List.mem_append_right _ he'')
  · obtain ⟨rfl, rfl⟩ := eq_of_id hF' hF hj' hj hid
    refine ⟨.inr ⟨F', hF, i, hi, rfl, ⟨r, hr, .inr ?_⟩, e, he, hjoin⟩,
      not_executed_of_joined hM h hF he hjoin hi⟩
    rcases hjr with rfl | hjr
    · exact hbefore
    · exact hbefore.trans hjr

/-- **The creation** of a thread before what its function executes. -/
theorem ordered_create (hM : M.CreatedOnce main) {tr : List Event} {c : Config}
    (h : Interleaving sem M init main tr c) {F : Function} (hF : F ∈ M.functions) {ci y : Instruction}
    (hci : ci ∈ M.instrs) (hcreate : ci.createdFunc = some F.id) (hy : y ∈ F.instrs) :
    Ordered M fuel tr ci.id y.id := by
  have hmain : F.id ≠ main := fun heq => hM.not_main ci hci (heq ▸ hcreate)
  rintro pre post rfl hdone
  -- the creation is among the events
  have hcreated : ∃ e ∈ pre, e.inst.createdFunc = some F.id := by
    rcases hdone with ⟨e, he, hid⟩ | ⟨F', hF', y', hy', hid, _, e, he, hjoin⟩
    · obtain ⟨_, hthread⟩ := thread_eq_of_mem h (List.mem_append_left _ he) hF hy hid
      obtain ⟨p₁, p₂, rfl⟩ := List.append_of_mem he
      rw [List.append_assoc, List.cons_append] at h
      obtain ⟨e', he', hef⟩ := created_before h (hthread ▸ hmain)
      exact ⟨e', List.mem_append_left _ he', hthread ▸ hef⟩
    · obtain ⟨rfl, _⟩ := eq_of_id hF' hF hy' hy hid
      obtain ⟨m, hpre, _, hfinished⟩ := joined_finished hM h he hjoin
      exact (created_of_interleaving hpre hmain).mp (by rw [hfinished]; exact nofun)
  obtain ⟨e, he, hef⟩ := hcreated
  have hmem : ∀ e ∈ pre ++ post, e.inst ∈ M.instrs := fun e he => by
    obtain ⟨F', hF', _, hi⟩ := mem_instrs_of_interleaving h he
    exact Module.mem_instrs.mpr ⟨F', hF', hi⟩
  have heq : e.inst = ci := hM.site _ (hmem e (List.mem_append_left _ he)) _ hci _ hef hcreate
  refine ⟨.inl ⟨e, he, by rw [heq]⟩, fun e' he' hid => ?_⟩
  have heq' : e'.inst = ci := M.eq_of_id_eq (hmem e' (List.mem_append_right _ he')) hci hid
  exact not_created_again h hmain he hef e' he' (heq' ▸ hcreate)

/-- **The returns** of a thread before a join of the thread. -/
theorem ordered_join (hM : M.CreatedOnce main) {tr : List Event} {c : Config}
    (h : Interleaving sem M init main tr c) (hjoins : CompleteJoins M fuel tr) {F : Function}
    (hF : F ∈ M.functions) {r j : Instruction} (hr : r ∈ getRets F) (hjM : j ∈ M.instrs)
    (hj : M.JoinOf fuel j F.id) : Ordered M fuel tr r.id j.id := by
  have hrF : r ∈ F.instrs := (List.mem_filter.mp hr).1
  rintro pre post rfl hdone
  have hexec : ∃ e ∈ pre, e.inst = j := by
    rcases hdone with ⟨e, he, hid⟩ | ⟨H, hH, j', hj', hid, hleads, e, he, hjoin⟩
    · obtain ⟨F', hF', _, hi⟩ := mem_instrs_of_interleaving h (List.mem_append_left _ he)
      exact ⟨e, he, M.eq_of_id_eq (Module.mem_instrs.mpr ⟨F', hF', hi⟩) hjM hid⟩
    · obtain rfl : j' = j := M.eq_of_id_eq (Module.mem_instrs.mpr ⟨H, hH, hj'⟩) hjM hid
      obtain ⟨p₁, p₂, rfl⟩ := List.append_of_mem he
      obtain ⟨e', he', heq⟩ := hjoins p₁ e (p₂ ++ post) (by rw [List.append_assoc, List.cons_append]) H hH
        hjoin j' hj' ⟨F.id, hj⟩ hleads
      exact ⟨e', List.mem_append_left _ he', heq⟩
  obtain ⟨e, he, rfl⟩ := hexec
  exact ⟨.inr ⟨F, hF, r, hrF, rfl, ⟨r, hr, .inl rfl⟩, e, he, hj⟩, not_executed_of_joined hM h hF he hj hrF⟩

end Run

/-! ### The meaning of the relations -/

section Meaning

variable {sem : Semantics} {M : Module} {init : Env} {main : FuncId} {fuel : Nat}

/-- An instruction of a function is before another on all its paths. -/
def DomMeaning (M : Module) (x y : Value) : Prop :=
  ∃ F ∈ M.functions, ∃ i ∈ F.instrs, ∃ j ∈ F.instrs, i.id = x ∧ j.id = y ∧ F.AlwaysBefore i j

/-- No path leads from the block of an instruction to that of another. -/
def NotReachMeaning (M : Module) (x y : Value) : Prop :=
  ∃ F ∈ M.functions, ∃ B ∈ F.blocks, ∃ N ∈ F.blocks, (∃ i ∈ B.instrs, i.id = x) ∧ (∃ j ∈ N.instrs, j.id = y) ∧
    ¬ Relation.TransGen F.Edge B.id N.id

/-- What the relations say about an interleaving when nothing is known about the values that loads read. -/
def OrderMeaning (M : Module) (fuel : Nat) (tr : List Event) : GroundAtom → Prop
  | ⟨.dom, args⟩ => ∃ x y, args = [x, y] ∧ DomMeaning M x y
  | ⟨.notReach, args⟩ => ∃ x y, args = [x, y] ∧ NotReachMeaning M x y
  | ⟨.mhb, args⟩ => ∃ x y, args = [x, y] ∧ Ordered M fuel tr x y
  | ⟨.rf, _⟩ => False
  | _ => True

theorem pair_eq {α : Type} {x y a b : α} (h : [a, b] = [x, y]) : a = x ∧ b = y := by
  simpa using h

theorem DomMeaning.trans {x y z : Value} (hxy : DomMeaning M x y) (hyz : DomMeaning M y z) :
    DomMeaning M x z := by
  obtain ⟨F, hF, i, hi, j, hj, rfl, rfl, hij⟩ := hxy
  obtain ⟨F', hF', j', hj', k, hk, hid, rfl, hjk⟩ := hyz
  obtain ⟨rfl, rfl⟩ := eq_of_id hF' hF hj' hj hid
  exact ⟨F', hF, i, hi, k, hk, rfl, rfl, hij.trans hjk⟩

/-- Dominance and no way back. -/
theorem DomMeaning.neverAfter {x y : Value} (hdom : DomMeaning M x y) (hreach : NotReachMeaning M y x) :
    ∃ F ∈ M.functions, ∃ i ∈ F.instrs, ∃ j ∈ F.instrs, i.id = x ∧ j.id = y ∧ F.AlwaysBefore i j ∧
      F.NeverAfter i j := by
  obtain ⟨F, hF, i, hi, j, hj, rfl, rfl, hij⟩ := hdom
  obtain ⟨F', hF', B, hB, A, hA, ⟨j', hj', hidj⟩, ⟨i', hi', hidi⟩, hno⟩ := hreach
  obtain ⟨rfl, rfl⟩ := eq_of_id hF' hF (Function.mem_instrs.mpr ⟨B, hB, hj'⟩) hj hidj
  obtain ⟨_, rfl⟩ := eq_of_id hF' hF (Function.mem_instrs.mpr ⟨A, hA, hi'⟩) hi hidi
  exact ⟨F', hF, i', hi, j', hj, rfl, rfl, hij, hij.neverAfter hA hi' hB hj' hno⟩

/-- They give an order in every interleaving. -/
theorem DomMeaning.ordered (hM : M.CreatedOnce main) {tr : List Event} {c : Config}
    (h : Interleaving sem M init main tr c) {x y : Value} (hdom : DomMeaning M x y)
    (hreach : NotReachMeaning M y x) : Ordered M fuel tr x y := by
  obtain ⟨F, hF, i, hi, j, hj, rfl, rfl, hij, hafter⟩ := hdom.neverAfter hreach
  exact hij.ordered hM h hF hi hj hafter

/-! ### The facts -/

theorem before_of_sublist {B : BasicBlock} {l us vs : List Instruction} {i j : Instruction}
    (h : l.Sublist B.instrs) (hl : l = us ++ i :: j :: vs) : Function.Before B i j := by
  have hij : [i, j].Sublist B.instrs := by
    refine List.Sublist.trans ?_ h
    rw [hl]
    exact (List.Sublist.cons_cons _ (List.Sublist.cons_cons _ (List.nil_sublist vs))).trans (List.sublist_append_right _ _)
  obtain ⟨pre, post, hB, hi, hj⟩ := List.cons_sublist_iff.mp hij
  obtain ⟨p₁, p₂, rfl⟩ := List.append_of_mem hi
  refine ⟨p₁, p₂ ++ post, by rw [hB, List.append_assoc, List.cons_append], ?_⟩
  exact List.mem_append_right _ (List.singleton_sublist.mp hj)

/-- Neighbours in a list. -/
theorem mem_zip_tail {α : Type} {l : List α} {p : α × α} (h : p ∈ l.zip l.tail) :
    ∃ us vs, l = us ++ p.1 :: p.2 :: vs := by
  induction l with
  | nil => cases h
  | cons a l ih =>
      cases l with
      | nil => cases h
      | cons b l =>
          rcases List.mem_cons.mp h with rfl | h
          · exact ⟨[], l, rfl⟩
          · obtain ⟨us, vs, hl⟩ := ih h
            exact ⟨a :: us, vs, by rw [hl]; rfl⟩

theorem BasicBlock.isaStoreLoadCall_terminator (b : BasicBlock) : b.terminator.isaStoreLoadCall = false := by
  have hterm := b.terminator_is
  unfold Instruction.isTerminator at hterm
  unfold Instruction.isaStoreLoadCall Instruction.isStoreInst Instruction.isLoadInst Instruction.isCall
  generalize b.terminator.kind = k at hterm ⊢
  cases k <;> first | rfl | cases hterm

/-- The accesses of a block stand before its terminator. -/
theorem accesses_sublist (b : BasicBlock) : (b.getLoadStoreCallOrdered ++ [b.terminator]).Sublist b.instrs := by
  unfold BasicBlock.getLoadStoreCallOrdered BasicBlock.instrs
  rw [List.filter_append, List.filter_singleton, b.isaStoreLoadCall_terminator]
  simp

theorem front_before (b : BasicBlock) {i : Instruction} (hi : i ∈ b.instrs) (hne : b.front ≠ i) :
    Function.Before b b.front i := by
  unfold BasicBlock.front at hne ⊢
  cases hb : b.instrs with
  | nil =>
      rw [hb] at hi
      cases hi
  | cons x rest =>
      rw [hb] at hi hne
      exact ⟨[], rest, hb, (List.mem_cons.mp hi).resolve_left (Ne.symm hne)⟩

variable {trees : Trees}

/-- A dominance fact says that an instruction is before another on all paths. -/
theorem IsDomFact.meaning (htrees : trees.DomCorrect M) {F : Function} (hF : F ∈ M.functions) {r : Rule}
    (h : IsDomFact trees F r) : ∃ x y, r = .fact .dom [x, y] ∧ DomMeaning M x y := by
  have hfact : ∀ {A B : BasicBlock} {i j : Instruction}, A ∈ F.blocks → B ∈ F.blocks → i ∈ A.instrs →
      j ∈ B.instrs → (A = B ∧ Function.Before A i j ∨ A.id ≠ B.id ∧ F.DominatesBlock A.id B.id) →
      ∃ x y, addDomFact i j = .fact .dom [x, y] ∧ DomMeaning M x y := by
    intro A B i j hA hB hi hj hdom
    have hstrict : F.StrictlyDominates i j := ⟨A, hA, B, hB, hi, hj, hdom⟩
    exact ⟨_, _, rfl, F, hF, i, Function.mem_instrs.mpr ⟨A, hA, hi⟩, j,
      Function.mem_instrs.mpr ⟨B, hB, hj⟩, rfl, rfl, hstrict.alwaysBefore⟩
  have hbefore : ∀ {b : BasicBlock} {i j : Instruction}, b ∈ F.blocks → Function.Before b i j →
      ∃ x y, addDomFact i j = .fact .dom [x, y] ∧ DomMeaning M x y := by
    intro b i j hb hij
    obtain ⟨pre, post, hinstrs, hj⟩ := hij
    exact hfact hb hb (hinstrs ▸ List.mem_append_right _ (.head _))
      (hinstrs ▸ List.mem_append_right _ (.tail _ hj)) (.inl ⟨rfl, pre, post, hinstrs, hj⟩)
  cases h with
  | @first b hb hne =>
      exact hbefore (List.mem_of_mem_head? hb) (front_before b (getFirstLoadStoreCallTerm_mem b) hne)
  | @inBlock b hb p hp =>
      obtain ⟨us, vs, hl⟩ := mem_zip_tail hp
      exact hbefore hb (before_of_sublist (accesses_sublist b) hl)
  | @child b C hb c hc hC =>
      obtain ⟨hCF, rfl⟩ := Function.block?_mem hC
      refine hfact hb hCF (BasicBlock.mem_instrs.mpr (.inr rfl)) (getFirstLoadStoreCallTerm_mem C) (.inr ?_)
      cases hblocks : F.blocks.head? with
      | none => rw [List.head?_eq_none_iff.mp hblocks] at hb; cases hb
      | some first =>
          refine ⟨(htrees F hF first hblocks b hb C.id hc).ne, fun entry hentry => ?_⟩
          exact (htrees F hF entry hentry b hb C.id hc).dominates

/-- A reachability fact says that no path leads from one block to the other. -/
theorem IsNotReachFact.meaning {r : Rule} {n : Nat} (h : IsNotReachFact M n r) :
    ∃ x y, r = .fact .notReach [x, y] ∧ NotReachMeaning M x y := by
  obtain ⟨F, hF, B, hB, N, hN, reach, hreach, hnot, i, hi, nr, hnr, rfl⟩ := h
  refine ⟨_, _, rfl, F, hF, B, hB, N, hN, ⟨i, hi, rfl⟩, ⟨nr, hnr, rfl⟩, fun hpath => hnot ?_⟩
  unfold Function.forwardDfs at hreach
  cases hdfs : Flow.dfs F.succsOf n (F.succsOf B.id).reverse [] with
  | none =>
      rw [hdfs] at hreach
      cases hreach
  | some found =>
      rw [hdfs] at hreach
      cases hreach
      exact Flow.dfs_complete hdfs hpath

/-- The rules of dominance and transitivity. -/
theorem orderMeaning_rule (hM : M.CreatedOnce main) {tr : List Event} {c : Config}
    (h : Interleaving sem M init main tr c) {r : Rule}
    (hr : r = addTransRuleBVBV .dom ∨ r ∈ addPruningRules ++ [addReadsFromIsMHB]) :
    r.Holds (OrderMeaning M fuel tr) := by
  have hrf : ∀ {σ : Nat → Value} {x y : Horn.Term Value} {p : Prop},
      OrderMeaning M fuel tr ((atom .rf x y).inst σ) → p := fun h => absurd h id
  intro σ hb
  simp only [addPruningRules, List.cons_append, List.nil_append, List.mem_cons, List.not_mem_nil,
    or_false] at hr
  rcases hr with rfl | rfl | rfl | rfl | rfl | rfl | rfl | rfl
  · obtain ⟨x, y, hxy, hdom⟩ := hb (atom .dom (.bound 0) (.bound 1)) (.head _)
    obtain ⟨y', z, hyz, hdom'⟩ := hb (atom .dom (.bound 1) (.bound 2)) (.tail _ (.head _))
    obtain ⟨rfl, rfl⟩ := pair_eq hxy
    obtain ⟨rfl, rfl⟩ := pair_eq hyz
    exact ⟨_, _, rfl, hdom.trans hdom'⟩
  · exact hrf (hb (atom .rf (.bound 0) (.bound 1)) (.head _))
  · obtain ⟨x, y, hxy, hdom⟩ := hb (atom .dom (.bound 0) (.bound 1)) (.head _)
    obtain ⟨y', x', hyx, hreach⟩ := hb (atom .notReach (.bound 1) (.bound 0)) (.tail _ (.head _))
    obtain ⟨rfl, rfl⟩ := pair_eq hxy
    obtain ⟨rfl, rfl⟩ := pair_eq hyx
    exact ⟨_, _, rfl, hdom.ordered hM h hreach⟩
  · exact hrf (hb (atom .rf (.bound 2) (.bound 0)) (.head _))
  · obtain ⟨x, y, hxy, hord⟩ := hb (atom .mhb (.bound 0) (.bound 1)) (.head _)
    obtain ⟨y', z, hyz, hord'⟩ := hb (atom .mhb (.bound 1) (.bound 2)) (.tail _ (.head _))
    obtain ⟨rfl, rfl⟩ := pair_eq hxy
    obtain ⟨rfl, rfl⟩ := pair_eq hyz
    exact ⟨_, _, rfl, hord.trans hord'⟩
  · trivial
  · trivial
  · exact hrf (hb (atom .rf (.bound 3) (.bound 2)) (.head _))

/-- **The constraints hold** in every interleaving whose joins are complete. -/
theorem addConstraints_orderMeaning (htrees : trees.DomCorrect M) (hM : M.CreatedOnce main)
    {threadFuncs : List FuncId} {rules : List Rule}
    (hrules : addConstraints trees M threadFuncs fuel = .ok rules) {tr : List Event} {c : Config}
    (h : Interleaving sem M init main tr c) (hjoins : CompleteJoins M fuel tr) :
    ∀ r ∈ rules, r.Holds (OrderMeaning M fuel tr) := by
  obtain ⟨doms, hdoms, hrules⟩ := Fallible.bind_eq_ok.mp hrules
  obtain ⟨creates, hcreates, hrules⟩ := Fallible.bind_eq_ok.mp hrules
  obtain ⟨joins, hjoinFacts, hrules⟩ := Fallible.bind_eq_ok.mp hrules
  obtain ⟨notReach, hnotReach, hrules⟩ := Fallible.bind_eq_ok.mp hrules
  cases hrules
  intro r hr
  rw [List.append_assoc, List.mem_append, List.mem_append, List.mem_append, List.mem_append] at hr
  rcases hr with (((hr | hr) | hr) | hr) | hr
  · rcases mem_addDomLoadStoreFacts_dom (liftStop_eq_ok.mp hdoms) hr with rfl | ⟨F, hF, hdom⟩ |
      ⟨i, _, ⟨p, _, rfl⟩ | ⟨v, p, _, rfl⟩⟩
    · exact orderMeaning_rule hM h (.inl rfl)
    · obtain ⟨x, y, rfl, hxy⟩ := hdom.meaning htrees hF
      exact Horn.Rule.fact_holds ⟨x, y, rfl, hxy⟩
    · exact Horn.Rule.fact_holds trivial
    · exact Horn.Rule.fact_holds trivial
  · rcases mem_addCreateFacts (liftStop_eq_ok.mp hcreates) hr with hpred | ⟨ci, hci, _, F, hF, hf, b, hb, rfl⟩
    · intro σ _
      unfold Horn.Atom.inst
      rw [hpred]
      trivial
    · have hmem : b.getFirstLoadStoreCallTerm ∈ F.instrs :=
        Function.mem_instrs.mpr ⟨b, List.mem_of_mem_head? hb, getFirstLoadStoreCallTerm_mem b⟩
      exact Horn.Rule.fact_holds ⟨_, _, rfl, ordered_create hM h hF hci hf hmem⟩
  · obtain ⟨i, hi, thread, hk, F, hF, hfound, ret, hret, rfl⟩ := mem_addJoinFacts hjoinFacts hr
    exact Horn.Rule.fact_holds ⟨_, _, rfl, ordered_join hM h hjoins hF hret hi ⟨thread, hk, hfound⟩⟩
  · obtain ⟨x, y, rfl, hxy⟩ := (mem_addNotReachableFacts_blocks hnotReach hr).meaning
    exact Horn.Rule.fact_holds ⟨x, y, rfl, hxy⟩
  · exact orderMeaning_rule hM h (.inr hr)

/-- A derived order holds in every interleaving whose joins are complete. -/
theorem ordered_of_derives (htrees : trees.DomCorrect M) (hM : M.CreatedOnce main)
    {threadFuncs : List FuncId} {rules : List Rule}
    (hrules : addConstraints trees M threadFuncs fuel = .ok rules) {tr : List Event} {c : Config}
    (h : Interleaving sem M init main tr c) (hjoins : CompleteJoins M fuel tr) {x y : Value}
    (hmhb : Horn.Derives rules ⟨.mhb, [x, y]⟩) : Ordered M fuel tr x y := by
  obtain ⟨x', y', hxy, hord⟩ := hmhb.sound (addConstraints_orderMeaning htrees hM hrules h hjoins)
  obtain ⟨rfl, rfl⟩ := pair_eq hxy
  exact hord

end Meaning

/-! ### The filter -/

section Filter

variable {z3 : Solver} {rules : List Rule}

/-- The cached answers are the solver's. -/
def MHBCache.Faithful (z3 : Solver) (rules : List Rule) (cache : MHBCache) : Prop :=
  ∀ l s r, cache (l, s) = some r → r = queryMHB z3 rules l s

theorem cachedMHB_spec {cache : MHBCache} (h : cache.Faithful z3 rules) (l s : Value) :
    (cachedMHB z3 rules cache l s).1 = queryMHB z3 rules l s ∧
      MHBCache.Faithful z3 rules (cachedMHB z3 rules cache l s).2 := by
  unfold cachedMHB
  cases hc : cache (l, s) with
  | some r => exact ⟨h l s r hc, h⟩
  | none =>
      refine ⟨rfl, fun l' s' r hr => ?_⟩
      change Function.update cache (l, s) (some (queryMHB z3 rules l s)) (l', s') = some r at hr
      by_cases hkey : (l', s') = (l, s)
      · obtain ⟨rfl, rfl⟩ := Prod.mk.inj hkey
        rw [Function.update_self] at hr
        exact (Option.some.inj hr).symm
      · rw [Function.update_of_ne hkey] at hr
        exact h l' s' r hr

theorem filterStores_spec (l : Value) (stores : List Value) {cache : MHBCache}
    (h : cache.Faithful z3 rules) :
    (∀ s, s ∈ (filterStores z3 rules l stores cache).1 ↔ s ∈ stores ∧ queryMHB z3 rules l s ≠ .lTrue) ∧
      MHBCache.Faithful z3 rules (filterStores z3 rules l stores cache).2 := by
  induction stores generalizing cache with
  | nil => exact ⟨fun s => by simp [filterStores], h⟩
  | cons st stores ih =>
      obtain ⟨hanswer, hcache⟩ := cachedMHB_spec h l st
      obtain ⟨hmem, hcache'⟩ := ih hcache
      have hkeep : (queryMHB z3 rules l st = .lFalse ∨ queryMHB z3 rules l st = .lUndef) ↔
          queryMHB z3 rules l st ≠ .lTrue := by
        cases queryMHB z3 rules l st <;> decide
      unfold filterStores
      dsimp only
      rw [hanswer]
      split_ifs with hq
      · refine ⟨fun s => ?_, hcache'⟩
        rw [List.mem_cons, hmem, List.mem_cons]
        constructor
        · rintro (rfl | ⟨hs, hne⟩)
          · exact ⟨.inl rfl, hkeep.mp hq⟩
          · exact ⟨.inr hs, hne⟩
        · rintro ⟨rfl | hs, hne⟩
          · exact .inl rfl
          · exact .inr ⟨hs, hne⟩
      · refine ⟨fun s => ?_, hcache'⟩
        rw [hmem, List.mem_cons]
        constructor
        · rintro ⟨hs, hne⟩
          exact ⟨.inr hs, hne⟩
        · rintro ⟨rfl | hs, hne⟩
          · exact absurd (hkeep.mpr hne) hq
          · exact ⟨hs, hne⟩

theorem hasPair_insert {m : LoadStores} {key l s : Value} {sts : List Value} :
    LoadStores.HasPair (m.insert key sts) l s ↔ l = key ∧ s ∈ sts ∨ l ≠ key ∧ m.HasPair l s := by
  unfold LoadStores.HasPair
  by_cases hl : l = key
  · subst hl
    simp
  · have hne : ¬ key = l := fun h => hl h.symm
    simp [Std.TreeMap.getElem?_insert, hne, hl]

theorem filterFold_spec {ps : List (Value × List Value)} (hkeys : ps.Pairwise fun p q => p.1 ≠ q.1)
    {r : LoadStores × MHBCache} (h : MHBCache.Faithful z3 rules r.2) (hnew : ∀ p ∈ ps, r.1[p.1]? = none) :
    let res := ps.foldl
      (fun r p =>
        let (lInterfs, cache) := filterStores z3 rules p.1 p.2 r.2
        (r.1.insert p.1 lInterfs, cache)) r
    (∀ l s, res.1.HasPair l s ↔
      r.1.HasPair l s ∨ ∃ sts, (l, sts) ∈ ps ∧ s ∈ sts ∧ queryMHB z3 rules l s ≠ .lTrue) ∧
      MHBCache.Faithful z3 rules res.2 := by
  induction ps generalizing r with
  | nil => exact ⟨fun l s => by simp, h⟩
  | cons p ps ih =>
      obtain ⟨hmem, hcache⟩ := filterStores_spec p.1 p.2 h
      obtain ⟨hp, hps⟩ := List.pairwise_cons.mp hkeys
      obtain ⟨hpair, hfaithful⟩ := ih hps
        (r := (r.1.insert p.1 (filterStores z3 rules p.1 p.2 r.2).1, (filterStores z3 rules p.1 p.2 r.2).2))
        hcache fun q hq => by
          simp only [Std.TreeMap.getElem?_insert]
          rw [if_neg (by simpa using hp q hq)]
          exact hnew q (.tail _ hq)
      refine ⟨fun l s => ?_, hfaithful⟩
      rw [List.foldl_cons]
      refine (hpair l s).trans ?_
      have hinsert : LoadStores.HasPair (r.1.insert p.1 (filterStores z3 rules p.1 p.2 r.2).1) l s ↔
          r.1.HasPair l s ∨ l = p.1 ∧ s ∈ p.2 ∧ queryMHB z3 rules l s ≠ .lTrue := by
        rw [hasPair_insert, hmem]
        by_cases hl : l = p.1
        · subst hl
          simp [LoadStores.HasPair, hnew p (.head _)]
        · simp [hl]
      rw [hinsert, or_assoc]
      refine or_congr_right ⟨?_, ?_⟩
      · rintro (⟨rfl, hs, hne⟩ | ⟨sts, hsts, hs, hne⟩)
        · exact ⟨p.2, .head _, hs, hne⟩
        · exact ⟨sts, .tail _ hsts, hs, hne⟩
      · rintro ⟨sts, hsts, hs, hne⟩
        rcases List.mem_cons.mp hsts with rfl | hsts
        · exact .inl ⟨rfl, hs, hne⟩
        · exact .inr ⟨sts, hsts, hs, hne⟩

/-- **The filter** removes the stores that the solver orders after the load. -/
theorem filterMHBInterfs_spec {cache : MHBCache} (h : cache.Faithful z3 rules) (interfs : LoadStores) :
    (∀ l s, (filterMHBInterfs z3 rules cache interfs).1.HasPair l s ↔
      interfs.HasPair l s ∧ queryMHB z3 rules l s ≠ .lTrue) ∧
      MHBCache.Faithful z3 rules (filterMHBInterfs z3 rules cache interfs).2 := by
  have hkeys : interfs.toList.Pairwise fun p q => p.1 ≠ q.1 :=
    Std.TreeMap.distinct_keys_toList.imp fun h heq => h (by rw [heq]; exact Std.ReflCmp.compare_self)
  obtain ⟨hpair, hfaithful⟩ := filterFold_spec hkeys (r := ({}, cache)) h fun _ _ => by simp
  refine ⟨fun l s => (hpair l s).trans ?_, hfaithful⟩
  rw [or_iff_right (LoadStores.hasPair_empty l s)]
  unfold LoadStores.HasPair
  constructor
  · rintro ⟨sts, hsts, hs, hne⟩
    exact ⟨⟨sts, Std.TreeMap.mem_toList_iff_getElem?_eq_some.mp hsts, hs⟩, hne⟩
  · rintro ⟨⟨sts, hsts, hs⟩, hne⟩
    exact ⟨sts, Std.TreeMap.mem_toList_iff_getElem?_eq_some.mpr hsts, hs, hne⟩

end Filter

/-- **Must-happen-before.**  In an interleaving in which the joined threads have executed the joins before
their returns, no instance of `b` is executed before an instance of `a` once `(mhb a b)` is derived, and the
filter keeps the stores that come before an instance of the load. -/
theorem mustHappenBefore_sound (sem : Semantics) (M : Module) (init : Env) (main : FuncId) (trees : Trees)
    (htrees : trees.DomCorrect M) (hM : M.CreatedOnce main) (threadFuncs : List FuncId) (fuel : Nat)
    (rules : List Rule) (hrules : addConstraints trees M threadFuncs fuel = .ok rules) (tr : List Event)
    (c : Config) (h : Interleaving sem M init main tr c) (hjoins : CompleteJoins M fuel tr) :
    (∀ a b, Horn.Derives rules ⟨.mhb, [a, b]⟩ → NeverBefore tr b a) ∧
      ∀ (z3 : Solver), z3.LeastModel → ∀ (cache : MHBCache), cache.Faithful z3 rules →
        ∀ (interfs : LoadStores) (l s : Value), interfs.HasPair l s → ¬ NeverBefore tr s l →
          (filterMHBInterfs z3 rules cache interfs).1.HasPair l s := by
  have hnever : ∀ a b, Horn.Derives rules ⟨.mhb, [a, b]⟩ → NeverBefore tr b a := fun a b hmhb =>
    (ordered_of_derives htrees hM hrules h hjoins hmhb).neverBefore
  refine ⟨hnever, fun z3 hz3 cache hcache interfs l s hpair hbefore => ?_⟩
  refine ((filterMHBInterfs_spec hcache interfs).1 l s).mpr ⟨hpair, fun hquery => hbefore ?_⟩
  exact hnever l s ((hz3 _ _).mp hquery)

/-! ### Concrete programs -/

/-- An order of one function, from its facts. -/
theorem derives_ordered {rules : List Rule} {x y : Value} (hrule : addDomNotReachRule ∈ rules)
    (hdom : Horn.Derives rules ⟨.dom, [x, y]⟩) (hreach : Horn.Rule.fact .notReach [y, x] ∈ rules) :
    Horn.Derives rules ⟨.mhb, [x, y]⟩ := by
  refine Horn.Derives.closed hrule (fun i => if i = 0 then x else y) fun a ha => ?_
  rcases List.mem_pair.mp ha with rfl | rfl
  · exact hdom
  · exact Horn.Derives.fact (fun _ => x) hreach

theorem derives_trans {rules : List Rule} {fd : Rel} {x y z : Value} (hrule : addTransRuleBVBV fd ∈ rules)
    (hxy : Horn.Derives rules ⟨fd, [x, y]⟩) (hyz : Horn.Derives rules ⟨fd, [y, z]⟩) :
    Horn.Derives rules ⟨fd, [x, z]⟩ := by
  refine Horn.Derives.closed hrule (fun i => if i = 0 then x else if i = 1 then y else z) fun a ha => ?_
  rcases List.mem_pair.mp ha with rfl | rfl
  · exact hxy
  · exact hyz

/-- The trees with the given edges of the dominator trees and descendants in the post-dominator trees. -/
def Trees.ofEdges (children : List (FuncId × BlockId × BlockId))
    (descendants : FuncId → BlockId → List BlockId) : Trees where
  domChildren f b := children.filterMap fun p => if p.1 = f ∧ p.2.1 = b then some p.2.2 else none
  postDomDescendants := descendants

theorem Trees.domCorrect_ofEdges {M : Module} {children : List (FuncId × BlockId × BlockId)}
    {descendants : FuncId → BlockId → List BlockId}
    (h : ∀ p ∈ children, ∀ F ∈ M.functions, F.id = p.1 → ∀ first, F.blocks.head? = some first →
      Flow.ImmediatelyDominates F.Edge first.id p.2.1 p.2.2) : (Trees.ofEdges children descendants).DomCorrect M := by
  intro F hF first hfirst A _ c hc
  obtain ⟨p, hp, hpc⟩ := List.mem_filterMap.mp hc
  split_ifs at hpc with hif
  rw [← hif.2, ← Option.some.inj hpc]
  exact h p hp F hF hif.1.symm first hfirst

/-- A class of values that operands and results share separates the threads of the joins. -/
theorem Module.Joins.of_class {M : Module} {cls : Value → Option FuncId}
    (hcls : ∀ i ∈ M.instrs, ∀ v ∈ i.operands, cls v = cls i.id) {v : Value} {g : FuncId} (h : M.Joins v g) :
    ∃ c ∈ M.instrs, c.createdFunc = some g ∧ cls v = cls c.id := by
  obtain ⟨p, hp, c, hc, hg, hused⟩ := h
  refine ⟨c, hc, hg, ?_⟩
  have hload : cls v = cls p := by
    clear hused
    induction hp with
    | refl => rfl
    | tail _ hstep ih =>
        obtain ⟨i, hi, rfl, hk⟩ := hstep
        rw [ih]
        exact (hcls i hi _ (by rw [Instruction.operands, hk]; exact .head _)).symm
  rw [hload]
  clear hload hp
  generalize c.id = w at hused
  induction hused with
  | refl => rfl
  | tail _ hstep ih =>
      obtain ⟨i, hi, rfl, hv⟩ := hstep
      rw [ih]
      exact hcls i hi _ hv

/-- The class of a value is the thread that it belongs to. -/
theorem Module.createdOnce_of_class {M : Module} {main : FuncId} {cls : Value → Option FuncId}
    (hcls : ∀ i ∈ M.instrs, ∀ v ∈ i.operands, cls v = cls i.id)
    (hcreate : ∀ c ∈ M.instrs, c.createdFunc = none ∨ c.createdFunc = cls c.id ∧ c.createdFunc ≠ some main)
    (hsite : ∀ c ∈ M.instrs, ∀ c' ∈ M.instrs, c.createdFunc = c'.createdFunc → c.createdFunc = none ∨ c = c') :
    M.CreatedOnce main := by
  have hcreated : ∀ c ∈ M.instrs, ∀ g, c.createdFunc = some g → cls c.id = some g ∧ g ≠ main := by
    intro c hc g hg
    rcases hcreate c hc with h | ⟨h, hne⟩
    · rw [hg] at h
      cases h
    · exact ⟨h.symm.trans hg, fun heq => hne (heq ▸ hg)⟩
  refine ⟨fun c hc hg => (hcreated c hc main hg).2 rfl, fun c hc c' hc' g hg hg' => ?_,
    fun _ _ v _ g g' hg hg' => ?_⟩
  · refine (hsite c hc c' hc' (hg.trans hg'.symm)).resolve_left ?_
    rw [hg]
    exact nofun
  · obtain ⟨c, hc, hcg, hv⟩ := hg.of_class hcls
    obtain ⟨c', hc', hcg', hv'⟩ := hg'.of_class hcls
    rw [(hcreated c hc g hcg).1] at hv
    rw [(hcreated c' hc' g' hcg').1] at hv'
    exact Option.some.inj (hv.symm.trans hv')

namespace SkippedJoin

def lu : Instruction := ⟨31, .load 0, some 32, []⟩
def ru : Instruction := ⟨32, .ret, none, []⟩
def alloca1 : Instruction := ⟨1, .alloca, none, []⟩
def cu : Instruction := ⟨2, .call (.pthreadCreate 1 (some 2) []), none, []⟩
def br : Instruction := ⟨3, .condBr (.value 50) 12 13, none, []⟩
def pl : Instruction := ⟨4, .load 1, none, []⟩
def ju : Instruction := ⟨5, .call (.pthreadJoin 4), none, []⟩
def r1 : Instruction := ⟨6, .ret, none, []⟩
def r2 : Instruction := ⟨7, .ret, none, []⟩
def alloca2 : Instruction := ⟨21, .alloca, none, []⟩
def ct : Instruction := ⟨22, .call (.pthreadCreate 21 (some 1) []), none, []⟩
def ql : Instruction := ⟨23, .load 21, none, []⟩
def jt : Instruction := ⟨24, .call (.pthreadJoin 23), none, []⟩
def sm : Instruction := ⟨25, .store (.constantInt ⟨32, 1⟩) 0, none, []⟩
def rm : Instruction := ⟨26, .ret, none, []⟩

/-- `create(t); join(t); x = 1; return` -/
def main : Function :=
  .ofBlocks 0 [.ofInstrs 10 [alloca2, ct, ql, jt, sm] rm]

/-- `create(u); if (c) { join(u); return } return` -/
def t : Function :=
  .ofBlocks 1 [.ofInstrs 11 [alloca1, cu] br, .ofInstrs 12 [pl, ju] r1, .ofInstrs 13 [] r2]

/-- `load x; return` -/
def u : Function :=
  .ofBlocks 2 [.ofInstrs 14 [lu] ru]

def program : Module :=
  .ofFunctions [main, t, u] [⟨0, some (.constantInt ⟨32, 0⟩)⟩] (some 0)

def trees : Trees :=
  .ofEdges [(1, 11, 12), (1, 11, 13)] fun _ _ => []

def rules : List Rule :=
  (addConstraints trees program [0, 1, 2] 20).toOption.getD []

theorem rules_eq : addConstraints trees program [0, 1, 2] 20 = .ok rules := by
  rfl

theorem domCorrect : trees.DomCorrect program := by
  refine Trees.domCorrect_ofEdges fun p hp F hF hid first hfirst => ?_
  have hall : ∀ F ∈ [main, t, u], F.id = 1 → F = t := by
    intro F hF hid
    rcases List.mem_cons.mp hF with rfl | hF
    · exact absurd hid (by decide)
    · rcases List.mem_pair.mp hF with rfl | rfl
      · rfl
      · exact absurd hid (by decide)
  rcases List.mem_pair.mp hp with rfl | rfl
  · obtain rfl := hall F hF hid
    cases hfirst
    exact .of_entry (.head _) (by decide)
  · obtain rfl := hall F hF hid
    cases hfirst
    exact .of_entry (.tail _ (.head _)) (by decide)

/-- The threads of the two variables. -/
def cls (v : Value) : Option FuncId :=
  if v ∈ [1, 2, 4, 5] then some 2 else if v ∈ [21, 22, 23, 24] then some 1 else none

theorem instrs_eq : program.instrs =
    [alloca2, ct, ql, jt, sm, rm, alloca1, cu, br, pl, ju, r1, r2, lu, ru] :=
  rfl

theorem createdOnce : program.CreatedOnce 0 := by
  refine @Module.createdOnce_of_class program 0 cls ?_ ?_ ?_ <;> rw [instrs_eq] <;> decide

/-- The load of `u` and the store of `main`, through the join that `t` may skip. -/
theorem derives_mhb : Horn.Derives rules ⟨.mhb, [lu.id, sm.id]⟩ := by
  have hrule : addDomNotReachRule ∈ rules := addPruningRules_mem rules_eq _ (by decide)
  have htrans : addMHBTrans ∈ rules := addPruningRules_mem rules_eq _ (by decide)
  have hfacts : ∀ p ∈ [(Rel.dom, [lu.id, ru.id]), (.notReach, [ru.id, lu.id]), (.mhb, [ru.id, ju.id]),
      (.dom, [ju.id, r1.id]), (.notReach, [r1.id, ju.id]), (.mhb, [r1.id, jt.id]), (.dom, [jt.id, sm.id]),
      (.notReach, [sm.id, jt.id])], Horn.Rule.fact p.1 p.2 ∈ rules := by
    decide
  have hret : Horn.Derives rules ⟨.mhb, [lu.id, ru.id]⟩ :=
    derives_ordered hrule (.fact (fun _ => 0) (hfacts (_, _) (by decide))) (hfacts (_, _) (by decide))
  have hju : Horn.Derives rules ⟨.mhb, [ru.id, ju.id]⟩ := .fact (fun _ => 0) (hfacts (_, _) (by decide))
  have hr1 : Horn.Derives rules ⟨.mhb, [ju.id, r1.id]⟩ :=
    derives_ordered hrule (.fact (fun _ => 0) (hfacts (_, _) (by decide))) (hfacts (_, _) (by decide))
  have hjt : Horn.Derives rules ⟨.mhb, [r1.id, jt.id]⟩ := .fact (fun _ => 0) (hfacts (_, _) (by decide))
  have hsm : Horn.Derives rules ⟨.mhb, [jt.id, sm.id]⟩ :=
    derives_ordered hrule (.fact (fun _ => 0) (hfacts (_, _) (by decide))) (hfacts (_, _) (by decide))
  exact derives_trans htrans hret (derives_trans htrans hju (derives_trans htrans hr1
    (derives_trans htrans hjt hsm)))

/-- The threads of the joins. -/
def waits (v : Value) : Option FuncId :=
  if v = 23 then some 1 else if v = 4 then some 2 else none

theorem waits_joins (v : Value) (g : FuncId) (h : waits v = some g) : program.Joins v g := by
  unfold waits at h
  split_ifs at h with h₁ h₂
  · subst h₁
    cases h
    refine ⟨21, .single ⟨ql, by rw [instrs_eq]; decide, rfl, rfl⟩, ct, by rw [instrs_eq]; decide, rfl, ?_⟩
    exact .single ⟨ct, by rw [instrs_eq]; decide, rfl, .head _⟩
  · subst h₂
    cases h
    refine ⟨1, .single ⟨pl, by rw [instrs_eq]; decide, rfl, rfl⟩, cu, by rw [instrs_eq]; decide, rfl, ?_⟩
    exact .single ⟨cu, by rw [instrs_eq]; decide, rfl, .head _⟩

/-- The condition of `t` is the register 50. -/
def env (c : Int) : Env := Function.update (fun _ => 0) 50 c

/-- `main` joins `t`, which has not waited for `u`, and stores before `u` loads. -/
def run : List Event :=
  scheduled program (env 0) waits 0 [0, 0, 1, 1, 1, 1, 0, 0, 0, 2]

/-- `t` waits for `u`. -/
def joinedRun : List Event :=
  scheduled program (env 1) waits 0 [0, 0, 1, 1, 1, 2, 2, 1, 1, 1, 0, 0, 0]

theorem run_insts : run.map (·.inst) = [alloca2, ct, alloca1, cu, br, r2, ql, jt, sm, lu] :=
  rfl

theorem joinedRun_insts : joinedRun.map (·.inst) =
    [alloca2, ct, alloca1, cu, br, lu, ru, pl, ju, r1, ql] ++ jt :: [sm] :=
  rfl

theorem isJoin {i : Instruction} {v : Value} (hi : i ∈ program.instrs) (hk : i.kind = .call (.pthreadJoin v)) :
    i = ju ∧ v = 4 ∨ i = jt ∧ v = 23 := by
  have hall : ∀ i ∈ program.instrs, i = ju ∨ i = jt ∨ i.isThreadCall = false ∨ i.isPthreadCreate = true := by
    rw [instrs_eq]
    decide
  rcases hall i hi with rfl | rfl | h | h
  · cases hk
    exact .inl ⟨rfl, rfl⟩
  · cases hk
    exact .inr ⟨rfl, rfl⟩
  · rw [Instruction.isThreadCall, hk] at h
    cases h
  · rw [Instruction.isPthreadCreate, hk] at h
    cases h

theorem joinedRun_complete : CompleteJoins program 20 joinedRun := by
  rintro pre e post htr F hF ⟨v, hk, hfind⟩ j hj ⟨_, w, hkj, _⟩ _
  have hinsts := joinedRun_insts
  rw [htr, List.map_append, List.map_cons] at hinsts
  have he : e.inst ∈ program.instrs := by
    have hall : ∀ i ∈ [alloca2, ct, alloca1, cu, br, lu, ru, pl, ju, r1, ql] ++ jt :: [sm], i ∈ program.instrs := by
      rw [instrs_eq]
      decide
    exact hall _ (hinsts ▸ List.mem_append_right _ (.head _))
  have hjM : j ∈ program.instrs := Module.mem_instrs.mpr ⟨F, hF, hj⟩
  rcases isJoin he hk with ⟨_, rfl⟩ | ⟨heq, rfl⟩
  · -- `u` has no joins
    obtain rfl : F = u := by
      refine Option.some.inj ((Module.func?_id hF).symm.trans ?_)
      rw [← show (2 : FuncId) = F.id from Option.some.inj (Except.ok.inj hfind)]
      rfl
    rcases isJoin hjM hkj with ⟨rfl, _⟩ | ⟨rfl, _⟩ <;> exact absurd hj (by decide)
  · obtain rfl : F = t := by
      refine Option.some.inj ((Module.func?_id hF).symm.trans ?_)
      rw [← show (1 : FuncId) = F.id from Option.some.inj (Except.ok.inj hfind)]
      rfl
    rcases isJoin hjM hkj with ⟨rfl, _⟩ | ⟨rfl, _⟩
    · rw [heq] at hinsts
      obtain ⟨hpre, _⟩ := (List.append_cons_inj_of_notMem (by decide) (by decide)).mp hinsts.symm
      have hmem : ju ∈ pre.map (·.inst) := by
        rw [← hpre]
        decide
      exact List.mem_map.mp hmem
    · exact absurd hj (by decide)

/-- The interference of the load of `u`. -/
def interfs : LoadStores :=
  Std.TreeMap.ofList [(lu.id, [sm.id])]

theorem interfs_pair : interfs.HasPair lu.id sm.id :=
  ⟨[sm.id], rfl, .head _⟩

/-- **The load reads the store of `main`**, and the filter has removed it. -/
theorem filtered_store_observed : (trees.DomCorrect program ∧ program.CreatedOnce 0 ∧
      addConstraints trees program [0, 1, 2] 20 = .ok rules) ∧
    (∃ c, Interleaving registers program (env 0) 0 run c) ∧
    Horn.Derives rules ⟨.mhb, [lu.id, sm.id]⟩ ∧ ¬ NeverBefore run sm.id lu.id ∧
    interfs.HasPair lu.id sm.id ∧
    ¬ (filterMHBInterfs .least rules (fun _ => none) interfs).1.HasPair lu.id sm.id := by
  refine ⟨⟨domCorrect, createdOnce, rules_eq⟩, scheduled_interleaving waits_joins 0 _, derives_mhb,
    fun h => ?_, interfs_pair, ?_⟩
  · have hinsts := neverBefore_iff.mp h
    rw [run_insts] at hinsts
    revert hinsts
    decide
  · have hcache : MHBCache.Faithful .least rules (fun _ => none) := fun _ _ _ h => by cases h
    rw [(filterMHBInterfs_spec hcache interfs).1]
    exact fun h => h.2 ((Solver.least_leastModel _ _).mpr derives_mhb)

theorem joinedRun_sound :
    (∀ a b, Horn.Derives rules ⟨.mhb, [a, b]⟩ → NeverBefore joinedRun b a) ∧
      ∀ (z3 : Solver), z3.LeastModel → ∀ (cache : MHBCache), cache.Faithful z3 rules →
        ∀ (interfs : LoadStores) (l s : Value), interfs.HasPair l s → ¬ NeverBefore joinedRun s l →
          (filterMHBInterfs z3 rules cache interfs).1.HasPair l s := by
  obtain ⟨c, hc⟩ := scheduled_interleaving waits_joins 0 [0, 0, 1, 1, 1, 2, 2, 1, 1, 1, 0, 0, 0]
  exact mustHappenBefore_sound registers program (env 1) 0 trees domCorrect createdOnce [0, 1, 2] 20 rules
    rules_eq joinedRun c hc joinedRun_complete

end SkippedJoin

end Watts
