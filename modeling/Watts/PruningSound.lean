import Watts.Combinations
import Watts.MustHappenBefore

/-! The pruning of permutations under sequential consistency.  The relations are read over an interleaving
that realises the choice of a permutation: `rf l s` says that every instance of `l` reads from the store
`s`, and `mhb x y` that all instances of `x` come before those of `y`, of which there are none unless `x`
has one.  A thread takes one of its returns; when it has been joined its end counts as an instance of all. -/

namespace Watts

open Runs (Run)

/-! ### What a permutation says about an interleaving -/

/-- A load reads from a store: the last store to its pointer is an instance of the store. -/
def ReadsFrom (pre : List Event) (e : Event) (s : Value) : Prop :=
  ∃ p, e.inst.getLoadPtr = some p ∧ ∃ pre₁ w pre₂, pre = pre₁ ++ w :: pre₂ ∧ w.inst.id = s ∧
    w.inst.getStorePtr = some p ∧ ∀ w' ∈ pre₂, w'.inst.getStorePtr ≠ some p

/-- Every instance of a load reads from a store. -/
def AlwaysReads (tr : List Event) (l s : Value) : Prop :=
  ∀ pre e post, tr = pre ++ e :: post → e.inst.id = l → ReadsFrom pre e s

/-- A thread is joined by a join whose thread the pass finds. -/
def JoinedIn (M : Module) (fuel : Nat) (tr : List Event) (f : FuncId) : Prop :=
  ∃ e ∈ tr, M.JoinOf fuel e.inst f

/-- A joined thread has executed what each of its returns is always preceded by. -/
def CompleteThreads (M : Module) (fuel : Nat) (tr : List Event) : Prop :=
  ∀ pre e post, tr = pre ++ e :: post → e.inst.endsThread = true → JoinedIn M fuel tr e.thread →
    ∀ F ∈ M.functions, F.id = e.thread → ∀ r ∈ getRets F, ∀ i ∈ F.instrs, F.AlwaysBefore i r →
      ∃ e' ∈ pre, e'.inst = i

/-- A load is assigned a store. -/
def Assigned (interfs rfs : StoreMap) (l s : Value) : Prop :=
  interfs[l]? = some s ∨ rfs[l]? = some s

/-- **An interleaving realises a permutation**: it executes the loads, each reads from its store, no store
is executed twice, and joined threads have executed all that the pass puts before the join. -/
structure Realises (M : Module) (fuel : Nat) (tr : List Event) (interfs rfs : StoreMap) : Prop where
  executed : ∀ l s, Assigned interfs rfs l s → ∃ e ∈ tr, e.inst.id = l
  reads : ∀ l s, Assigned interfs rfs l s → AlwaysReads tr l s
  once : ∀ l s, Assigned interfs rfs l s → NeverBefore tr s s
  joins : CompleteThreads M fuel tr

/-- The value of a store reaches a load of a created thread through the entry fact of the thread. -/
def HandedOver (trees : Trees) (M : Module) (l s : Value) : Prop :=
  ∃ F ∈ M.functions, ∃ b ∈ F.blocks, ∃ ci ∈ b.instrs, ∃ T ∈ M.functions, ci.createdFunc = some T.id ∧
    (∃ li ∈ T.getLoads, li.id = l) ∧ ∃ si ∈ getThreadLocalNotRead trees F b ci, si.id = s

/-! ### Instances -/

/-- An event is an instance of an instruction; the end of a joined thread is one of each of its returns. -/
def InstanceOf (M : Module) (fuel : Nat) (tr : List Event) (e : Event) (y : Value) : Prop :=
  e.inst.id = y ∨ e.inst.endsThread = true ∧ JoinedIn M fuel tr e.thread ∧
    ∃ F ∈ M.functions, F.id = e.thread ∧ ∃ r ∈ getRets F, r.id = y

/-- Before every instance of `y` there is one of `x`, and after it there is none. -/
def Precedes (M : Module) (fuel : Nat) (tr : List Event) (x y : Value) : Prop :=
  ∀ pre e post, tr = pre ++ e :: post → InstanceOf M fuel tr e y →
    (∃ e' ∈ pre, InstanceOf M fuel tr e' x) ∧ ∀ e' ∈ e :: post, ¬ InstanceOf M fuel tr e' x

theorem Precedes.trans {M : Module} {fuel : Nat} {tr : List Event} {x y z : Value}
    (hxy : Precedes M fuel tr x y) (hyz : Precedes M fuel tr y z) : Precedes M fuel tr x z := by
  intro pre e post htr hz
  obtain ⟨⟨e', he', hy⟩, _⟩ := hyz pre e post htr hz
  obtain ⟨p₁, p₂, rfl⟩ := List.append_of_mem he'
  obtain ⟨⟨e'', he'', hx⟩, hno⟩ := hxy p₁ e' (p₂ ++ e :: post) (by rw [htr, List.append_assoc, List.cons_append]) hy
  exact ⟨⟨e'', List.mem_append_left _ he'', hx⟩, fun e₁ he₁ => hno e₁ (.tail _ (List.mem_append_right _ he₁))⟩

theorem InstanceOf.executed {M : Module} {fuel : Nat} {tr : List Event} {e : Event} {i : Instruction}
    (hi : i ∈ M.instrs) (hret : i.isReturn = false) (h : InstanceOf M fuel tr e i.id) : e.inst.id = i.id := by
  rcases h with h | ⟨_, _, F, hF, _, r, hr, hid⟩
  · exact h
  · obtain ⟨hrF, hreturn⟩ := List.mem_filter.mp hr
    rw [M.eq_of_id_eq (Module.mem_instrs.mpr ⟨F, hF, hrF⟩) hi hid, hret] at hreturn
    cases hreturn

/-! ### The order of the facts -/

section Order

variable {sem : Semantics} {M : Module} {init : Env} {main : FuncId} {fuel : Nat}

theorem mem_instrs_of_mem {tr : List Event} {c : Config} (h : Interleaving sem M init main tr c) {e : Event}
    (he : e ∈ tr) : e.inst ∈ M.instrs := by
  obtain ⟨F, hF, _, hi⟩ := mem_instrs_of_interleaving h he
  exact Module.mem_instrs.mpr ⟨F, hF, hi⟩

theorem isReturn_endsThread {i : Instruction} (h : i.isReturn = true) : i.endsThread = true := by
  unfold Instruction.isReturn at h
  unfold Instruction.endsThread
  split at h
  · next hk => rw [hk]
  · cases h

/-- What a thread has executed before another of its events is not a return. -/
theorem isReturn_of_followed {pre post : List Event} {e e' : Event} {c : Config}
    (h : Interleaving sem M init main (pre ++ e :: post) c) (he' : e' ∈ pre) (hthread : e'.thread = e.thread) :
    e'.inst.isReturn = false := by
  rw [Bool.eq_false_iff]
  intro hret
  obtain ⟨p₁, p₂, rfl⟩ := List.append_of_mem he'
  rw [List.append_assoc, List.cons_append] at h
  exact last_of_endsThread h (isReturn_endsThread hret) e (List.mem_append_right _ (.head _)) hthread.symm

/-- **Dominance** without a way back. -/
theorem Function.AlwaysBefore.precedes {tr : List Event} {c : Config}
    (h : Interleaving sem M init main tr c) (hcomplete : CompleteThreads M fuel tr) {F : Function}
    (hF : F ∈ M.functions) {i j : Instruction} (hi : i ∈ F.instrs) (hj : j ∈ F.instrs)
    (hbefore : F.AlwaysBefore i j) (hafter : F.NeverAfter i j) : Precedes M fuel tr i.id j.id := by
  rintro pre e post rfl hinst
  have hparts : e.thread = F.id ∧ (∃ e' ∈ pre, e'.inst = i) ∧ ∀ e' ∈ e :: post, e'.inst.id ≠ i.id := by
    rcases hinst with hid | ⟨hend, hjoined, F', hF', hthread, r, hr, hid⟩
    · have hexec := hbefore.executed h hF hi hj hafter hid
      exact ⟨(thread_eq_of_mem h (List.mem_append_right _ (.head _)) hF hj hid).2, hexec⟩
    · obtain ⟨rfl, rfl⟩ := eq_of_id hF' hF (List.mem_filter.mp hr).1 hj hid
      obtain ⟨e', he', heq⟩ := hcomplete pre e post rfl hend hjoined F' hF hthread r hr i hi hbefore
      refine ⟨hthread.symm, ⟨e', he', heq⟩, fun e'' he'' hid'' => ?_⟩
      obtain ⟨heq'', hthread''⟩ := thread_eq_of_mem h (List.mem_append_right _ he'') hF hi hid''
      rcases List.mem_cons.mp he'' with rfl | he''
      · -- the end itself has been executed before
        obtain ⟨p₁, p₂, rfl⟩ := List.append_of_mem he'
        rw [List.append_assoc, List.cons_append] at h
        have hthread' := (thread_eq_of_mem h (List.mem_append_right _ (.head _)) hF hi (by rw [heq])).2
        rw [← heq.trans heq''.symm] at hend
        exact last_of_endsThread h hend e'' (List.mem_append_right _ (.head _)) (hthread''.trans hthread'.symm)
      · exact last_of_endsThread h hend e'' he'' (hthread''.trans hthread)
  obtain ⟨hthread, ⟨e', he', heq⟩, hno⟩ := hparts
  have hthread' := (thread_eq_of_mem h (List.mem_append_left _ he') hF hi (by rw [heq])).2
  have hret : i.isReturn = false := heq ▸ isReturn_of_followed h he' (hthread'.trans hthread.symm)
  refine ⟨⟨e', he', .inl (by rw [heq])⟩, fun e'' he'' hinst'' => hno e'' he'' ?_⟩
  exact hinst''.executed (Module.mem_instrs.mpr ⟨F, hF, hi⟩) hret

/-- The thread of an instance. -/
theorem InstanceOf.thread {tr : List Event} {c : Config} (h : Interleaving sem M init main tr c) {e : Event}
    (he : e ∈ tr) {F : Function} (hF : F ∈ M.functions) {i : Instruction} (hi : i ∈ F.instrs)
    (hinst : InstanceOf M fuel tr e i.id) : e.thread = F.id := by
  rcases hinst with hid | ⟨_, _, F', hF', hthread, r, hr, hid⟩
  · exact (thread_eq_of_mem h he hF hi hid).2
  · obtain ⟨rfl, _⟩ := eq_of_id hF' hF (List.mem_filter.mp hr).1 hi hid
    exact hthread.symm

/-- **The creation** of a thread before what its function executes. -/
theorem precedes_create (hM : M.CreatedOnce main) {tr : List Event} {c : Config}
    (h : Interleaving sem M init main tr c) {F : Function} (hF : F ∈ M.functions) {ci y : Instruction}
    (hci : ci ∈ M.instrs) (hcreate : ci.createdFunc = some F.id) (hy : y ∈ F.instrs) :
    Precedes M fuel tr ci.id y.id := by
  have hmain : F.id ≠ main := fun heq => hM.not_main ci hci (heq ▸ hcreate)
  rintro pre e post rfl hinst
  have hthread := hinst.thread h (List.mem_append_right _ (.head _)) hF hy
  obtain ⟨e', he', hef⟩ := created_before h (hthread ▸ hmain)
  rw [hthread] at hef
  have heq : e'.inst = ci := hM.site _ (mem_instrs_of_mem h (List.mem_append_left _ he')) _ hci _ hef hcreate
  refine ⟨⟨e', he', .inl (by rw [heq])⟩, fun e'' he'' hinst'' => ?_⟩
  have hret : ci.isReturn = false := by
    obtain ⟨_, _, hk⟩ := Instruction.kind_of_createdFunc hcreate
    rw [Instruction.isReturn, hk]
  have hid := hinst''.executed hci hret
  have heq'' := M.eq_of_id_eq (mem_instrs_of_mem h (List.mem_append_right _ he'')) hci hid
  exact not_created_again h hmain he' hef e'' he'' (heq'' ▸ hcreate)

/-- **The returns** of a thread before a join of the thread. -/
theorem precedes_join (hM : M.CreatedOnce main) {tr : List Event} {c : Config}
    (h : Interleaving sem M init main tr c) {F : Function} (hF : F ∈ M.functions) {r j : Instruction}
    (hr : r ∈ getRets F) (hjM : j ∈ M.instrs) (hj : M.JoinOf fuel j F.id) : Precedes M fuel tr r.id j.id := by
  have hrF : r ∈ F.instrs := (List.mem_filter.mp hr).1
  have hret : j.isReturn = false := by
    obtain ⟨v, hk, _⟩ := hj
    rw [Instruction.isReturn, hk]
  rintro pre e post rfl hinst
  have heq : e.inst = j :=
    M.eq_of_id_eq (mem_instrs_of_mem h (List.mem_append_right _ (.head _))) hjM (hinst.executed hjM hret)
  subst heq
  obtain ⟨m, hpre, hpost, hfinished⟩ := finished_at_join hM h hj
  have hstart : M.start init F.id ≠ .finished := by
    obtain ⟨b, hb, _⟩ := Function.mem_instrs.mp hrF
    unfold Module.start
    rw [Module.func?_id hF, Option.bind_some]
    cases hhead : F.blocks.head? with
    | none =>
        rw [List.head?_eq_none_iff.mp hhead] at hb
        cases hb
    | some first => exact nofun
  obtain ⟨e', he', hthread, hend⟩ := ended_of_finished hpre hstart hfinished
  refine ⟨⟨e', he', .inr ⟨hend, ?_, F, hF, hthread.symm, r, hr, rfl⟩⟩, fun e'' he'' hinst'' => ?_⟩
  · rw [hthread]
    exact ⟨e, List.mem_append_right _ (.head _), hj⟩
  · exact no_event_of_finished hpost hfinished e'' he''
      (hinst''.thread h (List.mem_append_right _ he'') hF hrF)

end Order

/-! ### The rules about reads -/

section Reads

variable {sem : Semantics} {M : Module} {init : Env} {main : FuncId} {fuel : Nat} {tr : List Event} {c : Config}
  {interfs rfs : StoreMap}

/-- An element of a list in two cuts of it: it stands in the second cut's rest or the second element stands
in the first's. -/
theorem mem_after {α : Type} {p₁ p₂ q₁ q₂ : List α} {x y : α} (h : p₁ ++ x :: p₂ = q₁ ++ y :: q₂) :
    y ∈ x :: p₂ ∨ x ∈ q₂ := by
  rcases List.append_eq_append_iff.mp h with ⟨ws, _, hrest⟩ | ⟨ws, _, hrest⟩
  · exact .inl (hrest ▸ List.mem_append_right _ (.head _))
  · cases ws with
    | nil => exact .inl (by rw [(List.cons.inj hrest).1]; exact .head _)
    | cons w ws =>
        rw [List.cons_append, List.cons.injEq] at hrest
        exact .inr (hrest.2 ▸ List.mem_append_right _ (.head _))

theorem isReturn_of_getLoadPtr {i : Instruction} {p : Value} (h : i.getLoadPtr = some p) : i.isReturn = false := by
  unfold Instruction.getLoadPtr at h
  unfold Instruction.isReturn
  generalize i.kind = k at h ⊢
  cases k <;> first | rfl | cases h

theorem isReturn_of_getStorePtr {i : Instruction} {p : Value} (h : i.getStorePtr = some p) :
    i.isReturn = false := by
  unfold Instruction.getStorePtr at h
  unfold Instruction.isReturn
  generalize i.kind = k at h ⊢
  cases k <;> first | rfl | cases h

theorem getLoadPtr_of_load {i : Instruction} {p : Value} (h : i.kind = .load p) : i.getLoadPtr = some p := by
  rw [Instruction.getLoadPtr, h]

theorem getStorePtr_of_store {i : Instruction} {v : Operand} {p : Value} (h : i.kind = .store v p) :
    i.getStorePtr = some p := by
  rw [Instruction.getStorePtr, h]

variable (h : Interleaving sem M init main tr c) (hreal : Realises M fuel tr interfs rfs)
include h hreal

/-- An assigned load is executed and reads. -/
theorem Realises.read {l s : Value} (hls : Assigned interfs rfs l s) :
    ∃ pre e post, tr = pre ++ e :: post ∧ e.inst ∈ M.instrs ∧ e.inst.id = l ∧ ReadsFrom pre e s := by
  obtain ⟨e, he, hid⟩ := hreal.executed l s hls
  obtain ⟨pre, post, rfl⟩ := List.append_of_mem he
  exact ⟨pre, e, post, rfl, mem_instrs_of_mem h he, hid, hreal.reads l s hls pre e post rfl hid⟩

/-- The instances of an assigned load are its executions. -/
theorem Realises.executed_of_instanceOf {l s : Value} (hls : Assigned interfs rfs l s) {e : Event}
    (hinst : InstanceOf M fuel tr e l) : e.inst.id = l := by
  obtain ⟨_, e', _, _, hmem, rfl, p, hp, _⟩ := hreal.read h hls
  exact hinst.executed hmem (isReturn_of_getLoadPtr hp)

/-- **What is read** comes before. -/
theorem Realises.precedes_read {l s : Value} (hls : Assigned interfs rfs l s) : Precedes M fuel tr s l := by
  intro pre e post htr hinst
  obtain ⟨p, _, p₁, w, p₂, rfl, rfl, hw, _⟩ :=
    hreal.reads l s hls pre e post htr (hreal.executed_of_instanceOf h hls hinst)
  have hmem : w ∈ p₁ ++ w :: p₂ := List.mem_append_right _ (.head _)
  refine ⟨⟨w, hmem, .inl rfl⟩, fun e' he' hinst' => ?_⟩
  have hid := hinst'.executed (mem_instrs_of_mem h (htr ▸ List.mem_append_left _ hmem))
    (isReturn_of_getStorePtr hw)
  have honce := hreal.once l _ hls
  rw [htr] at honce
  exact (List.pairwise_append.mp honce).2.2 w hmem e' he' ⟨rfl, hid⟩

/-- **A load that reads from a store** comes before the next store to its pointer. -/
theorem Realises.precedes_overwrite {l s₁ s₂ v : Value} (hls : Assigned interfs rfs l s₁)
    (hs : Precedes M fuel tr s₁ s₂) {li si : Instruction} (hli : li ∈ M.instrs) (hl : li.id = l)
    (hlk : li.kind = .load v) (hsi : si ∈ M.instrs) (hs₂ : si.id = s₂) {w : Operand}
    (hsk : si.kind = .store w v) : Precedes M fuel tr l s₂ := by
  subst hl hs₂
  intro pre e post htr hinst
  have hmem : ∀ e' ∈ e :: post, e'.inst ∈ M.instrs := fun e' he' =>
    mem_instrs_of_mem h (htr ▸ List.mem_append_right _ he')
  have he : e.inst = si := M.eq_of_id_eq (hmem e (.head _)) hsi
    (hinst.executed hsi (isReturn_of_getStorePtr (getStorePtr_of_store hsk)))
  obtain ⟨_, hno⟩ := hs pre e post htr hinst
  have hnone : ∀ e' ∈ e :: post, ¬ InstanceOf M fuel tr e' li.id := by
    intro e' he' hinst'
    have heq : e'.inst = li := M.eq_of_id_eq (hmem e' he') hli (hreal.executed_of_instanceOf h hls hinst')
    rcases List.mem_cons.mp he' with rfl | he'
    · rw [← heq, he, hsk] at hlk
      cases hlk
    · obtain ⟨mid, post', rfl⟩ := List.append_of_mem he'
      have htr' : tr = (pre ++ e :: mid) ++ e' :: post' := by rw [htr, List.append_assoc, List.cons_append]
      obtain ⟨p, hp, p₁, w', p₂, hcut, hw', _, hlast⟩ := hreal.reads _ _ hls _ _ _ htr' (by rw [heq])
      obtain rfl : v = p := Option.some.inj ((heq ▸ getLoadPtr_of_load hlk).symm.trans hp)
      rcases mem_after hcut with hmid | hlater
      · refine hno w' ?_ (.inl hw')
        rw [← List.cons_append]
        exact List.mem_append_left _ hmid
      · exact hlast e hlater (he ▸ getStorePtr_of_store hsk)
  refine ⟨?_, hnone⟩
  obtain ⟨e', he', hid⟩ := hreal.executed _ _ hls
  rw [htr] at he'
  exact ⟨e', (List.mem_append.mp he').resolve_right fun hpost => hnone e' hpost (.inl hid), .inl hid⟩

/-- A load does not come before the store that it reads from. -/
theorem Realises.not_precedes {l s : Value} (hls : Assigned interfs rfs l s) : ¬ Precedes M fuel tr l s := by
  intro hprec
  obtain ⟨pre, e, post, htr, _, hid, p, _, p₁, w, p₂, rfl, hw, _⟩ := hreal.read h hls
  refine (hprec p₁ w (p₂ ++ e :: post) (by rw [htr, List.append_assoc, List.cons_append]) (.inl hw)).2 e ?_ (.inl hid)
  exact .tail _ (List.mem_append_right _ (.head _))

/-- A load does not read from a store that has been overwritten. -/
theorem Realises.not_overwritten {l₁ l₂ s₁ s₂ v : Value} (h₁ : Assigned interfs rfs l₁ s₁)
    (h₂ : Assigned interfs rfs l₂ s₁) (hl₁ : Precedes M fuel tr l₁ s₂) (hl₂ : Precedes M fuel tr s₂ l₂)
    {li si : Instruction} (hli : li ∈ M.instrs) (hl : li.id = l₂) (hlk : li.kind = .load v)
    (hsi : si ∈ M.instrs) (hs : si.id = s₂) {w : Operand} (hsk : si.kind = .store w v) : False := by
  subst hl hs
  obtain ⟨pre, e₂, post, htr, hmem₂, hid₂, p, hp, p₁, w₂, p₂, hcut, hw₂, _, hlast⟩ := hreal.read h h₂
  obtain rfl : v = p := by
    rw [M.eq_of_id_eq hmem₂ hli hid₂] at hp
    exact Option.some.inj ((getLoadPtr_of_load hlk).symm.trans hp)
  obtain ⟨⟨e, he, hinst⟩, _⟩ := hl₂ pre e₂ post htr (.inl hid₂)
  have heq : e.inst = si := M.eq_of_id_eq (mem_instrs_of_mem h (htr ▸ List.mem_append_left _ he)) hsi
    (hinst.executed hsi (isReturn_of_getStorePtr (getStorePtr_of_store hsk)))
  obtain ⟨q₁, q₂, rfl⟩ := List.append_of_mem he
  -- the first load and the store that it reads come before the store in between
  have htr' : tr = q₁ ++ e :: (q₂ ++ e₂ :: post) := by rw [htr, List.append_assoc, List.cons_append]
  obtain ⟨⟨e₁, he₁, hinst₁⟩, _⟩ := hl₁ q₁ e _ htr' hinst
  obtain ⟨a₁, a₂, rfl⟩ := List.append_of_mem he₁
  obtain ⟨_, _, b₁, w₁, b₂, rfl, hw₁, _⟩ := hreal.reads _ _ h₁ a₁ e₁ (a₂ ++ e :: (q₂ ++ e₂ :: post))
    (by rw [htr', List.append_assoc, List.cons_append]) (hreal.executed_of_instanceOf h h₁ hinst₁)
  rcases mem_after hcut with hw | hlater
  · have honce := hreal.once _ _ h₁
    rw [htr'] at honce
    refine (List.pairwise_append.mp honce).2.2 w₁ ?_ w₂ ?_ ⟨hw₁, hw₂⟩
    · exact List.mem_append_left _ (List.mem_append_right _ (.head _))
    · rw [← List.cons_append]
      exact List.mem_append_left _ hw
  · exact hlast e hlater (heq ▸ getStorePtr_of_store hsk)

end Reads

/-! ### The meaning of the relations -/

section Meaning

variable {sem : Semantics} {M : Module} {init : Env} {main : FuncId} {fuel : Nat} {tr : List Event} {c : Config}
  {interfs rfs : StoreMap} {trees : Trees}

/-- What the relations say about an interleaving that realises a permutation. -/
def ReadMeaning (M : Module) (fuel : Nat) (tr : List Event) (interfs rfs : StoreMap) : GroundAtom → Prop
  | ⟨.dom, args⟩ => ∃ x y, args = [x, y] ∧ DomMeaning M x y
  | ⟨.notReach, args⟩ => ∃ x y, args = [x, y] ∧ NotReachMeaning M x y
  | ⟨.mhb, args⟩ => ∃ x y, args = [x, y] ∧ Precedes M fuel tr x y
  | ⟨.rf, args⟩ => ∃ l s, args = [l, s] ∧ Assigned interfs rfs l s
  | ⟨.ld, args⟩ => ∃ i ∈ M.instrs, ∃ p, args = [i.id, p] ∧ i.kind = .load p
  | ⟨.st, args⟩ => ∃ i ∈ M.instrs, ∃ v p, args = [i.id, p] ∧ i.kind = .store v p
  | ⟨.notRf, args⟩ => ∃ l s, args = [l, s] ∧ interfs[l]? ≠ some s
  | _ => True

/-- The rules hold. -/
theorem readMeaning_rule (h : Interleaving sem M init main tr c) (hreal : Realises M fuel tr interfs rfs)
    {r : Rule} (hr : r = addTransRuleBVBV .dom ∨ r ∈ addPruningRules ++ [addReadsFromIsMHB]) :
    r.Holds (ReadMeaning M fuel tr interfs rfs) := by
  intro σ hb
  simp only [addPruningRules, List.cons_append, List.nil_append, List.mem_cons, List.not_mem_nil,
    or_false] at hr
  rcases hr with rfl | rfl | rfl | rfl | rfl | rfl | rfl | rfl
  · obtain ⟨x, y, hxy, hdom⟩ := hb (atom .dom (.bound 0) (.bound 1)) (.head _)
    obtain ⟨y', z, hyz, hdom'⟩ := hb (atom .dom (.bound 1) (.bound 2)) (.tail _ (.head _))
    obtain ⟨rfl, rfl⟩ := pair_eq hxy
    obtain ⟨rfl, rfl⟩ := pair_eq hyz
    exact ⟨_, _, rfl, hdom.trans hdom'⟩
  · obtain ⟨l, s, hls, hrf⟩ := hb (atom .rf (.bound 0) (.bound 1)) (.head _)
    obtain ⟨rfl, rfl⟩ := pair_eq hls
    exact ⟨_, _, rfl, hreal.precedes_read h hrf⟩
  · obtain ⟨x, y, hxy, hdom⟩ := hb (atom .dom (.bound 0) (.bound 1)) (.head _)
    obtain ⟨y', x', hyx, hreach⟩ := hb (atom .notReach (.bound 1) (.bound 0)) (.tail _ (.head _))
    obtain ⟨rfl, rfl⟩ := pair_eq hxy
    obtain ⟨rfl, rfl⟩ := pair_eq hyx
    obtain ⟨F, hF, i, hi, j, hj, hx, hy, hij, hafter⟩ := hdom.neverAfter hreach
    exact ⟨_, _, rfl, hx ▸ hy ▸ hij.precedes h hreal.joins hF hi hj hafter⟩
  · obtain ⟨l, s₁, hls, hrf⟩ := hb (atom .rf (.bound 2) (.bound 0)) (.head _)
    obtain ⟨s, s₂, hss, hprec⟩ := hb (atom .mhb (.bound 0) (.bound 1)) (.tail _ (.head _))
    obtain ⟨li, hli, p, hlp, hlk⟩ := hb (atom .ld (.bound 2) (.bound 3)) (.tail _ (.tail _ (.head _)))
    obtain ⟨si, hsi, v, q, hsq, hsk⟩ :=
      hb (atom .st (.bound 1) (.bound 3)) (.tail _ (.tail _ (.tail _ (.tail _ (.head _)))))
    obtain ⟨rfl, rfl⟩ := pair_eq hls
    obtain ⟨rfl, rfl⟩ := pair_eq hss
    obtain ⟨hl, rfl⟩ := pair_eq hlp
    obtain ⟨hs, rfl⟩ := pair_eq hsq
    exact ⟨_, _, rfl, hreal.precedes_overwrite h hrf hprec hli hl.symm hlk hsi hs.symm hsk⟩
  · obtain ⟨x, y, hxy, hprec⟩ := hb (atom .mhb (.bound 0) (.bound 1)) (.head _)
    obtain ⟨y', z, hyz, hprec'⟩ := hb (atom .mhb (.bound 1) (.bound 2)) (.tail _ (.head _))
    obtain ⟨rfl, rfl⟩ := pair_eq hxy
    obtain ⟨rfl, rfl⟩ := pair_eq hyz
    exact ⟨_, _, rfl, hprec.trans hprec'⟩
  · obtain ⟨x, y, hxy, hprec⟩ := hb (atom .mhb (.bound 0) (.bound 1)) (.head _)
    obtain ⟨rfl, rfl⟩ := pair_eq hxy
    exact ⟨_, _, rfl, fun hls => hreal.not_precedes h (.inl hls) hprec⟩
  · obtain ⟨l₁, s₁, hls, hrf⟩ := hb (atom .rf (.bound 0) (.bound 2)) (.head _)
    obtain ⟨l, s₂, hls₂, hprec₁⟩ := hb (atom .mhb (.bound 0) (.bound 3)) (.tail _ (.head _))
    obtain ⟨s, l₂, hsl, hprec₂⟩ := hb (atom .mhb (.bound 3) (.bound 1)) (.tail _ (.tail _ (.head _)))
    obtain ⟨li, hli, p, hlp, hlk⟩ :=
      hb (atom .ld (.bound 1) (.bound 4)) (.tail _ (.tail _ (.tail _ (.tail _ (.head _)))))
    obtain ⟨si, hsi, v, q, hsq, hsk⟩ :=
      hb (atom .st (.bound 3) (.bound 4)) (.tail _ (.tail _ (.tail _ (.tail _ (.tail _ (.head _))))))
    obtain ⟨rfl, rfl⟩ := pair_eq hls
    obtain ⟨rfl, rfl⟩ := pair_eq hls₂
    obtain ⟨rfl, rfl⟩ := pair_eq hsl
    obtain ⟨hl, rfl⟩ := pair_eq hlp
    obtain ⟨hs, rfl⟩ := pair_eq hsq
    exact ⟨_, _, rfl, fun hls₁ =>
      hreal.not_overwritten h hrf (.inl hls₁) hprec₁ hprec₂ hli hl.symm hlk hsi hs.symm hsk⟩
  · obtain ⟨l, s, hls, hrf⟩ := hb (atom .rf (.bound 3) (.bound 2)) (.head _)
    obtain ⟨rfl, rfl⟩ := pair_eq hls
    exact ⟨_, _, rfl, hreal.precedes_read h hrf⟩

/-- What the creations add about reads holds for stores whose value is not handed over. -/
theorem IsCreateNotRfFact.meaning (h : Interleaving sem M init main tr c)
    (hreal : Realises M fuel tr interfs rfs)
    (hhanded : ∀ l s, interfs[l]? = some s → ¬ HandedOver trees M l s) {r : Rule}
    (hr : IsCreateNotRfFact trees M r) : r.Holds (ReadMeaning M fuel tr interfs rfs) := by
  obtain ⟨F, hF, b, hb, ci, hci, T, hT, hcreate, l, hl, rfl | ⟨s, hs, rfl⟩⟩ := hr
  · intro σ hbody
    obtain ⟨si, hsi, v, q, hsq, hsk⟩ := hbody (atom .st (.bound 0) (.bound 1)) (.head _)
    obtain ⟨hs, _⟩ := pair_eq hsq
    refine ⟨_, _, rfl, fun hread => ?_⟩
    -- a store is not a load
    obtain ⟨_, e, _, _, hmem, hid, p, hp, _⟩ := hreal.read h (.inl hread)
    rw [M.eq_of_id_eq hmem hsi (hid.trans hs), Instruction.getLoadPtr, hsk] at hp
    cases hp
  · exact Horn.Rule.fact_holds ⟨_, _, rfl, fun hread =>
      hhanded _ _ hread ⟨F, hF, b, hb, ci, hci, T, hT, hcreate, ⟨l, hl, rfl⟩, s, hs, rfl⟩⟩

/-- **The constraints of a permutation hold** in every interleaving that realises it. -/
theorem addConstraints_readMeaning (htrees : trees.DomCorrect M) (hM : M.CreatedOnce main)
    {threadFuncs : List FuncId} {rules : List Rule}
    (hrules : addConstraints trees M threadFuncs fuel = .ok rules) (h : Interleaving sem M init main tr c)
    (hreal : Realises M fuel tr interfs rfs)
    (hhanded : ∀ l s, interfs[l]? = some s → ¬ HandedOver trees M l s) :
    ∀ r ∈ rules, r.Holds (ReadMeaning M fuel tr interfs rfs) := by
  obtain ⟨doms, hdoms, hrules⟩ := Fallible.bind_eq_ok.mp hrules
  obtain ⟨creates, hcreates, hrules⟩ := Fallible.bind_eq_ok.mp hrules
  obtain ⟨joins, hjoinFacts, hrules⟩ := Fallible.bind_eq_ok.mp hrules
  obtain ⟨notReach, hnotReach, hrules⟩ := Fallible.bind_eq_ok.mp hrules
  cases hrules
  intro r hr
  rw [List.append_assoc, List.mem_append, List.mem_append, List.mem_append, List.mem_append] at hr
  rcases hr with (((hr | hr) | hr) | hr) | hr
  · rcases mem_addDomLoadStoreFacts_dom (liftStop_eq_ok.mp hdoms) hr with rfl | ⟨F, hF, hdom⟩ |
      ⟨i, hi, ⟨p, hk, rfl⟩ | ⟨v, p, hk, rfl⟩⟩
    · exact readMeaning_rule h hreal (.inl rfl)
    · obtain ⟨x, y, rfl, hxy⟩ := hdom.meaning htrees hF
      exact Horn.Rule.fact_holds ⟨x, y, rfl, hxy⟩
    · exact Horn.Rule.fact_holds ⟨i, hi, p, rfl, hk⟩
    · exact Horn.Rule.fact_holds ⟨i, hi, v, p, rfl, hk⟩
  · rcases mem_addCreateFacts_notRf (liftStop_eq_ok.mp hcreates) hr with hnot | ⟨ci, hci, _, F, hF, hf, b, hb, rfl⟩
    · exact hnot.meaning h hreal hhanded
    · have hmem : b.getFirstLoadStoreCallTerm ∈ F.instrs :=
        Function.mem_instrs.mpr ⟨b, List.mem_of_mem_head? hb, getFirstLoadStoreCallTerm_mem b⟩
      exact Horn.Rule.fact_holds ⟨_, _, rfl, precedes_create hM h hF hci hf hmem⟩
  · obtain ⟨i, hi, thread, hk, F, hF, hfound, ret, hret, rfl⟩ := mem_addJoinFacts hjoinFacts hr
    exact Horn.Rule.fact_holds ⟨_, _, rfl, precedes_join hM h hF hret hi ⟨thread, hk, hfound⟩⟩
  · obtain ⟨x, y, rfl, hxy⟩ := (mem_addNotReachableFacts_blocks hnotReach hr).meaning
    exact Horn.Rule.fact_holds ⟨x, y, rfl, hxy⟩
  · exact readMeaning_rule h hreal (.inr hr)

end Meaning

/-! ### The check of a permutation -/

theorem mem_readsFromFacts {m : StoreMap} {r : Rule} :
    r ∈ readsFromFacts m ↔ ∃ l s, m[l]? = some s ∧ r = addReadsFromFact l s := by
  unfold readsFromFacts
  rw [List.mem_map]
  constructor
  · rintro ⟨⟨l, s⟩, hls, rfl⟩
    exact ⟨l, s, Std.TreeMap.mem_toList_iff_getElem?_eq_some.mp hls, rfl⟩
  · rintro ⟨l, s, hls, rfl⟩
    exact ⟨(l, s), Std.TreeMap.mem_toList_iff_getElem?_eq_some.mpr hls, rfl⟩

/-- A permutation violates the program order when some load is derived not to read from its store. -/
theorem violatesProgOrder_iff {z3 : Solver} (hz3 : z3.LeastModel) {rules : List Rule} {interfs rfs : StoreMap} :
    violatesProgOrder z3 rules interfs rfs = true ↔ ∃ l s, interfs[l]? = some s ∧
      Horn.Derives (rules ++ readsFromFacts interfs ++ readsFromFacts rfs) ⟨.notRf, [l, s]⟩ := by
  have hany : (∃ p ∈ interfs.toList,
      (queryNotReads z3 (rules ++ readsFromFacts interfs ++ readsFromFacts rfs) p.1 p.2 == .lTrue) = true) ↔
      ∃ l s, interfs[l]? = some s ∧
        Horn.Derives (rules ++ readsFromFacts interfs ++ readsFromFacts rfs) ⟨.notRf, [l, s]⟩ := by
    constructor
    · rintro ⟨⟨l, s⟩, hls, hquery⟩
      exact ⟨l, s, Std.TreeMap.mem_toList_iff_getElem?_eq_some.mp hls, (hz3 _ _).mp (eq_of_beq hquery)⟩
    · rintro ⟨l, s, hls, hder⟩
      exact ⟨(l, s), Std.TreeMap.mem_toList_iff_getElem?_eq_some.mpr hls, beq_iff_eq.mpr ((hz3 _ _).mpr hder)⟩
  rw [← hany]
  unfold violatesProgOrder
  split_ifs with hsize
  · refine iff_of_false not_false ?_
    rintro ⟨p, hp, _⟩
    have hempty : interfs.toList = [] := List.eq_nil_of_length_eq_zero (by rw [Std.TreeMap.length_toList, hsize])
    rw [hempty] at hp
    cases hp
  · exact List.any_eq_true

/-- **Pruning.**  A permutation that an interleaving realises, and none of whose stores reaches its load
through the entry fact of a thread, is not found to violate the program order. -/
theorem violatesProgOrder_sound (sem : Semantics) (M : Module) (init : Env) (main : FuncId) (trees : Trees)
    (htrees : trees.DomCorrect M) (hM : M.CreatedOnce main) (threadFuncs : List FuncId) (fuel : Nat)
    (rules : List Rule) (hrules : addConstraints trees M threadFuncs fuel = .ok rules) (z3 : Solver)
    (hz3 : z3.LeastModel) (interfs rfs : StoreMap)
    (hhanded : ∀ l s, interfs[l]? = some s → ¬ HandedOver trees M l s) (tr : List Event) (c : Config)
    (h : Interleaving sem M init main tr c) (hreal : Realises M fuel tr interfs rfs) :
    violatesProgOrder z3 rules interfs rfs = false := by
  rw [← Bool.not_eq_true, violatesProgOrder_iff hz3]
  rintro ⟨l, s, hls, hder⟩
  have hholds : ∀ r ∈ rules ++ readsFromFacts interfs ++ readsFromFacts rfs,
      r.Holds (ReadMeaning M fuel tr interfs rfs) := by
    intro r hr
    rcases List.mem_append.mp hr with hr | hr
    · rcases List.mem_append.mp hr with hr | hr
      · exact addConstraints_readMeaning htrees hM hrules h hreal hhanded r hr
      · obtain ⟨l, s, hls, rfl⟩ := mem_readsFromFacts.mp hr
        exact Horn.Rule.fact_holds ⟨l, s, rfl, .inl hls⟩
    · obtain ⟨l, s, hls, rfl⟩ := mem_readsFromFacts.mp hr
      exact Horn.Rule.fact_holds ⟨l, s, rfl, .inr hls⟩
  obtain ⟨l', s', heq, hne⟩ := hder.sound hholds
  obtain ⟨rfl, rfl⟩ := pair_eq heq
  exact hne hls

/-! ### Reading off what an execution reads -/

/-- The last store to a pointer among executed instructions. -/
def lastStore (is : List Instruction) (p : Value) : Option Value :=
  (is.filter fun i => i.getStorePtr = some p).getLast?.map (·.id)

/-- What each instance of a load reads, by the last store before it. -/
def lastStoresOf (is : List Instruction) (l : Value) : List (Option Value) :=
  (List.range is.length).filterMap fun n =>
    match is[n]? with
    | some i => if i.id = l then some (i.getLoadPtr.bind (lastStore (is.take n))) else none
    | none => none

theorem mem_lastStoresOf {pre post : List Event} {e : Event} :
    e.inst.getLoadPtr.bind (lastStore (pre.map (·.inst))) ∈
      lastStoresOf ((pre ++ e :: post).map (·.inst)) e.inst.id := by
  unfold lastStoresOf
  refine List.mem_filterMap.mpr ⟨pre.length, ?_, ?_⟩
  · rw [List.mem_range, List.length_map, List.length_append, List.length_cons]
    omega
  · have hget : ((pre ++ e :: post).map (·.inst))[pre.length]? = some e.inst := by simp
    have htake : ((pre ++ e :: post).map (·.inst)).take pre.length = pre.map (·.inst) := by simp
    rw [hget, htake]
    exact if_pos rfl

theorem lastStore_some {pre : List Event} {p s : Value} (h : lastStore (pre.map (·.inst)) p = some s) :
    ∃ pre₁ w pre₂, pre = pre₁ ++ w :: pre₂ ∧ w.inst.id = s ∧ w.inst.getStorePtr = some p ∧
      ∀ w' ∈ pre₂, w'.inst.getStorePtr ≠ some p := by
  induction pre using List.reverseRecOn with
  | nil => cases h
  | append_singleton pre e ih =>
      unfold lastStore at h ih
      rw [List.map_append, List.filter_append] at h
      by_cases he : e.inst.getStorePtr = some p
      · rw [show ([e].map (·.inst)).filter (fun i => i.getStorePtr = some p) = [e.inst] by simp [he],
          List.getLast?_concat] at h
        exact ⟨pre, e, [], rfl, Option.some.inj h, he, fun _ hw => absurd hw List.not_mem_nil⟩
      · rw [show ([e].map (·.inst)).filter (fun i => i.getStorePtr = some p) = [] by simp [he],
          List.append_nil] at h
        obtain ⟨pre₁, w, pre₂, rfl, hw, hp, hlast⟩ := ih h
        refine ⟨pre₁, w, pre₂ ++ [e], by rw [List.append_assoc, List.cons_append], hw, hp, fun w' hw' => ?_⟩
        rcases List.mem_append.mp hw' with hw' | hw'
        · exact hlast w' hw'
        · rw [List.mem_singleton.mp hw']
          exact he

theorem lastStore_append {pre₁ pre₂ : List Event} {w : Event} {p : Value} (hw : w.inst.getStorePtr = some p)
    (hlast : ∀ w' ∈ pre₂, w'.inst.getStorePtr ≠ some p) :
    lastStore ((pre₁ ++ w :: pre₂).map (·.inst)) p = some w.inst.id := by
  have hnone : (pre₂.map (·.inst)).filter (fun i => i.getStorePtr = some p) = [] := by
    rw [List.filter_eq_nil_iff]
    intro i hi
    obtain ⟨w', hw', rfl⟩ := List.mem_map.mp hi
    simpa using hlast w' hw'
  unfold lastStore
  rw [List.map_append, List.filter_append, List.map_cons, List.filter_cons_of_pos (by simpa using hw), hnone,
    List.getLast?_concat]
  rfl

theorem alwaysReads_of_lastStores {tr : List Event} {l s : Value}
    (h : ∀ r ∈ lastStoresOf (tr.map (·.inst)) l, r = some s) : AlwaysReads tr l s := by
  rintro pre e post rfl rfl
  obtain ⟨p, hp, hlast⟩ := Option.bind_eq_some_iff.mp (h _ mem_lastStoresOf)
  exact ⟨p, hp, lastStore_some hlast⟩

/-- Every instance of a load reads the value of its own thread: no other thread has stored since. -/
def ReadsOwn (tr : List Event) (l : Value) : Prop :=
  ∀ pre e post, tr = pre ++ e :: post → e.inst.id = l → ∀ s, ReadsFrom pre e s →
    ∃ w ∈ pre, w.inst.id = s ∧ w.thread = e.thread

/-- The loads of a permutation read as it says, as far as they are executed. -/
structure ReadsAs (tr : List Event) (interfs rfs : StoreMap) : Prop where
  interfs : ∀ l s, interfs[l]? = some s → AlwaysReads tr l s
  rfs : ∀ l s, rfs[l]? = some s → ReadsOwn tr l

/-- The check of all instances, by the last store before each. -/
def readsAsCheck (F : Function) (is : List Instruction) (interfs rfs : StoreMap) : Bool :=
  interfs.toList.all (fun p => (lastStoresOf is p.1).all (· == some p.2)) &&
    rfs.toList.all fun p => (F.instrs.map (·.id)).contains p.1 &&
      (lastStoresOf is p.1).all fun r => r.all (F.instrs.map (·.id)).contains

theorem readsAs_of_check {sem : Semantics} {M : Module} {init : Env} {main : FuncId} {tr : List Event}
    {c : Config} (h : Interleaving sem M init main tr c) {F : Function} (hF : F ∈ M.functions)
    {interfs rfs : StoreMap} (hcheck : readsAsCheck F (tr.map (·.inst)) interfs rfs = true) :
    ReadsAs tr interfs rfs := by
  obtain ⟨hinterfs, hrfs⟩ := Bool.and_eq_true_iff.mp hcheck
  rw [List.all_eq_true] at hinterfs hrfs
  refine ⟨fun l s hls => ?_, fun l s hls => ?_⟩
  · have hall := hinterfs (l, s) (Std.TreeMap.mem_toList_iff_getElem?_eq_some.mpr hls)
    rw [List.all_eq_true] at hall
    exact alwaysReads_of_lastStores fun r hr => eq_of_beq (hall r hr)
  · obtain ⟨hl, hall⟩ := Bool.and_eq_true_iff.mp (hrfs (l, s) (Std.TreeMap.mem_toList_iff_getElem?_eq_some.mpr hls))
    rw [List.all_eq_true] at hall
    obtain ⟨li, hli, hlid⟩ := List.mem_map.mp (List.contains_iff_mem.mp hl)
    rintro pre e post rfl rfl s' ⟨p, hp, pre₁, w, pre₂, rfl, rfl, hw, hlast⟩
    obtain ⟨_, hthread⟩ := thread_eq_of_mem h (List.mem_append_right _ (.head _)) hF hli hlid.symm
    have hwmem : w ∈ pre₁ ++ w :: pre₂ := List.mem_append_right _ (.head _)
    have hstore : lastStore ((pre₁ ++ w :: pre₂).map (·.inst)) p = some w.inst.id :=
      lastStore_append hw hlast
    have hown := hall _ mem_lastStoresOf
    rw [hp, Option.bind_some, hstore, Option.all_some] at hown
    obtain ⟨wi, hwi, hwid⟩ := List.mem_map.mp (List.contains_iff_mem.mp hown)
    obtain ⟨_, hwthread⟩ := thread_eq_of_mem h (List.mem_append_left _ hwmem) hF hwi hwid.symm
    exact ⟨w, hwmem, rfl, hwthread.trans hthread.symm⟩

/-! ### Derivations -/

section Derivations

variable {rules : List Rule} (hrules : ∀ r ∈ addPruningRules, r ∈ rules) {l s y v : Value}
include hrules

/-- A load that reads a store before another store of the variable. -/
theorem derives_readsFromMHB (hrf : Horn.Rule.fact .rf [l, s] ∈ rules)
    (hsy : Horn.Derives rules ⟨.mhb, [s, y]⟩) (hl : Horn.Rule.fact .ld [l, v] ∈ rules)
    (hs : Horn.Rule.fact .st [s, v] ∈ rules) (hy : Horn.Rule.fact .st [y, v] ∈ rules) :
    Horn.Derives rules ⟨.mhb, [l, y]⟩ := by
  refine Horn.Derives.closed (hrules addReadsFromMHB (by simp [addPruningRules]))
    (fun i => if i = 0 then s else if i = 1 then y else if i = 2 then l else v) fun a ha => ?_
  simp only [addReadsFromMHB, List.mem_cons, List.not_mem_nil, or_false] at ha
  rcases ha with rfl | rfl | rfl | rfl | rfl
  · exact Horn.Derives.fact (fun _ => 0) hrf
  · exact hsy
  · exact Horn.Derives.fact (fun _ => 0) hl
  · exact Horn.Derives.fact (fun _ => 0) hs
  · exact Horn.Derives.fact (fun _ => 0) hy

/-- A load does not read a store when another store of the variable comes between them. -/
theorem derives_overwritten (hrf : Horn.Rule.fact .rf [l, s] ∈ rules)
    (hsy : Horn.Derives rules ⟨.mhb, [s, y]⟩) (hyl : Horn.Derives rules ⟨.mhb, [y, l]⟩)
    (hl : Horn.Rule.fact .ld [l, v] ∈ rules) (hs : Horn.Rule.fact .st [s, v] ∈ rules)
    (hy : Horn.Rule.fact .st [y, v] ∈ rules) : Horn.Derives rules ⟨.notRf, [l, s]⟩ := by
  have hly := derives_readsFromMHB hrules hrf hsy hl hs hy
  refine Horn.Derives.closed (hrules addOverwriteNotReads (by simp [addPruningRules]))
    (fun i => if i ≤ 1 then l else if i = 2 then s else if i = 3 then y else v) fun a ha => ?_
  simp only [addOverwriteNotReads, List.mem_cons, List.not_mem_nil, or_false] at ha
  rcases ha with rfl | rfl | rfl | rfl | rfl | rfl
  · exact Horn.Derives.fact (fun _ => 0) hrf
  · exact hly
  · exact hyl
  · exact Horn.Derives.fact (fun _ => 0) hl
  · exact Horn.Derives.fact (fun _ => 0) hl
  · exact Horn.Derives.fact (fun _ => 0) hy

theorem derives_notRf (hly : Horn.Derives rules ⟨.mhb, [l, y]⟩) : Horn.Derives rules ⟨.notRf, [l, y]⟩ := by
  refine Horn.Derives.closed (hrules addMHBNotReads (by simp [addPruningRules]))
    (fun i => if i = 0 then l else y) fun a ha => ?_
  rw [List.mem_singleton.mp ha]
  exact hly

/-- What a load reads comes before it. -/
theorem derives_readBefore (hrf : Horn.Rule.fact .rf [l, s] ∈ rules) : Horn.Derives rules ⟨.mhb, [s, l]⟩ := by
  refine Horn.Derives.closed (hrules addMHBNRFRule (by simp [addPruningRules]))
    (fun i => if i = 0 then l else s) fun a ha => ?_
  rw [List.mem_singleton.mp ha]
  exact Horn.Derives.fact (fun _ => 0) hrf

end Derivations

/-! ### Permutations that are pruned and can occur -/

def loadAt (id p : Value) : Instruction := ⟨id, .load p, some 32, []⟩
def storeAt (id : Value) (n : BitVec 32) (p : Value) : Instruction := ⟨id, .store (.constantInt ⟨32, n⟩) p, none, []⟩
def createAt (id t : Value) (f : FuncId) : Instruction := ⟨id, .call (.pthreadCreate t (some f) []), none, []⟩
def joinAt (id t : Value) : Instruction := ⟨id, .call (.pthreadJoin t), none, []⟩
def allocaAt (id : Value) : Instruction := ⟨id, .alloca, none, []⟩
def retAt (id : Value) : Instruction := ⟨id, .ret, none, []⟩
def brAt (id : Value) (b : BlockId) : Instruction := ⟨id, .br b, none, []⟩
def condBrAt (id c : Value) (t e : BlockId) : Instruction := ⟨id, .condBr (.value c) t e, none, []⟩

/-- What `testCurPerm` builds for a permutation of a function when all stores of the other functions
interfere. -/
def choose (M : Module) (F : Function) (createSite : Option Instruction) (perm : List Nat) (fuel : Nat) :
    Except LoopStop (Choices boxes) := do
  let facts : StoreFacts boxes := Std.TreeMap.ofList
    ((M.instrs.filter Instruction.isSomeStore).map fun i => (i.id, (⟨boxes.top⟩ : LatticeFact boxes)))
  let reach : ReachStores boxes := Std.TreeMap.ofList
    (M.functions.map fun G => (G.id, facts.filter fun s _ => (G.instrs.map (·.id)).contains s))
  let interfs ← getInterferingStores M F reach
  gatherChoices (.ofModule M 0 { useConstraintsG := true }) createSite perm interfs facts fuel

def chosen (M : Module) (F : Function) (createSite : Option Instruction) (perm : List Nat) (fuel : Nat) :
    Choices boxes :=
  (choose M F createSite perm fuel).toOption.getD {}

/-- An interleaving executes the loads as a permutation says, and yet the permutation is pruned. -/
def PrunedThough (M : Module) (init : Env) (rules : List Rule) (F : Function)
    (createSite : Option Instruction) (perm : List Nat) (fuel : Nat) (tr : List Event) : Prop :=
  ∃ c, choose M F createSite perm fuel = .ok c ∧ (∃ t, Interleaving registers M init 0 tr t) ∧
    ReadsAs tr c.curInterfStoreMap c.curSelfStoreMap ∧
    violatesProgOrder .least rules c.curInterfStoreMap c.curSelfStoreMap = true

/-- The permutation assigns the given stores, and the run reads so. -/
def assigns (M : Module) (F : Function) (createSite : Option Instruction) (perm : List Nat) (fuel : Nat)
    (tr : List Event) (interfs rfs : List (Value × Value)) : Bool :=
  (choose M F createSite perm fuel).toOption.any fun c =>
    c.curInterfStoreMap.toList = interfs && c.curSelfStoreMap.toList = rfs &&
      readsAsCheck F (tr.map (·.inst)) c.curInterfStoreMap c.curSelfStoreMap

/-- A run that reads as a permutation says, and what that is. -/
structure PermRun (M : Module) (init : Env) (F : Function) (createSite : Option Instruction) (perm : List Nat)
    (fuel : Nat) where
  tr : List Event
  reached : ∃ t, Interleaving registers M init 0 tr t
  interfs : List (Value × Value)
  rfs : List (Value × Value)
  assigns_tr : assigns M F createSite perm fuel tr interfs rfs = true

/-- The constraints of a permutation. -/
def permRules (rules : List Rule) (interfs rfs : List (Value × Value)) : List Rule :=
  rules ++ interfs.map (fun p => addReadsFromFact p.1 p.2) ++ rfs.map fun p => addReadsFromFact p.1 p.2

section PermRun

variable {M : Module} {init : Env} {F : Function} {createSite : Option Instruction} {perm : List Nat} {fuel : Nat}

theorem PermRun.choice (p : PermRun M init F createSite perm fuel) : ∃ c, choose M F createSite perm fuel = .ok c ∧
    c.curInterfStoreMap.toList = p.interfs ∧ c.curSelfStoreMap.toList = p.rfs ∧
    readsAsCheck F (p.tr.map (·.inst)) c.curInterfStoreMap c.curSelfStoreMap = true := by
  have h := p.assigns_tr
  unfold assigns at h
  cases hc : choose M F createSite perm fuel with
  | error e =>
      rw [hc] at h
      cases h
  | ok c =>
      rw [hc] at h
      obtain ⟨hmaps, hreads⟩ := Bool.and_eq_true_iff.mp h
      obtain ⟨hinterfs, hrfs⟩ := Bool.and_eq_true_iff.mp hmaps
      exact ⟨c, rfl, of_decide_eq_true hinterfs, of_decide_eq_true hrfs, hreads⟩

theorem prunedThough_of_derives {rules : List Rule} (p : PermRun M init F createSite perm fuel)
    (hF : F ∈ M.functions) {l s : Value}
    (hls : (l, s) ∈ p.interfs) (hder : Horn.Derives (permRules rules p.interfs p.rfs) ⟨.notRf, [l, s]⟩) :
    PrunedThough M init rules F createSite perm fuel p.tr := by
  obtain ⟨c, hc, hinterfs, hrfs, hreads⟩ := p.choice
  rw [← hinterfs] at hls hder
  rw [← hrfs] at hder
  obtain ⟨t, ht⟩ := p.reached
  exact ⟨c, hc, ⟨t, ht⟩, readsAs_of_check ht hF hreads, (violatesProgOrder_iff Solver.least_leastModel).mpr
    ⟨l, s, Std.TreeMap.mem_toList_iff_getElem?_eq_some.mp hls, hder⟩⟩

end PermRun

section PermRules

variable {rules : List Rule} {interfs rfs : List (Value × Value)} {r : Rule} {l s : Value}

theorem mem_permRules (h : r ∈ rules) : r ∈ permRules rules interfs rfs :=
  List.mem_append_left _ (List.mem_append_left _ h)

theorem interf_mem_permRules (h : (l, s) ∈ interfs) : Horn.Rule.fact .rf [l, s] ∈ permRules rules interfs rfs :=
  List.mem_append_left _ (List.mem_append_right _ (List.mem_map_of_mem h))

theorem self_mem_permRules (h : (l, s) ∈ rfs) : Horn.Rule.fact .rf [l, s] ∈ permRules rules interfs rfs :=
  List.mem_append_right _ (List.mem_map_of_mem h)

end PermRules

namespace Overpruned

/-- `s0: v = 7; create(u); l: load x; la: load a; if (c) { l1: load x; join(u); sw: w = 1 } lw: load w;
y: a = 0; l0: load a; return` -/
def main : Function :=
  .ofBlocks 0 [.ofInstrs 10 [allocaAt 1, storeAt 2 7 103, createAt 3 1 1, loadAt 4 100, loadAt 6 105]
      (condBrAt 5 50 11 12),
    .ofInstrs 11 [loadAt 7 100, loadAt 8 1, joinAt 9 8, storeAt 13 1 101] (brAt 14 12),
    .ofInstrs 12 [loadAt 15 101, storeAt 16 0 105, loadAt 17 105] (retAt 18)]

/-- `lu: load v; s1: x = 1; s2: x = 2; do { s3: a = 4 } while (d); uw: w = 5; return` -/
def u : Function :=
  .ofBlocks 1 [.ofInstrs 20 [loadAt 21 103, storeAt 22 1 100, storeAt 23 2 100] (brAt 24 25),
    .ofInstrs 25 [storeAt 27 4 105] (condBrAt 28 51 25 26),
    .ofInstrs 26 [storeAt 30 5 101] (retAt 29)]

def program : Module :=
  .ofFunctions [main, u]
    [⟨100, some (.constantInt ⟨32, 0⟩)⟩, ⟨101, some (.constantInt ⟨32, 0⟩)⟩,
      ⟨103, some (.constantInt ⟨32, 0⟩)⟩, ⟨105, some (.constantInt ⟨32, 0⟩)⟩] (some 0)

def trees : Trees :=
  .ofEdges [(0, 10, 11), (0, 10, 12), (1, 20, 25), (1, 25, 26)] fun _ b =>
    if b = 12 then [12, 10, 11] else if b = 26 then [26, 25, 20] else if b = 25 then [25, 20] else [b]

def rules : List Rule :=
  (addConstraints trees program [0, 1] 30).toOption.getD []

theorem rules_eq : addConstraints trees program [0, 1] 30 = .ok rules := by
  rfl

theorem function_eq {F : Function} (hF : F ∈ program.functions) : F = main ∨ F = u :=
  List.mem_pair.mp hF

theorem u_edge {a : BlockId} (h : u.Edge a 26) : a = 25 := by
  unfold Function.Edge Function.succsOf at h
  cases hB : u.block? a with
  | none =>
      rw [hB] at h
      cases h
  | some B =>
      obtain ⟨hmem, rfl⟩ := Function.block?_mem hB
      rw [hB] at h
      have hall : ∀ B ∈ u.blocks, 26 ∈ B.getSuccsFromBB → B.id = 25 := by decide
      exact hall B hmem h

theorem domCorrect : trees.DomCorrect program := by
  refine Trees.domCorrect_ofEdges fun p hp F hF hid first hfirst => ?_
  have hmain : F.id = 0 → F = main := fun h => (function_eq hF).resolve_right (by rintro rfl; cases h)
  have hu : F.id = 1 → F = u := fun h => (function_eq hF).resolve_left (by rintro rfl; cases h)
  simp only [List.mem_cons, List.not_mem_nil, or_false] at hp
  rcases hp with rfl | rfl | rfl | rfl
  · obtain rfl := hmain hid
    cases hfirst
    exact .of_entry (.head _) (by decide)
  · obtain rfl := hmain hid
    cases hfirst
    exact .of_entry (.tail _ (.head _)) (by decide)
  · obtain rfl := hu hid
    cases hfirst
    exact .of_entry (.head _) (by decide)
  · obtain rfl := hu hid
    cases hfirst
    exact .of_pred ⟨[20], .step .start (.head _)⟩ (.tail _ (.head _)) (fun _ => u_edge) (by decide) (by decide)

/-- The thread of the variable of `main`. -/
def cls (v : Value) : Option FuncId :=
  if v ∈ [1, 3, 8, 9] then some 1 else none

theorem createdOnce : program.CreatedOnce 0 := by
  refine @Module.createdOnce_of_class program 0 cls ?_ ?_ ?_ <;> decide

/-- The loop of `u` is repeated or not. -/
def env (d : Int) : Env := Function.update (fun _ => 0) 51 d

def run (d : Int) (fs : List FuncId) : List Event :=
  scheduled program (env d) (fun _ => none) 0 fs

/-- The constraints that the derivations use. -/
def facts : List Rule :=
  addTransRuleBVBV .dom :: addPruningRules ++
    (([(22, 23), (4, 6), (6, 5), (5, 7), (5, 15), (15, 16), (16, 17), (27, 28), (28, 30), (30, 29),
      (9, 13)] : List (Value × Value)).map fun p => .fact .dom [p.1, p.2] : List Rule) ++
    (([(23, 22), (7, 4), (16, 6), (16, 15), (17, 16), (30, 27), (29, 30), (13, 9)] : List (Value × Value)).map fun p =>
      .fact .notReach [p.1, p.2] : List Rule) ++
    ([.fact .notRf [21, 2], .fact .mhb [29, 9], .fact .ld [7, 100], .fact .ld [17, 105],
      .fact .st [22, 100], .fact .st [23, 100], .fact .st [16, 105], .fact .st [27, 105]] : List Rule)

theorem facts_mem : ∀ r ∈ facts, r ∈ rules := by
  decide

theorem no_waits (M : Module) : ∀ v g, (fun _ => none : Value → Option FuncId) v = some g → M.Joins v g :=
  fun _ _ h => by cases h

theorem run_interleaving (d : Int) (fs : List FuncId) :
    ∃ c, Interleaving registers program (env d) 0 (run d fs) c :=
  scheduled_interleaving (no_waits program) 0 fs

section Derivations

variable {interfs rfs : List (Value × Value)} {x y z : Value}

theorem fact_mem {r : Rule} (h : r ∈ facts) : r ∈ permRules rules interfs rfs :=
  mem_permRules (facts_mem r h)

theorem pruning_mem : ∀ r ∈ addPruningRules, r ∈ permRules rules interfs rfs :=
  fun _ hr => fact_mem (List.mem_append_left _ (List.mem_append_left _ (List.mem_append_left _ (.tail _ hr))))

theorem dom_fact (h : Horn.Rule.fact .dom [x, y] ∈ facts) : Horn.Derives (permRules rules interfs rfs) ⟨.dom, [x, y]⟩ :=
  Horn.Derives.fact (fun _ => 0) (fact_mem h)

theorem dom_trans (hxy : Horn.Derives (permRules rules interfs rfs) ⟨.dom, [x, y]⟩)
    (hyz : Horn.Derives (permRules rules interfs rfs) ⟨.dom, [y, z]⟩) :
    Horn.Derives (permRules rules interfs rfs) ⟨.dom, [x, z]⟩ :=
  derives_trans (fact_mem (by decide)) hxy hyz

/-- The order of two statements of a function. -/
theorem derives_order (hdom : Horn.Derives (permRules rules interfs rfs) ⟨.dom, [x, y]⟩)
    (hreach : Horn.Rule.fact .notReach [y, x] ∈ facts) : Horn.Derives (permRules rules interfs rfs) ⟨.mhb, [x, y]⟩ :=
  derives_ordered (pruning_mem _ (by decide)) hdom (fact_mem hreach)

theorem derives_next (hxy : Horn.Derives (permRules rules interfs rfs) ⟨.mhb, [x, y]⟩)
    (hyz : Horn.Derives (permRules rules interfs rfs) ⟨.mhb, [y, z]⟩) : Horn.Derives (permRules rules interfs rfs) ⟨.mhb, [x, z]⟩ :=
  derives_trans (pruning_mem addMHBTrans (by decide)) hxy hyz

/-- A read of `a = 4` at `l0` is excluded once the store of `u` comes before that of `main`. -/
theorem derives_l0 (hread : (17, 27) ∈ interfs)
    (horder : Horn.Derives (permRules rules interfs rfs) ⟨.mhb, [27, 16]⟩) :
    Horn.Derives (permRules rules interfs rfs) ⟨.notRf, [17, 27]⟩ :=
  derives_overwritten (v := 105) pruning_mem (interf_mem_permRules hread) horder
    (derives_order (dom_fact (by decide)) (by decide)) (fact_mem (by decide)) (fact_mem (by decide))
    (fact_mem (by decide))

end Derivations

/-- `u` reads the store of `main` before the creation. -/
def handedOver : PermRun program (env 0) u (some (createAt 3 1 1)) [1] 30 where
  tr := run 0 [0, 0, 0, 1, 1, 1, 1, 1, 1, 1, 1, 0, 0, 0, 0, 0, 0, 0]
  reached := run_interleaving _ _
  interfs := [(21, 2)]
  rfs := []
  assigns_tr := by decide +kernel

/-- `main` reads `x = 2` at `l` and then skips `l1`, which the permutation lets read `x = 1`. -/
def skippedLoad : PermRun program (env 0) main none [2, 0, 1, 0, 0] 30 where
  tr := run 0 [0, 0, 0, 1, 1, 1, 0, 0, 0, 0, 0, 0, 0, 1, 1, 1, 1, 1]
  reached := run_interleaving _ _
  interfs := [(4, 23), (7, 22)]
  rfs := [(15, 13), (17, 16)]
  assigns_tr := by decide +kernel

/-- `main` reads `a = 4` before and after its own store, from two iterations of `u`. -/
def repeatedStore : PermRun program (env 1) main none [0, 1, 0, 0, 1] 30 where
  tr := run 1 [0, 0, 0, 0, 1, 1, 1, 1, 1, 0, 0, 0, 0, 1, 1, 0, 0]
  reached := run_interleaving _ _
  interfs := [(6, 27), (17, 27)]
  rfs := [(15, 13)]
  assigns_tr := by decide +kernel

/-- `main` reads the initial `w`, which the permutation takes for its own store after the join of `u`. -/
def skippedStore : PermRun program (env 0) main none [0, 0, 0, 0, 1] 30 where
  tr := run 0 [0, 0, 0, 0, 0, 0, 0, 0, 1, 1, 1, 1, 1, 0, 0, 1, 1, 1]
  reached := run_interleaving _ _
  interfs := [(17, 27)]
  rfs := [(15, 13)]
  assigns_tr := by decide +kernel

/-- The creation excludes the store. -/
theorem handedOver_pruned : PrunedThough program (env 0) rules u (some (createAt 3 1 1)) [1] 30 handedOver.tr := by
  refine prunedThough_of_derives (l := 21) (s := 2) handedOver (.tail _ (.head _)) (.head _) ?_
  exact Horn.Derives.fact (fun _ => 0) (fact_mem (by decide))

/-- The load that is skipped would have to come before the store that `l` reads. -/
theorem skippedLoad_pruned : PrunedThough program (env 0) rules main none [2, 0, 1, 0, 0] 30 skippedLoad.tr := by
  refine prunedThough_of_derives (l := 4) (s := 23) skippedLoad (.head _) (.head _) ?_
  refine derives_notRf pruning_mem (derives_next (y := 7) (derives_order ?_ (by decide)) ?_)
  · exact dom_trans (y := 6) (dom_fact (by decide)) (dom_trans (y := 5) (dom_fact (by decide)) (dom_fact (by decide)))
  · exact derives_readsFromMHB (s := 22) (v := 100) pruning_mem (interf_mem_permRules (.tail _ (.head _)))
      (derives_order (dom_fact (by decide)) (by decide)) (fact_mem (by decide)) (fact_mem (by decide))
      (fact_mem (by decide))

/-- The store of `u` would have to come before that of `main` in all iterations. -/
theorem repeatedStore_pruned : PrunedThough program (env 1) rules main none [0, 1, 0, 0, 1] 30 repeatedStore.tr := by
  refine prunedThough_of_derives (l := 17) (s := 27) repeatedStore (.head _) (.tail _ (.head _)) ?_
  refine derives_l0 (.tail _ (.head _)) (derives_next (y := 6) ?_ (derives_order ?_ (by decide)))
  · exact derives_readBefore pruning_mem (interf_mem_permRules (.head _))
  · exact dom_trans (y := 5) (dom_fact (by decide)) (dom_trans (y := 15) (dom_fact (by decide)) (dom_fact (by decide)))

/-- The join would have to come before the load of `w`. -/
theorem skippedStore_pruned : PrunedThough program (env 0) rules main none [0, 0, 0, 0, 1] 30 skippedStore.tr := by
  refine prunedThough_of_derives (l := 17) (s := 27) skippedStore (.head _) (.head _) ?_
  refine derives_l0 (.head _) ?_
  have hend : Horn.Derives (permRules rules skippedStore.interfs skippedStore.rfs) ⟨.mhb, [27, 30]⟩ :=
    derives_order (dom_trans (y := 28) (dom_fact (by decide)) (dom_fact (by decide))) (by decide)
  refine derives_next hend (derives_next (y := 29) (derives_order (dom_fact (by decide)) (by decide)) ?_)
  refine derives_next (y := 9) (Horn.Derives.fact (fun _ => 0) (fact_mem (by decide))) ?_
  refine derives_next (y := 13) (derives_order (dom_fact (by decide)) (by decide)) ?_
  refine derives_next (y := 15) ?_ (derives_order (dom_fact (by decide)) (by decide))
  exact derives_readBefore pruning_mem (self_mem_permRules (.head _))

/-- `main` reads `x = 2`, `w = 5` and its own `a`. -/
def realised : List Event :=
  run 0 [0, 0, 0, 1, 1, 1, 0, 0, 1, 1, 1, 1, 1, 0, 0, 0, 0, 0]

def choice : Choices boxes :=
  chosen program main none [2, 0, 0, 1, 0] 30

theorem mem_choice {l s : Value} (h : Assigned choice.curInterfStoreMap choice.curSelfStoreMap l s) :
    (l, s) ∈ [(4, 23), (15, 30), (17, 16)] := by
  have hinterfs : choice.curInterfStoreMap.toList = [(4, 23), (15, 30)] := by decide +kernel
  have hself : choice.curSelfStoreMap.toList = [(17, 16)] := by decide +kernel
  rcases h with h | h
  · have hmem := Std.TreeMap.mem_toList_iff_getElem?_eq_some.mpr h
    rw [hinterfs] at hmem
    exact List.mem_append_left [(17, 16)] hmem
  · have hmem := Std.TreeMap.mem_toList_iff_getElem?_eq_some.mpr h
    rw [hself] at hmem
    exact List.mem_append_right [(4, 23), (15, 30)] hmem

theorem realises : Realises program 30 realised choice.curInterfStoreMap choice.curSelfStoreMap := by
  have hids : realised.map (·.inst.id) = [1, 2, 3, 21, 22, 23, 4, 6, 24, 27, 28, 30, 29, 5, 15, 16, 17, 18] := by
    decide
  refine ⟨fun l s hls => ?_, fun l s hls => ?_, fun l s hls => ?_, ?_⟩
  · have hmem : ∀ p ∈ [(4, 23), (15, 30), (17, 16)], p.1 ∈ realised.map (·.inst.id) := by
      rw [hids]
      decide
    obtain ⟨e, he, hid⟩ := List.mem_map.mp (hmem _ (mem_choice hls))
    exact ⟨e, he, hid⟩
  · have hreads : ∀ p ∈ [(4, 23), (15, 30), (17, 16)],
        ∀ r ∈ lastStoresOf (realised.map (·.inst)) p.1, r = some p.2 := by
      decide
    exact alwaysReads_of_lastStores (hreads _ (mem_choice hls))
  · have honce : ∀ p ∈ [(4, 23), (15, 30), (17, 16)],
        ([1, 2, 3, 21, 22, 23, 4, 6, 24, 27, 28, 30, 29, 5, 15, 16, 17, 18] : List Value).Pairwise
          fun a b => ¬ (a = p.2 ∧ b = p.2) := by
      decide
    have h := honce _ (mem_choice hls)
    rw [← hids, List.pairwise_map] at h
    exact h
  · rintro _ _ _ _ _ ⟨e, he, v, hk, _⟩
    have hjoin : ∀ i ∈ realised.map (·.inst), i.isThreadCall = false ∨ i.isPthreadCreate = true := by
      decide
    rcases hjoin _ (List.mem_map_of_mem he) with h | h
    · rw [Instruction.isThreadCall, hk] at h
      cases h
    · rw [Instruction.isPthreadCreate, hk] at h
      cases h

theorem not_handedOver {l s : Value} (h : choice.curInterfStoreMap[l]? = some s) :
    ¬ HandedOver trees program l s := by
  rintro ⟨F, hF, b, hb, ci, hci, T, hT, hcreate, ⟨li, hli, rfl⟩, _⟩
  have hmem : ci ∈ program.instrs := Module.mem_instrs.mpr ⟨F, hF, Function.mem_instrs.mpr ⟨b, hb, hci⟩⟩
  rcases function_eq hT with rfl | rfl
  · exact createdOnce.not_main ci hmem hcreate
  · have hloads : ∀ li ∈ u.getLoads, li.id ∉ [4, 15, 17] := by decide
    refine hloads li hli ?_
    have hl := mem_choice (.inl h)
    simp only [List.mem_cons, Prod.mk.injEq, List.not_mem_nil, or_false] at hl ⊢
    rcases hl with ⟨hl, _⟩ | ⟨hl, _⟩ | ⟨hl, _⟩
    · exact .inl hl
    · exact .inr (.inl hl)
    · exact .inr (.inr hl)

theorem realised_not_pruned :
    violatesProgOrder .least rules choice.curInterfStoreMap choice.curSelfStoreMap = false := by
  obtain ⟨c, hc⟩ := run_interleaving 0 [0, 0, 0, 1, 1, 1, 0, 0, 1, 1, 1, 1, 1, 0, 0, 0, 0, 0]
  exact violatesProgOrder_sound registers program (env 0) 0 trees domCorrect createdOnce [0, 1] 30 rules rules_eq
    .least Solver.least_leastModel _ _ (fun _ _ => not_handedOver) realised c hc realises

end Overpruned

namespace TwoCreates

/-- `create(g); if (c) { create(t); return } join(g); create(t); return` -/
def main : Function :=
  .ofBlocks 0 [.ofInstrs 10 [allocaAt 1, createAt 3 1 2, allocaAt 2] (condBrAt 4 50 11 12),
    .ofInstrs 11 [createAt 5 2 1] (retAt 6),
    .ofInstrs 12 [loadAt 7 1, joinAt 8 7, createAt 9 2 1] (retAt 14)]

/-- `x = 3; load x; return` -/
def t : Function :=
  .ofBlocks 1 [.ofInstrs 20 [storeAt 21 3 100, loadAt 22 100] (retAt 23)]

/-- `x = 4; return` -/
def g : Function :=
  .ofBlocks 2 [.ofInstrs 30 [storeAt 31 4 100] (retAt 32)]

def program : Module :=
  .ofFunctions [main, t, g] [⟨100, some (.constantInt ⟨32, 0⟩)⟩] (some 0)

def trees : Trees :=
  .ofEdges [(0, 10, 11), (0, 10, 12)] fun _ b => [b]

def rules : List Rule :=
  (addConstraints trees program [0, 1, 2] 30).toOption.getD []

theorem rules_eq : addConstraints trees program [0, 1, 2] 30 = .ok rules := by
  rfl

theorem domCorrect : trees.DomCorrect program := by
  refine Trees.domCorrect_ofEdges fun p hp F hF hid first hfirst => ?_
  have hall : ∀ F ∈ [main, t, g], F.id = 0 → F = main := by
    intro F hF hid
    rcases List.mem_cons.mp hF with rfl | hF
    · rfl
    · rcases List.mem_pair.mp hF with rfl | rfl <;> exact absurd hid (by decide)
  rcases List.mem_pair.mp hp with rfl | rfl
  · obtain rfl := hall F hF hid
    cases hfirst
    exact .of_entry (.head _) (by decide)
  · obtain rfl := hall F hF hid
    cases hfirst
    exact .of_entry (.tail _ (.head _)) (by decide)

def env : Env := Function.update (fun _ => 0) 50 1

/-- `t` is created without waiting for `g`. -/
def run : List Event :=
  scheduled program env (fun _ => none) 0 [0, 0, 0, 0, 0, 0, 1, 2, 1, 1, 2]

def facts : List Rule :=
  addPruningRules ++ ([.fact .dom [31, 32], .fact .notReach [32, 31], .fact .mhb [32, 8], .fact .dom [8, 9],
    .fact .notReach [9, 8], .fact .mhb [9, 21], .fact .dom [21, 22], .fact .notReach [22, 21],
    .fact .ld [22, 100], .fact .st [31, 100], .fact .st [21, 100]] : List Rule)

theorem facts_mem : ∀ r ∈ facts, r ∈ rules := by
  decide

/-- `t` reads the store of `g`. -/
def permRun : PermRun program env t (some (createAt 5 2 1)) [1] 30 where
  tr := run
  reached := scheduled_interleaving (Overpruned.no_waits _) 0 _
  interfs := [(22, 31)]
  rfs := []
  assigns_tr := by decide +kernel

/-- The creation of `t` on the other path comes after the store. -/
theorem twoCreates_pruned : PrunedThough program env rules t (some (createAt 5 2 1)) [1] 30 permRun.tr := by
  refine prunedThough_of_derives permRun (.tail _ (.head _)) (.head _) ?_
  have hmem : ∀ r ∈ facts, r ∈ permRules rules [(22, 31)] [] := fun r hr => mem_permRules (facts_mem r hr)
  have hpruning : ∀ r ∈ addPruningRules, r ∈ permRules rules [(22, 31)] [] :=
    fun r hr => hmem r (List.mem_append_left _ hr)
  have horder : ∀ x y, Horn.Rule.fact .dom [x, y] ∈ facts → Horn.Rule.fact .notReach [y, x] ∈ facts →
      Horn.Derives (permRules rules [(22, 31)] []) ⟨.mhb, [x, y]⟩ :=
    fun x y hdom hreach => derives_ordered (hpruning _ (by decide))
      (Horn.Derives.fact (fun _ => 0) (hmem _ hdom)) (hmem _ hreach)
  have htrans := hpruning addMHBTrans (by decide)
  refine derives_overwritten (y := 21) (v := 100) hpruning (interf_mem_permRules (.head _)) ?_
    (horder 21 22 (by decide) (by decide)) (hmem _ (by decide)) (hmem _ (by decide)) (hmem _ (by decide))
  refine derives_trans htrans (horder 31 32 (by decide) (by decide)) ?_
  refine derives_trans htrans (y := 8) (Horn.Derives.fact (fun _ => 0) (hmem _ (by decide))) ?_
  exact derives_trans htrans (horder 8 9 (by decide) (by decide))
    (Horn.Derives.fact (fun _ => 0) (hmem _ (by decide)))

end TwoCreates

/-- The load of `u` reads the store of `main`. -/
def SkippedJoin.permRun : PermRun program (env 0) u (some cu) [1] 20 where
  tr := run
  reached := scheduled_interleaving waits_joins 0 _
  interfs := [(31, 25)]
  rfs := []
  assigns_tr := by decide +kernel

/-- The return of `t` on the other path comes before the store. -/
theorem skippedJoin_pruned : PrunedThough SkippedJoin.program (SkippedJoin.env 0) SkippedJoin.rules SkippedJoin.u
    (some SkippedJoin.cu) [1] 20 SkippedJoin.permRun.tr := by
  refine prunedThough_of_derives SkippedJoin.permRun (.tail _ (.tail _ (.head _))) (.head _) ?_
  exact derives_notRf (fun r hr => mem_permRules (addPruningRules_mem SkippedJoin.rules_eq r hr))
    (SkippedJoin.derives_mhb.mono fun _ => mem_permRules)

/-- **Pruning is not sound for every interleaving that reads as a permutation says**: it fails when the value
of a store reaches the load through the entry fact, when a load is not executed, when a store is executed
twice, when a self-store is not executed, when a joined thread has taken a return around its joins, and when
a thread is created at two places. -/
theorem violatesProgOrder_not_sound :
    (Overpruned.trees.DomCorrect Overpruned.program ∧ Overpruned.program.CreatedOnce 0 ∧
      addConstraints Overpruned.trees Overpruned.program [0, 1] 30 = .ok Overpruned.rules) ∧
    PrunedThough Overpruned.program (Overpruned.env 0) Overpruned.rules Overpruned.u (some (createAt 3 1 1)) [1] 30
      (Overpruned.run 0 [0, 0, 0, 1, 1, 1, 1, 1, 1, 1, 1, 0, 0, 0, 0, 0, 0, 0]) ∧
    PrunedThough Overpruned.program (Overpruned.env 0) Overpruned.rules Overpruned.main none [2, 0, 1, 0, 0] 30
      (Overpruned.run 0 [0, 0, 0, 1, 1, 1, 0, 0, 0, 0, 0, 0, 0, 1, 1, 1, 1, 1]) ∧
    PrunedThough Overpruned.program (Overpruned.env 1) Overpruned.rules Overpruned.main none [0, 1, 0, 0, 1] 30
      (Overpruned.run 1 [0, 0, 0, 0, 1, 1, 1, 1, 1, 0, 0, 0, 0, 1, 1, 0, 0]) ∧
    PrunedThough Overpruned.program (Overpruned.env 0) Overpruned.rules Overpruned.main none [0, 0, 0, 0, 1] 30
      (Overpruned.run 0 [0, 0, 0, 0, 0, 0, 0, 0, 1, 1, 1, 1, 1, 0, 0, 1, 1, 1]) ∧
    ((SkippedJoin.trees.DomCorrect SkippedJoin.program ∧ SkippedJoin.program.CreatedOnce 0 ∧
      addConstraints SkippedJoin.trees SkippedJoin.program [0, 1, 2] 20 = .ok SkippedJoin.rules) ∧
    PrunedThough SkippedJoin.program (SkippedJoin.env 0) SkippedJoin.rules SkippedJoin.u (some SkippedJoin.cu) [1] 20
      SkippedJoin.run) ∧
    (TwoCreates.trees.DomCorrect TwoCreates.program ∧
      addConstraints TwoCreates.trees TwoCreates.program [0, 1, 2] 30 = .ok TwoCreates.rules) ∧
    PrunedThough TwoCreates.program TwoCreates.env TwoCreates.rules TwoCreates.t (some (createAt 5 2 1)) [1] 30
      TwoCreates.run :=
  ⟨⟨Overpruned.domCorrect, Overpruned.createdOnce, Overpruned.rules_eq⟩, Overpruned.handedOver_pruned,
    Overpruned.skippedLoad_pruned, Overpruned.repeatedStore_pruned, Overpruned.skippedStore_pruned,
    ⟨⟨SkippedJoin.domCorrect, SkippedJoin.createdOnce, SkippedJoin.rules_eq⟩, skippedJoin_pruned⟩,
    ⟨TwoCreates.domCorrect, TwoCreates.rules_eq⟩, TwoCreates.twoCreates_pruned⟩

end Watts
