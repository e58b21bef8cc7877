import Watts.Concurrency

/-! What a thread has executed at some point of an interleaving: the blocks of a walk through its function,
up to the place where it stands. -/

namespace Watts

open Runs (Run)

/-! ### Walks with their instructions -/

namespace Function

/-- The instructions of the block at an address. -/
def instrsOf (F : Function) (b : BlockId) : List Instruction :=
  ((F.block? b).map BasicBlock.instrs).getD []

/-- Some path leads from the entry to a block. -/
def Reachable (F : Function) (b : BlockId) : Prop :=
  ∃ first, F.blocks.head? = some first ∧ ∃ π, Flow.Walk F.Edge first.id π b

/-- Instructions that an execution of the function from its entry may have passed. -/
def Tracks (F : Function) (is : List Instruction) : Prop :=
  is = [] ∨ ∃ first, F.blocks.head? = some first ∧ ∃ π b, Flow.Walk F.Edge first.id π b ∧
    is <+: (π ++ [b]).flatMap F.instrsOf

/-- Every execution that has come to `j` has passed `i`. -/
def AlwaysBefore (F : Function) (i j : Instruction) : Prop :=
  ∀ us vs, F.Tracks (us ++ j :: vs) → i ∈ us

/-- No execution passes `i` once it has passed `j`. -/
def NeverAfter (F : Function) (i j : Instruction) : Prop :=
  ∀ us vs, F.Tracks (us ++ j :: vs) → i ∉ vs

theorem instrsOf_id {F : Function} {B : BasicBlock} (hB : B ∈ F.blocks) : F.instrsOf B.id = B.instrs := by
  unfold instrsOf
  rw [block?_id hB]
  rfl

theorem mem_instrsOf {F : Function} {b : BlockId} {i : Instruction} (h : i ∈ F.instrsOf b) :
    ∃ B ∈ F.blocks, B.id = b ∧ i ∈ B.instrs := by
  unfold instrsOf at h
  cases hB : F.block? b with
  | none => simp [hB] at h
  | some B =>
      rw [hB] at h
      obtain ⟨hmem, hid⟩ := block?_mem hB
      exact ⟨B, hmem, hid, h⟩

theorem edge_mem {F : Function} {a b : BlockId} (h : F.Edge a b) : ∃ A ∈ F.blocks, A.id = a := by
  unfold Edge succsOf at h
  cases hA : F.block? a with
  | none =>
      rw [hA] at h
      cases h
  | some A => exact ⟨A, (block?_mem hA).1, (block?_mem hA).2⟩

/-- An element of a flattened list stands in one of its parts. -/
theorem flatMap_eq_append_cons {α β : Type} {f : α → List β} {l : List α} {us vs : List β} {x : β}
    (h : l.flatMap f = us ++ x :: vs) :
    ∃ l₁ a l₂ ps qs, l = l₁ ++ a :: l₂ ∧ f a = ps ++ x :: qs ∧ us = l₁.flatMap f ++ ps ∧
      vs = qs ++ l₂.flatMap f := by
  induction l generalizing us with
  | nil => simp at h
  | cons a l ih =>
      rw [List.flatMap_cons] at h
      rcases List.append_eq_append_iff.mp h with ⟨ws, hus, hrest⟩ | ⟨ws, hfa, hrest⟩
      · obtain ⟨l₁, b, l₂, ps, qs, rfl, hb, hws, hvs⟩ := ih hrest
        refine ⟨a :: l₁, b, l₂, ps, qs, rfl, hb, ?_, hvs⟩
        rw [hus, hws, List.flatMap_cons, List.append_assoc]
      · cases ws with
        | nil =>
            rw [List.append_nil] at hfa
            rw [List.nil_append] at hrest
            obtain ⟨l₁, b, l₂, ps, qs, rfl, hb, hws, hvs⟩ := @ih [] hrest.symm
            refine ⟨a :: l₁, b, l₂, ps, qs, rfl, hb, ?_, hvs⟩
            rw [← hfa, List.flatMap_cons, List.append_assoc, ← hws, List.append_nil]
        | cons y ws =>
            rw [List.cons_append, List.cons.injEq] at hrest
            obtain ⟨rfl, hvs⟩ := hrest
            exact ⟨[], a, l, us, ws, rfl, hfa, rfl, hvs⟩

/-- **Where an instruction stands on a track**: in a block of the walk, between the instructions of the
blocks before and after it. -/
theorem Tracks.place {F : Function} {us vs : List Instruction} {j : Instruction} (h : F.Tracks (us ++ j :: vs)) :
    ∃ first, F.blocks.head? = some first ∧ ∃ (π₁ π₂ : List BlockId), ∃ B ∈ F.blocks, ∃ ps qs,
      Flow.Walk F.Edge first.id π₁ B.id ∧ B.instrs = ps ++ j :: qs ∧ us = π₁.flatMap F.instrsOf ++ ps ∧
      vs <+: qs ++ π₂.flatMap F.instrsOf ∧ ∀ b ∈ π₂, Relation.TransGen F.Edge B.id b := by
  rcases h with h | ⟨first, hfirst, π, b, hwalk, ws, hws⟩
  · simp at h
  rw [List.append_assoc, List.cons_append] at hws
  obtain ⟨l₁, a, l₂, ps, qs, hl, ha, hus, hvs⟩ := flatMap_eq_append_cons hws.symm
  have hj : j ∈ F.instrsOf a := ha ▸ List.mem_append_right _ (.head _)
  obtain ⟨B, hB, rfl, _⟩ := mem_instrsOf hj
  rw [instrsOf_id hB] at ha
  -- the rest of the walk, from the block on
  have hparts : Flow.Walk F.Edge first.id l₁ B.id ∧ ∀ c ∈ l₂, Relation.TransGen F.Edge B.id c := by
    rcases List.eq_nil_or_concat l₂ with rfl | ⟨l₃, c, rfl⟩
    · obtain ⟨rfl, hb⟩ := List.append_inj' hl rfl
      obtain rfl := List.singleton_inj.mp hb
      exact ⟨hwalk, fun _ hc => absurd hc List.not_mem_nil⟩
    · rw [List.concat_eq_append, ← List.cons_append, ← List.append_assoc] at hl
      obtain ⟨rfl, hb⟩ := List.append_inj' hl rfl
      obtain rfl := List.singleton_inj.mp hb
      obtain ⟨hw, hreach⟩ := hwalk.split rfl
      refine ⟨hw, fun c hc => ?_⟩
      rw [List.concat_eq_append] at hc
      rcases List.mem_append.mp hc with hc | hc
      · obtain ⟨l₄, l₅, rfl⟩ := List.append_of_mem hc
        rw [← List.cons_append, ← List.append_assoc] at hwalk
        obtain ⟨hwc, _⟩ : Flow.Walk F.Edge first.id (l₁ ++ B.id :: l₄) c ∧ _ := hwalk.split rfl
        exact hwc.transGen (List.mem_append_right _ (.head _))
      · rw [List.mem_singleton.mp hc]
        exact hreach
  exact ⟨first, hfirst, l₁, l₂, B, hB, ps, qs, hparts.1, ha, hus, ⟨ws, hvs⟩, hparts.2⟩

theorem Tracks.prefix {F : Function} {is js : List Instruction} (h : F.Tracks js) (hp : is <+: js) :
    F.Tracks is := by
  rcases h with rfl | ⟨first, hfirst, π, b, hwalk, hjs⟩
  · exact .inl (List.prefix_nil.mp hp)
  · exact .inr ⟨first, hfirst, π, b, hwalk, hp.trans hjs⟩

theorem AlwaysBefore.trans {F : Function} {i j k : Instruction} (hij : F.AlwaysBefore i j)
    (hjk : F.AlwaysBefore j k) : F.AlwaysBefore i k := by
  intro us vs h
  obtain ⟨ps, qs, rfl⟩ := List.append_of_mem (hjk us vs h)
  rw [List.append_assoc, List.cons_append] at h
  exact List.mem_append_left _ (hij ps _ h)

/-- An instruction that is always before another is never after it if the other's block does not lead
back to its block. -/
theorem AlwaysBefore.neverAfter {F : Function} {i j : Instruction} (h : F.AlwaysBefore i j)
    {A B : BasicBlock} (hA : A ∈ F.blocks) (hi : i ∈ A.instrs) (hB : B ∈ F.blocks) (hj : j ∈ B.instrs)
    (hreach : ¬ Relation.TransGen F.Edge B.id A.id) : F.NeverAfter i j := by
  intro us vs htr hvs
  have hus := h us vs htr
  obtain ⟨first, _, π₁, π₂, B', hB', ps, qs, hwalk, hinstrs, rfl, hvs', hlater⟩ := htr.place
  obtain rfl : B' = B := F.block_unique hB' hB (hinstrs ▸ List.mem_append_right _ (.head _)) hj
  rcases List.mem_append.mp (hvs'.subset hvs) with hqs | hπ
  · -- after `j` in the block: then the block has been left before
    have hiB : i ∈ B'.instrs := hinstrs ▸ List.mem_append_right _ (.tail _ hqs)
    obtain rfl : A = B' := F.block_unique hA hB hi hiB
    have hnodup := instrs_nodup_of_mem hA
    rw [hinstrs] at hnodup
    rcases List.mem_append.mp hus with hπ | hps
    · obtain ⟨b, hb, hib⟩ := List.mem_flatMap.mp hπ
      obtain ⟨A', hA', rfl, hiA'⟩ := mem_instrsOf hib
      obtain rfl : A' = A := F.block_unique hA' hA hiA' hi
      exact hreach (hwalk.transGen hb)
    · exact (List.nodup_append.mp hnodup).2.2 i hps i (.tail _ hqs) rfl
  · obtain ⟨b, hb, hib⟩ := List.mem_flatMap.mp hπ
    obtain ⟨A', hA', rfl, hiA'⟩ := mem_instrsOf hib
    obtain rfl : A' = A := F.block_unique hA' hA hiA' hi
    exact hreach (hlater _ hb)

/-- **Dominance** of instructions is an order on every track. -/
theorem StrictlyDominates.alwaysBefore {F : Function} {i j : Instruction} (h : F.StrictlyDominates i j) :
    F.AlwaysBefore i j := by
  intro us vs htr
  obtain ⟨first, hfirst, π₁, _, B', hB', ps, qs, hwalk, hinstrs, rfl, _, _⟩ := htr.place
  obtain ⟨A, hA, B, hB, hi, hj, hdom⟩ := h
  obtain rfl : B' = B := F.block_unique hB' hB (hinstrs ▸ List.mem_append_right _ (.head _)) hj
  have hnodup := instrs_nodup_of_mem hB
  rcases hdom with ⟨rfl, pre, post, hpre, hmem⟩ | ⟨hne, hdom⟩
  · refine List.mem_append_right _ ?_
    obtain ⟨ps', qs', rfl⟩ := List.append_of_mem hmem
    rw [hinstrs] at hpre hnodup
    obtain ⟨hps, hqs⟩ := not_mem_of_nodup_middle hnodup
    rw [← List.cons_append, ← List.append_assoc] at hpre
    rw [((List.append_cons_inj_of_notMem hps hqs).mp hpre).1]
    exact List.mem_append_right _ (.head _)
  · refine List.mem_append_left _ (List.mem_flatMap.mpr ⟨A.id, ?_, ?_⟩)
    · exact (hdom first hfirst π₁ hwalk).resolve_right hne
    · rw [instrsOf_id hA]
      exact hi

end Function

/-! ### Threads in an interleaving -/

/-- The instructions that a thread has executed, in order. -/
def executedBy (tr : List Event) (f : FuncId) : List Instruction :=
  (tr.filter (·.thread = f)).map (·.inst)

theorem executedBy_append (tr tr' : List Event) (f : FuncId) :
    executedBy (tr ++ tr') f = executedBy tr f ++ executedBy tr' f := by
  unfold executedBy
  rw [List.filter_append, List.map_append]

theorem executedBy_self (e : Event) : executedBy [e] e.thread = [e.inst] := by
  simp [executedBy]

theorem executedBy_of_ne {e : Event} {f : FuncId} (h : e.thread ≠ f) : executedBy [e] f = [] := by
  simp [executedBy, h]

theorem mem_executedBy {tr : List Event} {e : Event} (he : e ∈ tr) : e.inst ∈ executedBy tr e.thread :=
  List.mem_map_of_mem (List.mem_filter.mpr ⟨he, decide_eq_true rfl⟩)

theorem exists_of_mem_executedBy {tr : List Event} {f : FuncId} {i : Instruction} (h : i ∈ executedBy tr f) :
    ∃ e ∈ tr, e.thread = f ∧ e.inst = i := by
  obtain ⟨e, he, rfl⟩ := List.mem_map.mp h
  obtain ⟨he, hf⟩ := List.mem_filter.mp he
  exact ⟨e, he, of_decide_eq_true hf, rfl⟩

/-- Where a thread stands, seen from the instructions that it has executed. -/
def StandsAt (M : Module) (f : FuncId) (is : List Instruction) : Thread → Prop
  | .idle => is = []
  | .running p => ∃ F first, M.func? f = some F ∧ F.blocks.head? = some first ∧ p.block ∈ F.blocks ∧
      ∃ π pre, Flow.Walk F.Edge first.id π p.block.id ∧ p.block.body = pre ++ p.rest ∧
        is = π.flatMap F.instrsOf ++ pre
  | .finished => is = [] ∨ ∃ F, M.func? f = some F ∧ F.Tracks is

section Run

variable {sem : Semantics} {M : Module} {init : Env} {main : FuncId}

/-- What a step does to the threads. -/
theorem Step.threads {c c' : Config} {e : Event} (h : Step sem M init c e c') :
    ∃ p t, c.threads e.thread = .running p ∧ Moves sem M e.thread p e.toExecuted t ∧
      (e.inst.createdFunc = none ∧ c'.threads = Function.update c.threads e.thread t ∨
        ∃ g, e.inst.createdFunc = some g ∧ c.threads g = .idle ∧
          c'.threads = Function.update (Function.update c.threads e.thread t) g (M.start init g)) := by
  have hnone : (∀ t f args, e.inst.kind ≠ .call (.pthreadCreate t f args)) → e.inst.createdFunc = none := by
    intro hk
    cases hg : e.inst.createdFunc with
    | none => rfl
    | some g =>
        obtain ⟨t, args, hkind⟩ := Instruction.kind_of_createdFunc hg
        exact absurd hkind (hk _ _ _)
  cases h with
  | @inst f p e t hrun hm hlocal =>
      refine ⟨_, _, hrun, hm, .inl ⟨hnone fun t f args hk => ?_, rfl⟩⟩
      change e.inst.kind = _ at hk
      simp [Instruction.isThreadCall, hk] at hlocal
  | @control f p e t hrun hm hcontrol =>
      refine ⟨_, _, hrun, hm, .inl ⟨hnone fun t f args hk => ?_, rfl⟩⟩
      change e.inst.kind = _ at hk
      rw [hk] at hcontrol
      rcases hcontrol with hterm | ⟨hk', _⟩
      · simp [Instruction.isTerminator, hk] at hterm
      · cases hk'
  | create hrun hm hg hidle => exact ⟨_, _, hrun, hm, .inr ⟨_, hg, hidle, rfl⟩⟩
  | @join f p i σ t v hrun hm hk =>
      refine ⟨_, _, hrun, hm, .inl ⟨hnone fun t f args hk' => ?_, rfl⟩⟩
      change i.kind = _ at hk'
      rw [hk] at hk'
      cases hk'

theorem standsAt_start (f : FuncId) : StandsAt M f [] (M.start init f) := by
  unfold Module.start
  cases hF : M.func? f with
  | none => exact .inl rfl
  | some F =>
      cases hfirst : F.blocks.head? with
      | none =>
          rw [Option.bind_some, hfirst]
          exact .inl rfl
      | some first =>
          rw [Option.bind_some, hfirst]
          exact ⟨F, first, hF, hfirst, List.mem_of_mem_head? hfirst, [], [], .start, rfl, rfl⟩

/-- **The step of a thread** keeps it on a walk through its function. -/
theorem Moves.standsAt {f : FuncId} {p : PathConf} {e : Executed} {t : Thread} (h : Moves sem M f p e t)
    {is : List Instruction} (hp : StandsAt M f is (.running p)) : StandsAt M f (is ++ [e.inst]) t := by
  obtain ⟨F, first, hF, hfirst, hB, π, pre, hwalk, hbody, rfl⟩ := hp
  have htracks : ∀ is : List Instruction, is <+: (π ++ [p.block.id]).flatMap F.instrsOf → F.Tracks is :=
    fun is his => .inr ⟨first, hfirst, π, _, hwalk, his⟩
  have hflat : (π ++ [p.block.id]).flatMap F.instrsOf = π.flatMap F.instrsOf ++ p.block.instrs := by
    rw [List.flatMap_append, List.flatMap_singleton, Function.instrsOf_id hB]
  cases h with
  | inst => exact ⟨F, first, hF, hfirst, hB, π, _, hwalk, by rw [hbody, List.append_assoc]; rfl,
      List.append_assoc _ _ _⟩
  | exit _ =>
      refine .inr ⟨F, hF, htracks _ ?_⟩
      rw [hflat, List.append_assoc, BasicBlock.instrs, hbody]
      exact (List.prefix_append_right_inj _).mpr ⟨_, by simp; rfl⟩
  | @jump F' B B' σ hF' hb hB' =>
      obtain rfl : F' = F := Option.some.inj (hF'.symm.trans hF)
      have hedge : F'.Edge B.id B'.id := by
        unfold Function.Edge Function.succsOf
        rw [Function.block?_id hB]
        exact hb.mem_successors
      refine ⟨F', first, hF, hfirst, hB', _, [], hwalk.step hedge, rfl, ?_⟩
      rw [hflat, List.append_nil, List.append_assoc, BasicBlock.instrs, hbody, List.append_nil]
  | ret _ =>
      refine .inr ⟨F, hF, htracks _ ?_⟩
      rw [hflat, List.append_assoc, BasicBlock.instrs, hbody, List.append_nil]

theorem Step.standsAt {c c' : Config} {e : Event} {tr : List Event} (h : Step sem M init c e c')
    (hs : ∀ f, StandsAt M f (executedBy tr f) (c.threads f)) (f : FuncId) :
    StandsAt M f (executedBy (tr ++ [e]) f) (c'.threads f) := by
  obtain ⟨p, t, hrun, hm, hthreads⟩ := h.threads
  have hself : StandsAt M e.thread (executedBy (tr ++ [e]) e.thread) t := by
    rw [executedBy_append, executedBy_self]
    exact hm.standsAt (hrun ▸ hs e.thread)
  have hother : ∀ f, f ≠ e.thread → StandsAt M f (executedBy (tr ++ [e]) f) (c.threads f) := by
    intro f hf
    rw [executedBy_append, executedBy_of_ne (Ne.symm hf), List.append_nil]
    exact hs f
  have hmove : StandsAt M f (executedBy (tr ++ [e]) f) (Function.update c.threads e.thread t f) := by
    by_cases hf : f = e.thread
    · rw [hf, Function.update_self]
      exact hself
    · rw [Function.update_of_ne hf]
      exact hother f hf
  rcases hthreads with ⟨_, hc'⟩ | ⟨g, _, hidle, hc'⟩
  · rw [hc']
    exact hmove
  · rw [hc']
    by_cases hfg : f = g
    · subst hfg
      have hne : f ≠ e.thread := by
        intro heq
        rw [heq, hrun] at hidle
        cases hidle
      have hnil := hother f hne
      rw [hidle] at hnil
      rw [Function.update_self, show executedBy (tr ++ [e]) f = [] from hnil]
      exact standsAt_start f
    · rw [Function.update_of_ne hfg]
      exact hmove

/-- **The threads of an interleaving** have executed walks through their functions. -/
theorem standsAt_of_interleaving {tr : List Event} {c : Config} (h : Interleaving sem M init main tr c)
    (f : FuncId) : StandsAt M f (executedBy tr f) (c.threads f) := by
  refine h.invariant (fun tr c => ∀ f, StandsAt M f (executedBy tr f) (c.threads f)) (fun f => ?_)
    (fun _ _ _ _ hs hstep => hstep.standsAt hs) f
  show StandsAt M f [] (Function.update (fun _ => Thread.idle) main (M.start init main) f)
  by_cases hf : f = main
  · rw [hf, Function.update_self]
    exact standsAt_start main
  · rw [Function.update_of_ne hf]
    rfl

/-- What a thread has executed is nothing or a track of its function. -/
theorem tracks_of_interleaving {tr : List Event} {c : Config} (h : Interleaving sem M init main tr c)
    {f : FuncId} (hne : executedBy tr f ≠ []) : ∃ F, M.func? f = some F ∧ F.Tracks (executedBy tr f) := by
  have hs := standsAt_of_interleaving h f
  cases ht : c.threads f with
  | idle =>
      rw [ht] at hs
      exact absurd hs hne
  | running p =>
      rw [ht] at hs
      obtain ⟨F, first, hF, hfirst, hB, π, pre, hwalk, hbody, heq⟩ := hs
      refine ⟨F, hF, .inr ⟨first, hfirst, π, _, hwalk, ?_⟩⟩
      rw [heq, List.flatMap_append, List.flatMap_singleton, Function.instrsOf_id hB,
        BasicBlock.instrs, hbody, List.append_assoc]
      exact (List.prefix_append_right_inj _).mpr (List.prefix_append _ _)
  | finished =>
      rw [ht] at hs
      exact hs.resolve_left hne

/-- Every event is an instruction of its thread's function. -/
theorem mem_instrs_of_interleaving {tr : List Event} {c : Config} (h : Interleaving sem M init main tr c)
    {e : Event} (he : e ∈ tr) : ∃ F ∈ M.functions, F.id = e.thread ∧ e.inst ∈ F.instrs := by
  have hmem := mem_executedBy he
  obtain ⟨F, hF, htracks⟩ := tracks_of_interleaving h (List.ne_nil_of_mem hmem)
  obtain ⟨hFM, hid⟩ := Module.func?_mem hF
  refine ⟨F, hFM, hid, ?_⟩
  rcases htracks with hnil | ⟨first, _, π, b, _, hpre⟩
  · rw [hnil] at hmem
    cases hmem
  · obtain ⟨b', _, hb'⟩ := List.mem_flatMap.mp (hpre.subset hmem)
    obtain ⟨B, hB, _, hi⟩ := Function.mem_instrsOf hb'
    exact Function.mem_instrs.mpr ⟨B, hB, hi⟩

/-- The thread of an event is the function that its instruction belongs to. -/
theorem thread_eq_of_mem {tr : List Event} {c : Config} (h : Interleaving sem M init main tr c)
    {e : Event} (he : e ∈ tr) {F : Function} (hF : F ∈ M.functions) {i : Instruction} (hi : i ∈ F.instrs)
    (hid : e.inst.id = i.id) : e.inst = i ∧ e.thread = F.id := by
  obtain ⟨F', hF', hthread, hinst⟩ := mem_instrs_of_interleaving h he
  have heq : e.inst = i :=
    M.eq_of_id_eq (Module.mem_instrs.mpr ⟨F', hF', hinst⟩) (Module.mem_instrs.mpr ⟨F, hF, hi⟩) hid
  rw [heq] at hinst
  exact ⟨heq, by rw [← hthread, M.function_unique hF' hF hinst hi]⟩

/-! ### Creation and end of threads -/

/-- **The track of a thread around an event.** -/
theorem tracks_of_event {pre post : List Event} {e : Event} {c : Config}
    (h : Interleaving sem M init main (pre ++ e :: post) c) {F : Function} (hF : F ∈ M.functions)
    {j : Instruction} (hj : j ∈ F.instrs) (hid : e.inst.id = j.id) :
    e.inst = j ∧ e.thread = F.id ∧ F.Tracks (executedBy pre F.id ++ j :: executedBy post F.id) := by
  obtain ⟨heq, hthread⟩ := thread_eq_of_mem h (List.mem_append_right _ (.head _)) hF hj hid
  have hself : executedBy [e] F.id = [j] := by rw [← hthread, executedBy_self, heq]
  have hall : executedBy (pre ++ e :: post) F.id = executedBy pre F.id ++ j :: executedBy post F.id := by
    rw [executedBy_append, ← List.singleton_append, executedBy_append, hself, List.singleton_append]
  obtain ⟨F', hF', htracks⟩ := tracks_of_interleaving h (f := F.id) (by rw [hall]; simp)
  obtain rfl : F' = F := Option.some.inj (hF'.symm.trans (Module.func?_id hF))
  rw [hall] at htracks
  exact ⟨heq, hthread, htracks⟩

theorem start_ne_idle (f : FuncId) : M.start init f ≠ .idle := by
  unfold Module.start
  cases (M.func? f).bind (·.blocks.head?) <;> exact nofun

theorem Moves.ne_idle {f : FuncId} {p : PathConf} {e : Executed} {t : Thread} (h : Moves sem M f p e t) :
    t ≠ .idle := by
  cases h <;> exact nofun

/-- A thread that has been created stays so and is not created again. -/
theorem Step.created {c c' : Config} {e : Event} (h : Step sem M init c e c') {g : FuncId}
    (hg : c.threads g ≠ .idle) : c'.threads g ≠ .idle ∧ e.inst.createdFunc ≠ some g := by
  obtain ⟨p, t, hrun, hm, ⟨hnone, hc'⟩ | ⟨g', hg', hidle, hc'⟩⟩ := h.threads
  · refine ⟨?_, by rw [hnone]; exact nofun⟩
    rw [hc']
    by_cases hgt : g = e.thread
    · rw [hgt, Function.update_self]
      exact hm.ne_idle
    · rw [Function.update_of_ne hgt]
      exact hg
  · have hne : g ≠ g' := fun heq => hg (heq ▸ hidle)
    refine ⟨?_, fun heq => hne (Option.some.inj (heq.symm.trans hg'))⟩
    rw [hc', Function.update_of_ne hne]
    by_cases hgt : g = e.thread
    · rw [hgt, Function.update_self]
      exact hm.ne_idle
    · rw [Function.update_of_ne hgt]
      exact hg

/-- A thread that has ended executes nothing more. -/
theorem Step.finished {c c' : Config} {e : Event} (h : Step sem M init c e c') {g : FuncId}
    (hg : c.threads g = .finished) : c'.threads g = .finished ∧ e.thread ≠ g := by
  obtain ⟨p, t, hrun, hm, hthreads⟩ := h.threads
  have hne : g ≠ e.thread := by
    intro heq
    rw [← heq, hg] at hrun
    cases hrun
  refine ⟨?_, Ne.symm hne⟩
  rcases hthreads with ⟨_, hc'⟩ | ⟨g', _, hidle, hc'⟩
  · rw [hc', Function.update_of_ne hne]
    exact hg
  · have hne' : g ≠ g' := by
      intro heq
      rw [← heq, hg] at hidle
      cases hidle
    rw [hc', Function.update_of_ne hne', Function.update_of_ne hne]
    exact hg

/-- A thread other than `main` has been created by an event. -/
theorem created_of_interleaving {tr : List Event} {c : Config} (h : Interleaving sem M init main tr c)
    {f : FuncId} (hf : f ≠ main) : c.threads f ≠ .idle ↔ ∃ e ∈ tr, e.inst.createdFunc = some f := by
  refine h.invariant (fun tr c => c.threads f ≠ .idle ↔ ∃ e ∈ tr, e.inst.createdFunc = some f) ?_ ?_
  · refine ⟨fun hne => absurd ?_ hne, fun ⟨e, he, _⟩ => absurd he List.not_mem_nil⟩
    show Function.update (fun _ => Thread.idle) main (M.start init main) f = Thread.idle
    rw [Function.update_of_ne hf]
  · intro tr c e c' ih hstep
    constructor
    · intro hne
      obtain ⟨p, t, hrun, hm, hthreads⟩ := hstep.threads
      by_cases hidle : c.threads f = .idle
      · have hft : f ≠ e.thread := by
          intro heq
          rw [← heq, hidle] at hrun
          cases hrun
        rcases hthreads with ⟨_, hc'⟩ | ⟨g, hg, _, hc'⟩
        · rw [hc', Function.update_of_ne hft] at hne
          exact absurd hidle hne
        · by_cases hfg : f = g
          · exact ⟨e, List.mem_append_right _ (.head _), hfg ▸ hg⟩
          · rw [hc', Function.update_of_ne hfg, Function.update_of_ne hft] at hne
            exact absurd hidle hne
      · obtain ⟨e', he', hf'⟩ := ih.mp hidle
        exact ⟨e', List.mem_append_left _ he', hf'⟩
    · rintro ⟨e', he', hf'⟩
      rcases List.mem_append.mp he' with he' | he'
      · exact (hstep.created (ih.mpr ⟨e', he', hf'⟩)).1
      · obtain rfl := List.mem_singleton.mp he'
        obtain ⟨p, t, hrun, hm, ⟨hnone, _⟩ | ⟨g, hg, _, hc'⟩⟩ := hstep.threads
        · rw [hnone] at hf'
          cases hf'
        · obtain rfl : f = g := Option.some.inj (hf'.symm.trans hg)
          rw [hc', Function.update_self]
          exact start_ne_idle f

/-- No thread is created twice. -/
theorem not_created_again {pre post : List Event} {c : Config}
    (h : Interleaving sem M init main (pre ++ post) c) {f : FuncId} (hf : f ≠ main) {e : Event}
    (he : e ∈ pre) (hcreate : e.inst.createdFunc = some f) : ∀ e' ∈ post, e'.inst.createdFunc ≠ some f := by
  obtain ⟨m, hpre, hpost⟩ := h.split
  have hm := (created_of_interleaving hpre hf).mpr ⟨e, he, hcreate⟩
  exact (hpost.preserves (fun c => c.threads f ≠ .idle) (fun e' => e'.inst.createdFunc ≠ some f) hm
    fun _ _ _ hc hstep => hstep.created hc).2

/-- The thread of an event has been created before it. -/
theorem created_before {pre post : List Event} {e : Event} {c : Config}
    (h : Interleaving sem M init main (pre ++ e :: post) c) (hmain : e.thread ≠ main) :
    ∃ e' ∈ pre, e'.inst.createdFunc = some e.thread := by
  obtain ⟨m, _, hpre, hstep, _⟩ := h.split_event
  obtain ⟨p, _, hrun, _⟩ := hstep.threads
  exact (created_of_interleaving hpre hmain).mp (by rw [hrun]; exact nofun)

/-- A return or a call of `pthread_exit`. -/
def Instruction.endsThread (i : Instruction) : Bool :=
  match i.kind with
  | .ret | .call .pthreadExit => true
  | _ => false

theorem Moves.endsThread {f : FuncId} {p : PathConf} {e : Executed} (h : Moves sem M f p e .finished) :
    e.inst.endsThread = true := by
  cases h with
  | exit hk =>
      unfold Instruction.endsThread
      rw [hk]
  | ret hr =>
      unfold Instruction.isReturn at hr
      unfold Instruction.endsThread
      split at hr
      · next hk => rw [hk]
      · cases hr

/-- A thread that has ended has executed its end, if its function has a body. -/
theorem ended_of_finished {tr : List Event} {c : Config} (h : Interleaving sem M init main tr c) {f : FuncId}
    (hstart : M.start init f ≠ .finished) (hf : c.threads f = .finished) :
    ∃ e ∈ tr, e.thread = f ∧ e.inst.endsThread = true := by
  refine h.invariant (fun tr c => c.threads f = .finished →
    ∃ e ∈ tr, e.thread = f ∧ e.inst.endsThread = true) (fun hinit => ?_) (fun tr c e c' ih hstep hc' => ?_) hf
  · change Function.update (fun _ => Thread.idle) main (M.start init main) f = .finished at hinit
    by_cases hmain : f = main
    · rw [hmain, Function.update_self] at hinit
      exact absurd hinit (hmain ▸ hstart)
    · rw [Function.update_of_ne hmain] at hinit
      cases hinit
  · obtain ⟨p, t, hrun, hm, hthreads⟩ := hstep.threads
    have hmove : Function.update c.threads e.thread t f = .finished →
        ∃ e' ∈ tr ++ [e], e'.thread = f ∧ e'.inst.endsThread = true := by
      intro hfin
      by_cases hft : f = e.thread
      · rw [hft, Function.update_self] at hfin
        subst hfin
        exact ⟨e, List.mem_append_right _ (.head _), hft.symm, hm.endsThread⟩
      · rw [Function.update_of_ne hft] at hfin
        obtain ⟨e', he', hthread⟩ := ih hfin
        exact ⟨e', List.mem_append_left _ he', hthread⟩
    rcases hthreads with ⟨_, hupdate⟩ | ⟨g, _, _, hupdate⟩
    · rw [hupdate] at hc'
      exact hmove hc'
    · rw [hupdate] at hc'
      by_cases hfg : f = g
      · rw [hfg, Function.update_self] at hc'
        exact absurd hc' (hfg ▸ hstart)
      · rw [Function.update_of_ne hfg] at hc'
        exact hmove hc'

/-- The step of a return or an exit ends its thread. -/
theorem Step.ended {c c' : Config} {e : Event} (h : Step sem M init c e c') {is : List Instruction}
    (hs : StandsAt M e.thread is (c.threads e.thread)) (hend : e.inst.endsThread = true) :
    c'.threads e.thread = .finished := by
  have hnot : ∀ {i : Instruction}, i.endsThread = true →
      i.isTerminator = true ∧ i.successors = [] ∧ i.isThreadCall = false ∨ i.kind = .call .pthreadExit := by
    intro i hi
    unfold Instruction.endsThread at hi
    unfold Instruction.isTerminator Instruction.successors Instruction.isThreadCall
    split at hi
    · next hk => exact .inl (by simp [hk])
    · next hk => exact .inr hk
    · cases hi
  cases h with
  | @inst f p e t _ _ hlocal hinst =>
      rcases hnot hend with ⟨hterm, _⟩ | hk
      · change e.inst.isTerminator = true at hterm
        rw [hinst] at hterm
        cases hterm
      · change e.inst.kind = _ at hk
        simp [Instruction.isThreadCall, hk] at hlocal
  | @control f p e t hrun hm hcontrol =>
      have ht : t = .finished := by
        rcases hcontrol with hterm | ⟨_, ht⟩
        · cases hm with
          | @inst B i rest σ σ' =>
              change StandsAt M f is (c.threads f) at hs
              rw [hrun] at hs
              obtain ⟨F, first, _, _, _, π, pre, _, hbody, _⟩ := hs
              have hmem : i ∈ B.body := hbody ▸ List.mem_append_right _ (.head _)
              rw [B.body_not_terminator i hmem] at hterm
              cases hterm
          | exit _ => rfl
          | @jump F B B' σ _ hb _ =>
              rcases hnot hend with ⟨_, hsucc, _⟩ | hk
              · have hmem := hb.mem_successors
                change B.terminator.successors = [] at hsucc
                rw [hsucc] at hmem
                cases hmem
              · change B.terminator.kind = _ at hk
                have hterm := B.terminator_is
                simp [Instruction.isTerminator, hk] at hterm
          | ret _ => rfl
        · exact ht
      rw [ht]
      exact Function.update_self ..
  | @create f g p i σ t _ _ hg =>
      obtain ⟨_, _, hk⟩ := Instruction.kind_of_createdFunc hg
      change i.endsThread = true at hend
      simp [Instruction.endsThread, hk] at hend
  | @join f p i σ t v _ _ hk =>
      change i.endsThread = true at hend
      simp [Instruction.endsThread, hk] at hend

/-- Nothing comes after the end of a thread. -/
theorem no_event_of_finished {post : List Event} {m c : Config} {f : FuncId}
    (hpost : Runs.Run (Step sem M init) m post c) (hm : m.threads f = .finished) :
    ∀ e ∈ post, e.thread ≠ f :=
  (hpost.preserves (fun c => c.threads f = .finished) (fun e => e.thread ≠ f) hm
    fun _ _ _ hc hstep => hstep.finished hc).2

theorem last_of_endsThread {pre post : List Event} {e : Event} {c : Config}
    (h : Interleaving sem M init main (pre ++ e :: post) c) (hend : e.inst.endsThread = true) :
    ∀ e' ∈ post, e'.thread ≠ e.thread := by
  obtain ⟨m, m', hpre, hstep, hpost⟩ := h.split_event
  exact no_event_of_finished hpost (hstep.ended (standsAt_of_interleaving hpre e.thread) hend)

/-- A join has waited for a thread that its `pthread_t` may belong to. -/
theorem Step.joined {c c' : Config} {e : Event} (h : Step sem M init c e c') {v : Value}
    (hk : e.inst.kind = .call (.pthreadJoin v)) (hjoins : ∃ g, M.Joins v g) :
    ∃ g, M.Joins v g ∧ c.threads g = .finished := by
  cases h with
  | @inst f p e t _ _ hlocal =>
      change e.inst.kind = _ at hk
      simp [Instruction.isThreadCall, hk] at hlocal
  | @control f p e t _ _ hcontrol =>
      change e.inst.kind = _ at hk
      rcases hcontrol with hterm | ⟨hk', _⟩
      · simp [Instruction.isTerminator, hk] at hterm
      · rw [hk] at hk'
        cases hk'
  | @create f g p i σ t _ _ hg =>
      change i.kind = _ at hk
      obtain ⟨_, _, hk'⟩ := Instruction.kind_of_createdFunc hg
      rw [hk] at hk'
      cases hk'
  | @join f p i σ t v' _ _ hk' hwait =>
      change i.kind = _ at hk
      rw [hk] at hk'
      cases hk'
      exact hwait hjoins

end Run

end Watts
