import Watts.ThreadDiscovery
import Watts.ThreadModular

/-! Where the reported errors come from: each is an error call of a function that the pass analyses, and none that
was found by a permutation, a thread or an iteration is withdrawn by a later one. -/

namespace Watts

open Fallible (bind_eq_ok)

section Reports

variable {ap : Apron} {o : BlockOrder} {cx : Ctx} {z3 : Solver} {rules : List Rule} {main : Function}
  {progInitState : LatticeFact ap} {fuel : Nat}

/-! ### One analysis -/

/-- The function has an error call with this name. -/
def Function.HasError (F : Function) (i : Value) : Prop :=
  ∃ e ∈ F.instrs, e.id = i ∧ e.kind = .call .assertFail

/-- What an analysis of a function does to the reported errors. -/
structure Reports (F : Function) (errors errors' : Std.TreeSet Value) : Prop where
  kept : ∀ i ∈ errors, i ∈ errors'
  found : ∀ i ∈ errors', i ∈ errors ∨ F.HasError i

theorem Reports.trans {F : Function} {es₁ es₂ es₃ : Std.TreeSet Value} (h₁ : Reports F es₁ es₂)
    (h₂ : Reports F es₂ es₃) : Reports F es₁ es₃ :=
  ⟨fun i hi => h₂.kept i (h₁.kept i hi), fun i hi => (h₂.found i hi).elim (h₁.found i) .inr⟩

/-- The errors are old ones or error calls of the function. -/
def Books.Bound.errorsOf (ap : Apron) (errors : Std.TreeSet Value) (F : Function) : Books.Bound ap where
  error i := i ∈ errors ∨ F.HasError i
  store _ _ := True
  create _ _ := True

theorem Books.allows_errorsOf {errors : Std.TreeSet Value} {F : Function} {i : Instruction} (hi : i ∈ F.instrs)
    (fIn fOut : LatticeFact ap) : Books.Allows (Books.Bound.errorsOf ap errors F) i fIn fOut := by
  unfold Books.Allows
  split
  · trivial
  · trivial
  · trivial
  · next hk => exact .inr ⟨i, hi, rfl, hk⟩
  · trivial

theorem analyzeFunc_reports {F : Function} {interf : InterfMap ap} {books : Books ap} {entryFact : LatticeFact ap}
    {mergeInterfs : Bool} {r : Std.TreeMap BlockId (LatticeFact ap) × Books ap}
    (h : analyzeFunc o cx interf books entryFact F mergeInterfs fuel = .ok r) :
    Reports F books.rErrors r.2.rErrors := by
  obtain ⟨ps, t, ⟨first, _, hloop⟩, _, _, hbooks⟩ := analyzeFunc_run h
  have hgrows := hloop.grows (R := fun _ _ => True)
    ⟨fun _ => trivial, fun _ _ => trivial, fun _ _ => trivial, fun _ _ => trivial⟩
  have hwithin : Books.Within (Books.Bound.errorsOf ap books.rErrors F) r.2 :=
    analyzeFunc_within ⟨fun _ _ _ _ _ => trivial, fun _ _ _ _ _ => trivial⟩
      ⟨fun _ hi => .inl hi, fun _ _ _ => trivial, fun _ _ _ => trivial⟩ (fun _ hi => Books.allows_errorsOf hi) h
  exact ⟨fun i hi => hbooks ▸ hgrows.rErrors i hi, hwithin.rErrors⟩

theorem permLoop_reports {F : Function} {createSite : Option Instruction} {interfs : LoadStores}
    {stFacts : StoreFacts ap} {entryFact : LatticeFact ap} {n : Nat} {cp : CartesianProduct} {s t : PermState ap}
    (h : permLoop o cx z3 rules F createSite interfs stFacts entryFact fuel n cp s = .ok t) :
    Reports F s.books.rErrors t.books.rErrors := by
  induction n generalizing cp s with
  | zero =>
      unfold permLoop at h
      split_ifs at h
      cases h
      exact ⟨fun _ hi => hi, fun _ hi => .inl hi⟩
  | succ n ih =>
      unfold permLoop at h
      split_ifs at h
      · cases h
        exact ⟨fun _ hi => hi, fun _ hi => .inl hi⟩
      · obtain ⟨⟨_, s'⟩, htest, h⟩ := bind_eq_ok.mp h
        obtain ⟨cp', _, h⟩ := bind_eq_ok.mp h
        refine Reports.trans ?_ (ih h)
        obtain ⟨c, _, htest⟩ := bind_eq_ok.mp htest
        dsimp only at htest
        split_ifs at htest
        · cases htest
          exact ⟨fun _ hi => hi, fun _ hi => .inl hi⟩
        · obtain ⟨r, hrun, htest⟩ := bind_eq_ok.mp htest
          cases htest
          exact analyzeFunc_reports hrun

/-- **One thread**, through all its permutations. -/
theorem analyzeThreadInterf_reports {F : Function} {createSite : Option Instruction} {interfs : LoadStores}
    {stFacts : StoreFacts ap} {books : Books ap} {permCache : PermCache} {entryFact : LatticeFact ap}
    {p : PermState ap}
    (h : analyzeThreadInterf o cx z3 rules F createSite interfs stFacts books permCache entryFact fuel = .ok p) :
    Reports F books.rErrors p.books.rErrors := by
  unfold analyzeThreadInterf at h
  split_ifs at h
  · obtain ⟨r, hrun, h⟩ := bind_eq_ok.mp h
    cases h
    exact analyzeFunc_reports hrun
  · obtain ⟨allInterfs, _, h⟩ := bind_eq_ok.mp h
    obtain ⟨r, hrun, h⟩ := bind_eq_ok.mp h
    cases h
    exact analyzeFunc_reports hrun
  · obtain ⟨cp, _, h⟩ := bind_eq_ok.mp h
    exact permLoop_reports h

/-! ### The run -/

/-- The functions whose error calls can be reported: those that `main` creates directly or through others when
threads are found while iterating, else `main` and those that some function creates. -/
def Ctx.Analysed (cx : Ctx) (main f : FuncId) : Prop :=
  if cx.opts.dynInitG then Relation.ReflTransGen cx.module.Creates main f
  else f = main ∨ ∃ g, cx.module.Creates g f

theorem Ctx.Analysed.creates {main f g : FuncId} (h : cx.Analysed main f) (hc : cx.module.Creates f g) :
    cx.Analysed main g := by
  unfold Ctx.Analysed at h ⊢
  split_ifs at h ⊢
  · exact h.tail hc
  · exact .inr ⟨f, hc⟩

/-- What a part of a run does to the reported errors. -/
structure RunReports (cx : Ctx) (main : FuncId) (errors errors' : Std.TreeSet Value) : Prop where
  kept : ∀ i ∈ errors, i ∈ errors'
  found : ∀ i ∈ errors', i ∈ errors ∨ ∃ F, cx.module.func? F.id = some F ∧ cx.Analysed main F.id ∧ F.HasError i

theorem RunReports.refl (main : FuncId) (errors : Std.TreeSet Value) : RunReports cx main errors errors :=
  ⟨fun _ hi => hi, fun _ hi => .inl hi⟩

theorem RunReports.trans {main : FuncId} {es₁ es₂ es₃ : Std.TreeSet Value} (h₁ : RunReports cx main es₁ es₂)
    (h₂ : RunReports cx main es₂ es₃) : RunReports cx main es₁ es₃ :=
  ⟨fun i hi => h₂.kept i (h₁.kept i hi), fun i hi => (h₂.found i hi).elim (h₁.found i) .inr⟩

/-- **One site.** -/
theorem processThread_reports (hmain : cx.module.func? main.id = some main) {s : RunState ap} {ci : Site}
    {r : RunState ap × List Site} (h : processThread o cx z3 rules main progInitState fuel s ci = .ok r)
    (hci : ∀ f, siteFuncId main ci = some f → cx.Analysed main.id f) :
    RunReports cx main.id s.rErrors r.1.rErrors ∧
      ∀ y ∈ r.2, ∀ f, siteFuncId main y = some f → cx.Analysed main.id f := by
  constructor
  · obtain ⟨f, mhbCache, p, hsite, hdiscover⟩ := processThread_ok h
    obtain ⟨F, entryFact, stFacts, hF, rfl, _, _, hp⟩ := analyzeSite_ok hsite
    obtain ⟨funcs, facts, hr, _, _⟩ := discoverThreads_eq hdiscover
    have hreports := analyzeThreadInterf_reports hp
    rw [hr]
    exact ⟨hreports.kept, fun i hi => (hreports.found i hi).imp_right fun herr =>
      ⟨F, siteFunc_func? hmain hF, hci F.id (siteFuncId_of_siteFunc hF), herr⟩⟩
  · obtain ⟨f, hf, hcreates⟩ := processThread_creates hmain h
    intro y hy g hg
    obtain ⟨g', hg', hc⟩ := hcreates y hy
    obtain rfl := Option.some.inj (hg'.symm.trans hg)
    exact (hci f hf).creates hc

/-- **All threads of an iteration.** -/
theorem threadsLoop_reports (hmain : cx.module.func? main.id = some main) {n : Nat} {sites : List Site}
    {s t : RunState ap} (h : threadsLoop o cx z3 rules main progInitState fuel n sites s = .ok t)
    (hsites : ∀ ci ∈ sites, ∀ f, siteFuncId main ci = some f → cx.Analysed main.id f) :
    RunReports cx main.id s.rErrors t.rErrors := by
  induction n generalizing sites s with
  | zero =>
      cases sites with
      | nil =>
          cases h
          exact .refl _ _
      | cons ci sites => cases h
  | succ n ih =>
      cases sites with
      | nil =>
          cases h
          exact .refl _ _
      | cons ci sites =>
          obtain ⟨r, hr, h⟩ := bind_eq_ok.mp h
          obtain ⟨hreports, hreached⟩ := processThread_reports hmain hr (hsites ci (.head _))
          refine hreports.trans (ih h fun y hy => ?_)
          rcases List.mem_append.mp hy with hy | hy
          · exact hsites y (.tail _ hy)
          · exact hreached y hy

/-- The sites of an iteration are those of `main` and of functions that are created. -/
theorem Setup.For.analysed {l : Setup ap} (hl : l.For cx) :
    ∀ ci ∈ l.threadSites, ∀ f, siteFuncId l.main ci = some f → cx.Analysed l.main.id f := by
  intro ci hci f hf
  rw [hl.sites] at hci
  unfold Ctx.Analysed
  split_ifs at hci ⊢
  · rw [List.mem_singleton.mp hci] at hf
    cases hf
    exact .refl
  · rcases List.mem_append.mp hci with hci | hci
    · obtain ⟨c, hc, rfl⟩ := List.mem_map.mp hci
      rw [Module.getThreadCreate_eq] at hc
      obtain ⟨F, hF, hcF⟩ := Module.mem_instrs.mp (List.mem_filter.mp hc).1
      exact .inr ⟨F.id, F, hF, rfl, c, hcF, hf⟩
    · rw [List.mem_singleton.mp hci] at hf
      cases hf
      exact .inl rfl

/-- **The reported errors of a run.**  Wherever a run has got to, what it has reported stays reported, and what
it adds are error calls of functions that run. -/
theorem loop_reports (o : BlockOrder) (cx : Ctx) (z3 : Solver) (rules : List Rule) (fuel : Nat) (l : Setup ap)
    (hl : setup cx = .ok l) (n : Nat) (s t : RunState ap) (h : l.loop o cx z3 rules fuel n s = .ok t) :
    (∀ i ∈ s.rErrors, i ∈ t.rErrors) ∧ ∀ i ∈ t.rErrors, i ∈ s.rErrors ∨
      ∃ F, cx.module.func? F.id = some F ∧ cx.Analysed l.main.id F.id ∧ F.HasError i := by
  suffices hreports : RunReports cx l.main.id s.rErrors t.rErrors from ⟨hreports.kept, hreports.found⟩
  have hfor := setup_ok hl
  induction n generalizing s with
  | zero => cases h
  | succ n ih =>
      obtain ⟨⟨stable, u⟩, hiter, h⟩ := bind_eq_ok.mp h
      obtain ⟨v, hthreads, hend⟩ := bind_eq_ok.mp hiter
      have hv := threadsLoop_reports hfor.func hthreads hfor.analysed
      dsimp only at hv
      split_ifs at hend
      · cases hend
        cases h
        exact hv
      · obtain ⟨st, _, hend⟩ := bind_eq_ok.mp hend
        cases st with
        | true =>
            cases hend
            cases h
            exact hv
        | false =>
            obtain ⟨w, hw, hend⟩ := bind_eq_ok.mp hend
            cases hend
            rw [liftM_stop, liftStop_eq_ok] at hw
            have hrest : l.loop o cx z3 rules fuel n { w with iter := w.iter + 1 } = .ok t := h
            obtain ⟨interfs, rfl, _⟩ := nextIteration_eq hw
            have hnext := ih _ hrest
            exact hv.trans hnext

end Reports

namespace RaisedFlag

/-- The error of `main` is found in the second iteration. -/
theorem loop_reports_flag : ∃ (l : Setup boxes) (t : RunState boxes), setup cx = .ok l ∧
    l.loop .increasing cx (fun _ _ => .lUndef) [] 40 40 { threadFuncs := l.threadFuncs } = .ok t ∧ 12 ∈ t.rErrors ∧
      ∃ F, cx.module.func? F.id = some F ∧ cx.Analysed l.main.id F.id ∧ F.HasError 12 := by
  obtain ⟨t, ht, herr⟩ := Fallible.exists_ok_of_toOption
    (show pass.toOption.map (fun t => t.rErrors.contains 12) = some true by decide)
  unfold pass at ht
  rw [runOnModule_eq] at ht
  obtain ⟨l, hl, ht⟩ := bind_eq_ok.mp ht
  have hmem : 12 ∈ t.rErrors := Std.TreeSet.mem_iff_contains.mpr herr
  have hfound := (loop_reports .increasing cx (fun _ _ => .lUndef) [] 40 l hl 40 _ t ht).2 12 hmem
  exact ⟨l, t, hl, ht, hmem, hfound.resolve_left Std.TreeSet.not_mem_emptyc⟩

end RaisedFlag

end Watts
