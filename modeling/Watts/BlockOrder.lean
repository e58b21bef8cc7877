import Watts.Termination
import Mathlib.Logic.Equiv.Basic

/-! The order of the block addresses.  Two runs of `analyzeFunc` that differ only in it report the
same errors and the same store facts if in both of them every popped fact is comparable with the
stored fact it meets: each run then ends in the least post-fixpoint above the entry fact. -/

namespace Watts

open Worklist (Pop)

variable {ap : Apron} {o₁ o₂ : BlockOrder} {cx : Ctx} {interf interf' : InterfMap ap} {F : Function}
  {books : Books ap} {entryFact entryFact' : LatticeFact ap}

/-- The second map has the loads of the first, with facts at least as large. -/
structure InterfMap.Leq (m m' : InterfMap ap) : Prop where
  none : ∀ {l : Value}, m[l]? = Option.none → m'[l]? = Option.none
  some : ∀ {l : Value} {f}, m[l]? = Option.some f → ∃ f', m'[l]? = Option.some f' ∧ f.leq f'

theorem InterfMap.Leq.refl (hL : ap.Lattice) (m : InterfMap ap) : InterfMap.Leq m m :=
  ⟨id, fun {_ f} hf => ⟨f, hf, hL.leq_refl _⟩⟩

/-- Larger interferences say less of every variable. -/
theorem InterfMap.Leq.related (hL : ap.Lattice) (hM : ap.Monotone) {m m' : InterfMap ap}
    (h : InterfMap.Leq m m') : InterfsRelated (fun f g : LatticeFact ap => f.leq g) m m' where
  none := h.none
  some := by
    intro l k hk
    obtain ⟨k', hk', hle⟩ := h.some hk
    refine ⟨k', hk', fun v => hM.boundVariable v hle, fun v hfg => .inr (hM.boundVariable v ?_)⟩
    exact hL.join_least (hL.leq_trans hfg (hL.join_left _ _)) (hL.leq_trans hle (hL.join_right _ _))

/-- An instruction that occurs when a block is executed from a fact also occurs, with related facts,
when the block is executed from a related one. -/
theorem Occurs.related {R : LatticeFact ap → LatticeFact ap → Prop} (hR : Preserved R)
    (hI : InterfsRelated R interf interf') {B : BasicBlock} {f g : LatticeFact ap} (h : R f g)
    {bk bk' : Books ap} {outs : List (BlockId × LatticeFact ap)}
    (hg : BBOps.runTransferFuncs cx interf' cx.opts.noCombinsG B g bk = .ok (outs, bk'))
    {i : Instruction} {fIn fOut : LatticeFact ap} (ho : Occurs cx interf B f i fIn fOut) :
    ∃ gIn gOut, Occurs cx interf' B g i gIn gOut ∧ R fIn gIn ∧ R fOut gOut := by
  obtain ⟨pre, post, bk₀, hbody, hpre, htr⟩ := ho
  obtain ⟨endFact, hrun, _⟩ := BBOps.runTransferFuncs_ok.mp hg
  rw [hbody] at hrun
  obtain ⟨⟨gIn, bk₁⟩, h₁, h₂⟩ := (BBOps.runBody_append pre (i :: post)).mp hrun
  obtain ⟨gOut, hgOut, _⟩ := BBOps.runBody_cons.mp h₂
  obtain ⟨bk₂, hpre'⟩ := BBOps.runBody_books h₁ {}
  have hin : R fIn gIn := hR.runBody cx hI _ pre h _ _ _ _ hpre h₁
  exact ⟨gIn, gOut, ⟨pre, post, bk₂, hbody, hpre', hgOut⟩, hin,
    hR.transferFact cx hI _ i hin _ _ htr hgOut⟩

section TwoRuns

variable {ps qs : List (Pop BlockId (LatticeFact ap))} {t : LoopState o₁ ap} {u : LoopState o₂ ap}

/-- A block whose final stored fact is not bottom was executed from that fact. -/
theorem LoopRun.stored_executed (h : LoopRun o₂ cx interf books entryFact F qs u)
    {k : BlockId} {f : LatticeFact ap} (hf : f.leq (u.abs.stored k))
    (hnb : f.leq ⟨ap.bottom⟩ = false) :
    ∃ q ∈ qs, (system cx interf F).Visits q ∧ q.key = k ∧ q.fact = u.abs.stored k := by
  obtain ⟨first, _, hr⟩ := h
  rcases Worklist.stored_visited (initLoop_stored first entryFact books) hr.run k with hb | hq
  · have : f.leq ⟨ap.bottom⟩ = true := by
      rw [hb] at hf
      exact hf
    rw [this] at hnb
    cases hnb
  · exact hq

/-- **What one run pops lies below what the other run stores.** -/
theorem LoopRun.popped_le_stored (hL : ap.Lattice) (hS : ap.Strict) (hM : ap.Monotone)
    (hI : InterfMap.Leq interf interf') (hentry : entryFact.leq entryFact')
    (h₁ : LoopRun o₁ cx interf books entryFact F ps t)
    (h₂ : LoopRun o₂ cx interf' books entryFact' F qs u) (hend : u.Finished)
    (hcmp : ∀ q ∈ qs, (system cx interf' F).Comparable q) :
    ∀ p ∈ ps, p.fact.leq (u.abs.stored p.key) := by
  have hP : (system cx interf F).Preorder := system_preorder hL
  have hP' : (system cx interf' F).Preorder := system_preorder hL
  have hJ' : (system cx interf' F).UpperJoin := system_upperJoin hL
  have hrun₂ := h₂
  obtain ⟨first, hfirst, hr₁⟩ := h₁
  obtain ⟨first', hfirst', hr₂⟩ := h₂
  obtain rfl : first' = first := Option.some.inj (hfirst'.symm.trans hfirst)
  refine (Worklist.run_le (S := system cx interf F) hP (fun h h' => hL.join_least h h') u.abs.stored
    (fun k f hf => ?_) (initLoop_stored first' entryFact books) ?_ hr₁.run).1
  · rw [initLoop_pending] at hf
    split_ifs at hf with hk
    cases hf
    refine hL.leq_trans hentry (Worklist.initial_le_stored hP' hJ' hr₂.run hend hcmp ?_)
    rw [initLoop_pending, if_pos hk]
  · intro k f hf hnb k' g hg
    obtain ⟨q, hq, hqv, hqk, hqf⟩ := hrun₂.stored_executed hf hnb
    obtain ⟨B, outs', bk₁, bk₂, hB, hexec⟩ := hr₂.executed hq hqv
    rw [hqk] at hB
    have hid : B.id = k := (Function.block?_mem hB).2
    subst hid
    have hg : (k', g) ∈ blockPost cx interf F B.id f := hg
    unfold blockPost at hg
    rw [hB] at hg
    dsimp only at hg
    cases hr : BBOps.runTransferFuncs cx interf cx.opts.noCombinsG B f {} with
    | error e => simp [hr] at hg
    | ok r =>
        simp only [hr] at hg
        have hrel := (preserved_leq hL hS hM).runTransferFuncs cx (hI.related hL hM) _ B (hqf ▸ hf) {} bk₁
          _ _ hr hexec
        obtain ⟨i, hi, hgi⟩ := List.mem_iff_getElem.mp hg
        obtain ⟨hlen, hall⟩ := List.forall₂_iff_get.mp hrel
        have hi' : i < outs'.length := hlen ▸ hi
        obtain ⟨hk, hle⟩ := hall i hi hi'
        simp only [List.get_eq_getElem, hgi] at hk hle
        have hmem : (k', (outs'[i]).2) ∈ (system cx interf' F).post B.id (u.abs.stored B.id) := by
          show _ ∈ blockPost cx interf' F B.id (u.abs.stored B.id)
          rw [← hqf, blockPost_eq hB hexec, hk]
          exact List.getElem_mem hi'
        exact hL.leq_trans hle (Worklist.post_le_stored hP' hJ' hr₂.run hend hcmp ⟨q, hq, hqv, hqk⟩ hmem)

/-- The bookkeeping of the other run as a bound: every entry has an entry above it there. -/
def Books.bound (bk : Books ap) : Books.Bound ap where
  error i := i ∈ bk.rErrors
  store i f := ∃ g, bk.reachStores[i]? = some g ∧ f.leq g
  create i f := ∃ g, bk.reachThreadCreate[i]? = some g ∧ f.leq g

theorem Books.bound_joinClosed (hL : ap.Lattice) (bk : Books ap) : bk.bound.JoinClosed where
  store := by
    rintro _ _ _ ⟨x, hx, hfx⟩ ⟨y, hy, hgy⟩
    obtain rfl : x = y := Option.some.inj (hx.symm.trans hy)
    exact ⟨x, hx, hL.join_least hfx hgy⟩
  create := by
    rintro _ _ _ ⟨x, hx, hfx⟩ ⟨y, hy, hgy⟩
    obtain rfl : x = y := Option.some.inj (hx.symm.trans hy)
    exact ⟨x, hx, hL.join_least hfx hgy⟩

theorem leq_joinOrder (hL : ap.Lattice) : JoinOrder fun f g : LatticeFact ap => f.leq g where
  refl _ := hL.leq_refl _
  trans h₁ h₂ := hL.leq_trans h₁ h₂
  left _ _ := hL.join_left _ _
  right _ _ := hL.join_right _ _

/-- What the bookkeeping records of an instruction allows the smaller facts of another run. -/
theorem Books.allows_of_records (hL : ap.Lattice) {bk : Books ap} {i : Instruction}
    {fIn fOut gIn gOut : LatticeFact ap} (h : Books.Records (fun f g => f.leq g) bk i gIn gOut)
    (hin : fIn.leq gIn) (hout : fOut.leq gOut) : Books.Allows bk.bound i fIn fOut := by
  unfold Books.Allows
  split
  · next hk =>
      simp only [Books.Records, hk] at h
      obtain ⟨g, hg, hle⟩ := h
      exact ⟨g, hg, hL.leq_trans hout hle⟩
  · next hk =>
      simp only [Books.Records, hk] at h
      obtain ⟨g, hg, hle⟩ := h
      exact ⟨g, hg, hL.leq_trans hout hle⟩
  · next hk =>
      simp only [Books.Records, hk] at h
      obtain ⟨g, hg, hle⟩ := h
      exact ⟨g, hg, hL.leq_trans hin hle⟩
  · next hk =>
      simp only [Books.Records, hk] at h
      exact h
  · trivial

/-- **Everything one run records, the other records with a fact at least as large.** -/
theorem LoopRun.books_within (hL : ap.Lattice) (hS : ap.Strict) (hM : ap.Monotone)
    (hI : InterfMap.Leq interf interf') (hentry : entryFact.leq entryFact')
    (h₁ : LoopRun o₁ cx interf books entryFact F ps t)
    (h₂ : LoopRun o₂ cx interf' books entryFact' F qs u) (hend : u.Finished)
    (hcmp : ∀ q ∈ qs, (system cx interf' F).Comparable q) :
    Books.Within u.books.bound t.books := by
  have hP : (system cx interf F).Preorder := system_preorder hL
  have hpop := h₁.popped_le_stored hL hS hM hI hentry h₂ hend hcmp
  have hrun₂ := h₂
  obtain ⟨first, hfirst, hr₁⟩ := h₁
  obtain ⟨first', hfirst', hr₂⟩ := h₂
  have hgrow := hr₂.grows (leq_joinOrder hL)
  refine hr₁.within (Books.bound_joinClosed hL u.books)
    ⟨hgrow.rErrors, hgrow.reachStores, hgrow.reachThreadCreate⟩ ?_
  intro p hp hv B hB i fIn fOut ho
  have hnb : p.fact.leq ⟨ap.bottom⟩ = false := by
    cases hb : p.fact.leq ⟨ap.bottom⟩ with
    | false => rfl
    | true =>
        have : (system cx interf F).le p.fact p.old := hP.le_trans hb (hP.bot_le p.old)
        exact absurd this (by simp [show (system cx interf F).le p.fact p.old = false from hv])
  obtain ⟨q, hq, hqv, hqk, hqf⟩ := hrun₂.stored_executed (hpop p hp) hnb
  obtain ⟨B', outs, bk₁, bk₂, hB', hexec⟩ := hr₂.executed hq hqv
  obtain rfl : B' = B := Option.some.inj ((hqk ▸ hB').symm.trans hB)
  obtain ⟨gIn, gOut, ho', hin, hout⟩ :=
    ho.related (preserved_leq hL hS hM) (hI.related hL hM) (hqf ▸ hpop p hp) hexec
  exact Books.allows_of_records hL (hr₂.records (leq_joinOrder hL) hq hqv hB' ho') hin hout

end TwoRuns

/-- The two maps have the same keys, with facts that Apron calls equal. -/
def SameFacts (m m' : Std.TreeMap Value (LatticeFact ap)) : Prop :=
  ∀ i : Value, match m[i]?, m'[i]? with
    | none, none => True
    | some f, some g => f.areValsEq g
    | _, _ => False

theorem sameFacts_of_bounds (hL : ap.Lattice) {m m' : Std.TreeMap Value (LatticeFact ap)}
    (h : ∀ (i : Value) f, m[i]? = some f → ∃ g, m'[i]? = some g ∧ f.leq g)
    (h' : ∀ (i : Value) f, m'[i]? = some f → ∃ g, m[i]? = some g ∧ f.leq g) : SameFacts m m' := by
  intro i
  cases hm : m[i]? with
  | none =>
      cases hm' : m'[i]? with
      | none => trivial
      | some g =>
          obtain ⟨f, hf, _⟩ := h' i g hm'
          exact absurd hf (by simp [hm])
  | some f =>
      obtain ⟨g, hg, hfg⟩ := h i f hm
      obtain ⟨f', hf', hgf⟩ := h' i g hg
      obtain rfl : f = f' := Option.some.inj (hm.symm.trans hf')
      rw [hg]
      exact (hL.isEq_iff _ _).mpr ⟨hfg, hgf⟩

/-- **The order of the addresses does not matter** when in both runs every popped fact is comparable
with the stored fact of its block. -/
theorem analyzeFunc_order_independent (hL : ap.Lattice) (hS : ap.Strict) (hM : ap.Monotone)
    (o₁ o₂ : BlockOrder) (cx : Ctx) (interf : InterfMap ap) (books bk₁ bk₂ : Books ap)
    (entryFact : LatticeFact ap) (F : Function) (mergeInterfs : Bool) (fuel₁ fuel₂ : Nat)
    (res₁ res₂ : Std.TreeMap BlockId (LatticeFact ap))
    (h₁ : analyzeFunc o₁ cx interf books entryFact F mergeInterfs fuel₁ = .ok (res₁, bk₁))
    (h₂ : analyzeFunc o₂ cx interf books entryFact F mergeInterfs fuel₂ = .ok (res₂, bk₂))
    (hcmp₁ : ∀ ps t, LoopRun o₁ cx interf books entryFact F ps t →
      ∀ p ∈ ps, (system cx interf F).Comparable p)
    (hcmp₂ : ∀ ps t, LoopRun o₂ cx interf books entryFact F ps t →
      ∀ p ∈ ps, (system cx interf F).Comparable p) :
    (∀ i, i ∈ bk₁.rErrors ↔ i ∈ bk₂.rErrors) ∧ SameFacts bk₁.reachStores bk₂.reachStores := by
  obtain ⟨ps, t, hr₁, hend₁, _, rfl⟩ := analyzeFunc_run h₁
  obtain ⟨qs, u, hr₂, hend₂, _, rfl⟩ := analyzeFunc_run h₂
  have hI := InterfMap.Leq.refl hL interf
  have hw₁ := hr₁.books_within hL hS hM hI (hL.leq_refl _) hr₂ hend₂ (hcmp₂ qs u hr₂)
  have hw₂ := hr₂.books_within hL hS hM hI (hL.leq_refl _) hr₁ hend₁ (hcmp₁ ps t hr₁)
  exact ⟨fun i => ⟨hw₁.rErrors i, hw₂.rErrors i⟩,
    sameFacts_of_bounds hL hw₁.reachStores hw₂.reachStores⟩

/-- Two blocks allocated in each other's place. -/
def BlockOrder.swap (a b : BlockId) : BlockOrder :=
  ⟨Equiv.swap a b, (Equiv.swap a b).injective⟩

open CheckedLoad (readsOne xIs) in
theorem analyzeFunc_order_independent_checkedLoad : ∃ r₁ r₂,
    analyzeFunc .increasing (.single CheckedLoad.thread 4) readsOne {} (xIs 0) CheckedLoad.thread false
      20 = .ok r₁ ∧
    analyzeFunc (.swap 101 102) (.single CheckedLoad.thread 4) readsOne {} (xIs 0) CheckedLoad.thread
      false 20 = .ok r₂ ∧
    (∀ i, i ∈ r₁.2.rErrors ↔ i ∈ r₂.2.rErrors) ∧ SameFacts r₁.2.reachStores r₂.2.reachStores := by
  obtain ⟨r₁, h₁⟩ := exists_ok (x := analyzeFunc .increasing (.single CheckedLoad.thread 4) readsOne {}
    (xIs 0) CheckedLoad.thread false 20) (by decide)
  obtain ⟨r₂, h₂⟩ := exists_ok (x := analyzeFunc (.swap 101 102) (.single CheckedLoad.thread 4) readsOne
    {} (xIs 0) CheckedLoad.thread false 20) (by decide)
  refine ⟨r₁, r₂, h₁, h₂, ?_⟩
  exact analyzeFunc_order_independent Box.lattice Box.strict Box.monotone .increasing (.swap 101 102)
    (.single CheckedLoad.thread 4) readsOne {} r₁.2 r₂.2 (xIs 0) CheckedLoad.thread false 20 20 r₁.1 r₂.1
    h₁ h₂
    (fun _ _ hrun => hrun.comparable CheckedLoad.entry 20 rfl (by decide))
    (fun _ _ hrun => hrun.comparable CheckedLoad.entry 20 rfl (by decide))

namespace Diamond

/-- Two branches that set `x` to `0` and to `2`, and an error behind the test that `x` is `1`. -/
def thread : Function :=
  .ofBlocks 0 [
    .ofInstrs 100 [⟨2, .load 1, some 32, []⟩, ⟨3, .icmp .sgt (.value 2) (i32 0), some 1, []⟩]
      ⟨10, .condBr (.icmp 3 .sgt (.value 2) (i32 0)) 101 102, none, []⟩,
    .ofInstrs 101 [⟨4, .store (i32 0) 0, none, []⟩] ⟨11, .br 103, none, []⟩,
    .ofInstrs 102 [⟨5, .store (i32 2) 0, none, []⟩] ⟨12, .br 103, none, []⟩,
    .ofInstrs 103 [⟨6, .load 0, some 32, []⟩, ⟨7, .icmp .eq (.value 6) (i32 1), some 1, []⟩]
      ⟨13, .condBr (.icmp 7 .eq (.value 6) (i32 1)) 104 105, none, []⟩,
    .ofInstrs 104 [⟨8, .call .assertFail, none, []⟩] ⟨14, .unreachable, none, []⟩,
    .ofInstrs 105 [] ⟨15, .ret, none, []⟩]

/-- Whether the error is reported. -/
def reported (o : BlockOrder) : Option Bool :=
  match analyzeFunc o (.single thread 9) {} {} ⟨boxes.top⟩ thread false 20 with
  | .ok r => some (r.2.rErrors.contains 8)
  | .error _ => none

/-- The error is reported only if the two facts are joined before the test is executed. -/
theorem order_matters : ∃ r₁ r₂,
    analyzeFunc .increasing (.single thread 9) {} {} ⟨boxes.top⟩ thread false 20 = .ok r₁ ∧
    analyzeFunc (.swap 102 103) (.single thread 9) {} {} ⟨boxes.top⟩ thread false 20 = .ok r₂ ∧
    8 ∈ r₁.2.rErrors ∧ 8 ∉ r₂.2.rErrors := by
  have h₁ : reported .increasing = some true := by decide
  have h₂ : reported (.swap 102 103) = some false := by decide
  unfold reported at h₁ h₂
  split at h₁
  · next r₁ hr₁ =>
      split at h₂
      · next r₂ hr₂ =>
          refine ⟨r₁, r₂, hr₁, hr₂, ?_, ?_⟩
          · exact Std.TreeSet.contains_iff_mem.mp (Option.some.inj h₁)
          · intro hmem
            have := Option.some.inj h₂
            rw [Std.TreeSet.contains_iff_mem.mpr hmem] at this
            cases this
      · cases h₂
  · cases h₁

end Diamond

end Watts
