import Watts.PostFixpoint
import Mathlib.Tactic.IntervalCases

/-! Termination of `analyzeFunc` over finitely many facts.  The stored fact of a block is replaced by
the popped one, so the loop may go around facts none of which is above another; it ends exactly when
that stops happening. -/

namespace Watts

open Worklist (Pop)

variable {ap : Apron}

/-- A finite set of facts that the analysis of a function does not leave: it contains the entry fact
and is closed under joins and under executing the blocks. -/
structure FactsClosed (cx : Ctx) (interf : InterfMap ap) (F : Function) (entryFact : LatticeFact ap)
    (facts : Finset (LatticeFact ap)) : Prop where
  entry : entryFact ∈ facts
  join : ∀ f ∈ facts, ∀ g ∈ facts, f.factJoin g ∈ facts
  post : ∀ B ∈ F.blocks, ∀ f ∈ facts, ∀ books r,
    BBOps.runTransferFuncs cx interf cx.opts.noCombinsG B f books = .ok r → ∀ p ∈ r.1, p.2 ∈ facts

variable {o : BlockOrder} {cx : Ctx} {interf : InterfMap ap} {F : Function}
  {entryFact : LatticeFact ap} {facts : Finset (LatticeFact ap)}

theorem FactsClosed.closed (h : FactsClosed cx interf F entryFact facts) :
    Worklist.Closed (system cx interf F) (F.blocks.map BasicBlock.id).toFinset facts where
  join := h.join
  post := by
    intro k hk f hf k' g hg
    obtain ⟨B, hB, rfl⟩ := List.mem_map.mp (List.mem_toFinset.mp hk)
    have hg : (k', g) ∈ blockPost cx interf F B.id f := hg
    unfold blockPost at hg
    rw [Function.block?_id hB] at hg
    dsimp only at hg
    cases hr : BBOps.runTransferFuncs cx interf cx.opts.noCombinsG B f {} with
    | error e => simp [hr] at hg
    | ok r =>
        simp only [hr] at hg
        exact ⟨List.mem_toFinset.mpr (runTransferFuncs_succ hB hr _ hg), h.post B hB f hf {} r hr _ hg⟩

theorem FactsClosed.confined (h : FactsClosed cx interf F entryFact facts) {first : BasicBlock}
    (hfirst : F.blocks.head? = some first) (books : Books ap) :
    Worklist.Confined (system cx interf F) (F.blocks.map BasicBlock.id).toFinset facts
      (initLoop o F first entryFact books).abs where
  pending := by
    intro k f hk
    rw [initLoop_pending] at hk
    split_ifs at hk with hkey
    cases hk
    exact ⟨List.mem_toFinset.mpr (hkey ▸ List.mem_map_of_mem (List.mem_of_mem_head? hfirst)), h.entry⟩

/-- A call runs out of fuel when its loop does. -/
theorem analyzeFunc_outOfFuel {first : BasicBlock} (hfirst : F.blocks.head? = some first)
    (books : Books ap) (mergeInterfs : Bool) (fuel : Nat) :
    analyzeFunc o cx interf books entryFact F mergeInterfs fuel = .error .outOfFuel ↔
      analyzeLoop cx interf F fuel (initLoop o F first entryFact books) = .error .outOfFuel := by
  unfold analyzeFunc
  cases hbl : F.blocks with
  | nil => simp [hbl] at hfirst
  | cons b rest =>
      obtain rfl : b = first := by simpa [hbl] using hfirst
      cases hl : analyzeLoop cx interf F fuel (initLoop o F b entryFact books) <;>
        simp [hl, bind, Except.bind, pure, Except.pure]

/-- **Termination.**  Over a finite closed set of facts, the loop of `analyzeFunc` ends exactly when
from some iteration on no popped fact replaces a stored fact that it is not above. -/
theorem analyzeFunc_terminates_iff (hL : ap.Lattice) (o : BlockOrder) (cx : Ctx)
    (interf : InterfMap ap) (books : Books ap) (entryFact : LatticeFact ap) (F : Function)
    (mergeInterfs : Bool) (facts : Finset (LatticeFact ap))
    (hfacts : FactsClosed cx interf F entryFact facts) :
    (∃ fuel, analyzeFunc o cx interf books entryFact F mergeInterfs fuel ≠ .error .outOfFuel) ↔
      ∃ N, ∀ ps, ∀ t : LoopState o ap, LoopRun o cx interf books entryFact F ps t →
        ∀ p ∈ ps.drop N, (system cx interf F).Comparable p := by
  have hP : (system cx interf F).Preorder := system_preorder hL
  cases hbl : F.blocks with
  | nil =>
      refine ⟨fun _ => ⟨0, ?_⟩, fun _ => ⟨0, by simp [analyzeFunc, hbl]⟩⟩
      rintro ps t ⟨first, hfirst, _⟩
      simp [hbl] at hfirst
  | cons first rest =>
      have hfirst : F.blocks.head? = some first := by rw [hbl]; rfl
      have hfuel (fuel : Nat) : analyzeFunc o cx interf books entryFact F mergeInterfs fuel =
          .error .outOfFuel ↔ _ := analyzeFunc_outOfFuel hfirst books mergeInterfs fuel
      constructor
      · rintro ⟨n, hn⟩
        refine ⟨n, ?_⟩
        rintro ps t ⟨first', hfirst', hrun⟩ p hp
        obtain rfl : first' = first := Option.some.inj (hfirst'.symm.trans hfirst)
        by_cases hlen : n < ps.length
        · exact absurd ((hfuel n).mpr (hrun.outOfFuel hlen)) hn
        · rw [List.drop_eq_nil_of_le (by omega)] at hp
          exact absurd hp List.not_mem_nil
      · rintro ⟨N, hN⟩
        by_contra hall
        push Not at hall
        obtain ⟨bound, hbound⟩ : ∃ b, ∀ s, Worklist.measure (system cx interf F)
            (F.blocks.map BasicBlock.id).toFinset facts s ≤ b := ⟨_, Worklist.measure_le _ _⟩
        obtain ⟨ps, t, hrun, hlen, _⟩ := analyzeLoop_outOfFuel ((hfuel _).mp (hall (N + bound + 1)))
        have hcmp := hN ps t ⟨first, hfirst, hrun⟩
        have hsplit := hrun.run
        rw [← List.take_append_drop N ps] at hsplit
        obtain ⟨m, h₁, h₂⟩ := hsplit.split
        have hconf := (hfacts.confined hfirst books).run hfacts.closed h₁
        have hle := Worklist.run_length_le hP hfacts.closed hconf h₂ hcmp
        have hmle := hbound m
        have hdrop : (ps.drop N).length = bound + 1 := by
          rw [List.length_drop, hlen]
          omega
        omega

open CheckedLoad (xIs)

instance : DecidableEq (LatticeFact boxes) := fun f g =>
  have : DecidableEq boxes.Abstract1 := inferInstanceAs (DecidableEq (Option (List Intervals.Itv)))
  decidable_of_iff (f.absVals = g.absVals) ⟨fun h => congrArg LatticeFact.mk h, fun h => h ▸ rfl⟩

/-- A check of the blocks from the facts, on empty bookkeeping. -/
def postClosed (cx : Ctx) (interf : InterfMap boxes) (F : Function)
    (facts : Finset (LatticeFact boxes)) : Bool :=
  F.blocks.all fun B => decide (∀ f ∈ facts,
    (match BBOps.runTransferFuncs cx interf cx.opts.noCombinsG B f {} with
      | .ok r => r.1.all fun p => decide (p.2 ∈ facts)
      | .error _ => true) = true)

theorem factsClosed_of_check {cx : Ctx} {interf : InterfMap boxes} {F : Function}
    {entryFact : LatticeFact boxes} {facts : Finset (LatticeFact boxes)} (he : entryFact ∈ facts)
    (hj : ∀ f ∈ facts, ∀ g ∈ facts, f.factJoin g ∈ facts) (hp : postClosed cx interf F facts) :
    FactsClosed cx interf F entryFact facts := by
  refine ⟨he, hj, ?_⟩
  rintro B hB f hf books ⟨outs, bk⟩ hr
  obtain ⟨bk', hr'⟩ := BBOps.runTransferFuncs_books hr {}
  have h := of_decide_eq_true (List.all_eq_true.mp hp B hB) f hf
  rw [hr'] at h
  exact fun p hp => of_decide_eq_true (List.all_eq_true.mp h p hp)

/-- A loop that does nothing. -/
def spin : Function :=
  .ofBlocks 0 [.ofInstrs 100 [] ⟨10, .br 101, none, []⟩,
    .ofInstrs 101 [] ⟨11, .br 101, none, []⟩]

theorem spin_closed : FactsClosed (.single spin 1) {} spin (xIs 1) {xIs 1} :=
  factsClosed_of_check (by decide) (by decide) (by decide)

theorem analyzeFunc_terminates_spin :
    ∃ fuel, analyzeFunc .increasing (.single spin 1) {} {} (xIs 1) spin false fuel ≠
      .error .outOfFuel := by
  refine (analyzeFunc_terminates_iff Box.lattice .increasing (.single spin 1) {} {} (xIs 1) spin false
    {xIs 1} spin_closed).mpr ⟨0, fun ps t hrun p hp => ?_⟩
  exact hrun.comparable (spin.blocks.head (by decide)) 20 rfl (by decide) p
    (List.mem_of_mem_drop hp)

namespace Negated

/-- A loop that negates `x`. -/
def thread : Function :=
  .ofBlocks 0 [.ofInstrs 100 [] ⟨10, .br 101, none, []⟩,
    .ofInstrs 101 [⟨1, .load 0, some 32, []⟩, ⟨2, .binary .mul (.value 1) (i32 (-1)), some 32, []⟩,
      ⟨3, .store (.value 2) 0, none, []⟩] ⟨11, .br 101, none, []⟩]

/-- The facts that the analysis of the loop meets, closed under joins. -/
def looping : Finset (LatticeFact boxes) :=
  let both : Intervals.Itv := (Intervals.Itv.const 1).join (.const (-1))
  {xIs 1, ⟨some [.const (-1), .const 1, .const (-1)]⟩, ⟨some [.const 1, .const (-1), .const 1]⟩,
    ⟨some [both, both, both]⟩, ⟨some [both]⟩}

theorem closed : FactsClosed (.single thread 4) {} thread (xIs 1) looping :=
  factsClosed_of_check (by decide) (by decide) (by decide)

/-- One iteration of the loop. -/
def next (s : LoopState .increasing boxes) : Option (LoopState .increasing boxes) :=
  match s.worklist.toList with
  | [] => none
  | cur :: _ => (analyzeIter (.single thread 4) {} thread cur s).toOption

/-- The state after some iterations. -/
def nth : Nat → Option (LoopState .increasing boxes)
  | 0 => some (initLoop .increasing thread (thread.blocks.head (by decide)) (xIs 1) {})
  | n + 1 => nth n >>= next

theorem nth_periodic (n : Nat) : nth (n + 6) = nth (n + 4) := by
  induction n with
  | zero => rfl
  | succ n ih =>
      show nth (n + 6) >>= next = nth (n + 4) >>= next
      rw [ih]

theorem nth_isSome (n : Nat) : (nth n).isSome := by
  induction n using Nat.strong_induction_on with
  | _ n ih =>
      by_cases hn : n < 6
      · interval_cases n <;> decide
      · obtain ⟨m, rfl⟩ : ∃ m, n = m + 6 := ⟨n - 6, by omega⟩
        rw [nth_periodic]
        exact ih _ (by omega)

theorem analyzeLoop_nth (fuel : Nat) :
    ∀ n s, nth n = some s → analyzeLoop (.single thread 4) {} thread fuel s = .error .outOfFuel := by
  induction fuel with
  | zero =>
      intro n s hs
      have hsome := nth_isSome (n + 1)
      unfold nth at hsome
      rw [hs] at hsome
      unfold analyzeLoop
      cases hl : s.worklist.toList with
      | nil => simp [next, hl] at hsome
      | cons cur rest => rfl
  | succ fuel ih =>
      intro n s hs
      obtain ⟨s', hs'⟩ := Option.isSome_iff_exists.mp (nth_isSome (n + 1))
      have hnext : next s = some s' := by
        unfold nth at hs'
        rwa [hs] at hs'
      unfold next at hnext
      unfold analyzeLoop
      cases hl : s.worklist.toList with
      | nil => simp [hl] at hnext
      | cons cur rest =>
          simp only [hl] at hnext ⊢
          cases hi : analyzeIter (.single thread 4) {} thread cur s with
          | error e => simp [hi, Except.toOption] at hnext
          | ok u =>
              simp only [hi, Except.toOption, Option.some.injEq] at hnext
              subst hnext
              exact ih (n + 1) u hs'

/-- The loop goes around finitely many facts for ever, with monotone operations. -/
theorem not_terminates : boxes.Monotone ∧ FactsClosed (.single thread 4) {} thread (xIs 1) looping ∧
    ∀ fuel, analyzeFunc .increasing (.single thread 4) {} {} (xIs 1) thread false fuel =
      .error .outOfFuel := by
  refine ⟨Box.monotone, closed, fun fuel => ?_⟩
  have hfirst : thread.blocks.head? = some (thread.blocks.head (by decide)) := rfl
  exact (analyzeFunc_outOfFuel hfirst {} false fuel).mpr (analyzeLoop_nth fuel 0 _ rfl)

end Negated

end Watts
