import Watts.BlockOrder
import Watts.Library.Fallible

/-! Analyses of one function from growing entry facts and with growing interferences.  The larger facts
may be processed in another order, so that facts which the first run joins before it executes their block
are executed one after the other in the second. -/

namespace Watts

variable {ap : Apron}

/-- **Growing entries and interferences** leave growing results when every popped fact of the larger run
is comparable with the stored fact of its block. -/
theorem analyzeFunc_monotone (hL : ap.Lattice) (hS : ap.Strict) (hM : ap.Monotone) (o : BlockOrder)
    (cx : Ctx) (interf₁ interf₂ : InterfMap ap) (hinterf : InterfMap.Leq interf₁ interf₂)
    (books bk₁ bk₂ : Books ap) (entry₁ entry₂ : LatticeFact ap) (hentry : entry₁.leq entry₂)
    (F : Function) (mergeInterfs : Bool) (fuel₁ fuel₂ : Nat)
    (res₁ res₂ : Std.TreeMap BlockId (LatticeFact ap))
    (h₁ : analyzeFunc o cx interf₁ books entry₁ F mergeInterfs fuel₁ = .ok (res₁, bk₁))
    (h₂ : analyzeFunc o cx interf₂ books entry₂ F mergeInterfs fuel₂ = .ok (res₂, bk₂))
    (hcmp : ∀ ps t, LoopRun o cx interf₂ books entry₂ F ps t →
      ∀ p ∈ ps, (system cx interf₂ F).Comparable p) :
    Books.Grows (fun f g => f.leq g) bk₁ bk₂ := by
  obtain ⟨ps, t, hr₁, _, _, rfl⟩ := analyzeFunc_run h₁
  obtain ⟨qs, u, hr₂, hend₂, _, rfl⟩ := analyzeFunc_run h₂
  have hw := hr₁.books_within hL hS hM hinterf hentry hr₂ hend₂ (hcmp qs u hr₂)
  exact ⟨hw.rErrors, hw.reachStores, hw.reachThreadCreate⟩

open CheckedLoad (readsOne xIs) in
theorem analyzeFunc_monotone_checkedLoad : ∃ r₁ r₂,
    analyzeFunc .increasing (.single CheckedLoad.thread 4) readsOne {} (xIs 0) CheckedLoad.thread false
      20 = .ok r₁ ∧
    analyzeFunc .increasing (.single CheckedLoad.thread 4) readsOne {} ⟨boxes.top⟩ CheckedLoad.thread
      false 20 = .ok r₂ ∧
    Books.Grows (fun f g => f.leq g) r₁.2 r₂.2 := by
  obtain ⟨r₁, h₁⟩ := exists_ok (x := analyzeFunc .increasing (.single CheckedLoad.thread 4) readsOne {}
    (xIs 0) CheckedLoad.thread false 20) (by decide)
  obtain ⟨r₂, h₂⟩ := exists_ok (x := analyzeFunc .increasing (.single CheckedLoad.thread 4) readsOne {}
    ⟨boxes.top⟩ CheckedLoad.thread false 20) (by decide)
  refine ⟨r₁, r₂, h₁, h₂, ?_⟩
  exact analyzeFunc_monotone Box.lattice Box.strict Box.monotone .increasing (.single CheckedLoad.thread 4)
    readsOne readsOne (.refl Box.lattice readsOne) {} r₁.2 r₂.2 (xIs 0) ⟨boxes.top⟩ (by decide)
    CheckedLoad.thread false 20 20 r₁.1 r₂.1 h₁ h₂
    (fun _ _ hrun => hrun.comparable CheckedLoad.entry 20 rfl (by decide))

namespace JoinedLate

/-- A loop whose body sets `x` to `0` behind the test `w > 0`; it is left over a block that sets `w` to
`1` and then goes back or sets `x` to `2`.  A store and an error lie behind the test that `x` is `1`. -/
def thread : Function :=
  .ofBlocks 0 [
    .ofInstrs 100 [] ⟨20, .br 101, none, []⟩,
    .ofInstrs 101 [⟨3, .load 1, some 32, []⟩, ⟨4, .icmp .sgt (.value 3) (i32 0), some 1, []⟩]
      ⟨21, .condBr (.icmp 4 .sgt (.value 3) (i32 0)) 102 107, none, []⟩,
    .ofInstrs 102 [⟨10, .store (i32 0) 0, none, []⟩] ⟨22, .br 104, none, []⟩,
    .ofInstrs 103 [⟨11, .store (i32 2) 0, none, []⟩] ⟨23, .br 104, none, []⟩,
    .ofInstrs 104 [⟨5, .load 0, some 32, []⟩, ⟨6, .icmp .eq (.value 5) (i32 1), some 1, []⟩]
      ⟨24, .condBr (.icmp 6 .eq (.value 5) (i32 1)) 105 106, none, []⟩,
    .ofInstrs 105 [⟨14, .store (i32 3) 1, none, []⟩, ⟨12, .call .assertFail, none, []⟩]
      ⟨25, .unreachable, none, []⟩,
    .ofInstrs 106 [] ⟨26, .ret, none, []⟩,
    .ofInstrs 107 [⟨13, .store (i32 1) 1, none, []⟩, ⟨7, .load 2, some 32, []⟩,
      ⟨8, .icmp .sgt (.value 7) (i32 0), some 1, []⟩]
      ⟨27, .condBr (.icmp 8 .sgt (.value 7) (i32 0)) 101 103, none, []⟩]

/-- The entry fact that bounds `w`. -/
def wIn (I : Interval) : LatticeFact boxes :=
  (⟨boxes.top⟩ : LatticeFact boxes).assignInterval 1 I

def run (I : Interval) : Except LoopStop (Std.TreeMap BlockId (LatticeFact boxes) × Books boxes) :=
  analyzeFunc .increasing (.single thread 9) {} {} (wIn I) thread false 40

/-- Whether the error is reported, and the stores that are reached. -/
def summary (I : Interval) : Option (List Value × List Value) :=
  (run I).toOption.map fun r => (r.2.rErrors.toList, r.2.reachStores.keys)

theorem summary_zero : summary (.const 0) = some ([12], [10, 11, 13, 14]) := by
  decide

theorem summary_range : summary (.range (some 0) (some 1)) = some ([], [10, 11, 13]) := by
  decide

/-- **From the larger entry fact** the join of `0` and `2` is never executed: neither the error nor the
store in front of it is reached. -/
theorem not_grows : (wIn (.const 0)).leq (wIn (.range (some 0) (some 1))) ∧
    ∃ r₁ r₂, run (.const 0) = .ok r₁ ∧ run (.range (some 0) (some 1)) = .ok r₂ ∧
      (12 ∈ r₁.2.rErrors ∧ 12 ∉ r₂.2.rErrors) ∧ (14 ∈ r₁.2.reachStores ∧ 14 ∉ r₂.2.reachStores) ∧
      ¬ Books.Grows (fun f g => f.leq g) r₁.2 r₂.2 := by
  refine ⟨by decide, ?_⟩
  obtain ⟨r₁, h₁, hs₁⟩ := Fallible.exists_ok_of_toOption summary_zero
  obtain ⟨r₂, h₂, hs₂⟩ := Fallible.exists_ok_of_toOption summary_range
  obtain ⟨herr₁, hst₁⟩ := Prod.mk.inj hs₁
  obtain ⟨herr₂, hst₂⟩ := Prod.mk.inj hs₂
  have herror : 12 ∈ r₁.2.rErrors := Std.TreeSet.mem_toList.mp (herr₁ ▸ .head _)
  have hnone : 12 ∉ r₂.2.rErrors := by
    rw [← Std.TreeSet.mem_toList, herr₂]
    exact List.not_mem_nil
  refine ⟨r₁, r₂, h₁, h₂, ⟨herror, hnone⟩, ⟨?_, ?_⟩, fun hgrows => hnone (hgrows.rErrors 12 herror)⟩
  · rw [← Std.TreeMap.mem_keys, hst₁]
    decide
  · rw [← Std.TreeMap.mem_keys, hst₂]
    decide

end JoinedLate

end Watts
