import Watts.ReachingPaths
import Watts.PruningSound
import Watts.Library.Dominance

/-! The stores that `testCurPerm` records for the loads of the own thread's value.  A store is recorded when
it is the only one that may reach the load; every path to the load then passes some store if and only if it
passes this one last. -/

namespace Watts

open Fallible (bind_eq_ok)

/-! ### The choices of a permutation with the erasing loop -/

namespace Erasing

variable {ap : Apron}

/-- The choice for one load: `0` for the own thread, else the position of a store, from one. -/
def addChoice (cx : Ctx) (createSite : Option Instruction) (stFacts : StoreFacts ap) (fuel : Nat)
    (c : Choices ap) (p : (Value × List Value) × Nat) : Except LoopStop (Choices ap) :=
  let ((l, sts), curChoice) := p
  match curChoice with
  | 0 =>
    match cx.module.instr? l with
    | none => .error (.stop (.undefinedBehaviour "load outside the module"))
    | some li => do
      match ← getPreviousStoresWithCreate cx.module li createSite fuel with
      | [s] => return { c with curSelfStoreMap := c.curSelfStoreMap.insert l s.id }
      | _ => return c
  | idx + 1 =>
    match sts[idx]? with
    | none => .error (.stop (.abort "out-of-bounds choice"))
    | some st =>
      match stFacts[st]? with
      | none => .error (.stop (.abort "fact not found for store"))
      | some f =>
        .ok { c with
          curInterfMap := c.curInterfMap.insert l f
          curInterfStoreMap :=
            if cx.opts.useConstraintsG then c.curInterfStoreMap.insert l st
            else c.curInterfStoreMap }

/-- The choices of a permutation for all loads. -/
def gatherChoices (cx : Ctx) (createSite : Option Instruction) (perm : List Nat)
    (interfs : LoadStores) (stFacts : StoreFacts ap) (fuel : Nat) :
    Except LoopStop (Choices ap) :=
  if perm.length ≠ interfs.size then
    .error (.stop (.abort "choice number mismatch"))
  else
    (interfs.toList.zip perm).foldlM (addChoice cx createSite stFacts fuel) {}

end Erasing

/-! ### Last stores on paths -/

namespace Function

/-- Every path to an instruction passes a store to a pointer. -/
def AlwaysStores (F : Function) (p : Value) (i : Instruction) : Prop :=
  ∀ us, F.Tracks (us ++ [i]) → ∃ j ∈ us, j.getStorePtr = some p

/-- No path to an instruction passes a store to a pointer. -/
def NeverStores (F : Function) (p : Value) (i : Instruction) : Prop :=
  ∀ us, F.Tracks (us ++ [i]) → ∀ j ∈ us, j.getStorePtr ≠ some p

/-- Every path to an instruction passes a store, with no later store to a pointer in between. -/
def AlwaysLast (F : Function) (s : Instruction) (p : Value) (i : Instruction) : Prop :=
  ∀ us, F.Tracks (us ++ [i]) → ∃ us₁ us₂, us = us₁ ++ s :: us₂ ∧ ∀ j ∈ us₂, j.getStorePtr ≠ some p

variable {F : Function} {p : Value} {i s : Instruction}

theorem ReachesInst.mem_instrs (h : F.ReachesInst s p i) : s ∈ F.instrs := by
  obtain ⟨_, b, hb, pre, post, hinstrs, ⟨us, vs, rfl, _⟩ | ⟨⟨_, _, P, hP, pre', post', _, hP', _⟩, _⟩⟩ := h
  · refine Function.mem_instrs.mpr ⟨b, hb, hinstrs ▸ ?_⟩
    exact List.mem_append_left _ (List.mem_append_right _ (.head _))
  · exact Function.mem_instrs.mpr ⟨P, hP, hP' ▸ List.mem_append_right _ (.head _)⟩

/-- The last store on a path to an instruction reaches the instruction. -/
theorem Tracks.reachesInst {us₁ us₂ : List Instruction} (h : F.Tracks (us₁ ++ s :: us₂ ++ [i]))
    (hs : s.getStorePtr = some p) (hlast : ∀ j ∈ us₂, j.getStorePtr ≠ some p) : F.ReachesInst s p i := by
  obtain ⟨first, _, π₁, _, B, hB, ps, qs, hwalk, hinstrs, hus, _, _⟩ := h.place
  rw [reachesInst_iff hB hinstrs]
  refine ⟨hs, ?_⟩
  rcases List.append_eq_append_iff.mp hus.symm with ⟨ws, hpre, hps⟩ | ⟨ws, hpre, hps⟩
  · -- the store stands in the block of the instruction
    exact .inl ⟨ws, us₂, hps, hlast⟩
  · cases ws with
    | nil => exact .inl ⟨[], us₂, hps.symm, hlast⟩
    | cons x ws =>
        -- the store stands in an earlier block of the walk
        rw [List.cons_append, List.cons.injEq] at hps
        obtain ⟨rfl, rfl⟩ := hps
        obtain ⟨l₁, a, l₂, ps', qs', rfl, ha, _, hws⟩ := flatMap_eq_append_cons hpre
        obtain ⟨A, hA, rfl, _⟩ := mem_instrsOf (F := F) (b := a) (i := s) (ha ▸ List.mem_append_right _ (.head _))
        rw [instrsOf_id hA] at ha
        refine .inr ⟨⟨p, hs, A, hA, ps', qs', l₂, ha, ?_, fun j hj hjp => ?_⟩, fun j hj hjp => ?_⟩
        · exact hwalk.replace rfl .start
        · exact absurd hjp (hlast j (List.mem_append_left _ (hws ▸ hj)))
        · exact absurd hjp (hlast j (List.mem_append_right _ hj))

theorem AlwaysLast.alwaysStores (h : F.AlwaysLast s p i) (hs : s.getStorePtr = some p) : F.AlwaysStores p i := by
  intro us hus
  obtain ⟨us₁, us₂, rfl, _⟩ := h us hus
  exact ⟨s, List.mem_append_right _ (.head _), hs⟩

/-- **The only store that may reach an instruction** is the last one on every path that passes a store. -/
theorem alwaysLast_iff (hs : s.getStorePtr = some p) (honly : ∀ x, F.ReachesInst x p i → x = s) :
    F.AlwaysLast s p i ↔ F.AlwaysStores p i := by
  refine ⟨fun h => h.alwaysStores hs, fun h us hus => ?_⟩
  obtain ⟨us₁, j, us₂, rfl, hj, hlast⟩ := Flow.exists_last (h us hus)
  obtain rfl := honly j (hus.reachesInst hj hlast)
  exact ⟨us₁, us₂, rfl, hlast⟩

theorem neverStores_of_no_reachesInst (h : ∀ x, ¬ F.ReachesInst x p i) : F.NeverStores p i := by
  intro us hus j hj hjp
  obtain ⟨us₁, j', us₂, rfl, hj', hlast⟩ :=
    Flow.exists_last (p := fun j : Instruction => j.getStorePtr = some p) ⟨j, hj, hjp⟩
  exact h j' (hus.reachesInst hj' hlast)

end Function

/-! ### Recorded stores -/

section Recorded

variable {ap : Apron} {cx : Ctx} {createSite : Option Instruction} {fuel : Nat}

/-- A pair of the map comes from a load with a single store before it. -/
def RecordedBy (M : Module) (createSite : Option Instruction) (fuel : Nat) (l s : Value) : Prop :=
  ∃ li si, M.instr? l = some li ∧ si.id = s ∧
    Erasing.getPreviousStoresWithCreate M li createSite fuel = .ok [si]

theorem Erasing.addChoice_recorded {stFacts : StoreFacts ap} {c c' : Choices ap}
    {p : (Value × List Value) × Nat} (h : Erasing.addChoice cx createSite stFacts fuel c p = .ok c')
    (hc : ∀ l s, c.curSelfStoreMap[l]? = some s → RecordedBy cx.module createSite fuel l s) :
    ∀ l s, c'.curSelfStoreMap[l]? = some s → RecordedBy cx.module createSite fuel l s := by
  obtain ⟨⟨l₀, sts⟩, choice⟩ := p
  cases choice with
  | zero =>
      unfold Erasing.addChoice at h
      dsimp only at h
      cases hl : cx.module.instr? l₀ with
      | none => simp [hl] at h
      | some li =>
          rw [hl] at h
          obtain ⟨ss, hss, h⟩ := bind_eq_ok.mp h
          cases ss with
          | nil =>
              cases h
              exact hc
          | cons si rest =>
              cases rest with
              | cons _ _ =>
                  cases h
                  exact hc
              | nil =>
                  cases h
                  intro l s hls
                  rw [Std.TreeMap.getElem?_insert] at hls
                  split_ifs at hls with heq
                  · obtain rfl : l₀ = l := by simpa using heq
                    exact ⟨li, si, hl, Option.some.inj hls, hss⟩
                  · exact hc l s hls
  | succ idx =>
      unfold Erasing.addChoice at h
      dsimp only at h
      cases hst : sts[idx]? with
      | none => simp [hst] at h
      | some st =>
          rw [hst] at h
          dsimp only at h
          cases hf : stFacts[st]? with
          | none => simp [hf] at h
          | some f =>
              rw [hf] at h
              cases h
              exact hc

theorem Erasing.gatherChoices_recorded {perm : List Nat} {interfs : LoadStores} {stFacts : StoreFacts ap}
    {c : Choices ap} (h : Erasing.gatherChoices cx createSite perm interfs stFacts fuel = .ok c) :
    ∀ l s, c.curSelfStoreMap[l]? = some s → RecordedBy cx.module createSite fuel l s := by
  unfold Erasing.gatherChoices at h
  split_ifs at h
  refine Fallible.foldlM_preserves
    (fun c : Choices ap => ∀ l s, c.curSelfStoreMap[l]? = some s → RecordedBy cx.module createSite fuel l s)
    (fun p _ c c' hc hstep => Erasing.addChoice_recorded hstep hc) (fun l s hls => ?_) h
  simp at hls

end Recorded

/-! ### What a recorded store means -/

/-- A store is the one that the own thread's value comes from: if some store of the function may reach the
load, every path from the entry of the function passes this one last; else no path passes a store, and every
path of the creating function to the call passes this one last. -/
def SelfReadDefinite (M : Module) (createSite : Option Instruction) (l s : Instruction) (p : Value) : Prop :=
  ∀ F ∈ M.functions, l ∈ F.instrs →
    ((∃ x, F.ReachesInst x p l) → F.AlwaysLast s p l) ∧
      ((∀ x, ¬ F.ReachesInst x p l) → F.NeverStores p l ∧
        ∀ cre, createSite = some cre → ∀ G ∈ M.functions, cre ∈ G.instrs → G.AlwaysLast s p cre)

/-- The same of some store in place of a given one. -/
def SelfReadStored (M : Module) (createSite : Option Instruction) (l : Instruction) (p : Value) : Prop :=
  ∀ F ∈ M.functions, l ∈ F.instrs →
    ((∃ x, F.ReachesInst x p l) → F.AlwaysStores p l) ∧
      ((∀ x, ¬ F.ReachesInst x p l) →
        ∀ cre, createSite = some cre → ∀ G ∈ M.functions, cre ∈ G.instrs → G.AlwaysStores p cre)

theorem selfRead_of_single {M : Module} {createSite : Option Instruction} {fuel : Nat} {l s : Instruction}
    (h : Erasing.getPreviousStoresWithCreate M l createSite fuel = .ok [s]) :
    s ∈ M.instrs ∧
      ∃ p, l.getLoadPtr = some p ∧ (SelfReadDefinite M createSite l s p ↔ SelfReadStored M createSite l p) := by
  have hstores : ∀ {F : Function} {i : Instruction} {p : Value}, (∀ x, x ∈ [s] ↔ F.ReachesInst x p i) →
      (F.AlwaysLast s p i ↔ F.AlwaysStores p i) := by
    intro F i p hmem
    exact Function.alwaysLast_iff ((hmem s).mp (.head _)).1 fun x hx => List.mem_singleton.mp ((hmem x).mpr hx)
  unfold Erasing.getPreviousStoresWithCreate at h
  cases hk : l.kind with
  | load p =>
      rw [hk] at h
      obtain ⟨own, hown, h⟩ := bind_eq_ok.mp h
      obtain ⟨F, hF, hl, hmem⟩ := Erasing.mem_getPreviousStores hown
      have hp : l.getLoadPtr = some p := by simp only [Instruction.getLoadPtr, hk]
      have hfunction : ∀ G ∈ M.functions, l ∈ G.instrs → G = F :=
        fun G hG hlG => M.function_unique hG hF hlG hl
      cases own with
      | cons x xs =>
          -- the function of the load has a store that reaches it
          cases h
          have hreach : ∃ x, F.ReachesInst x p l := ⟨s, (hmem s).mp (.head _)⟩
          refine ⟨Module.mem_instrs.mpr ⟨F, hF, ((hmem s).mp (.head _)).mem_instrs⟩, p, hp, ?_⟩
          constructor
          · intro h G hG hlG
            obtain rfl := hfunction G hG hlG
            exact ⟨fun _ => (hstores hmem).mp ((h G hG hlG).1 hreach), fun hno => absurd hreach (not_exists.mpr hno)⟩
          · intro h G hG hlG
            obtain rfl := hfunction G hG hlG
            exact ⟨fun _ => (hstores hmem).mpr ((h G hG hlG).1 hreach), fun hno => absurd hreach (not_exists.mpr hno)⟩
      | nil =>
          have hno : ∀ x, ¬ F.ReachesInst x p l := fun x hx => absurd ((hmem x).mpr hx) List.not_mem_nil
          cases createSite with
          | none => cases h
          | some cre =>
              obtain ⟨C, hC, hcre, hmemC⟩ := Erasing.mem_getPreviousStores h
              have hcreator : ∀ G ∈ M.functions, cre ∈ G.instrs → G = C :=
                fun G hG hcreG => M.function_unique hG hC hcreG hcre
              refine ⟨Module.mem_instrs.mpr ⟨C, hC, ((hmemC s).mp (.head _)).mem_instrs⟩, p, hp, ?_⟩
              constructor
              · intro h G hG hlG
                obtain rfl := hfunction G hG hlG
                refine ⟨fun hex => absurd hex (not_exists.mpr hno), fun _ cre' hcre' K hK hcreK => ?_⟩
                cases hcre'
                obtain rfl := hcreator K hK hcreK
                exact (hstores hmemC).mp (((h G hG hlG).2 hno).2 cre rfl K hK hcreK)
              · intro h G hG hlG
                obtain rfl := hfunction G hG hlG
                refine ⟨fun hex => absurd hex (not_exists.mpr hno), fun _ =>
                  ⟨Function.neverStores_of_no_reachesInst hno, fun cre' hcre' K hK hcreK => ?_⟩⟩
                cases hcre'
                obtain rfl := hcreator K hK hcreK
                exact (hstores hmemC).mpr ((h G hG hlG).2 hno cre rfl K hK hcreK)
  | _ => simp only [hk] at h; cases h

/-- **A recorded store is definite** if and only if every path passes some store to the pointer. -/
theorem curSelfStoreMap_definite_iff {ap : Apron} (cx : Ctx) (createSite : Option Instruction) (perm : List Nat)
    (interfs : LoadStores) (stFacts : StoreFacts ap) (fuel : Nat) (c : Choices ap)
    (hc : Erasing.gatherChoices cx createSite perm interfs stFacts fuel = .ok c) (l s : Value)
    (hls : c.curSelfStoreMap[l]? = some s) :
    ∃ li si p, cx.module.instr? l = some li ∧ cx.module.instr? s = some si ∧ li.getLoadPtr = some p ∧
      (SelfReadDefinite cx.module createSite li si p ↔ SelfReadStored cx.module createSite li p) := by
  obtain ⟨li, si, hli, hsi, hprev⟩ := Erasing.gatherChoices_recorded hc l s hls
  obtain ⟨hmem, p, hp, hiff⟩ := selfRead_of_single hprev
  exact ⟨li, si, p, hli, hsi ▸ Module.instr?_id hmem, hp, hiff⟩

namespace ConditionalStore

/-- `create(t); x = 2; return` -/
def main : Function :=
  .ofBlocks 0 [.ofInstrs 10 [allocaAt 1, createAt 3 1 1, storeAt 5 2 100] (retAt 6)]

/-- `if (c) x = 1; load x; return` -/
def t : Function :=
  .ofBlocks 1 [.ofInstrs 20 [] (condBrAt 21 50 22 23), .ofInstrs 22 [storeAt 24 1 100] (brAt 25 23),
    .ofInstrs 23 [loadAt 26 100] (retAt 27)]

def program : Module :=
  .ofFunctions [main, t] [⟨100, some (.constantInt ⟨32, 0⟩)⟩] (some 0)

/-- The load reads the own thread's value, not the store of `main`. -/
def choose : Except LoopStop (Choices boxes) :=
  Erasing.gatherChoices (.ofModule program 0 { useConstraintsG := true }) (some (createAt 3 1 1)) [0]
    (.ofList [(26, [5])]) {} 30

/-- The condition does not hold. -/
def env : Env := fun _ => 0

def run : List Event :=
  scheduled program env (fun _ => none) 0 [0, 0, 1, 1]

/-- **The recorded store is not definite**: the load is executed without it. -/
theorem not_selfReadDefinite :
    (∃ c, choose = .ok c ∧ c.curSelfStoreMap[26]? = some 24) ∧
    ¬ SelfReadDefinite program (some (createAt 3 1 1)) (loadAt 26 100) (storeAt 24 1 100) 100 ∧
    (∃ c, Interleaving registers program env 0 run c) ∧
    run.map (·.inst) = [allocaAt 1, createAt 3 1 1, condBrAt 21 50 22 23, loadAt 26 100] := by
  refine ⟨?_, fun h => ?_, scheduled_interleaving (fun _ _ h => by cases h) 0 _, by decide⟩
  · obtain ⟨c, hc, hmap⟩ := Fallible.exists_ok_of_toOption (x := choose) (f := fun c => c.curSelfStoreMap[26]?)
      (c := some 24) (by decide)
    exact ⟨c, hc, hmap⟩
  · have hreach : ∃ x, t.ReachesInst x 100 (loadAt 26 100) := by
      obtain ⟨sts, hsts, hmem⟩ := Erasing.getPreviousStores_ok (M := program) (F := t) (.tail _ (.head _))
        (i := loadAt 26 100) (by decide) 100 (Nat.lt_succ_self _)
      have hrun : Erasing.getPreviousStores program (loadAt 26 100) 100
          (t.blocks.length * t.instrs.length).succ = .ok [storeAt 24 1 100] := by rfl
      obtain rfl := Except.ok.inj (hrun.symm.trans hsts)
      exact ⟨_, (hmem _).mp (.head _)⟩
    have htracks : t.Tracks ([condBrAt 21 50 22 23] ++ [loadAt 26 100]) :=
      .inr ⟨_, rfl, [20], 23, .step .start (.tail _ (.head _)), ⟨[retAt 27], rfl⟩⟩
    obtain ⟨us₁, us₂, heq, _⟩ := (h t (.tail _ (.head _)) (by decide)).1 hreach _ htracks
    have hmem : storeAt 24 1 100 ∈ [condBrAt 21 50 22 23] := heq ▸ List.mem_append_right _ (.head _)
    exact absurd hmem (by decide)

end ConditionalStore

namespace StoreBeforeCreation

/-- `x = 1; create(t); x = 2; return` -/
def main : Function :=
  .ofBlocks 0 [.ofInstrs 10 [allocaAt 1, storeAt 2 1 100, createAt 3 1 1, storeAt 5 2 100] (retAt 6)]

/-- `load x; return` -/
def t : Function :=
  .ofBlocks 1 [.ofInstrs 20 [loadAt 21 100] (retAt 22)]

def program : Module :=
  .ofFunctions [main, t] [⟨100, some (.constantInt ⟨32, 0⟩)⟩] (some 0)

def choose : Except LoopStop (Choices boxes) :=
  Erasing.gatherChoices (.ofModule program 0 { useConstraintsG := true }) (some (createAt 3 1 1)) [0]
    (.ofList [(21, [5])]) {} 30

theorem main_alwaysStores : main.AlwaysStores 100 (createAt 3 1 1) := by
  intro us hus
  obtain ⟨_, _, π, _, B, hB, ps, qs, _, hinstrs, rfl, _, _⟩ := Function.Tracks.place hus
  have hplace : (main.blocks.head (by decide)).instrs =
      [allocaAt 1, storeAt 2 1 100] ++ createAt 3 1 1 :: [storeAt 5 2 100, retAt 6] := rfl
  obtain ⟨_, rfl⟩ := Function.place_unique (List.head_mem _) hplace hB hinstrs
  exact ⟨storeAt 2 1 100, List.mem_append_right _ (.tail _ (.head _)), rfl⟩

theorem t_reaches (x : Instruction) : ¬ t.ReachesInst x 100 (loadAt 21 100) := by
  intro hx
  obtain ⟨sts, hsts, hmem⟩ := Erasing.getPreviousStores_ok (M := program) (F := t) (.tail _ (.head _))
    (i := loadAt 21 100) (by decide) 100 (Nat.lt_succ_self _)
  have hrun : Erasing.getPreviousStores program (loadAt 21 100) 100
      (t.blocks.length * t.instrs.length).succ = .ok [] := by rfl
  obtain rfl := Except.ok.inj (hrun.symm.trans hsts)
  exact absurd ((hmem x).mpr hx) List.not_mem_nil

/-- The store before the creation is what the thread's own load reads. -/
theorem selfReadDefinite :
    SelfReadDefinite program (some (createAt 3 1 1)) (loadAt 21 100) (storeAt 2 1 100) 100 := by
  obtain ⟨c, hc, hmap⟩ := Fallible.exists_ok_of_toOption (x := choose) (f := fun c => c.curSelfStoreMap[21]?)
    (c := some 2) (by decide)
  obtain ⟨li, si, p, hli, hsi, hp, hiff⟩ := curSelfStoreMap_definite_iff _ _ _ _ _ _ c hc 21 2 hmap
  have hload : program.instr? 21 = some (loadAt 21 100) := by decide
  have hstore : program.instr? 2 = some (storeAt 2 1 100) := by decide
  obtain rfl := Option.some.inj (hload.symm.trans hli)
  obtain rfl := Option.some.inj (hstore.symm.trans hsi)
  cases hp
  refine hiff.mpr fun F hF hl => ?_
  obtain rfl : F = t := program.function_unique hF (.tail _ (.head _)) hl (by decide)
  refine ⟨fun ⟨x, hx⟩ => absurd hx (t_reaches x), fun _ cre hcre G hG hcreG => ?_⟩
  cases hcre
  obtain rfl : G = main := program.function_unique hG (.head _) hcreG (by decide)
  exact main_alwaysStores

end StoreBeforeCreation

/-! ### In an interleaving -/

theorem exists_of_executedBy_eq {tr : List Event} {f : FuncId} {us vs : List Instruction} {s : Instruction}
    (h : executedBy tr f = us ++ s :: vs) :
    ∃ pre w post, tr = pre ++ w :: post ∧ w.inst = s ∧ w.thread = f ∧ executedBy post f = vs := by
  obtain ⟨es, rest, hfilter, _, hrest⟩ := List.map_eq_append_iff.mp h
  obtain ⟨w, vs', rfl, hw, hvs⟩ := List.map_eq_cons_iff.mp hrest
  obtain ⟨pre, tr', rfl, _, htr⟩ := List.filter_eq_append_iff.mp hfilter
  obtain ⟨pre', post, rfl, _, hwf, hpost⟩ := List.filter_eq_cons_iff.mp htr
  refine ⟨pre ++ pre', w, post, by rw [List.append_assoc], hw, of_decide_eq_true hwf, ?_⟩
  rw [← hvs, ← hpost]
  rfl

/-- **The last store on every path** is the last store of the thread before each instance. -/
theorem Function.AlwaysLast.last_own_store {sem : Semantics} {M : Module} {init : Env} {main : FuncId}
    {F : Function} {s i : Instruction} {p : Value} (h : F.AlwaysLast s p i) (hF : F ∈ M.functions)
    (hi : i ∈ F.instrs) {pre post : List Event} {e : Event} {c : Config}
    (hrun : Interleaving sem M init main (pre ++ e :: post) c) (he : e.inst = i) :
    ∃ pre₁ w pre₂, pre = pre₁ ++ w :: pre₂ ∧ w.inst = s ∧ w.thread = e.thread ∧
      ∀ w' ∈ pre₂, w'.thread = e.thread → w'.inst.getStorePtr ≠ some p := by
  obtain ⟨_, hthread, htracks⟩ := tracks_of_event hrun hF hi (by rw [he])
  have hprefix : F.Tracks (executedBy pre F.id ++ [i]) :=
    htracks.prefix ((List.prefix_append_right_inj _).mpr ⟨_, rfl⟩)
  obtain ⟨us₁, us₂, heq, hlast⟩ := h _ hprefix
  obtain ⟨pre₁, w, pre₂, rfl, hw, hwf, hpre₂⟩ := exists_of_executedBy_eq heq
  refine ⟨pre₁, w, pre₂, rfl, hw, hwf.trans hthread.symm, fun w' hw' hw'f => hlast _ ?_⟩
  rw [← hpre₂, ← hthread, ← hw'f]
  exact mem_executedBy hw'

/-! ### The loop that stops at an erasure -/

theorem Erasing.getPreviousStoresWithCreate_eq {M : Module} {i : Instruction} {cre : Option Instruction}
    {fuel : Nat} {sts : List Instruction} (h : Watts.getPreviousStoresWithCreate M i cre fuel = .ok sts) :
    Erasing.getPreviousStoresWithCreate M i cre fuel = .ok sts := by
  unfold Watts.getPreviousStoresWithCreate at h
  unfold Erasing.getPreviousStoresWithCreate
  cases hk : i.kind with
  | load v =>
      rw [hk] at h
      obtain ⟨own, hown, h⟩ := bind_eq_ok.mp h
      refine bind_eq_ok.mpr ⟨own, Erasing.getPreviousStores_eq hown, ?_⟩
      cases own with
      | cons _ _ => exact h
      | nil =>
          cases cre with
          | none => exact h
          | some cre => exact Erasing.getPreviousStores_eq h
  | _ => simp only [hk] at h; cases h

theorem Erasing.addChoice_eq {ap : Apron} {cx : Ctx} {createSite : Option Instruction}
    {stFacts : StoreFacts ap} {fuel : Nat} {c c' : Choices ap} {p : (Value × List Value) × Nat}
    (h : Watts.addChoice cx createSite stFacts fuel c p = .ok c') :
    Erasing.addChoice cx createSite stFacts fuel c p = .ok c' := by
  obtain ⟨⟨l, sts⟩, choice⟩ := p
  cases choice with
  | zero =>
      unfold Watts.addChoice at h
      unfold Erasing.addChoice
      dsimp only at h ⊢
      cases hl : cx.module.instr? l with
      | none => simp [hl] at h
      | some li =>
          rw [hl] at h
          obtain ⟨ss, hss, h⟩ := bind_eq_ok.mp h
          exact bind_eq_ok.mpr ⟨ss, Erasing.getPreviousStoresWithCreate_eq hss, h⟩
  | succ idx => exact h

/-- **What the source chooses without such an erasure** is what the erasing loop chooses. -/
theorem Erasing.gatherChoices_eq {ap : Apron} {cx : Ctx} {createSite : Option Instruction} {perm : List Nat}
    {interfs : LoadStores} {stFacts : StoreFacts ap} {fuel : Nat} {c : Choices ap}
    (h : Watts.gatherChoices cx createSite perm interfs stFacts fuel = .ok c) :
    Erasing.gatherChoices cx createSite perm interfs stFacts fuel = .ok c := by
  unfold Watts.gatherChoices at h
  unfold Erasing.gatherChoices
  split_ifs at h ⊢
  revert h
  generalize ({} : Choices ap) = c₀
  generalize interfs.toList.zip perm = ps
  intro h
  induction ps generalizing c₀ with
  | nil => exact h
  | cons p ps ih =>
      obtain ⟨c₁, hp, hps⟩ := Fallible.foldlM_cons_eq_ok.mp h
      exact Fallible.foldlM_cons_eq_ok.mpr ⟨c₁, Erasing.addChoice_eq hp, ih c₁ hps⟩

end Watts
