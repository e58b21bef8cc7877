import Watts.Histories
import Watts.Library.Reaching
import Watts.ReachingStores

/-! The reaching stores when the loop over an erased element goes on with the next one: they are the stores
that a path leads from without another store to the pointer. -/

namespace Watts

open Fallible (bind_eq_ok)

/-! ### The loop with its erasures -/

namespace Erasing

/-- Remove the stores to one killed variable. -/
def killStores (curReach : InstSet) (v : Value) : Except Stop InstSet :=
  curReach.toList.foldlM
    (fun curReach p =>
      match p.2.getStorePtr with
      | none => .error (.abort "reaching store with NULL pointer arg")
      | some stPtr => .ok (if v = stPtr then curReach.erase p.1 else curReach)) curReach

/-- One block of one pass of the loop. -/
def reachBlock (F : Function) (s : ReachState) (B : BasicBlock) : Except Stop ReachState := do
  let curReach ← reachingPreds F s B
  let reachIn := s.reachIn.insert B.id curReach
  let curReach ← (getRemVars B).toList.foldlM killStores curReach
  let curReach := (getGen B).toList.foldl (fun r p => r.insert p.1 p.2) curReach
  let oldReach ← mapAtUnsafe s.reachOut B.id
  if curReach.size > oldReach.size then
    return ⟨s.reachOut.insert B.id curReach, reachIn, true⟩
  else
    return { s with reachIn := reachIn }

/-- `while (updated)` -/
def reachLoop (F : Function) : Nat → ReachState → Except LoopStop ReachState
  | 0, _ => .error .outOfFuel
  | fuel + 1, s => do
    let s ← liftStop (F.blocks.foldlM (reachBlock F) { s with updated := false })
    if s.updated then reachLoop F fuel s else return s

/-- The start of the loop. -/
def initial (F : Function) : ReachState :=
  { reachOut := F.blocks.foldl (fun m B => m.insert B.id ({} : InstSet)) {} }

/-- The stores that reach the entry of each block. -/
def getReachingStores (F : Function) (fuel : Nat) : Except LoopStop (Std.TreeMap BlockId InstSet) := do
  let s ← reachLoop F fuel (initial F)
  return s.reachIn

/-- The closest stores to `v` before `i` in its function. -/
def getPreviousStores (M : Module) (i : Instruction) (v : Value) (fuel : Nat) :
    Except LoopStop (List Instruction) :=
  match M.parent? i with
  | none => .error (.stop (.undefinedBehaviour "instruction outside the module"))
  | some (F, b) =>
    match prevStore b i v with
    | some st => .ok [st]
    | none => do
      let reach ← getReachingStores F fuel
      let bReachIn ← mapAtUnsafe reach b.id
      return bReachIn.values.filter fun st => st.getStorePtr == some v

/-- The stores before a load, and if there are none, before the creation of its thread. -/
def getPreviousStoresWithCreate (M : Module) (i : Instruction) (cre : Option Instruction)
    (fuel : Nat) : Except LoopStop (List Instruction) :=
  match i.kind with
  | .load v => do
    let ret ← getPreviousStores M i v fuel
    match ret, cre with
    | [], some cre => getPreviousStores M cre v fuel
    | _, _ => return ret
  | _ => .error (.stop (.abort
      "[ERROR] getPreviousStoreWithCreate: unimplemented instruction type: "))

end Erasing

/-! ### Paths -/

namespace Function

/-- A path leads from `s` to the entry of a block, and no other store on it stores to the pointer of `s`. -/
def ReachesEntry (F : Function) (s : Instruction) (b : BlockId) : Prop :=
  ∃ p, s.getStorePtr = some p ∧ ∃ P ∈ F.blocks, ∃ pre post π, P.instrs = pre ++ s :: post ∧
    Flow.Walk F.Edge P.id (P.id :: π) b ∧ ∀ i ∈ post ++ π.flatMap F.instrsOf, i.getStorePtr = some p → i = s

/-- A path leads from a store to `v` to an instruction without another store to `v`. -/
def ReachesInst (F : Function) (s : Instruction) (v : Value) (i : Instruction) : Prop :=
  s.getStorePtr = some v ∧ ∃ b ∈ F.blocks, ∃ pre post, b.instrs = pre ++ i :: post ∧
    ((∃ us vs, pre = us ++ s :: vs ∧ ∀ j ∈ vs, j.getStorePtr ≠ some v) ∨
      F.ReachesEntry s b.id ∧ ∀ j ∈ pre, j.getStorePtr = some v → j = s)

end Function

/-- The last store of a block to its pointer. -/
def BasicBlock.LastStore (B : BasicBlock) (i : Instruction) : Prop :=
  ∃ p, i.getStorePtr = some p ∧ ∃ pre post, B.instrs = pre ++ i :: post ∧ ∀ j ∈ post, j.getStorePtr ≠ some p

/-- The block has no store to the pointer of a store. -/
def BasicBlock.Keeps (B : BasicBlock) (i : Instruction) : Prop :=
  ∀ j ∈ B.instrs, j.getStorePtr ≠ i.getStorePtr

/-! ### Sets of stores -/

namespace InstSet

variable {F : Function} {S T : InstSet} {i j : Instruction}

def Has (S : InstSet) (i : Instruction) : Prop :=
  S[i.id]? = some i

/-- A set of stores of a function. -/
def Within (S : InstSet) (F : Function) : Prop :=
  ∀ (k : Value) i, S[k]? = some i → i.id = k ∧ i ∈ F.instrs ∧ i.getStorePtr.isSome = true

theorem within_empty (F : Function) : Within {} F := by
  intro k i h
  simp at h

theorem not_has_empty (i : Instruction) : ¬ Has {} i := by
  intro h
  simp [Has] at h

theorem values_eq_map (S : InstSet) : S.values = S.toList.map Prod.snd :=
  calc S.values = S.foldr (fun _ v l => v :: l) [] := rfl
    _ = S.toList.foldr (fun p l => p.2 :: l) [] := Std.TreeMap.foldr_eq_foldr_toList
    _ = S.toList.map Prod.snd := by rw [← List.foldr_map, List.foldr_cons_nil]

theorem mem_values {S : InstSet} : i ∈ S.values ↔ ∃ k : Value, S[k]? = some i := by
  rw [values_eq_map, List.mem_map]
  constructor
  · rintro ⟨⟨k, j⟩, hp, rfl⟩
    exact ⟨k, Std.TreeMap.mem_toList_iff_getElem?_eq_some.mp hp⟩
  · rintro ⟨k, hk⟩
    exact ⟨(k, i), Std.TreeMap.mem_toList_iff_getElem?_eq_some.mpr hk, rfl⟩

theorem Within.has_iff (h : S.Within F) : S.Has i ↔ i ∈ S.values := by
  rw [mem_values]
  exact ⟨fun hi => ⟨i.id, hi⟩, fun ⟨k, hk⟩ => by rwa [Has, (h k i hk).1]⟩

theorem Within.mem_instrs (h : S.Within F) (hi : S.Has i) : i ∈ F.instrs :=
  (h i.id i hi).2.1

theorem Within.getStorePtr (h : S.Within F) (hi : S.Has i) : ∃ p, i.getStorePtr = some p :=
  Option.isSome_iff_exists.mp (h i.id i hi).2.2

theorem Within.insert (h : S.Within F) (hj : j ∈ F.instrs) (hst : j.getStorePtr.isSome = true) :
    Within (S.insert j.id j) F ∧ ∀ i, Has (S.insert j.id j) i ↔ S.Has i ∨ i = j := by
  constructor
  · intro k i hi
    rw [Std.TreeMap.getElem?_insert] at hi
    split_ifs at hi with hk
    · cases hi
      exact ⟨by simpa using hk, hj, hst⟩
    · exact h k i hi
  · intro i
    unfold Has
    rw [Std.TreeMap.getElem?_insert]
    by_cases hid : j.id = i.id
    · rw [if_pos (by simpa using hid)]
      constructor
      · intro heq
        exact .inr (Option.some.inj heq).symm
      · rintro (hi | rfl)
        · obtain ⟨_, hiF, _⟩ := h i.id i hi
          rw [F.eq_of_id_eq hj hiF hid]
        · rfl
    · rw [if_neg (by simpa using hid)]
      exact ⟨.inl, fun hi => hi.resolve_right fun heq => hid (by rw [heq])⟩

theorem Within.insertAll {is : List Instruction} (hS : S.Within F)
    (his : ∀ i ∈ is, i ∈ F.instrs ∧ i.getStorePtr.isSome = true) :
    Within (is.foldl (fun r i => r.insert i.id i) S) F ∧
      ∀ i, Has (is.foldl (fun r i => r.insert i.id i) S) i ↔ S.Has i ∨ i ∈ is := by
  induction is generalizing S with
  | nil => exact ⟨hS, fun i => by simp⟩
  | cons j is ih =>
      obtain ⟨hmem, hst⟩ := his j (.head _)
      obtain ⟨hin, hhas⟩ := hS.insert hmem hst
      obtain ⟨hin', hhas'⟩ := ih hin fun i hi => his i (.tail _ hi)
      refine ⟨hin', fun i => ?_⟩
      rw [List.foldl_cons, hhas', hhas, List.mem_cons, or_assoc]

/-- The union of two sets of stores. -/
theorem Within.union (hS : S.Within F) (hT : T.Within F) :
    Within (T.toList.foldl (fun r p => r.insert p.1 p.2) S) F ∧
      ∀ i, Has (T.toList.foldl (fun r p => r.insert p.1 p.2) S) i ↔ S.Has i ∨ T.Has i := by
  have hfold : T.toList.foldl (fun r p => r.insert p.1 p.2) S =
      T.values.foldl (fun r i => r.insert i.id i) S := by
    rw [values_eq_map, List.foldl_map]
    refine List.foldl_ext _ _ _ fun r p hp => ?_
    rw [(hT p.1 p.2 (Std.TreeMap.mem_toList_iff_getElem?_eq_some.mp hp)).1]
  rw [hfold]
  obtain ⟨hin, hhas⟩ := hS.insertAll fun i hi => (hT.has_iff.mpr hi |> hT i.id i).2
  exact ⟨hin, fun i => by rw [hhas, hT.has_iff]⟩

theorem Within.erase (h : S.Within F) (hj : j ∈ F.instrs) :
    Within (S.erase j.id) F ∧ ∀ i, Has (S.erase j.id) i ↔ S.Has i ∧ i ≠ j := by
  constructor
  · intro k i hi
    rw [Std.TreeMap.getElem?_erase] at hi
    split_ifs at hi
    exact h k i hi
  · intro i
    unfold Has
    rw [Std.TreeMap.getElem?_erase]
    by_cases hid : j.id = i.id
    · rw [if_pos (by simpa using hid)]
      refine ⟨nofun, fun ⟨hi, hne⟩ => ?_⟩
      obtain ⟨_, hiF, _⟩ := h i.id i hi
      exact absurd (F.eq_of_id_eq hiF hj hid.symm) hne
    · rw [if_neg (by simpa using hid)]
      exact (and_iff_left fun heq => hid (by rw [heq])).symm

theorem Within.mem_keys (h : S.Within F) {k : Value} : k ∈ S.keys ↔ ∃ i, S.Has i ∧ i.id = k := by
  rw [Std.TreeMap.mem_keys, Std.TreeMap.mem_iff_isSome_getElem?, Option.isSome_iff_exists]
  constructor
  · rintro ⟨i, hi⟩
    exact ⟨i, by rwa [Has, (h k i hi).1], (h k i hi).1⟩
  · rintro ⟨i, hi, rfl⟩
    exact ⟨i, hi⟩

theorem Within.keys_subset (hS : S.Within F) (hT : T.Within F) (hsub : ∀ i, S.Has i → T.Has i) :
    S.keys ⊆ T.keys := by
  intro k hk
  obtain ⟨i, hi, hid⟩ := hS.mem_keys.mp hk
  exact hT.mem_keys.mpr ⟨i, hsub i hi, hid⟩

theorem Within.size_le (hS : S.Within F) : S.size ≤ F.instrs.length := by
  have hsub : S.keys ⊆ F.instrs.map Instruction.id := by
    intro k hk
    obtain ⟨i, hi, rfl⟩ := hS.mem_keys.mp hk
    exact List.mem_map_of_mem (hS i.id i hi).2.1
  calc S.size = S.keys.length := Std.TreeMap.length_keys.symm
    _ ≤ (F.instrs.map Instruction.id).length := (Std.TreeMap.nodup_keys.subperm hsub).length_le
    _ = F.instrs.length := List.length_map _

/-- A set of stores that holds another one and is not larger is the same set. -/
theorem Within.has_of_size_le (hS : S.Within F) (hT : T.Within F) (hsub : ∀ i, S.Has i → T.Has i)
    (hsize : T.size ≤ S.size) (hi : T.Has i) : S.Has i := by
  have hperm : S.keys.Perm T.keys := by
    refine (Std.TreeMap.nodup_keys.subperm (hS.keys_subset hT hsub)).perm_of_length_le ?_
    rw [Std.TreeMap.length_keys, Std.TreeMap.length_keys]
    exact hsize
  obtain ⟨j, hj, hid⟩ := hS.mem_keys.mp (hperm.mem_iff.mpr (hT.mem_keys.mpr ⟨i, hi, rfl⟩))
  rwa [F.eq_of_id_eq (hT i.id i hi).2.1 (hS j.id j hj).2.1 hid.symm]

end InstSet

/-! ### Gen and kill -/

theorem mem_getRemVars {B : BasicBlock} {p : Value} :
    p ∈ (getRemVars B).toList ↔ ∃ i ∈ B.instrs, i.getStorePtr = some p := by
  rw [Std.TreeSet.mem_toList]
  unfold getRemVars
  induction B.instrs using List.reverseRecOn with
  | nil => simp
  | append_singleton is i ih =>
      rw [List.foldl_append, List.foldl_cons, List.foldl_nil]
      cases hp : i.getStorePtr with
      | none =>
          simp only [ih, List.mem_append, List.mem_singleton, or_and_right, exists_or, exists_eq_left, hp]
          simp
      | some q =>
          simp only [Std.TreeSet.mem_insert, ih, List.mem_append, List.mem_singleton, or_and_right, exists_or,
            exists_eq_left, hp, Option.some.injEq, Std.LawfulEqCmp.compare_eq_iff_eq, or_comm]

theorem lastStore_append_singleton {is : List Instruction} {i x : Instruction} {p : Value} :
    (∃ pre post, is ++ [x] = pre ++ i :: post ∧ ∀ j ∈ post, j.getStorePtr ≠ some p) ↔
      i = x ∨ x.getStorePtr ≠ some p ∧
        ∃ pre post, is = pre ++ i :: post ∧ ∀ j ∈ post, j.getStorePtr ≠ some p := by
  constructor
  · rintro ⟨pre, post, heq, hpost⟩
    rcases List.eq_nil_or_concat post with rfl | ⟨post, y, rfl⟩
    · obtain ⟨_, hx⟩ := List.append_inj' heq rfl
      exact .inl (List.singleton_inj.mp hx).symm
    · rw [List.concat_eq_append, ← List.cons_append, ← List.append_assoc] at heq
      obtain ⟨rfl, hx⟩ := List.append_inj' heq rfl
      obtain rfl := List.singleton_inj.mp hx
      rw [List.concat_eq_append] at hpost
      exact .inr ⟨hpost x (List.mem_append_right _ (.head _)), pre, post, rfl,
        fun j hj => hpost j (List.mem_append_left _ hj)⟩
  · rintro (rfl | ⟨hx, pre, post, rfl, hpost⟩)
    · exact ⟨is, [], rfl, nofun⟩
    · refine ⟨pre, post ++ [x], by rw [List.append_assoc, List.cons_append], fun j hj => ?_⟩
      rcases List.mem_append.mp hj with hj | hj
      · exact hpost j hj
      · rwa [List.mem_singleton.mp hj]

/-- The table of the last stores holds, at each pointer, the last store to it. -/
theorem getElem?_lastStores {is : List Instruction} {p : Value} {i : Instruction} :
    (is.foldl (fun (valToSt : Std.TreeMap Value Instruction) i =>
        match i.getStorePtr with
        | some stPtr => valToSt.insert stPtr i
        | none => valToSt) {})[p]? = some i ↔
      i.getStorePtr = some p ∧
        ∃ pre post, is = pre ++ i :: post ∧ ∀ j ∈ post, j.getStorePtr ≠ some p := by
  induction is using List.reverseRecOn with
  | nil => simp
  | append_singleton is x ih =>
      rw [List.foldl_append, List.foldl_cons, List.foldl_nil, lastStore_append_singleton]
      cases hx : x.getStorePtr with
      | none =>
          rw [ih]
          constructor
          · rintro ⟨hi, h⟩
            exact ⟨hi, .inr ⟨nofun, h⟩⟩
          · rintro ⟨hi, rfl | ⟨_, h⟩⟩
            · rw [hx] at hi
              cases hi
            · exact ⟨hi, h⟩
      | some q =>
          dsimp only
          rw [Std.TreeMap.getElem?_insert]
          by_cases hq : q = p
          · rw [if_pos (by simpa using hq)]
            constructor
            · intro heq
              obtain rfl := Option.some.inj heq
              exact ⟨by rw [hx, hq], .inl rfl⟩
            · rintro ⟨_, rfl | ⟨hne, _⟩⟩
              · rfl
              · exact absurd (congrArg some hq) hne
          · rw [if_neg (by simpa using hq), ih]
            constructor
            · rintro ⟨hi, h⟩
              exact ⟨hi, .inr ⟨fun heq => hq (Option.some.inj heq), h⟩⟩
            · rintro ⟨hi, rfl | ⟨_, h⟩⟩
              · rw [hx] at hi
                exact absurd (Option.some.inj hi) hq
              · exact ⟨hi, h⟩

section Block

variable {F : Function} {B : BasicBlock} {S T : InstSet} {i : Instruction}

theorem getGen_has (hB : B ∈ F.blocks) :
    (getGen B).Within F ∧ ∀ i, (getGen B).Has i ↔ B.LastStore i := by
  have hmem : ∀ (i : Instruction), i ∈ (B.instrs.foldl (fun (valToSt : Std.TreeMap Value Instruction) i =>
        match i.getStorePtr with
        | some stPtr => valToSt.insert stPtr i
        | none => valToSt) {}).values ↔ B.LastStore i := by
    intro i
    rw [InstSet.mem_values]
    exact exists_congr fun p => getElem?_lastStores
  obtain ⟨hin, hhas⟩ := (InstSet.within_empty F).insertAll fun i hi => by
    obtain ⟨p, hp, pre, post, heq, _⟩ := (hmem i).mp hi
    exact ⟨Function.mem_instrs.mpr ⟨B, hB, heq ▸ List.mem_append_right _ (.head _)⟩, by rw [hp]; rfl⟩
  refine ⟨hin, fun i => (hhas i).trans ?_⟩
  rw [hmem]
  exact or_iff_right (InstSet.not_has_empty i)

theorem killStores_ok (hS : S.Within F) (v : Value) :
    ∃ R, Erasing.killStores S v = .ok R ∧ R.Within F ∧ ∀ i, R.Has i ↔ S.Has i ∧ i.getStorePtr ≠ some v := by
  have hgen : ∀ (l : List (Value × Instruction)) (C : InstSet), C.Within F →
      (∀ p ∈ l, S[p.1]? = some p.2) →
      ∃ R, l.foldlM (fun (curReach : InstSet) p =>
          match p.2.getStorePtr with
          | none => (.error (.abort "reaching store with NULL pointer arg") : Except Stop InstSet)
          | some stPtr => .ok (if v = stPtr then curReach.erase p.1 else curReach)) C = .ok R ∧
        R.Within F ∧ ∀ i, R.Has i ↔ C.Has i ∧ ¬ (i ∈ l.map Prod.snd ∧ i.getStorePtr = some v) := by
    intro l
    induction l with
    | nil => exact fun C hC _ => ⟨C, rfl, hC, fun i => by simp⟩
    | cons p l ih =>
        intro C hC hl
        obtain ⟨hid, hmem, _⟩ := hS p.1 p.2 (hl p (.head _))
        obtain ⟨q, hq⟩ := Option.isSome_iff_exists.mp (hS p.1 p.2 (hl p (.head _))).2.2
        obtain ⟨hin, hhas⟩ : InstSet.Within (if v = q then C.erase p.1 else C) F ∧
            ∀ i, InstSet.Has (if v = q then C.erase p.1 else C) i ↔
              C.Has i ∧ ¬ (i = p.2 ∧ i.getStorePtr = some v) := by
          by_cases hv : v = q
          · rw [if_pos hv, ← hid]
            obtain ⟨hin, hhas⟩ := hC.erase hmem
            refine ⟨hin, fun i => (hhas i).trans (and_congr_right fun _ => not_congr ?_)⟩
            exact ⟨fun heq => ⟨heq, by rw [heq, hq, hv]⟩, And.left⟩
          · rw [if_neg hv]
            refine ⟨hC, fun i => (and_iff_left ?_).symm⟩
            rintro ⟨rfl, hi⟩
            rw [hq] at hi
            exact hv (Option.some.inj hi).symm
        obtain ⟨R, hR, hRin, hRhas⟩ := ih _ hin fun r hr => hl r (.tail _ hr)
        refine ⟨R, Fallible.foldlM_cons_eq_ok.mpr ⟨_, by rw [hq], hR⟩, hRin, fun i => (hRhas i).trans ?_⟩
        rw [hhas, List.map_cons, List.mem_cons, or_and_right, not_or, and_assoc]
  obtain ⟨R, hR, hin, hhas⟩ := hgen S.toList S hS fun p hp =>
    Std.TreeMap.mem_toList_iff_getElem?_eq_some.mp hp
  refine ⟨R, hR, hin, fun i => (hhas i).trans (and_congr_right fun hi => not_congr (and_iff_right ?_))⟩
  rw [← InstSet.values_eq_map]
  exact hS.has_iff.mp hi

theorem killAll_ok (vs : List Value) (hS : S.Within F) :
    ∃ R, vs.foldlM Erasing.killStores S = .ok R ∧ R.Within F ∧
      ∀ i, R.Has i ↔ S.Has i ∧ ∀ v ∈ vs, i.getStorePtr ≠ some v := by
  induction vs generalizing S with
  | nil => exact ⟨S, rfl, hS, fun i => by simp⟩
  | cons v vs ih =>
      obtain ⟨R, hR, hin, hhas⟩ := killStores_ok hS v
      obtain ⟨R', hR', hin', hhas'⟩ := ih hin
      refine ⟨R', Fallible.foldlM_cons_eq_ok.mpr ⟨R, hR, hR'⟩, hin', fun i => ?_⟩
      rw [hhas', hhas, List.forall_mem_cons, and_assoc]

end Block

/-! ### The equations -/

/-- The sets of stores at the ends of the blocks. -/
abbrev ReachOut := Std.TreeMap BlockId InstSet

namespace ReachOut

/-- A store is in the set at the end of a block. -/
def Out (m : ReachOut) (b : BlockId) (i : Instruction) : Prop :=
  ∃ S, m[b]? = some S ∧ S.Has i

/-- A store comes from a predecessor of a block. -/
def FlowsIn (F : Function) (m : ReachOut) (B : BasicBlock) (i : Instruction) : Prop :=
  ∃ P ∈ F.preds B, m.Out P.id i

/-- The right-hand side of the equation of a block. -/
def FlowsOut (F : Function) (m : ReachOut) (B : BasicBlock) (i : Instruction) : Prop :=
  B.LastStore i ∨ m.FlowsIn F B i ∧ B.Keeps i

end ReachOut

namespace Function

/-- The block at an address generates a store. -/
def GenAt (F : Function) (i : Instruction) (b : BlockId) : Prop :=
  ∃ B ∈ F.blocks, B.id = b ∧ B.LastStore i

/-- The block at an address keeps a store. -/
def KeepAt (F : Function) (i : Instruction) (b : BlockId) : Prop :=
  ∃ B ∈ F.blocks, B.id = b ∧ B.Keeps i

/-- A store reaches the end of a block. -/
def ReachesExit (F : Function) (i : Instruction) (b : BlockId) : Prop :=
  Flow.Reaches F.Edge (F.GenAt i) (F.KeepAt i) b

theorem mem_preds {F : Function} {B P : BasicBlock} : P ∈ F.preds B ↔ P ∈ F.blocks ∧ F.Edge P.id B.id := by
  unfold preds
  rw [List.mem_filter, List.contains_iff_mem]
  refine and_congr_right fun hP => ?_
  unfold Edge succsOf
  rw [block?_id hP]

end Function

namespace ReachOut

/-- What every pass of the loop keeps: each block has a set, the sets hold stores of the function that reach
the end of the block, and they are below the right-hand sides of the equations. -/
structure Inv (F : Function) (m : ReachOut) : Prop where
  keys : ∀ B ∈ F.blocks, ∃ S, m[B.id]? = some S
  within : ∀ (b : BlockId) S, m[b]? = some S → S.Within F
  sound : ∀ b i, m.Out b i → F.ReachesExit i b
  le : ∀ B ∈ F.blocks, ∀ i, m.Out B.id i → m.FlowsOut F B i

/-- The number of stores in all the sets. -/
def weight (F : Function) (m : ReachOut) : Nat :=
  (F.blocks.map fun B => ((m[B.id]?).map Std.TreeMap.size).getD 0).sum

variable {F : Function} {m : ReachOut} {B : BasicBlock} {S : InstSet}

theorem weight_le (h : Inv F m) : weight F m ≤ F.blocks.length * F.instrs.length := by
  unfold weight
  rw [← List.length_map (f := fun B : BasicBlock => ((m[B.id]?).map Std.TreeMap.size).getD 0)]
  refine List.sum_le_card_nsmul _ _ fun n hn => ?_
  obtain ⟨B, hB, rfl⟩ := List.mem_map.mp hn
  obtain ⟨S, hS⟩ := h.keys B hB
  rw [hS]
  exact (h.within _ _ hS).size_le

theorem out_insert (b : BlockId) (i : Instruction) :
    Out (m.insert B.id S) b i ↔ if B.id = b then S.Has i else m.Out b i := by
  unfold Out
  rw [Std.TreeMap.getElem?_insert]
  by_cases hb : B.id = b
  · rw [if_pos (by simpa using hb), if_pos hb]
    simp
  · rw [if_neg (by simpa using hb), if_neg hb]

/-- A larger set at a block makes the weight larger. -/
theorem weight_insert {T : InstSet} (hB : B ∈ F.blocks) (hT : m[B.id]? = some T) (hlt : T.size < S.size) :
    weight F m < weight F (m.insert B.id S) := by
  unfold weight
  refine List.sum_lt_sum _ _ (fun C hC => ?_) ⟨B, hB, ?_⟩
  · rw [Std.TreeMap.getElem?_insert]
    by_cases hb : B.id = C.id
    · rw [if_pos (by simpa using hb), ← hb, hT]
      exact hlt.le
    · rw [if_neg (by simpa using hb)]
  · rw [Std.TreeMap.getElem?_insert_self, hT]
    exact hlt

/-- The step of the invariant: a set that holds the old one and is the right-hand side of its equation. -/
theorem Inv.insert (h : Inv F m) (hB : B ∈ F.blocks) (hS : S.Within F)
    (hhas : ∀ i, S.Has i ↔ m.FlowsOut F B i) : Inv F (m.insert B.id S) := by
  have hmono : ∀ b i, m.Out b i → Out (m.insert B.id S) b i := by
    intro b i hi
    rw [out_insert]
    by_cases hb : B.id = b
    · rw [if_pos hb, hhas]
      exact h.le B hB i (hb ▸ hi)
    · rwa [if_neg hb]
  have hflow : ∀ C i, m.FlowsOut F C i → FlowsOut F (m.insert B.id S) C i := by
    intro C i hi
    refine hi.imp_right fun ⟨⟨P, hP, hPi⟩, hkeep⟩ => ⟨⟨P, hP, hmono _ _ hPi⟩, hkeep⟩
  have hsol : ∀ C ∈ F.blocks, ∀ i, m.FlowsOut F C i → F.ReachesExit i C.id := by
    intro C hC i hi
    rcases hi with hgen | ⟨⟨P, hP, hPi⟩, hkeep⟩
    · exact .gen ⟨C, hC, rfl, hgen⟩
    · exact .pass (h.sound _ _ hPi) (Function.mem_preds.mp hP).2 ⟨C, hC, rfl, hkeep⟩
  refine ⟨fun C hC => ?_, fun b T hT => ?_, fun b i hi => ?_, fun C hC i hi => ?_⟩
  · rw [Std.TreeMap.getElem?_insert]
    split_ifs
    · exact ⟨S, rfl⟩
    · exact h.keys C hC
  · rw [Std.TreeMap.getElem?_insert] at hT
    split_ifs at hT
    · cases hT
      exact hS
    · exact h.within b T hT
  · rw [out_insert] at hi
    by_cases hb : B.id = b
    · rw [if_pos hb, hhas] at hi
      exact hb ▸ hsol B hB i hi
    · rw [if_neg hb] at hi
      exact h.sound b i hi
  · rw [out_insert] at hi
    by_cases hb : B.id = C.id
    · rw [if_pos hb, hhas] at hi
      obtain rfl : B = C := List.inj_on_of_nodup_map F.blocks_nodup hB hC hb
      exact hflow B i hi
    · rw [if_neg hb] at hi
      exact hflow C i (h.le C hC i hi)

end ReachOut

/-! ### The loop -/

section Loop

variable {F : Function} {s : ReachState} {B : BasicBlock}

theorem reachingPreds_ok (hinv : ReachOut.Inv F s.reachOut) (B : BasicBlock) :
    ∃ S, reachingPreds F s B = .ok S ∧ S.Within F ∧ ∀ i, S.Has i ↔ ReachOut.FlowsIn F s.reachOut B i := by
  unfold reachingPreds
  refine Fallible.foldlM_ok (fun (done : List BasicBlock) (S : InstSet) =>
    S.Within F ∧ ∀ i, S.Has i ↔ ∃ P ∈ done, ReachOut.Out s.reachOut P.id i) ?_
    ⟨InstSet.within_empty F, fun i => by simp [InstSet.not_has_empty]⟩
  rintro done P S hP ⟨hwithin, hhas⟩
  obtain ⟨T, hT⟩ := hinv.keys P (Function.mem_preds.mp hP).1
  obtain ⟨hin, hunion⟩ := hwithin.union (hinv.within _ _ hT)
  refine ⟨_, by rw [mapAtUnsafe, hT]; rfl, hin, fun i => ?_⟩
  rw [hunion, hhas]
  simp only [List.mem_append, List.mem_singleton, or_and_right, exists_or, exists_eq_left]
  refine or_congr_right ⟨fun hi => ⟨T, hT, hi⟩, fun ⟨T', hT', hi⟩ => ?_⟩
  rw [hT] at hT'
  exact Option.some.inj hT' ▸ hi

/-- **One block**: its entry gets what flows in, and its end is closed or grows. -/
theorem reachBlock_ok (hinv : ReachOut.Inv F s.reachOut) (hB : B ∈ F.blocks) :
    ∃ s', Erasing.reachBlock F s B = .ok s' ∧ ReachOut.Inv F s'.reachOut ∧
      (∃ S, s'.reachIn = s.reachIn.insert B.id S ∧ S.Within F ∧
        ∀ i, S.Has i ↔ ReachOut.FlowsIn F s.reachOut B i) ∧
      (s'.reachOut = s.reachOut ∧ s'.updated = s.updated ∧
          (∀ i, ReachOut.FlowsOut F s.reachOut B i → ReachOut.Out s.reachOut B.id i) ∨
        s'.updated = true ∧ ReachOut.weight F s.reachOut < ReachOut.weight F s'.reachOut) := by
  obtain ⟨S, hS, hSin, hShas⟩ := reachingPreds_ok hinv B
  obtain ⟨R, hR, hRin, hRhas⟩ := killAll_ok (getRemVars B).toList hSin
  obtain ⟨hgin, hghas⟩ := getGen_has hB
  obtain ⟨hUin, hUhas⟩ := hRin.union hgin
  obtain ⟨T, hT⟩ := hinv.keys B hB
  set U := (getGen B).toList.foldl (fun r p => r.insert p.1 p.2) R
  have hkeep : ∀ i, S.Has i → ((∀ v ∈ (getRemVars B).toList, i.getStorePtr ≠ some v) ↔ B.Keeps i) := by
    intro i hi
    obtain ⟨p, hp⟩ := hSin.getStorePtr hi
    constructor
    · intro h j hj heq
      exact h p (mem_getRemVars.mpr ⟨j, hj, heq.trans hp⟩) hp
    · intro h v hv heq
      obtain ⟨j, hj, hjv⟩ := mem_getRemVars.mp hv
      exact h j hj (hjv.trans heq.symm)
  have hflow : ∀ i, U.Has i ↔ ReachOut.FlowsOut F s.reachOut B i := by
    intro i
    rw [hUhas, hRhas, hghas, or_comm]
    exact or_congr_right ((and_congr_right (hkeep i)).trans (and_congr_left' (hShas i)))
  have hrun : Erasing.reachBlock F s B = .ok (if U.size > T.size then
      ⟨s.reachOut.insert B.id U, s.reachIn.insert B.id S, true⟩
      else { s with reachIn := s.reachIn.insert B.id S }) := by
    unfold Erasing.reachBlock
    rw [hS]
    simp only [bind, Except.bind, hR, mapAtUnsafe, hT]
    split_ifs <;> rfl
  refine ⟨_, hrun, ?_⟩
  by_cases hsize : U.size > T.size
  · rw [if_pos hsize]
    exact ⟨hinv.insert hB hUin hflow, ⟨S, rfl, hSin, hShas⟩,
      .inr ⟨rfl, ReachOut.weight_insert hB hT hsize⟩⟩
  · rw [if_neg hsize]
    refine ⟨hinv, ⟨S, rfl, hSin, hShas⟩, .inl ⟨rfl, rfl, fun i hi => ⟨T, hT, ?_⟩⟩⟩
    -- the old set is below the new one and not smaller
    refine (hinv.within _ _ hT).has_of_size_le hUin (fun j hj => ?_) (Nat.not_lt.mp hsize) ((hflow i).mpr hi)
    exact (hflow j).mpr (hinv.le B hB j ⟨T, hT, hj⟩)

/-- What the loop has found when a pass changes nothing. -/
structure Settled (F : Function) (s : ReachState) : Prop where
  inv : ReachOut.Inv F s.reachOut
  closed : ∀ B ∈ F.blocks, ∀ i, ReachOut.FlowsOut F s.reachOut B i → ReachOut.Out s.reachOut B.id i
  reachIn : ∀ B ∈ F.blocks, ∃ S, s.reachIn[B.id]? = some S ∧ S.Within F ∧
    ∀ i, S.Has i ↔ ReachOut.FlowsIn F s.reachOut B i

/-- What holds in a pass that started in `s` and has come past the blocks `done`. -/
def Passed (F : Function) (s : ReachState) (done : List BasicBlock) (t : ReachState) : Prop :=
  ReachOut.Inv F t.reachOut ∧
    (t.updated = false ∧ t.reachOut = s.reachOut ∧ (∀ B ∈ done, B ∈ F.blocks ∧
        (∀ i, ReachOut.FlowsOut F s.reachOut B i → ReachOut.Out s.reachOut B.id i) ∧
        ∃ S, t.reachIn[B.id]? = some S ∧ S.Within F ∧
          ∀ i, S.Has i ↔ ReachOut.FlowsIn F s.reachOut B i) ∨
      t.updated = true ∧ ReachOut.weight F s.reachOut < ReachOut.weight F t.reachOut)

theorem Passed.step {t : ReachState} {done : List BasicBlock} (h : Passed F s done t) (hB : B ∈ F.blocks) :
    ∃ t', Erasing.reachBlock F t B = .ok t' ∧ Passed F s (done ++ [B]) t' := by
  obtain ⟨ht, hcases⟩ := h
  obtain ⟨t', hrun, ht', ⟨S, hin, hSin, hShas⟩, hstep⟩ := reachBlock_ok ht hB
  refine ⟨t', hrun, ht', ?_⟩
  rcases hcases with ⟨hu, hout, hdone⟩ | ⟨hu, hlt⟩
  · rcases hstep with ⟨hout', hu', hclosed⟩ | ⟨hu', hlt'⟩
    · refine .inl ⟨hu'.trans hu, hout'.trans hout, fun C hC => ?_⟩
      rw [hout] at hclosed hShas
      by_cases hid : B.id = C.id
      · have hCF : C ∈ F.blocks := (List.mem_append.mp hC).elim (fun h => (hdone C h).1)
          fun h => List.mem_singleton.mp h ▸ hB
        obtain rfl : B = C := List.inj_on_of_nodup_map F.blocks_nodup hB hCF hid
        exact ⟨hB, hclosed, S, by rw [hin, Std.TreeMap.getElem?_insert_self], hSin, hShas⟩
      · have hCd : C ∈ done := (List.mem_append.mp hC).resolve_right
          fun h => hid (List.mem_singleton.mp h ▸ rfl)
        obtain ⟨hCF, hCcl, hCin⟩ := hdone C hCd
        refine ⟨hCF, hCcl, ?_⟩
        rwa [hin, Std.TreeMap.getElem?_insert, if_neg (by simpa using hid)]
    · exact .inr ⟨hu', hout ▸ hlt'⟩
  · rcases hstep with ⟨hout', hu', _⟩ | ⟨hu', hlt'⟩
    · exact .inr ⟨hu'.trans hu, hout' ▸ hlt⟩
    · exact .inr ⟨hu', hlt.trans hlt'⟩

/-- **One pass** over the blocks settles the loop or makes the sets larger. -/
theorem reachRound_ok (hinv : ReachOut.Inv F s.reachOut) (hupd : s.updated = false) :
    ∃ s', F.blocks.foldlM (Erasing.reachBlock F) s = .ok s' ∧
      (s'.updated = false ∧ Settled F s' ∨
        s'.updated = true ∧ ReachOut.Inv F s'.reachOut ∧
          ReachOut.weight F s.reachOut < ReachOut.weight F s'.reachOut) := by
  have hround : ∃ s', F.blocks.foldlM (Erasing.reachBlock F) s = .ok s' ∧ Passed F s F.blocks s' :=
    Fallible.foldlM_ok (Passed F s) (fun _ _ _ hB h => h.step hB)
      ⟨hinv, .inl ⟨hupd, rfl, fun _ hB => absurd hB List.not_mem_nil⟩⟩
  obtain ⟨s', hs', hinv', h⟩ := hround
  refine ⟨s', hs', ?_⟩
  rcases h with ⟨hu, hout, hdone⟩ | ⟨hu, hlt⟩
  · refine .inl ⟨hu, hinv', fun B hB => ?_, fun B hB => ?_⟩
    · rw [hout]
      exact (hdone B hB).2.1
    · rw [hout]
      exact (hdone B hB).2.2
  · exact .inr ⟨hu, hinv', hlt⟩

/-- **The loop ends** once the sets have all the stores of the function, and what it has found is settled. -/
theorem reachLoop_ok (hinv : ReachOut.Inv F s.reachOut) {fuel : Nat}
    (hfuel : F.blocks.length * F.instrs.length < ReachOut.weight F s.reachOut + fuel) :
    ∃ s', Erasing.reachLoop F fuel s = .ok s' ∧ Settled F s' := by
  induction fuel generalizing s with
  | zero => exact absurd (ReachOut.weight_le hinv) (by omega)
  | succ fuel ih =>
      obtain ⟨s', hs', hcases⟩ := reachRound_ok (s := { s with updated := false }) hinv rfl
      have hrun : Erasing.reachLoop F (fuel + 1) s =
          if s'.updated then Erasing.reachLoop F fuel s' else .ok s' := by
        rw [Erasing.reachLoop, hs']
        simp only [bind, Except.bind, liftStop]
        split_ifs <;> rfl
      rcases hcases with ⟨hu, hsettled⟩ | ⟨hu, hinv', hlt⟩
      · exact ⟨s', by rw [hrun, hu]; rfl, hsettled⟩
      · rw [hrun, hu]
        refine ih hinv' ?_
        have : ReachOut.weight F s.reachOut < ReachOut.weight F s'.reachOut := hlt
        omega

end Loop

/-! ### Paths and the equations -/

namespace Function

variable {F : Function} {s i : Instruction} {v : Value}

/-- A walk without another store carries a store to the end of each block on it. -/
theorem reachesExit_of_walk {p : Value} (hp : s.getStorePtr = some p) {P : BasicBlock} (hP : P ∈ F.blocks)
    {pre post : List Instruction} (hinstrs : P.instrs = pre ++ s :: post) {π : List BlockId} {b : BlockId}
    (hwalk : Flow.Walk F.Edge P.id π b) (hb : b ∈ F.blocks.map BasicBlock.id)
    (hother : ∀ i ∈ post ++ (π ++ [b]).tail.flatMap F.instrsOf, i.getStorePtr = some p → i = s) :
    F.ReachesExit s b := by
  have hgen : F.GenAt s P.id := by
    refine ⟨P, hP, rfl, p, hp, pre, post, hinstrs, fun j hj heq => ?_⟩
    obtain rfl := hother j (List.mem_append_left _ hj) heq
    have hnodup := instrs_nodup_of_mem hP
    rw [hinstrs] at hnodup
    exact (not_mem_of_nodup_middle hnodup).2 hj
  induction hwalk with
  | start => exact .gen hgen
  | @step π a b _ hs ih =>
      rw [List.tail_append_of_ne_nil (by simp), List.flatMap_append, ← List.append_assoc] at hother
      have hprev := ih (List.mem_map.mpr (edge_mem hs)) fun i hi => hother i (List.mem_append_left _ hi)
      obtain ⟨B, hB, rfl⟩ := List.mem_map.mp hb
      rw [List.flatMap_singleton, instrsOf_id hB] at hother
      by_cases hsB : s ∈ B.instrs
      · obtain rfl : P = B := F.block_unique hP hB (hinstrs ▸ List.mem_append_right _ (.head _)) hsB
        exact .gen hgen
      · refine .pass hprev hs ⟨B, hB, rfl, fun j hj heq => hsB ?_⟩
        rwa [← hother j (List.mem_append_right _ hj) (heq.trans hp)]

/-- **A store reaches the entry of a block when it reaches the end of a predecessor.** -/
theorem reachesEntry_iff {B : BasicBlock} :
    F.ReachesEntry s B.id ↔ ∃ P ∈ F.preds B, F.ReachesExit s P.id := by
  constructor
  · rintro ⟨p, hp, P, hP, pre, post, π, hinstrs, hwalk, hother⟩
    generalize hπ : P.id :: π = π' at hwalk
    generalize hid : B.id = b at hwalk
    cases hwalk with
    | start => cases hπ
    | @step π₀ a b hw hs =>
        obtain ⟨A, hA, rfl⟩ := edge_mem hs
        refine ⟨A, mem_preds.mpr ⟨hA, hid ▸ hs⟩, reachesExit_of_walk hp hP hinstrs hw (List.mem_map_of_mem hA) ?_⟩
        rwa [← hπ]
  · rintro ⟨P, hP, hreach⟩
    obtain ⟨a, ⟨A, hA, rfl, p, hp, pre, post, hinstrs, hlast⟩, π, hw, hkeep⟩ := Flow.reaches_iff_walk.mp hreach
    have hwalk := hw.step (mem_preds.mp hP).2
    rcases hwalk.head with ⟨hnil, _⟩ | ⟨c, π', _, hπ, _⟩
    · simp at hnil
    rw [hπ] at hwalk hkeep
    refine ⟨p, hp, A, hA, pre, post, π', hinstrs, hwalk, fun i hi heq => ?_⟩
    rcases List.mem_append.mp hi with hi | hi
    · exact absurd heq (hlast i hi)
    · obtain ⟨b, hb, hib⟩ := List.mem_flatMap.mp hi
      obtain ⟨C, hC, rfl, hkeepC⟩ := hkeep b hb
      rw [instrsOf_id hC] at hib
      exact absurd (heq.trans hp.symm) (hkeepC i hib)

end Function

/-- Settled sets are the exact ones. -/
theorem Settled.out_iff {F : Function} {s : ReachState} (h : Settled F s) (b : BlockId)
    (i : Instruction) : ReachOut.Out s.reachOut b i ↔ F.ReachesExit i b := by
  refine ⟨h.inv.sound _ _, fun hreach => ?_⟩
  refine Flow.Reaches.of_closed (fun b => ReachOut.Out s.reachOut b i) ?_ ?_ hreach
  · rintro b ⟨C, hC, rfl, hgen⟩
    exact h.closed C hC i (.inl hgen)
  · rintro a b ha hs ⟨C, hC, rfl, hkeep⟩
    obtain ⟨A, hA, rfl⟩ := Function.edge_mem hs
    exact h.closed C hC i (.inr ⟨⟨A, Function.mem_preds.mpr ⟨hA, hs⟩, ha⟩, hkeep⟩)

/-- The start of the loop satisfies the invariant. -/
theorem inv_initial (F : Function) : ReachOut.Inv F (Erasing.initial F).reachOut := by
  have hget : ∀ (l : List BasicBlock) (m : ReachOut) (b : BlockId),
      (l.foldl (fun m B => m.insert B.id ({} : InstSet)) m)[b]? =
        if b ∈ l.map BasicBlock.id then some {} else m[b]? := by
    intro l
    induction l with
    | nil => exact fun m b => by simp
    | cons B l ih =>
        intro m b
        rw [List.foldl_cons, ih, Std.TreeMap.getElem?_insert, List.map_cons]
        by_cases hb : b ∈ l.map BasicBlock.id
        · rw [if_pos hb, if_pos (.tail _ hb)]
        · by_cases hid : B.id = b
          · rw [if_neg hb, if_pos (by simpa using hid), if_pos (List.mem_cons.mpr (.inl hid.symm))]
          · rw [if_neg hb, if_neg (by simpa using hid), if_neg]
            exact fun h => (List.mem_cons.mp h).elim (fun h => hid h.symm) hb
  have hnone : ∀ (b : BlockId) (S : InstSet), (Erasing.initial F).reachOut[b]? = some S → S = {} := by
    intro b S hS
    unfold Erasing.initial at hS
    rw [hget] at hS
    split_ifs at hS with h
    · exact (Option.some.inj hS).symm
    · simp at hS
  have hout : ∀ b i, ¬ ReachOut.Out (Erasing.initial F).reachOut b i := by
    rintro b i ⟨S, hS, hi⟩
    rw [hnone b S hS] at hi
    exact InstSet.not_has_empty i hi
  refine ⟨fun B hB => ⟨{}, ?_⟩, fun b S hS => ?_, fun b i hi => absurd hi (hout b i),
    fun B _ i hi => absurd hi (hout B.id i)⟩
  · unfold Erasing.initial
    rw [hget, if_pos (List.mem_map_of_mem hB)]
  · rw [hnone b S hS]
    exact InstSet.within_empty F

/-- **The loop ends and finds the stores that reach each block.** -/
theorem Erasing.getReachingStores_ok (F : Function) {fuel : Nat}
    (hfuel : F.blocks.length * F.instrs.length < fuel) :
    ∃ reachIn, Erasing.getReachingStores F fuel = .ok reachIn ∧ ∀ B ∈ F.blocks,
      ∃ S : InstSet, reachIn[B.id]? = some S ∧ ∀ s, s ∈ S.values ↔ F.ReachesEntry s B.id := by
  have hweight : F.blocks.length * F.instrs.length <
      ReachOut.weight F (Erasing.initial F).reachOut + fuel := by omega
  obtain ⟨s, hs, hsettled⟩ := reachLoop_ok (inv_initial F) hweight
  refine ⟨s.reachIn, by rw [Erasing.getReachingStores, hs]; rfl, fun B hB => ?_⟩
  obtain ⟨S, hS, hSin, hShas⟩ := hsettled.reachIn B hB
  refine ⟨S, hS, fun i => ?_⟩
  rw [← hSin.has_iff, hShas, Function.reachesEntry_iff]
  exact exists_congr fun P => and_congr_right fun _ => hsettled.out_iff P.id i

/-! ### The stores before an instruction -/

theorem Module.parent?_mem {M : Module} {i : Instruction} {q : Function × BasicBlock} (h : M.parent? i = some q) :
    q.1 ∈ M.functions ∧ q.2 ∈ q.1.blocks ∧ i ∈ q.2.instrs := by
  obtain ⟨G, hG, hq⟩ := List.exists_of_findSome?_eq_some h
  obtain ⟨c, hc, rfl⟩ := Option.map_eq_some_iff.mp hq
  have hcontains : c.instrs.contains i = true := List.find?_some (p := fun B : BasicBlock => B.instrs.contains i) hc
  exact ⟨hG, List.mem_of_find?_eq_some hc, List.contains_iff_mem.mp hcontains⟩

/-- The function and the block of an instruction of a module. -/
theorem Module.parent?_eq {M : Module} {F : Function} {b : BasicBlock} {i : Instruction} (hF : F ∈ M.functions)
    (hb : b ∈ F.blocks) (hi : i ∈ b.instrs) : M.parent? i = some (F, b) := by
  have hiF : i ∈ F.instrs := Function.mem_instrs.mpr ⟨b, hb, hi⟩
  cases hp : M.parent? i with
  | none =>
      have hnone := List.findSome?_eq_none_iff.mp hp F hF
      rw [Option.map_eq_none_iff, List.find?_eq_none] at hnone
      exact absurd (List.contains_iff_mem.mpr hi) (hnone b hb)
  | some q =>
      obtain ⟨G, c⟩ := q
      obtain ⟨hG, hcG, hic⟩ := M.parent?_mem hp
      obtain rfl : G = F := M.function_unique hG hF (Function.mem_instrs.mpr ⟨c, hcG, hic⟩) hiF
      obtain rfl : c = b := G.block_unique hcG hb hic hi
      rfl

section PrevStore

variable {b : BasicBlock} {i s : Instruction} {v : Value} {pre post : List Instruction}

theorem prevStore_eq (hinstrs : b.instrs = pre ++ i :: post) (hi : i ∉ pre) :
    prevStore b i v = (pre.filter fun bbi => bbi.getStorePtr == some v).getLast? := by
  rw [prevStore, hinstrs, Function.takeWhile_ne_middle hi]

theorem prevStore_eq_none (hinstrs : b.instrs = pre ++ i :: post) (hi : i ∉ pre) :
    prevStore b i v = none ↔ ∀ j ∈ pre, j.getStorePtr ≠ some v := by
  rw [prevStore_eq hinstrs hi, List.getLast?_eq_none_iff, List.filter_eq_nil_iff]
  simp

theorem prevStore_eq_some (hinstrs : b.instrs = pre ++ i :: post) (hi : i ∉ pre) :
    prevStore b i v = some s ↔ s.getStorePtr = some v ∧
      ∃ us vs, pre = us ++ s :: vs ∧ ∀ j ∈ vs, j.getStorePtr ≠ some v := by
  rw [prevStore_eq hinstrs hi, List.getLast?_eq_head?_reverse, ← List.filter_reverse, List.head?_filter,
    List.find?_eq_some_iff_append, beq_iff_eq]
  refine and_congr_right fun _ => ?_
  constructor
  · rintro ⟨as, bs, heq, has⟩
    refine ⟨bs.reverse, as.reverse, ?_, fun j hj => ?_⟩
    · rw [← List.reverse_reverse pre, heq]
      simp
    · simpa using has j (List.mem_reverse.mp hj)
  · rintro ⟨us, vs, rfl, hvs⟩
    refine ⟨vs.reverse, us.reverse, by simp, fun j hj => ?_⟩
    simpa using hvs j (List.mem_reverse.mp hj)

end PrevStore

namespace Function

variable {F : Function} {b : BasicBlock} {s i : Instruction} {v : Value} {pre post : List Instruction}

/-- An instruction stands at one place of its function. -/
theorem place_unique (hb : b ∈ F.blocks) (hinstrs : b.instrs = pre ++ i :: post) {b' : BasicBlock}
    {pre' post' : List Instruction} (hb' : b' ∈ F.blocks) (hinstrs' : b'.instrs = pre' ++ i :: post') :
    b' = b ∧ pre' = pre := by
  obtain rfl : b' = b := F.block_unique hb' hb (hinstrs' ▸ List.mem_append_right _ (.head _))
    (hinstrs ▸ List.mem_append_right _ (.head _))
  refine ⟨rfl, ?_⟩
  have hnodup := instrs_nodup_of_mem hb
  have hpre : i ∉ pre := (not_mem_of_nodup_middle (hinstrs ▸ hnodup)).1
  have hpre' : i ∉ pre' := (not_mem_of_nodup_middle (hinstrs' ▸ hnodup)).1
  calc pre' = (pre' ++ i :: post').takeWhile (· ≠ i) := (takeWhile_ne_middle hpre').symm
    _ = (pre ++ i :: post).takeWhile (· ≠ i) := by rw [← hinstrs', hinstrs]
    _ = pre := takeWhile_ne_middle hpre

theorem reachesInst_iff (hb : b ∈ F.blocks) (hinstrs : b.instrs = pre ++ i :: post) :
    F.ReachesInst s v i ↔ s.getStorePtr = some v ∧
      ((∃ us vs, pre = us ++ s :: vs ∧ ∀ j ∈ vs, j.getStorePtr ≠ some v) ∨
        F.ReachesEntry s b.id ∧ ∀ j ∈ pre, j.getStorePtr = some v → j = s) := by
  refine and_congr_right fun _ => ⟨?_, fun h => ⟨b, hb, pre, post, hinstrs, h⟩⟩
  rintro ⟨b', hb', pre', post', hinstrs', h⟩
  obtain ⟨rfl, rfl⟩ := place_unique hb hinstrs hb' hinstrs'
  exact h

/-- A store of the own block before an instruction is the only one that reaches it. -/
theorem reachesInst_of_prevStore (hb : b ∈ F.blocks) (hinstrs : b.instrs = pre ++ i :: post) {st : Instruction}
    (h : prevStore b i v = some st) : F.ReachesInst s v i ↔ s = st := by
  have hi : i ∉ pre := (not_mem_of_nodup_middle (hinstrs ▸ instrs_nodup_of_mem hb)).1
  obtain ⟨hst, us, vs, hpre, hvs⟩ := (prevStore_eq_some hinstrs hi).mp h
  rw [reachesInst_iff hb hinstrs]
  constructor
  · rintro ⟨hs, ⟨us', vs', hpre', hvs'⟩ | ⟨_, honly⟩⟩
    · exact Option.some.inj (((prevStore_eq_some hinstrs hi).mpr ⟨hs, us', vs', hpre', hvs'⟩).symm.trans h)
    · exact (honly st (hpre ▸ List.mem_append_right _ (.head _)) hst).symm
  · rintro rfl
    exact ⟨hst, .inl ⟨us, vs, hpre, hvs⟩⟩

theorem reachesInst_of_no_prevStore (hb : b ∈ F.blocks) (hinstrs : b.instrs = pre ++ i :: post)
    (h : prevStore b i v = none) : F.ReachesInst s v i ↔ F.ReachesEntry s b.id ∧ s.getStorePtr = some v := by
  have hi : i ∉ pre := (not_mem_of_nodup_middle (hinstrs ▸ instrs_nodup_of_mem hb)).1
  have hnone := (prevStore_eq_none hinstrs hi).mp h
  rw [reachesInst_iff hb hinstrs, and_comm]
  refine and_congr_left fun hs => ⟨?_, fun hentry => .inr ⟨hentry, fun j hj hv => absurd hv (hnone j hj)⟩⟩
  rintro (⟨us, vs, rfl, _⟩ | ⟨hentry, _⟩)
  · exact absurd hs (hnone s (List.mem_append_right _ (.head _)))
  · exact hentry

end Function

/-- **The stores before an instruction** are those that a path leads from without another store. -/
theorem Erasing.getPreviousStores_ok {M : Module} {F : Function} (hF : F ∈ M.functions) {i : Instruction}
    (hi : i ∈ F.instrs) (v : Value) {fuel : Nat} (hfuel : F.blocks.length * F.instrs.length < fuel) :
    ∃ sts, Erasing.getPreviousStores M i v fuel = .ok sts ∧ ∀ s, s ∈ sts ↔ F.ReachesInst s v i := by
  obtain ⟨b, hb, hib⟩ := Function.mem_instrs.mp hi
  obtain ⟨pre, post, hinstrs⟩ := List.append_of_mem hib
  unfold Erasing.getPreviousStores
  rw [Module.parent?_eq hF hb hib]
  dsimp only
  cases hprev : prevStore b i v with
  | some st =>
      refine ⟨[st], rfl, fun s => ?_⟩
      rw [List.mem_singleton, Function.reachesInst_of_prevStore hb hinstrs hprev]
  | none =>
      obtain ⟨reachIn, hrun, hreach⟩ := Erasing.getReachingStores_ok F hfuel
      obtain ⟨S, hS, hvalues⟩ := hreach b hb
      refine ⟨S.values.filter fun st => st.getStorePtr == some v, ?_, fun s => ?_⟩
      · rw [hrun]
        simp only [bind, Except.bind, mapAtUnsafe, hS, liftM, monadLift, MonadLift.monadLift, liftStop]
        rfl
      · rw [Function.reachesInst_of_no_prevStore hb hinstrs hprev, List.mem_filter, hvalues, beq_iff_eq]

theorem Erasing.reachLoop_mono {F : Function} {fuel more : Nat} {s s' : ReachState}
    (h : Erasing.reachLoop F fuel s = .ok s') : Erasing.reachLoop F (fuel + more) s = .ok s' := by
  induction fuel generalizing s with
  | zero => cases h
  | succ fuel ih =>
      rw [Nat.add_right_comm]
      unfold Erasing.reachLoop at h ⊢
      obtain ⟨t, ht, h⟩ := bind_eq_ok.mp h
      refine bind_eq_ok.mpr ⟨t, ht, ?_⟩
      split_ifs at h ⊢
      · exact ih h
      · exact h

theorem Erasing.getPreviousStores_mono {M : Module} {i : Instruction} {v : Value} {fuel more : Nat}
    {sts : List Instruction} (h : Erasing.getPreviousStores M i v fuel = .ok sts) :
    Erasing.getPreviousStores M i v (fuel + more) = .ok sts := by
  unfold Erasing.getPreviousStores at h ⊢
  cases hp : M.parent? i with
  | none => simp [hp] at h
  | some q =>
      rw [hp] at h
      dsimp only at h ⊢
      cases hprev : prevStore q.2 i v with
      | some st =>
          rw [hprev] at h
          exact h
      | none =>
          rw [hprev] at h
          obtain ⟨r, hr, h⟩ := bind_eq_ok.mp h
          obtain ⟨s, hs, hr⟩ := bind_eq_ok.mp hr
          exact bind_eq_ok.mpr ⟨r, bind_eq_ok.mpr ⟨s, Erasing.reachLoop_mono hs, hr⟩, h⟩

/-- Whatever the fuel, a result is the exact set. -/
theorem Erasing.mem_getPreviousStores {M : Module} {i : Instruction} {v : Value} {fuel : Nat}
    {sts : List Instruction} (h : Erasing.getPreviousStores M i v fuel = .ok sts) :
    ∃ F ∈ M.functions, i ∈ F.instrs ∧ ∀ s, s ∈ sts ↔ F.ReachesInst s v i := by
  cases hp : M.parent? i with
  | none =>
      unfold Erasing.getPreviousStores at h
      simp [hp] at h
  | some q =>
      obtain ⟨hF, hb, hib⟩ := M.parent?_mem hp
      have hi : i ∈ q.1.instrs := Function.mem_instrs.mpr ⟨q.2, hb, hib⟩
      obtain ⟨sts', hsts', hmem⟩ := Erasing.getPreviousStores_ok hF hi v
        (Nat.lt_add_left fuel (Nat.lt_succ_self (q.1.blocks.length * q.1.instrs.length)))
      obtain rfl := Except.ok.inj ((Erasing.getPreviousStores_mono h).symm.trans hsts')
      exact ⟨q.1, hF, hi, hmem⟩

/-- **The reaching stores are exact.** -/
theorem reachingStores_exact (M : Module) (F : Function) (hF : F ∈ M.functions) (fuel : Nat)
    (hfuel : F.blocks.length * F.instrs.length < fuel) :
    (∃ reachIn, Erasing.getReachingStores F fuel = .ok reachIn ∧ ∀ B ∈ F.blocks,
      ∃ S : InstSet, reachIn[B.id]? = some S ∧ ∀ s, s ∈ S.values ↔ F.ReachesEntry s B.id) ∧
    ∀ i ∈ F.instrs, ∀ v, ∃ sts, Erasing.getPreviousStores M i v fuel = .ok sts ∧
      (∀ s, s ∈ sts ↔ F.ReachesInst s v i) ∧
      ∀ b ∈ F.blocks, ∀ us s vs post, b.instrs = us ++ s :: vs ++ i :: post → s.getStorePtr = some v →
        (∀ j ∈ vs, j.getStorePtr ≠ some v) → sts = [s] := by
  refine ⟨Erasing.getReachingStores_ok F hfuel, fun i hi v => ?_⟩
  obtain ⟨sts, hsts, hmem⟩ := Erasing.getPreviousStores_ok hF hi v hfuel
  refine ⟨sts, hsts, hmem, fun b hb us s vs post hinstrs hs hvs => ?_⟩
  have hib : i ∈ b.instrs := hinstrs ▸ List.mem_append_right _ (.head _)
  have hi' : i ∉ us ++ s :: vs :=
    (Function.not_mem_of_nodup_middle (hinstrs ▸ Function.instrs_nodup_of_mem hb)).1
  rw [Erasing.getPreviousStores, Module.parent?_eq hF hb hib] at hsts
  dsimp only at hsts
  rw [(prevStore_eq_some hinstrs hi').mpr ⟨hs, us, vs, rfl, hvs⟩] at hsts
  exact (Except.ok.inj hsts).symm

namespace StoreInLoop

def before : Instruction := ⟨1, .store (.constantInt ⟨32, 1⟩) 50, none, []⟩
def test : Instruction := ⟨3, .load 50, some 32, []⟩
def inside : Instruction := ⟨5, .store (.constantInt ⟨32, 2⟩) 50, none, []⟩

/-- `store p 1; while (load p) store p 2;` -/
def main : Function :=
  .ofBlocks 70
    [.ofInstrs 100 [before] ⟨2, .br 101, none, []⟩,
      .ofInstrs 101 [test] ⟨4, .condBr (.value 3) 102 103, none, []⟩,
      .ofInstrs 102 [inside] ⟨6, .br 101, none, []⟩, .ofInstrs 103 [] ⟨7, .ret, none, []⟩]

def program : Module :=
  .ofFunctions [main] [⟨50, some .other⟩] (some 70)

end StoreInLoop

theorem reachingStores_exact_loop :
    StoreInLoop.main.ReachesInst StoreInLoop.before 50 StoreInLoop.test ∧
      StoreInLoop.main.ReachesInst StoreInLoop.inside 50 StoreInLoop.test := by
  have hF : StoreInLoop.main ∈ StoreInLoop.program.functions := .head _
  have hi : StoreInLoop.test ∈ StoreInLoop.main.instrs := by decide
  obtain ⟨_, hprev⟩ := reachingStores_exact StoreInLoop.program StoreInLoop.main hF 29 (by decide)
  obtain ⟨sts, hsts, hmem, _⟩ := hprev StoreInLoop.test hi 50
  have hrun : Erasing.getPreviousStores StoreInLoop.program StoreInLoop.test 50 29 =
      .ok [StoreInLoop.before, StoreInLoop.inside] := by rfl
  obtain rfl := Except.ok.inj (hrun.symm.trans hsts)
  exact ⟨(hmem _).mp (.head _), (hmem _).mp (.tail _ (.head _))⟩

/-! ### The loop that stops at an erasure -/

/-- Where the loop of the source meets no store to erase, the erasing one does the same. -/
theorem Erasing.killStores_eq {S : InstSet} {v : Value} {u : Unit}
    (h : S.values.forM (fun curSt => killStore v curSt) = .ok u) : Erasing.killStores S v = .ok S := by
  have hgen : ∀ (l : List (Value × Instruction)) (C : InstSet),
      (l.map Prod.snd).forM (fun curSt => killStore v curSt) = .ok u →
      l.foldlM (fun (curReach : InstSet) p =>
          match p.2.getStorePtr with
          | none => (.error (.abort "reaching store with NULL pointer arg") : Except Stop InstSet)
          | some stPtr => .ok (if v = stPtr then curReach.erase p.1 else curReach)) C = .ok C := by
    intro l
    induction l with
    | nil => exact fun _ _ => rfl
    | cons p l ih =>
        intro C hl
        rw [List.map_cons, List.forM_eq_forM, List.forM_cons] at hl
        obtain ⟨_, hp, hl⟩ := bind_eq_ok.mp hl
        refine Fallible.foldlM_cons_eq_ok.mpr ⟨C, ?_, ih C hl⟩
        unfold killStore at hp
        cases hptr : p.2.getStorePtr with
        | none => simp [hptr] at hp
        | some q =>
            rw [hptr] at hp
            dsimp only at hp ⊢
            split_ifs at hp with hv
            rw [if_neg hv]
  rw [InstSet.values_eq_map] at h
  exact hgen S.toList S h

theorem Erasing.reachBlock_eq {F : Function} {s s' : ReachState} {B : BasicBlock}
    (h : Watts.reachBlock F s B = .ok s') : Erasing.reachBlock F s B = .ok s' := by
  unfold Watts.reachBlock at h
  unfold Erasing.reachBlock
  obtain ⟨S, hS, h⟩ := bind_eq_ok.mp h
  obtain ⟨u, hkill, h⟩ := bind_eq_ok.mp h
  have hkeep : (getRemVars B).toList.foldlM Erasing.killStores S = .ok S := by
    generalize (getRemVars B).toList = vs at hkill
    induction vs with
    | nil => rfl
    | cons v vs ih =>
        rw [List.forM_eq_forM, List.forM_cons] at hkill
        obtain ⟨_, hv, hkill⟩ := bind_eq_ok.mp hkill
        exact Fallible.foldlM_cons_eq_ok.mpr ⟨S, Erasing.killStores_eq hv, ih hkill⟩
  exact bind_eq_ok.mpr ⟨S, hS, bind_eq_ok.mpr ⟨S, hkeep, h⟩⟩

theorem Erasing.reachLoop_eq {F : Function} {fuel : Nat} {s s' : ReachState}
    (h : Watts.reachLoop F fuel s = .ok s') : Erasing.reachLoop F fuel s = .ok s' := by
  induction fuel generalizing s with
  | zero => cases h
  | succ fuel ih =>
      unfold Watts.reachLoop at h
      unfold Erasing.reachLoop
      obtain ⟨t, ht, h⟩ := bind_eq_ok.mp h
      have hround : ∀ (l : List BasicBlock) (s₀ : ReachState), l.foldlM (Watts.reachBlock F) s₀ = .ok t →
          l.foldlM (Erasing.reachBlock F) s₀ = .ok t := by
        intro l
        induction l with
        | nil => exact fun _ hl => hl
        | cons B l ih' =>
            intro s₀ hl
            obtain ⟨s₁, hB, hl⟩ := Fallible.foldlM_cons_eq_ok.mp hl
            exact Fallible.foldlM_cons_eq_ok.mpr ⟨s₁, Erasing.reachBlock_eq hB, ih' s₁ hl⟩
      have ht' := liftStop_eq_ok.mpr (hround _ _ (liftStop_eq_ok.mp ht))
      refine bind_eq_ok.mpr ⟨t, ht', ?_⟩
      split_ifs at h ⊢
      · exact ih h
      · exact h

theorem Erasing.getReachingStores_eq {F : Function} {fuel : Nat} {r : Std.TreeMap BlockId InstSet}
    (h : Watts.getReachingStores F fuel = .ok r) : Erasing.getReachingStores F fuel = .ok r := by
  unfold Watts.getReachingStores at h
  unfold Erasing.getReachingStores
  obtain ⟨s, hs, h⟩ := bind_eq_ok.mp h
  exact bind_eq_ok.mpr ⟨s, Erasing.reachLoop_eq hs, h⟩

/-- **What the source returns without such an erasure** is what the erasing loop returns. -/
theorem Erasing.getPreviousStores_eq {M : Module} {i : Instruction} {v : Value} {fuel : Nat}
    {sts : List Instruction} (h : Watts.getPreviousStores M i v fuel = .ok sts) :
    Erasing.getPreviousStores M i v fuel = .ok sts := by
  unfold Watts.getPreviousStores at h
  unfold Erasing.getPreviousStores
  cases hp : M.parent? i with
  | none => simp [hp] at h
  | some q =>
      rw [hp] at h
      dsimp only at h ⊢
      cases hprev : prevStore q.2 i v with
      | some st =>
          rw [hprev] at h
          exact h
      | none =>
          rw [hprev] at h
          obtain ⟨r, hr, h⟩ := bind_eq_ok.mp h
          exact bind_eq_ok.mpr ⟨r, Erasing.getReachingStores_eq hr, h⟩

end Watts
