import Watts.Books
import Watts.BoxSound
import Watts.Library.Fallible

/-! The slicing options.  The walk through a block decides for each instruction whether it is executed
through `transfer_func` or through `identity_transfer_func`, which leaves the fact as it is and is to keep
the same bookkeeping. -/

namespace Watts

variable {ap : Apron}

/-! ### The bookkeeping of the two functions -/

/-- The later map keeps each fact of the earlier one, or joins another fact to it. -/
def Enlarged (m m' : Std.TreeMap Value (LatticeFact ap)) : Prop :=
  ∀ (k : Value) old, m[k]? = some old → m'[k]? = some old ∨ ∃ f : LatticeFact ap, m'[k]? = some (f.factJoin old)

namespace Books

/-- From the input fact `f` and the bookkeeping `bk`: the results `t` of `transfer_func` and `s` of
`identity_transfer_func` have added the same keys, and the second has kept all that was there. -/
structure Same (f : LatticeFact ap) (bk : Books ap) (t s : LatticeFact ap × Books ap) : Prop where
  fact : s.1 = f
  reachStores : ∀ k, (k ∈ s.2.reachStores ∧ k ∉ bk.reachStores) ↔ (k ∈ t.2.reachStores ∧ k ∉ bk.reachStores)
  rErrors : ∀ k, (k ∈ s.2.rErrors ∧ k ∉ bk.rErrors) ↔ (k ∈ t.2.rErrors ∧ k ∉ bk.rErrors)
  reachThreadCreate : ∀ k, (k ∈ s.2.reachThreadCreate ∧ k ∉ bk.reachThreadCreate) ↔
    (k ∈ t.2.reachThreadCreate ∧ k ∉ bk.reachThreadCreate)
  storesEnlarged : Enlarged bk.reachStores s.2.reachStores
  createsEnlarged : Enlarged bk.reachThreadCreate s.2.reachThreadCreate
  errorsKept : ∀ k ∈ bk.rErrors, k ∈ s.2.rErrors

/-- An `atomicrmw` that is not among the reached stores yet, or an error that is not among the reached
errors. -/
def Unrecorded (bk : Books ap) (i : Instruction) : Prop :=
  match i.kind with
  | .atomicRMW .. => i.id ∉ bk.reachStores
  | .call .assertFail => i.id ∉ bk.rErrors
  | _ => False

end Books

namespace BBOps

theorem joinInto_enlarged (m : Std.TreeMap Value (LatticeFact ap)) (i : Value) (f : LatticeFact ap) :
    Enlarged m (joinInto m i f) := by
  intro k old hold
  by_cases hk : k = i
  · subst hk
    exact .inr ⟨f, by simp [joinInto, hold]⟩
  · exact .inl (by rw [joinInto_of_ne m f hk, hold])

theorem mem_joinInto {m : Std.TreeMap Value (LatticeFact ap)} {i k : Value} {f : LatticeFact ap} :
    k ∈ joinInto m i f ↔ k = i ∨ k ∈ m := by
  by_cases hk : k = i
  · subst hk
    cases hm : m[k]? <;> simp [joinInto, hm]
  · rw [Std.TreeMap.mem_iff_isSome_getElem?, Std.TreeMap.mem_iff_isSome_getElem?, joinInto_of_ne m f hk]
    simp [hk]

end BBOps

theorem Enlarged.refl (m : Std.TreeMap Value (LatticeFact ap)) : Enlarged m m :=
  fun _ _ h => .inl h

open BBOps

section SameBooks

variable {f newF : LatticeFact ap} {bk : Books ap} {i : Instruction}

/-- An instruction that neither function records. -/
theorem Books.Same.refl (f newF : LatticeFact ap) (bk : Books ap) : Books.Same f bk (newF, bk) (f, bk) where
  fact := rfl
  reachStores _ := .rfl
  rErrors _ := .rfl
  reachThreadCreate _ := .rfl
  storesEnlarged := .refl _
  createsEnlarged := .refl _
  errorsKept _ hk := hk

/-- What both functions record is recorded with the same keys. -/
theorem record_same (h : ¬ Books.Unrecorded bk i) :
    Books.Same f bk (newF, record bk f newF i) (identityTransferFunc f i bk) := by
  cases hk : i.kind with
  | store val ptr =>
      simp only [record, identityTransferFunc, hk]
      refine { Books.Same.refl f newF bk with reachStores := fun k => ?_, storesEnlarged := ?_ }
      · simp only [updateReachStores, mem_joinInto]
      · exact joinInto_enlarged bk.reachStores i.id f
  | atomicRMW op ptr val =>
      have hmem : i.id ∈ bk.reachStores := by simpa [Books.Unrecorded, hk] using h
      simp only [record, identityTransferFunc, hk]
      refine { Books.Same.refl f newF bk with reachStores := fun k => ?_ }
      simp only [updateReachStores, mem_joinInto]
      constructor
      · rintro ⟨hin, hout⟩
        exact ⟨.inr hin, hout⟩
      · rintro ⟨rfl | hin, hout⟩
        · exact absurd hmem hout
        · exact ⟨hin, hout⟩
  | call callee =>
      cases callee with
      | pthreadCreate thread start args =>
          simp only [record, identityTransferFunc, hk]
          refine { Books.Same.refl f newF bk with reachThreadCreate := fun k => .rfl, createsEnlarged := ?_ }
          exact joinInto_enlarged bk.reachThreadCreate i.id f
      | assertFail =>
          have hmem : i.id ∈ bk.rErrors := by simpa [Books.Unrecorded, hk] using h
          simp only [record, identityTransferFunc, hk]
          refine { Books.Same.refl f newF bk with rErrors := fun k => ?_ }
          simp only [Std.TreeSet.mem_insert, Nat.compare_eq_eq]
          constructor
          · rintro ⟨hin, hout⟩
            exact ⟨.inr hin, hout⟩
          · rintro ⟨rfl | hin, hout⟩
            · exact absurd hmem hout
            · exact ⟨hin, hout⟩
      | _ =>
          simp only [record, identityTransferFunc, hk]
          exact .refl f newF bk
  | _ =>
      simp only [record, identityTransferFunc, hk]
      exact .refl f newF bk

/-- An instruction that `transfer_func` alone records adds a key. -/
theorem not_record_same (h : Books.Unrecorded bk i) :
    ¬ Books.Same f bk (newF, record bk f newF i) (identityTransferFunc f i bk) := by
  intro hsame
  cases hk : i.kind with
  | atomicRMW op ptr val =>
      have hout : i.id ∉ bk.reachStores := by simpa [Books.Unrecorded, hk] using h
      have hin : i.id ∈ (record bk f newF i).reachStores := by
        simp only [record, hk]
        exact mem_joinInto.mpr (.inl rfl)
      have hkept := ((hsame.reachStores i.id).mpr ⟨hin, hout⟩).1
      simp only [identityTransferFunc, hk] at hkept
      exact hout hkept
  | call callee =>
      cases callee with
      | assertFail =>
          have hout : i.id ∉ bk.rErrors := by simpa [Books.Unrecorded, hk] using h
          have hin : i.id ∈ (record bk f newF i).rErrors := by
            simp only [record, hk]
            exact Std.TreeSet.mem_insert_self
          have hkept := ((hsame.rErrors i.id).mpr ⟨hin, hout⟩).1
          simp only [identityTransferFunc, hk] at hkept
          exact hout hkept
      | _ => simp [Books.Unrecorded, hk] at h
  | _ => simp [Books.Unrecorded, hk] at h

/-- **The two functions keep the same bookkeeping** except at an `atomicrmw` and at an error that are not
recorded yet: only `transfer_func` adds them. -/
theorem identityTransferFunc_same_iff (cx : Ctx) (interf : InterfMap ap) (nonCombinInterfs : Bool)
    (f : LatticeFact ap) (i : Instruction) (bk : Books ap) (t : LatticeFact ap × Books ap)
    (h : transferFunc cx interf nonCombinInterfs f i bk = .ok t) :
    Books.Same f bk t (identityTransferFunc f i bk) ↔ ¬ Books.Unrecorded bk i := by
  obtain ⟨newF, _, h⟩ := Fallible.bind_eq_ok.mp h
  cases h
  exact ⟨fun hsame hun => not_record_same hun hsame, fun hun => record_same hun⟩

end SameBooks

namespace SkippedAtomic

def rmw : Instruction := ⟨10, .atomicRMW .add 0 (i32 1), some 32, []⟩
def error : Instruction := ⟨12, .call .assertFail, none, []⟩
def store : Instruction := ⟨11, .store (i32 1) 0, none, []⟩

def thread : Function :=
  .ofBlocks 0 [.ofInstrs 100 [rmw, store, error] ⟨30, .unreachable, none, []⟩]

def transfer (i : Instruction) : Except Stop (LatticeFact boxes × Books boxes) :=
  transferFunc (.single thread 13) {} false ⟨boxes.top⟩ i {}

/-- The stores and the errors that an instruction records. -/
def keys (r : LatticeFact boxes × Books boxes) : List Value × List Value :=
  (r.2.reachStores.keys, r.2.rErrors.toList)

def identity (i : Instruction) : LatticeFact boxes × Books boxes :=
  identityTransferFunc ⟨boxes.top⟩ i {}

/-- **An addition and an error that `identity_transfer_func` forgets.** -/
theorem not_same : (∃ t, transfer rmw = .ok t ∧ keys t = ([10], []) ∧ keys (identity rmw) = ([], []) ∧
      ¬ Books.Same ⟨boxes.top⟩ {} t (identity rmw)) ∧
    ∃ t, transfer error = .ok t ∧ keys t = ([], [12]) ∧ keys (identity error) = ([], []) ∧
      ¬ Books.Same ⟨boxes.top⟩ {} t (identity error) := by
  constructor
  · obtain ⟨t, ht, hkeys⟩ := Fallible.exists_ok_of_toOption (x := transfer rmw) (f := keys) (c := ([10], []))
      (by decide)
    refine ⟨t, ht, hkeys, by decide, fun h => ?_⟩
    have hlist : t.2.reachStores.keys = [10] := congrArg Prod.fst hkeys
    have hin : 10 ∈ t.2.reachStores := by
      rw [← Std.TreeMap.mem_keys, hlist]
      exact .head _
    have hkept := ((h.reachStores 10).mpr ⟨hin, by simp⟩).1
    exact absurd hkept (by decide)
  · obtain ⟨t, ht, hkeys⟩ := Fallible.exists_ok_of_toOption (x := transfer error) (f := keys) (c := ([], [12]))
      (by decide)
    refine ⟨t, ht, hkeys, by decide, fun h => ?_⟩
    have hlist : t.2.rErrors.toList = [12] := congrArg Prod.snd hkeys
    have hin : 12 ∈ t.2.rErrors := by
      rw [← Std.TreeSet.mem_toList, hlist]
      exact .head _
    have hkept := ((h.rErrors 12).mpr ⟨hin, by simp⟩).1
    exact absurd hkept (by decide)

/-- A store is recorded by both. -/
theorem same_store : ∃ t, transfer store = .ok t ∧ Books.Same ⟨boxes.top⟩ {} t (identity store) := by
  obtain ⟨t, ht⟩ := exists_ok (x := transfer store) (by decide)
  exact ⟨t, ht, (identityTransferFunc_same_iff (.single thread 13) {} false ⟨boxes.top⟩ store {} t ht).mpr id⟩

end SkippedAtomic

/-! ### The decisions -/

/-- The function that an instruction is executed through. -/
inductive Transfer
  | transferFunc
  | identityTransferFunc
deriving DecidableEq, Repr

/-- Execute an instruction through one of them. -/
def Transfer.run (cx : Ctx) (interf : InterfMap ap) (nonCombinInterfs : Bool) (t : Transfer)
    (s : LatticeFact ap × Books ap) (i : Instruction) : Except Stop (LatticeFact ap × Books ap) :=
  match t with
  | .transferFunc => BBOps.transferFunc cx interf nonCombinInterfs s.1 i s.2
  | .identityTransferFunc => .ok (BBOps.identityTransferFunc s.1 i s.2)

namespace BBOps

/-- The decision inside `getFactInBBBefore`. -/
def transferBefore (cx : Ctx) (curInst : Instruction) : Transfer :=
  if cx.opts.assertSliceG then
    if !cx.assertSlice.contains curInst.id then .transferFunc else .identityTransferFunc
  else
    .transferFunc

/-- The decision of `getFactInBBAfter` for its own instruction. -/
def transferAfter (cx : Ctx) (after : Instruction) : Transfer :=
  if cx.opts.assertSliceG && cx.assertSlice.contains after.id then
    .identityTransferFunc
  else if cx.opts.impactG && !cx.impacted.contains after.id && !cx.mayImpact.contains after.id then
    .identityTransferFunc
  else
    .transferFunc

/-- The loop of `getFactInBBBefore` over the instructions of the block. -/
def executeBefore (cx : Ctx) (interf : InterfMap ap) (nonCombinInterfs : Bool) (before : Instruction) :
    List Instruction → LatticeFact ap × Books ap → Except Stop (LatticeFact ap × Books ap)
  | [], _ => .error (.abort "[ERROR] getFactInBBBefore(): passed instruction not in block\n")
  | curInst :: is, s =>
    if curInst = before then
      .ok s
    else do
      let s ← (transferBefore cx curInst).run cx interf nonCombinInterfs s curInst
      executeBefore cx interf nonCombinInterfs before is s

/-- The fact before an instruction of a block. -/
def getFactInBBBefore (cx : Ctx) (interf : InterfMap ap) (nonCombinInterfs : Bool) (b : BasicBlock)
    (inFact : LatticeFact ap) (before : Instruction) (books : Books ap) :
    Except Stop (LatticeFact ap × Books ap) :=
  executeBefore cx interf nonCombinInterfs before b.instrs (inFact, books)

/-- The fact after an instruction of a block. -/
def getFactInBBAfter (cx : Ctx) (interf : InterfMap ap) (nonCombinInterfs : Bool) (b : BasicBlock)
    (inFact : LatticeFact ap) (after : Instruction) (books : Books ap) :
    Except Stop (LatticeFact ap × Books ap) := do
  let ret ← getFactInBBBefore cx interf nonCombinInterfs b inFact after books
  (transferAfter cx after).run cx interf nonCombinInterfs ret after

/-- The instructions that `getFactInBBBefore` executes, with the functions it executes them through. -/
def applied (cx : Ctx) (b : BasicBlock) (before : Instruction) : List (Instruction × Transfer) :=
  (b.instrs.takeWhile (· ≠ before)).map fun i => (i, transferBefore cx i)

section Walk

variable {cx : Ctx} {interf : InterfMap ap} {nc : Bool} {b : BasicBlock} {inFact : LatticeFact ap}
  {books : Books ap} {before : Instruction}

theorem executeBefore_append {pre post : List Instruction} (hpre : before ∉ pre)
    (s : LatticeFact ap × Books ap) : executeBefore cx interf nc before (pre ++ before :: post) s =
      (pre.map fun i => (i, transferBefore cx i)).foldlM (fun s p => p.2.run cx interf nc s p.1) s := by
  induction pre generalizing s with
  | nil =>
      rw [List.nil_append, executeBefore, if_pos rfl]
      rfl
  | cons i pre ih =>
      rw [List.mem_cons, not_or] at hpre
      have hne : ¬ i = before := fun heq => hpre.1 heq.symm
      rw [List.cons_append, executeBefore, if_neg hne, List.map_cons, List.foldlM_cons]
      congr 1
      funext s'
      exact ih hpre.2 s'

/-- **The walk to an instruction of the block** executes what stands before it. -/
theorem getFactInBBBefore_eq (h : before ∈ b.instrs) :
    getFactInBBBefore cx interf nc b inFact before books =
      (applied cx b before).foldlM (fun s p => p.2.run cx interf nc s p.1) (inFact, books) := by
  obtain ⟨pre, post, hinstrs, hpre⟩ := List.eq_append_cons_of_mem h
  rw [getFactInBBBefore, applied, hinstrs, executeBefore_append hpre, Function.takeWhile_ne_middle hpre]

/-- Executing a whole block is the walk to its terminator. -/
theorem runBody_eq_getFactInBBBefore (cx : Ctx) (interf : InterfMap ap) (nc : Bool) (b : BasicBlock)
    (inFact : LatticeFact ap) (books : Books ap) :
    runBody cx interf nc b.body inFact books = getFactInBBBefore cx interf nc b inFact b.terminator books := by
  have hstep : ∀ (s : LatticeFact ap × Books ap) (i : Instruction),
      stepInst cx interf nc s i = (transferBefore cx i).run cx interf nc s i := by
    intro s i
    unfold stepInst transferBefore
    cases cx.opts.assertSliceG <;> cases cx.assertSlice.contains i.id <;> rfl
  rw [getFactInBBBefore, BasicBlock.instrs, executeBefore_append b.terminator_not_mem_body, List.foldlM_map, runBody]
  congr 1
  funext s i
  exact hstep s i

/-- The fact after an instruction is the fact before the next one if the two decisions for it agree. -/
theorem getFactInBBAfter_eq_next {pre post : List Instruction} {i j : Instruction}
    (hinstrs : b.instrs = pre ++ i :: j :: post) (hnodup : b.instrs.Nodup)
    (hagree : transferAfter cx i = transferBefore cx i) :
    getFactInBBAfter cx interf nc b inFact i books = getFactInBBBefore cx interf nc b inFact j books := by
  have hi : i ∉ pre := (Function.not_mem_of_nodup_middle (hinstrs ▸ hnodup)).1
  have hinstrs' : b.instrs = (pre ++ [i]) ++ j :: post := by
    rw [hinstrs, List.append_assoc, List.singleton_append]
  have hj : j ∉ pre ++ [i] := (Function.not_mem_of_nodup_middle (hinstrs' ▸ hnodup)).1
  rw [getFactInBBAfter, getFactInBBBefore, getFactInBBBefore, hagree]
  nth_rewrite 2 [hinstrs']
  rw [hinstrs, executeBefore_append hi, executeBefore_append hj, List.map_append, List.foldlM_append]
  simp only [List.map_cons, List.map_nil, List.foldlM_cons, List.foldlM_nil, bind_pure]

end Walk

end BBOps

/-! ### The slice by metadata -/

/-- Off the slice of `-aslice`, or neither impacted nor possibly impacting under `-impact`. -/
def OffSlice (o : Options) (i : Instruction) : Prop :=
  (o.assertSliceG = true ∧ "AssertSlice" ∉ i.metadata) ∨
    (o.impactG = true ∧ "Impacted" ∉ i.metadata ∧ "MayImpact" ∉ i.metadata)

instance (o : Options) (i : Instruction) : Decidable (OffSlice o i) :=
  inferInstanceAs (Decidable (_ ∨ _))

/-- The sets of `-impact` are those that the pass finds in the module. -/
structure Ctx.Scanned (cx : Ctx) : Prop where
  impacted : getImpactedIfEnabled cx.opts cx.module = .ok cx.impacted
  mayImpact : getMayImpactIfEnabled cx.opts cx.module = cx.mayImpact

/-- The walk through a block executes through `identity_transfer_func` what is off the slice and nothing
else, and the fact after an instruction is the fact before the next one. -/
structure SlicingAgrees (ap : Apron) (cx : Ctx) (b : BasicBlock) : Prop where
  executes : ∀ before ∈ b.instrs, ∀ p ∈ applied cx b before,
    p.2 = .identityTransferFunc ↔ OffSlice cx.opts p.1
  next : ∀ (interf : InterfMap ap) (nonCombinInterfs : Bool) (f : LatticeFact ap) (books : Books ap)
    (pre post : List Instruction) (i j : Instruction), b.instrs = pre ++ i :: j :: post →
    getFactInBBAfter cx interf nonCombinInterfs b f i books =
      getFactInBBBefore cx interf nonCombinInterfs b f j books

theorem mem_instsWithMetadata {M : Module} {md : String} {k : Value} :
    k ∈ instsWithMetadata M md ↔ ∃ i ∈ M.instrs, md ∈ i.metadata ∧ i.id = k := by
  have hgen : ∀ (is : List Instruction) (ret : Std.TreeSet Value),
      k ∈ is.foldl (fun ret i => if i.metadata.contains md then ret.insert i.id else ret) ret ↔
        k ∈ ret ∨ ∃ i ∈ is, md ∈ i.metadata ∧ i.id = k := by
    intro is
    induction is with
    | nil => simp
    | cons i is ih =>
        intro ret
        rw [List.foldl_cons, ih]
        by_cases hmd : md ∈ i.metadata
        · rw [if_pos (List.contains_iff_mem.mpr hmd), Std.TreeSet.mem_insert, Nat.compare_eq_eq]
          simp only [List.mem_cons, exists_eq_or_imp]
          tauto
        · rw [if_neg (fun hc => hmd (List.contains_iff_mem.mp hc))]
          simp only [List.mem_cons, exists_eq_or_imp]
          tauto
  rw [instsWithMetadata, hgen]
  simp

/-- An instruction of the module is in the set exactly when it carries the metadata itself. -/
theorem contains_instsWithMetadata {M : Module} {i : Instruction} (hi : i ∈ M.instrs) (md : String) :
    (instsWithMetadata M md).contains i.id = true ↔ md ∈ i.metadata := by
  rw [Std.TreeSet.contains_iff_mem, mem_instsWithMetadata]
  constructor
  · rintro ⟨j, hj, hmd, hid⟩
    rwa [M.eq_of_id_eq hi hj hid.symm]
  · exact fun hmd => ⟨i, hi, hmd, rfl⟩

namespace BBOps

/-- Nothing is skipped: the walk never looks at the sets of `-impact`, and the set of `-aslice` is empty. -/
theorem transferBefore_eq (cx : Ctx) (i : Instruction) : transferBefore cx i = .transferFunc := by
  unfold transferBefore
  rw [getAssertSliceInvIfEnabled_eq_empty cx.assertSlice_eq]
  simp

/-- Only `getFactInBBAfter` follows `-impact`. -/
theorem transferAfter_eq_iff {cx : Ctx} (hscan : cx.Scanned) {i : Instruction} (hi : i ∈ cx.module.instrs) :
    transferAfter cx i = .identityTransferFunc ↔
      cx.opts.impactG = true ∧ "Impacted" ∉ i.metadata ∧ "MayImpact" ∉ i.metadata := by
  unfold transferAfter
  rw [if_neg (by simp [cx.not_sliced])]
  cases himp : cx.opts.impactG with
  | false => simp
  | true =>
      have hmay : cx.mayImpact = instsWithMetadata cx.module "MayImpact" := by
        rw [← hscan.mayImpact, getMayImpactIfEnabled, himp]
        rfl
      have himpacted : cx.impacted = instsWithMetadata cx.module "Impacted" := by
        have hscanned := hscan.impacted
        rw [getImpactedIfEnabled, himp, Bool.not_true, if_neg Bool.false_ne_true] at hscanned
        dsimp only at hscanned
        split_ifs at hscanned with hno
        exact (Except.ok.inj hscanned).symm
      rw [hmay, himpacted, ← contains_instsWithMetadata hi, ← contains_instsWithMetadata hi]
      cases (instsWithMetadata cx.module "Impacted").contains i.id <;>
        cases (instsWithMetadata cx.module "MayImpact").contains i.id <;> simp

end BBOps

/-- What stands before an instruction of a block stands in its body. -/
theorem BasicBlock.mem_body_of_append {b : BasicBlock} {pre post : List Instruction} {j : Instruction}
    (h : b.instrs = pre ++ j :: post) {i : Instruction} (hi : i ∈ pre) : i ∈ b.body := by
  have hbody : b.body = pre ++ (j :: post).dropLast := by
    calc b.body = b.instrs.dropLast := List.dropLast_concat.symm
      _ = (pre ++ j :: post).dropLast := by rw [h]
      _ = pre ++ (j :: post).dropLast := List.dropLast_append_of_ne_nil (List.cons_ne_nil j post)
  rw [hbody]
  exact List.mem_append_left _ hi

/-- **The slicing decisions agree exactly in the blocks that lie on the slice as a whole**: what the options
would leave out is executed all the same. -/
theorem slicingAgrees_iff (ap : Apron) (cx : Ctx) (hscan : cx.Scanned) (F : Function)
    (hF : F ∈ cx.module.functions) (b : BasicBlock) (hb : b ∈ F.blocks) :
    SlicingAgrees ap cx b ↔ ∀ i ∈ b.body, ¬ OffSlice cx.opts i := by
  constructor
  · intro h i hi hoff
    have hterm : b.terminator ∈ b.instrs := BasicBlock.mem_instrs.mpr (.inr rfl)
    have hbefore : i ∈ b.instrs.takeWhile (· ≠ b.terminator) := by
      rw [BasicBlock.instrs, Function.takeWhile_ne_middle b.terminator_not_mem_body]
      exact hi
    have hdec := (h.executes b.terminator hterm (i, transferBefore cx i)
      (List.mem_map.mpr ⟨i, hbefore, rfl⟩)).mpr hoff
    rw [transferBefore_eq] at hdec
    cases hdec
  · intro h
    refine ⟨fun before hbefore p hp => ?_, fun interf nc f books pre post i j hinstrs => ?_⟩
    · obtain ⟨i, hi, rfl⟩ := List.mem_map.mp hp
      obtain ⟨pre, post, hinstrs, hpre⟩ := List.eq_append_cons_of_mem hbefore
      rw [hinstrs, Function.takeWhile_ne_middle hpre] at hi
      dsimp only
      rw [transferBefore_eq]
      exact iff_of_false Transfer.noConfusion (h i (BasicBlock.mem_body_of_append hinstrs hi))
    · have hinstrs' : b.instrs = (pre ++ [i]) ++ j :: post := by
        rw [hinstrs, List.append_assoc, List.singleton_append]
      have hi := BasicBlock.mem_body_of_append hinstrs' (List.mem_append_right _ (.head _))
      have himod : i ∈ cx.module.instrs := Module.mem_instrs.mpr
        ⟨F, hF, Function.mem_instrs.mpr ⟨b, hb, BasicBlock.mem_instrs.mpr (.inl hi)⟩⟩
      apply getFactInBBAfter_eq_next hinstrs (Function.instrs_nodup_of_mem hb)
      rw [transferBefore_eq]
      cases hafter : transferAfter cx i with
      | transferFunc => rfl
      | identityTransferFunc =>
          exact absurd (.inr ((transferAfter_eq_iff hscan himod).mp hafter)) (h i hi)

namespace OffSliceStore

/-- A store and a load of the slice behind it. -/
def store (md : List String) : Instruction := ⟨10, .store (i32 1) 0, none, md⟩
def load : Instruction := ⟨2, .load 0, some 32, ["AssertSlice", "Impacted"]⟩

def block (md : List String) : BasicBlock :=
  .ofInstrs 100 [store md, load] ⟨30, .ret, none, []⟩

def main (md : List String) : Function :=
  .ofBlocks 0 [block md]

def program (md : List String) : Module :=
  .ofFunctions [main md] [⟨0, some .other⟩] (some 0)

theorem instrs_eq (md : List String) : (program md).instrs = [store md, load, ⟨30, .ret, none, []⟩] := by
  rfl

def cx (md : List String) (impact : Bool) : Ctx where
  opts := { useBoxG := true, assertSliceG := !impact, impactG := impact }
  module := program md
  v2n := Box.numbered 3
  impacted := if impact then instsWithMetadata (program md) "Impacted" else {}
  mayImpact := if impact then instsWithMetadata (program md) "MayImpact" else {}
  assertSlice_eq := by
    unfold getAssertSliceInvIfEnabled
    rw [instrs_eq]
    cases impact <;> rfl

/-- What is known about the variable after the store, by `getFactInBBAfter`, and before the load, by
`getFactInBBBefore`. -/
def afterStore : Option Interval :=
  (getFactInBBAfter (cx [] true) ({} : InterfMap boxes) false (block []) ⟨boxes.top⟩ (store []) {}).toOption.map
    fun r => r.1.getVarInterval 0

def beforeLoad : Option Interval :=
  (getFactInBBBefore (cx [] true) ({} : InterfMap boxes) false (block []) ⟨boxes.top⟩ load {}).toOption.map
    fun r => r.1.getVarInterval 0

/-- **The two options are not followed.**  Under `-aslice` the store off the slice is executed through
`transfer_func`, and under `-impact` it is executed before the load but not for the fact after it. -/
theorem not_slicingAgrees :
    (OffSlice (cx [] false).opts (store []) ∧
      (store [], .transferFunc) ∈ applied (cx [] false) (block []) load ∧
      ¬ SlicingAgrees boxes (cx [] false) (block [])) ∧
    afterStore = some (.range none none) ∧ beforeLoad = some (.const 1) ∧
      ¬ SlicingAgrees boxes (cx [] true) (block []) := by
  have hafter : afterStore = some (.range none none) := by decide
  have hbefore : beforeLoad = some (.const 1) := by decide
  have hoff : OffSlice (cx [] false).opts (store []) := by decide
  have happlied : (store [], Transfer.transferFunc) ∈ applied (cx [] false) (block []) load := by decide
  refine ⟨⟨hoff, happlied, fun h => ?_⟩, hafter, hbefore, fun h => ?_⟩
  · have hdec := (h.executes load (by decide) _ happlied).mpr hoff
    cases hdec
  · have hnext := h.next {} false ⟨boxes.top⟩ {} [] [⟨30, .ret, none, []⟩] (store []) load rfl
    rw [afterStore, hnext] at hafter
    rw [beforeLoad, hafter] at hbefore
    cases hbefore

/-- A store that is impacted leaves nothing to disagree about. -/
theorem slicingAgrees_impacted : SlicingAgrees boxes (cx ["Impacted"] true) (block ["Impacted"]) :=
  (slicingAgrees_iff boxes (cx ["Impacted"] true) ⟨rfl, rfl⟩ (main ["Impacted"]) (.head _)
    (block ["Impacted"]) (.head _)).mpr (by decide)

end OffSliceStore

end Watts
