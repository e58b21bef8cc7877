import Watts.InterferenceFixpoint
import Watts.ReachingPaths
import Watts.StableStores
import Watts.SupportedPrograms
import Watts.ThreadDiscovery

/-! How the pass stops on a supported program.  The list depends on the flags only: nothing is looked up in
vain but the facts of stores that an earlier iteration has reached, no index is out of bounds, and each
instruction is of a kind that the function which gets it handles. -/

namespace Watts

open Fallible (FailsIn Yields bind_eq_ok bind_eq_error)

variable {ap : Apron}

theorem failsIn_liftStop {α : Type} {P : Stop → Prop} {Q : LoopStop → Prop} {x : Except Stop α}
    (h : FailsIn P x) (hPQ : ∀ e, P e → Q (.stop e)) : FailsIn Q (liftStop x) := by
  cases x with
  | ok a => exact .ok a
  | error e => exact .error (hPQ e (h e rfl))

theorem yields_liftStop {α : Type} {P P' : Stop → Prop} {Q : α → Prop} {x : Except Stop α} (h : Yields P Q x)
    (hP : ∀ e, P e → P' e) : Yields (LoopStop.In P') Q (liftStop x) := by
  cases x with
  | ok a => exact .ok (h.returns a rfl)
  | error e => exact .error (.inr ⟨e, hP e (h.fails e rfl), rfl⟩)

theorem failsIn_bind_liftStop {α β : Type} {Q : LoopStop → Prop} {x : Except Stop α} {a : α}
    {f : α → Except LoopStop β} (hx : x = .ok a) (hf : FailsIn Q (f a)) : FailsIn Q (liftStop x >>= f) := by
  rw [hx]
  exact hf

/-! ### The search for the previous stores -/

/-- The loop over the killed stores goes on after the erasure of the current one. -/
def erasedIterator : Stop :=
  .undefinedBehaviour "increment of an erased iterator"

section PreviousStores

variable {F : Function} {B : BasicBlock} {S : InstSet} {s : ReachState} {fuel : Nat}

theorem killStore_failsIn (hS : S.Within F) (v : Value) {curSt : Instruction} (h : curSt ∈ S.values) :
    FailsIn (· = erasedIterator) (killStore v curSt) := by
  obtain ⟨k, hk⟩ := InstSet.mem_values.mp h
  obtain ⟨p, hp⟩ := Option.isSome_iff_exists.mp (hS k curSt hk).2.2
  unfold killStore
  rw [hp]
  dsimp only
  split_ifs
  · exact .error rfl
  · exact .ok _

theorem reachBlock_failsIn (hinv : ReachOut.Inv F s.reachOut) (hB : B ∈ F.blocks) :
    FailsIn (· = erasedIterator) (reachBlock F s B) := by
  obtain ⟨S, hS, hwithin, _⟩ := reachingPreds_ok hinv B
  obtain ⟨T, hT⟩ := hinv.keys B hB
  unfold reachBlock
  rw [hS, Fallible.ok_bind]
  refine .bind (.forM fun v _ => .forM fun curSt hcur => killStore_failsIn hwithin v hcur) fun _ => ?_
  rw [mapAtUnsafe, hT, Fallible.ok_bind]
  split_ifs <;> exact .ok _

theorem reachBlock_inv (hinv : ReachOut.Inv F s.reachOut) (hB : B ∈ F.blocks) {s' : ReachState}
    (h : reachBlock F s B = .ok s') : ReachOut.Inv F s'.reachOut := by
  obtain ⟨t, ht, hinv', _⟩ := reachBlock_ok hinv hB
  obtain rfl := Except.ok.inj ((Erasing.reachBlock_eq h).symm.trans ht)
  exact hinv'

/-- How the search for the previous stores fails. -/
def LoopStop.OfSearch (e : LoopStop) : Prop :=
  e = .outOfFuel ∨ e = .stop erasedIterator

theorem reachLoop_failsIn (hinv : ReachOut.Inv F s.reachOut) :
    FailsIn LoopStop.OfSearch (reachLoop F fuel s) := by
  induction fuel generalizing s with
  | zero => exact .error (.inl rfl)
  | succ fuel ih =>
      have hpass : FailsIn (· = erasedIterator) (F.blocks.foldlM (reachBlock F) { s with updated := false }) :=
        .foldlM_of (fun s => ReachOut.Inv F s.reachOut) (fun _ hB _ hs => reachBlock_failsIn hs hB)
          (fun _ hB _ _ hs h => reachBlock_inv hs hB h) hinv
      refine .bind_of (failsIn_liftStop hpass fun _ h => .inr (congrArg _ h)) fun s' hs' => ?_
      split_ifs
      · exact ih (Fallible.foldlM_preserves (fun s => ReachOut.Inv F s.reachOut)
          (fun _ hB _ _ hs h => reachBlock_inv hs hB h) hinv (liftStop_eq_ok.mp hs'))
      · exact .ok _

/-- Each block has an entry in what the search returns. -/
theorem getReachingStores_contains {r : Std.TreeMap BlockId InstSet} (h : getReachingStores F fuel = .ok r)
    (hB : B ∈ F.blocks) : ∃ S, r[B.id]? = some S := by
  obtain ⟨s', hs', hr⟩ := bind_eq_ok.mp (Erasing.getReachingStores_eq h)
  obtain ⟨r', hr', hreach⟩ := Erasing.getReachingStores_ok F
    (Nat.lt_add_left fuel (Nat.lt_succ_self (F.blocks.length * F.instrs.length)))
  have hmono : Erasing.getReachingStores F (fuel + (F.blocks.length * F.instrs.length).succ) = .ok r :=
    bind_eq_ok.mpr ⟨s', Erasing.reachLoop_mono hs', hr⟩
  obtain rfl := Except.ok.inj (hmono.symm.trans hr')
  obtain ⟨S, hS, _⟩ := hreach B hB
  exact ⟨S, hS⟩

theorem getPreviousStores_failsIn {M : Module} {i : Instruction} (hi : i ∈ M.instrs) (v : Value) :
    FailsIn LoopStop.OfSearch (getPreviousStores M i v fuel) := by
  obtain ⟨F, hF, hiF⟩ := Module.mem_instrs.mp hi
  obtain ⟨b, hb, hib⟩ := Function.mem_instrs.mp hiF
  unfold getPreviousStores
  rw [Module.parent?_eq hF hb hib]
  dsimp only
  cases prevStore b i v with
  | some st => exact .ok _
  | none =>
      have hreach : FailsIn LoopStop.OfSearch (getReachingStores F fuel) :=
        .bind (reachLoop_failsIn (inv_initial F)) fun _ => .ok _
      refine .bind_of hreach fun r hr => ?_
      obtain ⟨S, hS⟩ := getReachingStores_contains hr hb
      rw [mapAtUnsafe, hS]
      exact .ok _

theorem getPreviousStoresWithCreate_failsIn {M : Module} {i : Instruction} {v : Value} (hi : i ∈ M.instrs)
    (hk : i.kind = .load v) {cre : Option Instruction} (hcre : ∀ c, cre = some c → c ∈ M.instrs) :
    FailsIn LoopStop.OfSearch (getPreviousStoresWithCreate M i cre fuel) := by
  unfold getPreviousStoresWithCreate
  rw [hk]
  refine .bind (getPreviousStores_failsIn hi v) fun ret => ?_
  cases ret with
  | cons st sts => exact .ok _
  | nil =>
      cases cre with
      | none => exact .ok _
      | some c => exact getPreviousStores_failsIn (hcre c rfl) v

end PreviousStores

/-! ### The stops that the flags allow -/

/-- The stops at a fact that is bottom. -/
def bottomStops : List Stop :=
  [.abort "error reached with bottom", .abort "reachable bottom fact"]

/-- The stops that come with the flags. -/
def Options.flagStops (opts : Options) : List Stop :=
  (if opts.noCombinsG then
    .abort "[ERROR] mapAtUnsafe: value not in map" ::
      if opts.filterMHB then [.abort "load with zero interfering stores"] else []
  else
    [.abort "fact not found for store", .undefinedBehaviour "overflow of int", erasedIterator]) ++
    if opts.impactG then [erasedIterator] else []

/-- What can stop the pass on a supported program. -/
def Options.stops (opts : Options) : List Stop :=
  bottomStops ++ opts.flagStops

/-- The stops of the flags and those of `P`. -/
def Ctx.Stops (cx : Ctx) (P : Stop → Prop) (s : Stop) : Prop :=
  P s ∨ s ∈ cx.opts.flagStops

theorem LoopStop.In.mono {P Q : Stop → Prop} (hPQ : ∀ s, P s → Q s) {e : LoopStop} (h : e.In P) : e.In Q :=
  h.imp_right fun ⟨s, hs, he⟩ => ⟨s, hPQ s hs, he⟩

theorem mem_flagStops_of_combinations {opts : Options} (hnc : opts.noCombinsG = false) {s : Stop}
    (h : s = .abort "fact not found for store" ∨ s = .undefinedBehaviour "overflow of int" ∨ s = erasedIterator) :
    s ∈ opts.flagStops := by
  rcases h with rfl | rfl | rfl <;> simp [Options.flagStops, hnc]

/-! ### The permutations -/

namespace CartesianProduct

variable {sizes : List Nat} {k : Nat} {cp : CartesianProduct}

theorem new_failsIn (hne : sizes ≠ []) (hpos : ∀ size ∈ sizes, 0 < size) :
    FailsIn (· = .undefinedBehaviour "overflow of int") (new sizes) := by
  unfold new
  rw [if_neg (by rwa [List.isEmpty_iff])]
  refine .bind (.foldlM (fun size hsize max => ?_) _) fun _ => .ok _
  rw [if_neg (Nat.pos_iff_ne_zero.mp (hpos size hsize))]
  unfold intMul
  split_ifs
  · exact .ok _
  · exact .error rfl

theorem At.inRange (hpos : ∀ size ∈ sizes, 0 < size) (hat : At sizes k cp) (hk : k < sizes.prod) :
    Odometer.InRange sizes cp.permutation := by
  obtain ⟨ds, hds, hr, _⟩ := Odometer.after_value hpos hk
  obtain rfl : ds = cp.permutation := Option.some.inj (hds.symm.trans (hat.permutation hk))
  exact hr

theorem At.increment_failsIn (hpos : ∀ size ∈ sizes, 0 < size) (hat : At sizes k cp) (hk : k < sizes.prod) :
    FailsIn (· = .undefinedBehaviour "overflow of int") cp.increment := by
  unfold CartesianProduct.increment
  dsimp only
  split_ifs with _ hend
  · exact .ok _
  · unfold CartesianProduct.atEnd at hend
    simp only [hat.numMaxPermutations, hat.numPermutationsProcessed, decide_eq_true_eq] at hend
    obtain ⟨es, hes, _⟩ := Odometer.after_value hpos (show k + 1 < sizes.prod by omega)
    have hnext : Odometer.next sizes cp.permutation = some es := by
      have : (Odometer.after sizes k).bind (Odometer.next sizes) = some es := hes
      rwa [hat.permutation hk] at this
    rw [hat.sizesOfRows, incrementAndTest_eq (hat.inRange hpos hk) hnext]
    exact .ok _
  · exact .error rfl

end CartesianProduct

section Permutations

variable {o : BlockOrder} {cx : Ctx} {z3 : Solver} {rules : List Rule} {F : Function}
  {createSite : Option Instruction} {interfs : LoadStores} {stFacts : StoreFacts ap} {entryFact : LatticeFact ap}
  {fuel : Nat} {I : LatticeFact ap → Prop} {P : Stop → Prop}

/-- What an analysis relies on: the function is supported, the interferences are those of load instructions of
the module, and so is the creation site. -/
structure AnalysisInput (cx : Ctx) (F : Function) (createSite : Option Instruction) (interfs : LoadStores) :
    Prop where
  member : F ∈ cx.module.functions
  supported : F.supported cx = true
  blocks : F.blocks ≠ []
  loads : ∀ p ∈ interfs.toList, ∃ li ∈ cx.module.instrs, li.id = p.1 ∧
    (cx.opts.noCombinsG = false → ∃ v, li.kind = .load v)
  site : ∀ c, createSite = some c → c ∈ cx.module.instrs

theorem mem_zip_inRange {ps : List (Value × List Value)} {perm : List Nat}
    (h : Odometer.InRange (ps.map fun p => p.2.length + 1) perm) {q : (Value × List Value) × Nat}
    (hq : q ∈ ps.zip perm) : q.2 < q.1.2.length + 1 := by
  induction ps generalizing perm with
  | nil => cases hq
  | cons p ps ih =>
      cases h with
      | cons hd h =>
          rcases List.mem_cons.mp hq with rfl | hq
          · exact hd
          · exact ih h hq

theorem allFacts_insert {m : Std.TreeMap Value (LatticeFact ap)} (hm : AllFacts I m) {key : Value}
    {f : LatticeFact ap} (hf : I f) : AllFacts I (m.insert key f) := by
  intro v g hg
  rw [Std.TreeMap.getElem?_insert] at hg
  split_ifs at hg
  · cases hg
    exact hf
  · exact hm v g hg

theorem gatherChoices_yields (hin : AnalysisInput cx F createSite interfs) (hnc : cx.opts.noCombinsG = false)
    (hst : AllFacts I stFacts) {perm : List Nat}
    (h : Odometer.InRange (interfs.toList.map fun p => p.2.length + 1) perm) :
    Yields (LoopStop.In (cx.Stops P)) (fun c => AllFacts I c.curInterfMap)
      (gatherChoices cx createSite perm interfs stFacts fuel) := by
  have hlen : perm.length = interfs.size := by
    rw [h.length_eq, List.length_map, Std.TreeMap.length_toList]
  unfold gatherChoices
  rw [if_neg (not_not_intro hlen)]
  refine .foldlM (fun q hq c hc => ?_) (allFacts_empty I)
  obtain ⟨li, hli, hid, hkind⟩ := hin.loads q.1 (List.of_mem_zip hq).1
  obtain ⟨v, hk⟩ := hkind hnc
  have hlt := mem_zip_inRange h hq
  obtain ⟨⟨l, sts⟩, n⟩ := q
  obtain rfl : li.id = l := hid
  unfold addChoice
  cases n with
  | zero =>
      dsimp only
      rw [Module.instr?_id hli]
      dsimp only
      have hsearch : FailsIn LoopStop.OfSearch (getPreviousStoresWithCreate cx.module li createSite fuel) :=
        getPreviousStoresWithCreate_failsIn hli hk hin.site
      refine .bind (Q := fun _ => True) ⟨hsearch.mono fun e he => ?_, fun _ _ => trivial⟩ fun ss _ => ?_
      · rcases he with rfl | rfl
        · exact .inl rfl
        · exact .inr ⟨_, .inr (mem_flagStops_of_combinations hnc (.inr (.inr rfl))), rfl⟩
      · rcases ss with _ | ⟨s, _ | ⟨s', ss⟩⟩ <;> exact .ok hc
  | succ idx =>
      dsimp only
      obtain ⟨st, hidx⟩ : ∃ st, sts[idx]? = some st :=
        ⟨_, List.getElem?_eq_getElem (Nat.succ_lt_succ_iff.mp hlt)⟩
      rw [hidx]
      dsimp only
      cases hf : stFacts[st]? with
      | some f => exact .ok (allFacts_insert hc (hst st f hf))
      | none => exact .error (.inr ⟨_, .inr (mem_flagStops_of_combinations hnc (.inl rfl)), rfl⟩)

/-- The books that an analysis leaves, and the stops that it leaves. -/
theorem analyzeFunc_stops (hI : FactInv cx I P) (hin : AnalysisInput cx F createSite interfs) {interf : InterfMap ap}
    (hinterf : AllFacts I interf) {books : Books ap} (hbooks : AllFacts I books.reachStores) {mergeInterfs : Bool} :
    Yields (LoopStop.In (cx.Stops P)) (fun r => AllFacts I r.2.reachStores)
      (analyzeFunc o cx interf books entryFact F mergeInterfs fuel) :=
  (analyzeFunc_yields hI hinterf hin.member hin.supported hin.blocks hbooks).mono
    (fun _ he => he.mono fun _ hs => .inl hs) fun _ h => h

theorem testCurPerm_yields (hI : FactInv cx I P) (hin : AnalysisInput cx F createSite interfs)
    (hnc : cx.opts.noCombinsG = false) (hst : AllFacts I stFacts) {perm : List Nat}
    (h : Odometer.InRange (interfs.toList.map fun p => p.2.length + 1) perm) {s : PermState ap}
    (hs : AllFacts I s.books.reachStores) :
    Yields (LoopStop.In (cx.Stops P)) (fun r => AllFacts I r.2.books.reachStores)
      (testCurPerm o cx z3 rules F createSite perm interfs stFacts entryFact fuel s) := by
  refine .bind (gatherChoices_yields hin hnc hst h) fun c hc => ?_
  dsimp only
  split_ifs
  · exact .ok hs
  · exact .bind (analyzeFunc_stops hI hin hc hs) fun _ hr => .ok hr

/-- Every permutation on the way is in range. -/
theorem permLoop_yields (hI : FactInv cx I P) (hin : AnalysisInput cx F createSite interfs)
    (hnc : cx.opts.noCombinsG = false) (hst : AllFacts I stFacts) {sizes : List Nat}
    (hsizes : sizes = interfs.toList.map fun p => p.2.length + 1) (hpos : ∀ size ∈ sizes, 0 < size) {n k : Nat}
    {cp : CartesianProduct} (hat : CartesianProduct.At sizes k cp) {s : PermState ap}
    (hs : AllFacts I s.books.reachStores) :
    Yields (LoopStop.In (cx.Stops P)) (fun r => AllFacts I r.books.reachStores)
      (permLoop o cx z3 rules F createSite interfs stFacts entryFact fuel n cp s) := by
  induction n generalizing k cp s with
  | zero =>
      unfold permLoop
      split_ifs
      · exact .ok hs
      · exact .error (.inl rfl)
  | succ n ih =>
      unfold permLoop
      split_ifs with hend
      · exact .ok hs
      · have hk : k < sizes.prod := Nat.lt_of_not_le fun h => hend (hat.atEnd.mpr h)
        refine .bind (testCurPerm_yields hI hin hnc hst (hsizes ▸ hat.inRange hpos hk) hs) fun r hr => ?_
        have hinc := failsIn_liftStop (Q := LoopStop.In (cx.Stops P)) (hat.increment_failsIn hpos hk)
          fun e he => .inr ⟨e, .inr (mem_flagStops_of_combinations hnc (.inr (.inl he))), rfl⟩
        exact .bind ⟨hinc, fun _ h => h⟩ fun cp' hcp' => ih (hat.increment hpos (liftStop_eq_ok.mp hcp')) hr

theorem joinInterfs_yields (hI : FactInv cx I P) (hnc : cx.opts.noCombinsG = true)
    (hinhabited : cx.opts.filterMHB = false → interfs.Inhabited) (hst : AllFacts I stFacts) :
    Yields (· ∈ cx.opts.flagStops) (AllFacts I) (joinInterfs interfs stFacts) := by
  have hmap : ∀ s, Yields (· ∈ cx.opts.flagStops) I (mapAtUnsafe stFacts s) := by
    intro s
    unfold mapAtUnsafe
    cases hs : stFacts[s]? with
    | some f => exact .ok (hst s f hs)
    | none => exact .error (by simp [Options.flagStops, hnc])
  refine .foldlM (fun p hp joined hjoined => ?_) (allFacts_empty I)
  refine .bind (Q := I) ?_ fun f hf => .ok (allFacts_insert hjoined hf)
  cases hss : p.2 with
  | nil =>
      refine .error ?_
      cases hf : cx.opts.filterMHB with
      | true => simp [Options.flagStops, hnc, hf]
      | false => exact absurd hss (hinhabited hf p.1 p.2 (Std.TreeMap.mem_toList_iff_getElem?_eq_some.mp hp))
  | cons s ss =>
      refine .bind (hmap s) fun lfact hl => .foldlM (fun s' _ f hf => ?_) hl
      exact .bind (hmap s') fun g hg => .ok (hI.factJoin hf hg)

/-- **The analysis of one thread** stops only as the flags and the invariant allow. -/
theorem analyzeThreadInterf_yields (hI : FactInv cx I P) (hin : AnalysisInput cx F createSite interfs)
    (hinhabited : cx.opts.filterMHB = false → interfs.Inhabited) (hst : AllFacts I stFacts) {books : Books ap}
    (hbooks : AllFacts I books.reachStores) {permCache : PermCache} :
    Yields (LoopStop.In (cx.Stops P)) (fun r => AllFacts I r.books.reachStores)
      (analyzeThreadInterf o cx z3 rules F createSite interfs stFacts books permCache entryFact fuel) := by
  unfold analyzeThreadInterf
  split_ifs with hsize hnc
  · exact .bind (analyzeFunc_stops hI hin (allFacts_empty I) hbooks) fun _ hr => .ok hr
  · refine .bind (yields_liftStop (joinInterfs_yields hI hnc hinhabited hst) fun e he => .inr he)
      fun allInterfs hall => ?_
    exact .bind (analyzeFunc_stops hI hin hall hbooks) fun _ hr => .ok hr
  · have hnc := Bool.not_eq_true _ ▸ hnc
    have hpos : ∀ size ∈ interfs.toList.map fun p => p.2.length + 1, 0 < size := by
      intro size hsize
      obtain ⟨p, _, rfl⟩ := List.mem_map.mp hsize
      exact Nat.succ_pos _
    have hne : (interfs.toList.map fun p => p.2.length + 1) ≠ [] := by
      intro h
      rw [List.map_eq_nil_iff] at h
      exact hsize (by rw [← Std.TreeMap.length_toList, h]; rfl)
    have hnew := failsIn_liftStop (Q := LoopStop.In (cx.Stops P)) (CartesianProduct.new_failsIn hne hpos)
      fun e he => .inr ⟨e, .inr (mem_flagStops_of_combinations hnc (.inr (.inl he))), rfl⟩
    exact .bind ⟨hnew, fun _ h => h⟩ fun cp hcp =>
      permLoop_yields hI hin hnc hst rfl hpos (CartesianProduct.new_at (liftStop_eq_ok.mp hcp)).2 hbooks

end Permutations

/-! ### Supported instructions in the module -/

section Module

variable {cx : Ctx}

theorem Module.exists_func?_of_hasBody {M : Module} {f : FuncId} (h : M.hasBody f = true) :
    ∃ F, M.func? f = some F ∧ F.blocks ≠ [] := by
  obtain ⟨F, hF, hb⟩ := (Option.any_eq_true _ _).mp h
  exact ⟨F, hF, by simpa using hb⟩

theorem Ctx.supported_function (hcx : cx.supported = true) {F : Function} (hF : F ∈ cx.module.functions) :
    F.supported cx = true := by
  unfold Ctx.supported at hcx
  simp only [Bool.and_eq_true] at hcx
  exact List.all_eq_true.mp hcx.1.2 F hF

/-- An instruction of a supported program is supported, as a terminator or before one. -/
theorem Ctx.supported_instr (hcx : cx.supported = true) {i : Instruction} (hi : i ∈ cx.module.instrs) :
    i.supported cx = true ∨ i.supportedTerminator cx = true := by
  obtain ⟨F, hF, hi⟩ := Module.mem_instrs.mp hi
  obtain ⟨B, hB, hi⟩ := Function.mem_instrs.mp hi
  obtain ⟨hbody, hterm⟩ := Function.supported_block (Ctx.supported_function hcx hF) hB
  rcases BasicBlock.mem_instrs.mp hi with hi | rfl
  · exact .inl (hbody i hi)
  · exact .inr hterm

/-- A `pthread_create` call of a supported program starts a function with a body. -/
theorem Ctx.supported_create (hcx : cx.supported = true) {c : Instruction} (hc : c ∈ cx.module.instrs)
    (hcreate : c.isPthreadCreate = true) : ∃ g, c.createdFunc = some g ∧ cx.module.hasBody g = true := by
  have hsup := Ctx.supported_instr hcx hc
  unfold Instruction.isPthreadCreate at hcreate
  unfold Instruction.supported Instruction.supportedTerminator at hsup
  cases hk : c.kind with
  | call callee =>
      rw [hk] at hcreate hsup
      cases callee with
      | pthreadCreate t f args =>
          have hsup := hsup.resolve_right Bool.false_ne_true
          obtain ⟨g, rfl, hg⟩ := (Option.any_eq_true _ _).mp hsup
          exact ⟨g, by rw [Instruction.createdFunc, hk], hg⟩
      | _ => cases hcreate
  | _ =>
      rw [hk] at hcreate
      cases hcreate

/-- A load of a supported program is a load instruction or an `atomicrmw`, the latter only where no
combinations are explored. -/
theorem Ctx.supported_load (hcx : cx.supported = true) {l : Instruction} (hl : l ∈ cx.module.instrs)
    (hload : l.isSomeLoad = true) :
    l.LoadsOrUpdates ∧ (cx.opts.noCombinsG = false → ∃ v, l.kind = .load v) := by
  have hsup := Ctx.supported_instr hcx hl
  unfold Instruction.isSomeLoad at hload
  unfold Instruction.supported Instruction.supportedTerminator at hsup
  cases hk : l.kind with
  | load p => exact ⟨.inl ⟨p, hk⟩, fun _ => ⟨p, rfl⟩⟩
  | atomicRMW op p v =>
      rw [hk] at hsup
      have hsup := hsup.resolve_right Bool.false_ne_true
      simp only [Bool.and_eq_true] at hsup
      exact ⟨.inr ⟨op, p, v, hk⟩, fun hnc => absurd (hsup.1.1.1.1.symm.trans hnc) (by decide)⟩
  | atomicCmpXchg p =>
      rw [hk] at hsup
      rcases hsup with hsup | hsup <;> cases hsup
  | _ =>
      rw [hk] at hload
      cases hload

end Module

/-! ### The kinds of recorded instructions -/

/-- Stores are recorded at stores and updates, and creations at `pthread_create` calls. -/
def Books.Bound.kindsOf (ap : Apron) (F : Function) : Books.Bound ap where
  error _ := True
  store s _ := ∃ i ∈ F.instrs, i.id = s ∧ i.StoresOrUpdates
  create c _ := ∃ i ∈ F.instrs, i.id = c ∧ i.isPthreadCreate = true

theorem Books.Bound.kindsOf_joinClosed (F : Function) : (Books.Bound.kindsOf ap F).JoinClosed :=
  ⟨fun _ _ _ h _ => h, fun _ _ _ h _ => h⟩

theorem Books.allows_kindsOf {F : Function} {i : Instruction} (hi : i ∈ F.instrs) (fIn fOut : LatticeFact ap) :
    Books.Allows (Books.Bound.kindsOf ap F) i fIn fOut := by
  unfold Books.Allows
  split
  · next v p hk => exact ⟨i, hi, rfl, .inl ⟨v, p, hk⟩⟩
  · next op p v hk => exact ⟨i, hi, rfl, .inr ⟨op, p, v, hk⟩⟩
  · next t f args hk => exact ⟨i, hi, rfl, by rw [Instruction.isPthreadCreate, hk]⟩
  · trivial
  · trivial

/-- The stores are those of store instructions and updates of the module. -/
def ReachStores.OfStores (M : Module) (rs : ReachStores ap) : Prop :=
  ∀ (g : FuncId) st, rs[g]? = some st → ∀ s ∈ st, ∃ i, M.instr? s = some i ∧ i.StoresOrUpdates

section Module

variable {cx : Ctx}

/-- The interferences are found, whatever stores were recorded. -/
theorem getInterferingStores_failsIn {P : Stop → Prop} (hcx : cx.supported = true) {F : Function}
    (hF : F ∈ cx.module.functions) {rStores : ReachStores ap} (hrec : rStores.OfStores cx.module) :
    FailsIn P (getInterferingStores cx.module F rStores) := by
  refine .foldlM (fun other hother ret => ?_) _
  have hget := Std.TreeMap.mem_toList_iff_getElem?_eq_some.mp hother
  unfold addInterferingStores
  split_ifs
  · exact .ok _
  · refine .foldlM (fun l hl ret => .foldlM (fun s hs ret => ?_) ret) ret
    obtain ⟨si, hsi, hstores⟩ := hrec other.1 other.2 hget s (Std.TreeMap.mem_keys.mp hs)
    obtain ⟨hmem, hload⟩ := List.mem_filter.mp hl
    obtain ⟨same, hsame⟩ := loadStoreSameVal_ok hstores
      (Ctx.supported_load hcx (Module.mem_instrs.mpr ⟨F, hF, hmem⟩) hload).1
    unfold addInterferingStore
    rw [hsi]
    dsimp only
    rw [hsame]
    cases same <;> exact .ok _

/-- The interferences of a function of a supported program, filtered or not, are an input of its analysis. -/
theorem analysisInput_of_interfs {z3 : Solver} {rules : List Rule} (hcx : cx.supported = true)
    {s : RunState ap} (hinterfs : ∀ (f : FuncId) m, s.interfs[f]? = some m →
      ∃ F, cx.module.func? f = some F ∧ getInterferingStores cx.module F s.allReachStores = .ok m)
    {F : Function} (hF : cx.module.func? F.id = some F) (hblocks : F.blocks ≠ []) {createSite : Option Instruction}
    (hsite : ∀ c, createSite = some c → c ∈ cx.module.instrs) :
    AnalysisInput cx F createSite (curFInterf cx z3 rules s F.id).1 ∧
      (cx.opts.filterMHB = false → (curFInterf cx z3 rules s F.id).1.Inhabited) := by
  have hmem := (Module.func?_mem hF).1
  -- the unfiltered interferences
  have hget : s.interfs[F.id]?.getD {} = ({} : LoadStores) ∨
      getInterferingStores cx.module F s.allReachStores = .ok (s.interfs[F.id]?.getD {}) := by
    cases hm : s.interfs[F.id]? with
    | none => exact .inl rfl
    | some m =>
        obtain ⟨F', hF', hm'⟩ := hinterfs F.id m hm
        rw [hF] at hF'
        obtain rfl := Option.some.inj hF'
        exact .inr hm'
  have hload : ∀ l, ((s.interfs[F.id]?.getD {})[l]?).isSome = true → ∃ li ∈ cx.module.instrs, li.id = l ∧
      (cx.opts.noCombinsG = false → ∃ v, li.kind = .load v) := by
    intro l hl
    rcases hget with hempty | hget
    · rw [hempty] at hl
      simp at hl
    · obtain ⟨sts, hsts⟩ := Option.isSome_iff_exists.mp hl
      obtain ⟨st, hst⟩ := List.exists_mem_of_ne_nil sts (getInterferingStores_inhabited hget l sts hsts)
      obtain ⟨_, _, _, _, _, li, hli, hid, _⟩ := (getInterferingStores_hasPair hget l st).mp ⟨sts, hsts, hst⟩
      obtain ⟨hmemF, hload⟩ := List.mem_filter.mp hli
      have hliM := Module.mem_instrs.mpr ⟨F, hmem, hmemF⟩
      exact ⟨li, hliM, hid, (Ctx.supported_load hcx hliM hload).2⟩
  refine ⟨⟨hmem, Ctx.supported_function hcx hmem, hblocks, fun p hp => hload p.1 ?_, hsite⟩, fun hfilter => ?_⟩
  · have hp := Std.TreeMap.mem_toList_iff_getElem?_eq_some.mp hp
    unfold curFInterf at hp
    dsimp only at hp
    split_ifs at hp
    · exact (filterMHBInterfs_isSome s.mhbCache _ p.1).mp (by rw [hp]; rfl)
    · rw [hp]
      rfl
  · unfold curFInterf
    dsimp only
    rw [hfilter, if_neg Bool.false_ne_true]
    rcases hget with hempty | hget
    · rw [hempty]
      exact LoadStores.inhabited_empty
    · exact getInterferingStores_inhabited hget

end Module

/-! ### The threads -/

section Threads

variable {o : BlockOrder} {cx : Ctx} {z3 : Solver} {rules : List Rule} {main : Function}
  {progInitState : LatticeFact ap} {fuel : Nat} {I : LatticeFact ap → Prop} {P : Stop → Prop}

/-- A site that can be processed: a `pthread_create` call of the module, with an entry fact when threads are
found while iterating. -/
def Ready (cx : Ctx) (s : RunState ap) (ci : Site) : Prop :=
  ∀ c, ci = some c → c ∈ cx.module.instrs ∧ c.isPthreadCreate = true ∧
    (cx.opts.dynInitG = true → c.id ∈ s.threadEntryFacts)

/-- What the processing of a site relies on and keeps. -/
structure Prepared (cx : Ctx) (I : LatticeFact ap → Prop) (s : RunState ap) : Prop where
  stores : s.newReachStores.OfStores cx.module
  facts : ∀ (g : FuncId) st, s.newReachStores[g]? = some st → AllFacts I st
  funcs : ∀ f ∈ s.threadFuncs, ∃ F, cx.module.func? f = some F

theorem getPThreadThreadFunc_eq {c : Instruction} {g : FuncId} (h : c.createdFunc = some g) :
    getPThreadThreadFunc c = .ok g := by
  unfold getPThreadThreadFunc
  rw [h]

theorem siteFunc_ok (hcx : cx.supported = true) (hmain : cx.module.func? main.id = some main)
    (hbody : main.blocks ≠ []) {s : RunState ap} {ci : Site} (hci : Ready cx s ci) :
    ∃ F, siteFunc cx main ci = .ok F ∧ cx.module.func? F.id = some F ∧ F.blocks ≠ [] := by
  cases ci with
  | none => exact ⟨main, rfl, hmain, hbody⟩
  | some c =>
      obtain ⟨hc, hcreate, _⟩ := hci c rfl
      obtain ⟨g, hg, hbody⟩ := Ctx.supported_create hcx hc hcreate
      obtain ⟨F, hF, hblocks⟩ := Module.exists_func?_of_hasBody hbody
      refine ⟨F, ?_, by rw [(Module.func?_mem hF).2]; exact hF, hblocks⟩
      unfold siteFunc
      dsimp only
      rw [getPThreadThreadFunc_eq hg, Fallible.ok_bind, hF]
      rfl

theorem siteEntryFact_failsIn {P : Stop → Prop} {s : RunState ap} {ci : Site} (hci : Ready cx s ci) :
    FailsIn P (siteEntryFact cx progInitState s ci) := by
  cases ci with
  | none => exact .ok _
  | some c =>
      unfold siteEntryFact
      split_ifs with hdyn
      · exact mapAtUnsafe_failsIn (Std.TreeMap.mem_iff_contains.mp ((hci c rfl).2.2 hdyn))
      · exact .ok _

/-- What finding the threads of an analysis does, when it has recorded creations only. -/
structure Found (cx : Ctx) (s : RunState ap) (r : RunState ap × List Site) : Prop where
  ready : ∀ ci ∈ r.2, Ready cx r.1 ci
  facts : ∀ c ∈ s.threadEntryFacts, c ∈ r.1.threadEntryFacts
  funcs : ∀ f ∈ r.1.threadFuncs, f ∈ s.threadFuncs ∨ ∃ F, cx.module.func? f = some F

theorem discoverThreads_ok (hcx : cx.supported = true) {reach : Std.TreeMap Value (LatticeFact ap)}
    (hreach : ∀ (c : Value) f, reach[c]? = some f → ∃ i ∈ cx.module.instrs, i.id = c ∧ i.isPthreadCreate = true)
    (s : RunState ap) : ∃ r, discoverThreads cx reach s = .ok r ∧ Found cx s r := by
  unfold discoverThreads
  split_ifs with hdyn
  · refine Fallible.foldlM_ok (fun _ r => Found cx s r) (fun _ p r hp hr => ?_)
      ⟨fun _ h => absurd h List.not_mem_nil, fun _ h => h, fun _ h => .inl h⟩
    obtain ⟨i, hi, hid, hcreate⟩ := hreach p.1 p.2 (Std.TreeMap.mem_toList_iff_getElem?_eq_some.mp hp)
    obtain ⟨g, hg, hbody⟩ := Ctx.supported_create hcx hi hcreate
    obtain ⟨G, hG, _⟩ := Module.exists_func?_of_hasBody hbody
    have hkeys : ∀ c, c ∈ (r.1.threadEntryFacts.erase p.1).insert p.1 p.2 ↔ c = p.1 ∨ c ∈ r.1.threadEntryFacts := by
      intro c
      rw [Std.TreeMap.mem_insert, Std.TreeMap.mem_erase, Nat.compare_eq_eq]
      by_cases hc : p.1 = c
      · simp [hc]
      · simp [hc, Ne.symm hc]
    refine ⟨({ r.1 with
        threadFuncs := r.1.threadFuncs.insert g
        threadEntryFacts := (r.1.threadEntryFacts.erase p.1).insert p.1 p.2 }, r.2 ++ [some i]), ?_, ?_, ?_, ?_⟩
    · unfold discoverThread
      rw [← hid, Module.instr?_id hi]
      dsimp only
      rw [getPThreadThreadFunc_eq hg]
      rfl
    · intro ci hci c hc
      rcases List.mem_append.mp hci with hci | hci
      · obtain ⟨hmem, hcr, hfact⟩ := hr.ready ci hci c hc
        exact ⟨hmem, hcr, fun hd => (hkeys c.id).mpr (.inr (hfact hd))⟩
      · rw [List.mem_singleton.mp hci] at hc
        cases hc
        exact ⟨hi, hcreate, fun _ => (hkeys i.id).mpr (.inl hid)⟩
    · exact fun c hc => (hkeys c).mpr (.inr (hr.facts c hc))
    · intro f hf
      rcases Std.TreeSet.mem_insert.mp hf with hf | hf
      · obtain rfl := Nat.compare_eq_eq.mp hf
        exact .inr ⟨G, hG⟩
      · exact hr.funcs f hf
  · exact ⟨_, rfl, fun _ h => absurd h List.not_mem_nil, fun _ h => h, fun _ h => .inl h⟩

theorem ReachStores.Owned.toUnique {M : Module} {rs : ReachStores ap} (h : rs.Owned M) : rs.Unique :=
  fun _ _ _ _ _ hg hg' hs hs' => h.unique h hg hg' hs hs'

/-- What an analysis records in empty books. -/
theorem analyzeThreadInterf_kinds {F : Function} {createSite : Option Instruction} {interfs : LoadStores}
    {stFacts : StoreFacts ap} {entryFact : LatticeFact ap} {rErrors : Std.TreeSet Value} {permCache : PermCache}
    {p : PermState ap} (h : analyzeThreadInterf o cx z3 rules F createSite interfs stFacts { rErrors := rErrors }
      permCache entryFact fuel = .ok p) : Books.Within (Books.Bound.kindsOf ap F) p.books :=
  analyzeThreadInterf_within (Books.Bound.kindsOf_joinClosed F) (fun _ hi => Books.allows_kindsOf hi)
    ⟨fun _ _ => trivial, fun _ _ hi => by simp at hi, fun _ _ hi => by simp at hi⟩ h

theorem mem_instrs_of_kinds {F : Function} (hF : F ∈ cx.module.functions) {p : PermState ap}
    (h : Books.Within (Books.Bound.kindsOf ap F) p.books) :
    ∀ (c : Value) f, p.books.reachThreadCreate[c]? = some f →
      ∃ i ∈ cx.module.instrs, i.id = c ∧ i.isPthreadCreate = true := by
  intro c f hc
  obtain ⟨i, hi, hid, hcreate⟩ := h.reachThreadCreate c f hc
  exact ⟨i, Module.mem_instrs.mpr ⟨F, hF, hi⟩, hid, hcreate⟩

theorem Prepared.flat {s : RunState ap} (hprep : Prepared cx I s) {flat : StoreFacts ap}
    (h : flattenReachStores s.newReachStores = .ok flat) : AllFacts I flat := by
  intro v f hf
  obtain ⟨g, st, hst, hv⟩ := (flattenReachStores_getElem? h v f).mp hf
  exact hprep.facts g st hst v f hv

/-- The analysis of a site that can be processed. -/
theorem Ready.analysis (o : BlockOrder) (z3 : Solver) (rules : List Rule) (fuel : Nat) {s₀ s : RunState ap}
    {ci : Site} (hci : Ready cx s ci) (hI : FactInv cx I P) (hcx : cx.supported = true)
    (hmain : cx.module.func? main.id = some main) (hbody : main.blocks ≠ []) (hinv : LoopInv cx.module s₀)
    (hmid : MidIteration cx.module s₀ s) (hprep : Prepared cx I s) :
    ∃ F stFacts, siteFunc cx main ci = .ok F ∧ flattenReachStores s.newReachStores = .ok stFacts ∧
      F ∈ cx.module.functions ∧ ∀ entryFact,
        Yields (LoopStop.In (cx.Stops P)) (fun p => AllFacts I p.books.reachStores)
          (analyzeThreadInterf o cx z3 rules F ci (curFInterf cx z3 rules s F.id).1 stFacts { rErrors := s.rErrors }
            s.permCache entryFact fuel) := by
  obtain ⟨F, hsite, hF, hblocks⟩ := siteFunc_ok hcx hmain hbody hci
  obtain ⟨flat, hflat⟩ := hmid.owned.toUnique.flatten
  have hinterfs : ∀ (f : FuncId) m, s.interfs[f]? = some m →
      ∃ F, cx.module.func? f = some F ∧ getInterferingStores cx.module F s.allReachStores = .ok m := by
    rw [hmid.interfs, hmid.allReachStores]
    exact hinv.interfs
  have hin : AnalysisInput cx F ci (curFInterf cx z3 rules s F.id).1 ∧
      (cx.opts.filterMHB = false → (curFInterf cx z3 rules s F.id).1.Inhabited) :=
    analysisInput_of_interfs hcx hinterfs hF hblocks fun c hc => (hci c hc).1
  exact ⟨F, flat, hsite, hflat, hin.1.member, fun _ =>
    analyzeThreadInterf_yields hI hin.1 hin.2 (hprep.flat hflat) (allFacts_empty I)⟩

/-- **One thread** stops only as the flags and the invariant allow. -/
theorem processThread_failsIn (hI : FactInv cx I P) (hcx : cx.supported = true)
    (hmain : cx.module.func? main.id = some main) (hbody : main.blocks ≠ []) {s₀ s : RunState ap}
    (hinv : LoopInv cx.module s₀) (hmid : MidIteration cx.module s₀ s) (hprep : Prepared cx I s) {ci : Site}
    (hci : Ready cx s ci) :
    FailsIn (LoopStop.In (cx.Stops P)) (processThread o cx z3 rules main progInitState fuel s ci) := by
  obtain ⟨F, flat, hsite, hflat, hmem, hanalysis⟩ := hci.analysis o z3 rules fuel hI hcx hmain hbody hinv hmid hprep
  refine failsIn_bind_liftStop hsite (.bind ?_ fun entryFact => failsIn_bind_liftStop hflat ?_)
  · exact failsIn_liftStop (siteEntryFact_failsIn (P := fun _ => False) hci) fun _ h => False.elim h
  · refine .bind_of (hanalysis entryFact).fails fun p hp => ?_
    obtain ⟨r, hr, _⟩ := discoverThreads_ok hcx (mem_instrs_of_kinds hmem (analyzeThreadInterf_kinds hp))
      (s.analyzed F.id _ p)
    exact failsIn_liftStop (P := fun _ => False) (.of_ok ⟨r, hr⟩) fun _ h => False.elim h

/-- **One thread** leaves sites that can be processed, those it has found and those that wait. -/
theorem processThread_prepared (hI : FactInv cx I P) (hcx : cx.supported = true)
    (hmain : cx.module.func? main.id = some main) (hbody : main.blocks ≠ []) {s₀ s : RunState ap}
    (hinv : LoopInv cx.module s₀) (hmid : MidIteration cx.module s₀ s) (hprep : Prepared cx I s) {ci : Site}
    (hci : Ready cx s ci) {r : RunState ap × List Site}
    (h : processThread o cx z3 rules main progInitState fuel s ci = .ok r) :
    Prepared cx I r.1 ∧ (∀ y ∈ r.2, Ready cx r.1 y) ∧ ∀ y, Ready cx s y → Ready cx r.1 y := by
  obtain ⟨f, mhbCache, p, hsite, hstores⟩ := processThread_newReachStores h
  obtain ⟨f', mhbCache', p', hsite', hdiscover⟩ := processThread_ok h
  rw [hsite] at hsite'
  cases hsite'
  obtain ⟨F, flat, hF, hflat, hmem, hanalysis⟩ := hci.analysis o z3 rules fuel hI hcx hmain hbody hinv hmid hprep
  obtain ⟨F', entryFact, flat', hF', hid, _, hflat', hp⟩ := analyzeSite_ok hsite
  rw [hF] at hF'
  rw [hflat] at hflat'
  cases hF'
  cases hflat'
  have hkinds := analyzeThreadInterf_kinds hp
  have hfacts := (hanalysis entryFact).returns p hp
  obtain ⟨r', hr', hfound⟩ := discoverThreads_ok hcx (mem_instrs_of_kinds hmem hkinds) (s.analyzed f mhbCache p)
  obtain rfl := Except.ok.inj (hdiscover.symm.trans hr')
  refine ⟨⟨fun g st hg v hv => ?_, fun g st hg => ?_, fun f hf => ?_⟩, hfound.ready, fun y hy c hc => ?_⟩
  · rw [hstores] at hg
    split_ifs at hg
    · cases hg
      obtain ⟨fact, hfact⟩ := Option.isSome_iff_exists.mp (Std.TreeMap.mem_iff_isSome_getElem?.mp hv)
      obtain ⟨i, hi, rfl, hkind⟩ := hkinds.reachStores v fact hfact
      exact ⟨i, Module.instr?_id (Module.mem_instrs.mpr ⟨F, hmem, hi⟩), hkind⟩
    · exact hprep.stores g st hg v hv
  · rw [hstores] at hg
    split_ifs at hg
    · cases hg
      exact hfacts
    · exact hprep.facts g st hg
  · exact (hfound.funcs f hf).elim (hprep.funcs f) id
  · obtain ⟨hmem, hcreate, hfact⟩ := hy c hc
    exact ⟨hmem, hcreate, fun hd => hfound.facts c.id (hfact hd)⟩

/-- **All threads of an iteration.** -/
theorem threadsLoop_yields (hI : FactInv cx I P) (hcx : cx.supported = true)
    (hmain : cx.module.func? main.id = some main) (hbody : main.blocks ≠ []) {s₀ s : RunState ap}
    (hinv : LoopInv cx.module s₀) (hmid : MidIteration cx.module s₀ s) (hprep : Prepared cx I s) {n : Nat}
    {sites : List Site} (hsites : ∀ ci ∈ sites, Ready cx s ci) :
    Yields (LoopStop.In (cx.Stops P)) (Prepared cx I)
      (threadsLoop o cx z3 rules main progInitState fuel n sites s) := by
  induction n generalizing sites s with
  | zero =>
      cases sites with
      | nil => exact .ok hprep
      | cons ci sites => exact .error (.inl rfl)
  | succ n ih =>
      cases sites with
      | nil => exact .ok hprep
      | cons ci sites =>
          have hci := hsites ci (.head _)
          refine .bind ⟨processThread_failsIn hI hcx hmain hbody hinv hmid hprep hci, fun _ h => h⟩ fun r hr => ?_
          obtain ⟨hprep', hnew, hkeep⟩ := processThread_prepared hI hcx hmain hbody hinv hmid hprep hci hr
          refine ih (processThread_mid hmain hmid hr).1 hprep' fun y hy => ?_
          rcases List.mem_append.mp hy with hy | hy
          · exact hkeep y (hsites y (.tail _ hy))
          · exact hnew y hy

end Threads

/-! ### The loop -/

section Loop

variable {o : BlockOrder} {cx : Ctx} {z3 : Solver} {rules : List Rule} {fuel : Nat} {I : LatticeFact ap → Prop}
  {P : Stop → Prop}

theorem stableStores_failsIn (hI : FactInv cx I P) {oldI : ReachStores ap} (hold : oldI.Unique) {s : RunState ap}
    (hnew : s.newReachStores.Unique) (hprep : Prepared cx I s) :
    FailsIn P (stableStores oldI s.newReachStores) := by
  obtain ⟨flatOld, hflatOld⟩ := hold.flatten
  obtain ⟨flatNew, hflatNew⟩ := hnew.flatten
  have hloop : ∀ ps, (∀ p ∈ ps, I p.2) → FailsIn P (stableStoresLoop flatOld ps) := by
    intro ps hps
    induction ps with
    | nil => exact .ok _
    | cons p ps ih =>
        refine .bind ?_ fun stable => ?_
        · unfold stableStore
          cases flatOld[p.1]? with
          | some oldF => exact .ok _
          | none =>
              dsimp only
              split_ifs with hbot
              · exact .error (hI.stable (hps p (.head _)) hbot)
              · exact .ok _
        · split_ifs
          · exact ih fun q hq => hps q (.tail _ hq)
          · exact .ok _
  unfold stableStores
  rw [hflatOld, hflatNew]
  exact hloop _ fun p hp => hprep.flat hflatNew p.1 p.2 (Std.TreeMap.mem_toList_iff_getElem?_eq_some.mp hp)

theorem sliceInterfs_failsIn (m : LoadStores) :
    FailsIn (fun e => cx.opts.impactG = true ∧ e = erasedIterator) (sliceInterfs cx m) := by
  refine .bind (.forM fun l _ => ?_) fun _ => .ok _
  rw [Ctx.not_sliced, Bool.false_or]
  split_ifs with h
  · exact .error ⟨((Bool.and_eq_true _ _).mp ((Bool.and_eq_true _ _).mp h).1).1, rfl⟩
  · exact .ok _

theorem nextIteration_failsIn (hcx : cx.supported = true) {s : RunState ap} (hprep : Prepared cx I s) :
    FailsIn (· ∈ cx.opts.flagStops) (nextIteration cx s) := by
  refine .bind (.foldlM_of (fun t : RunState ap => t.newReachStores = s.newReachStores) ?_ ?_ rfl) fun _ => .ok _
  · intro f hf t ht
    obtain ⟨F, hF⟩ := hprep.funcs f (Std.TreeSet.mem_toList.mp hf)
    unfold updateInterfs
    rw [hF, ht]
    dsimp only
    refine .bind (getInterferingStores_failsIn hcx (Module.func?_mem hF).1 hprep.stores) fun m => ?_
    refine .bind ((sliceInterfs_failsIn m).mono fun e he => ?_) fun _ => .ok _
    rw [he.2, Options.flagStops, he.1]
    simp
  · intro f _ t t' ht hstep
    unfold updateInterfs at hstep
    cases hF : cx.module.func? f with
    | none => simp [hF] at hstep
    | some F =>
        simp only [hF] at hstep
        obtain ⟨_, _, hstep⟩ := bind_eq_ok.mp hstep
        obtain ⟨_, _, hstep⟩ := bind_eq_ok.mp hstep
        cases hstep
        exact ht

/-- The sites of an iteration can be processed in any state. -/
theorem Setup.For.ready {l : Setup ap} (hl : l.For cx) (s : RunState ap) : ∀ ci ∈ l.threadSites, Ready cx s ci := by
  intro ci hci c hc
  rw [hl.sites] at hci
  split_ifs at hci with hdyn
  · rw [List.mem_singleton.mp hci] at hc
    cases hc
  · rcases List.mem_append.mp hci with hci | hci
    · obtain ⟨c', hc', rfl⟩ := List.mem_map.mp hci
      cases hc
      rw [Module.getThreadCreate_eq] at hc'
      obtain ⟨hmem, hcreate⟩ := List.mem_filter.mp hc'
      exact ⟨hmem, hcreate, fun hd => absurd hd hdyn⟩
    · rw [List.mem_singleton.mp hci] at hc
      cases hc

/-- **One iteration** stops only as the flags and the invariant allow, and leaves what the next one needs. -/
theorem Setup.For.iter_yields {l : Setup ap} (hl : l.For cx) (hI : FactInv cx I P) (hcx : cx.supported = true)
    (hbody : l.main.blocks ≠ []) {s : RunState ap} (hinv : LoopInv cx.module s)
    (hprep : Prepared cx I { s with newReachStores := s.allReachStores }) :
    Yields (LoopStop.In (cx.Stops P))
      (fun r => Prepared cx I r.2 ∧ (r.1 = false →
        LoopInv cx.module r.2 ∧ Prepared cx I { r.2 with newReachStores := r.2.allReachStores }))
      (interferenceIter o cx z3 rules l.main l.progInitState fuel l.threadSites l.noThreads s) := by
  have hthreads : Yields (LoopStop.In (cx.Stops P)) (Prepared cx I)
      (threadsLoop o cx z3 rules l.main l.progInitState fuel fuel l.threadSites
        { s with newReachStores := s.allReachStores }) :=
    threadsLoop_yields hI hcx hl.func hbody hinv hinv.mid hprep (hl.ready _)
  refine .bind (Q := fun v => MidIteration cx.module s v ∧ Prepared cx I v)
    ⟨hthreads.fails, fun v hv => ⟨(threadsLoop_mid hl.func hinv.mid hv).1, hthreads.returns v hv⟩⟩ ?_
  rintro v ⟨hmid, hv⟩
  split_ifs
  · exact .ok ⟨hv, fun h => by cases h⟩
  · have hstable := stableStores_failsIn hI (hmid.allReachStores ▸ hinv.owned.toUnique) hmid.owned.toUnique hv
    refine .bind (yields_liftStop (Q := fun _ => True) ⟨hstable, fun _ _ => trivial⟩ fun e he => .inl he)
      fun stable _ => ?_
    split_ifs
    · exact .ok ⟨⟨hv.stores, hv.facts, hv.funcs⟩, fun h => by cases h⟩
    · refine .bind (yields_liftStop ⟨nextIteration_failsIn hcx hv, fun _ h => h⟩ fun e he => .inr he) fun w hw => ?_
      have hnext := hinv.next hmid hw
      obtain ⟨interfs, rfl, _⟩ := nextIteration_eq hw
      exact .ok ⟨⟨hv.stores, hv.facts, hv.funcs⟩, fun _ => ⟨hnext, hv.stores, hv.facts, hv.funcs⟩⟩

theorem Setup.For.loop_yields {l : Setup ap} (hl : l.For cx) (hI : FactInv cx I P) (hcx : cx.supported = true)
    (hbody : l.main.blocks ≠ []) {n : Nat} {s : RunState ap} (hinv : LoopInv cx.module s)
    (hprep : Prepared cx I { s with newReachStores := s.allReachStores }) :
    Yields (LoopStop.In (cx.Stops P)) (Prepared cx I) (l.loop o cx z3 rules fuel n s) := by
  induction n generalizing s with
  | zero => exact .error (.inl rfl)
  | succ n ih =>
      unfold Setup.loop interferenceLoop
      refine .bind (hl.iter_yields hI hcx hbody hinv hprep) fun r hr => ?_
      obtain ⟨stable, t⟩ := r
      cases stable with
      | true => exact .ok hr.1
      | false =>
          obtain ⟨hinv', hprep'⟩ := hr.2 rfl
          exact ih hinv' hprep'

theorem getThreads_ok (hcx : cx.supported = true) : ∃ threads, getThreads cx.module = .ok threads := by
  refine Fallible.foldlM_total (fun ci hci ret => ?_) _
  obtain ⟨hmem, hcreate⟩ := List.mem_filter.mp hci
  obtain ⟨g, hg, _⟩ := Ctx.supported_create hcx hmem hcreate
  exact ⟨ret.insert g, by rw [getPThreadThreadFunc_eq hg]; rfl⟩

theorem getInitState_failsIn {P : Stop → Prop} (hcx : cx.supported = true) (initFact : LatticeFact ap) :
    FailsIn P (getInitState cx.module initFact cx.v2n) := by
  unfold Ctx.supported at hcx
  simp only [Bool.and_eq_true] at hcx
  refine .foldlM (fun g hg ret => ?_) _
  have hinit := List.all_eq_true.mp hcx.2 g hg
  unfold GlobalVariable.supported at hinit
  cases hi : g.initializer with
  | none =>
      rw [hi] at hinit
      cases hinit
  | some c =>
      rw [hi] at hinit
      cases c with
      | other => exact .ok _
      | constantInt ci =>
          obtain ⟨hname, hfits⟩ := (Bool.and_eq_true _ _).mp hinit
          exact .bind (mapAtUnsafe_failsIn hname) fun _ =>
            .bind (getConstantIntUnsafe_failsIn hfits) fun _ => .ok _

theorem exists_main (hcx : cx.supported = true) :
    ∃ main, cx.module.main.bind cx.module.func? = some main ∧ main.blocks ≠ [] := by
  unfold Ctx.supported at hcx
  simp only [Bool.and_eq_true] at hcx
  obtain ⟨f, hf, hbody⟩ := (Option.any_eq_true _ _).mp hcx.1.1
  obtain ⟨main, hmain, hblocks⟩ := Module.exists_func?_of_hasBody hbody
  exact ⟨main, Option.bind_eq_some_iff.mpr ⟨f, hf, hmain⟩, hblocks⟩

/-- The set-up returns, with a `main` that has a body. -/
theorem setup_supported (hcx : cx.supported = true) :
    ∃ l : Setup ap, setup cx = .ok l ∧ l.main.blocks ≠ [] ∧ ∀ f ∈ l.threadFuncs, ∃ F, cx.module.func? f = some F := by
  obtain ⟨main, hmain, hblocks⟩ := exists_main hcx
  obtain ⟨threads, hthreads⟩ := getThreads_ok hcx
  have hinit : ∃ f, getInitState cx.module (⟨ap.top⟩ : LatticeFact ap) cx.v2n = .ok f := by
    cases h : getInitState cx.module (⟨ap.top⟩ : LatticeFact ap) cx.v2n with
    | ok f => exact ⟨f, rfl⟩
    | error e => exact (getInitState_failsIn (P := fun _ => False) hcx _ e h).elim
  obtain ⟨progInitState, hinit⟩ := hinit
  have hfunc : cx.module.func? main.id = some main := by
    obtain ⟨f, _, hf⟩ := Option.bind_eq_some_iff.mp hmain
    rw [(Module.func?_mem hf).2]
    exact hf
  refine ⟨_, by simp only [setup, hmain, hthreads, hinit, liftM_stop, liftStop]; rfl, hblocks, fun f hf => ?_⟩
  dsimp only at hf
  split_ifs at hf with hdyn
  · obtain rfl := Nat.compare_eq_eq.mp ((Std.TreeSet.mem_insert.mp hf).resolve_right Std.TreeSet.not_mem_emptyc)
    exact ⟨main, hfunc⟩
  · rcases Std.TreeSet.mem_insert.mp hf with hf | hf
    · obtain rfl := Nat.compare_eq_eq.mp hf
      exact ⟨main, hfunc⟩
    · obtain ⟨ci, hci, hg⟩ := getThreads_mem hthreads hf
      rw [Module.getThreadCreate_eq] at hci
      obtain ⟨hmem, hcreate⟩ := List.mem_filter.mp hci
      obtain ⟨g, hg', hbody⟩ := Ctx.supported_create hcx hmem hcreate
      obtain rfl := Option.some.inj (hg'.symm.trans (createdFunc_of_getPThreadThreadFunc hg))
      obtain ⟨F, hF, _⟩ := Module.exists_func?_of_hasBody hbody
      exact ⟨F, hF⟩

/-- **The whole pass** stops only as the flags and the invariant allow, and the facts that it records have the
invariant. -/
theorem runOnModule_yields (o : BlockOrder) (z3 : Solver) (rules : List Rule) (fuel : Nat) (hI : FactInv cx I P)
    (hcx : cx.supported = true) :
    Yields (LoopStop.In (cx.Stops P)) (Prepared cx I) (runOnModule o cx z3 rules fuel) := by
  obtain ⟨l, hl, hbody, hfuncs⟩ : ∃ l : Setup ap, setup cx = .ok l ∧ l.main.blocks ≠ [] ∧
      ∀ f ∈ l.threadFuncs, ∃ F, cx.module.func? f = some F := setup_supported hcx
  rw [runOnModule_eq, hl, Fallible.ok_bind]
  exact (setup_ok hl).loop_yields hI hcx hbody (LoopInv.initial cx.module l.threadFuncs)
    ⟨fun g st hg => by simp at hg, fun g st hg => by simp at hg, hfuncs⟩

/-- No property of the facts, with the stops at bottom. -/
theorem FactInv.any (ap : Apron) (cx : Ctx) : FactInv cx (fun _ : LatticeFact ap => True) (· ∈ bottomStops) where
  visited _ := trivial
  factJoin _ _ := trivial
  transferFact nonCombinInterfs _ _ _ _ _ hi :=
    ⟨BBOps.transferFact_failsIn _ nonCombinInterfs (fun _ => by simp [bottomStops]) hi, fun _ _ => trivial⟩
  stable _ _ := by simp [bottomStops]

end Loop

end Watts
