import Watts.Differences
import Watts.Interferences
import Watts.PhiNodes

/-! Loads in non-combinational mode.  The join of the facts at the interfering stores gives a fact above the one
of each permutation: of the own thread's value and of the value of each store. -/

namespace Watts

open BBOps
open Fallible (bind_eq_ok)

variable {ap : Apron}

/-! ### The joined facts -/

/-- The facts at the stores are below their join. -/
theorem joinStoreFacts_upper {R : LatticeFact ap → LatticeFact ap → Prop} (hR : JoinOrder R)
    {sToF : StoreFacts ap} {ss : List Value} {J : LatticeFact ap} (h : joinStoreFacts sToF ss = .ok J) {s : Value}
    (hs : s ∈ ss) : ∃ fs, sToF[s]? = some fs ∧ R fs J := by
  have hgen : ∀ (ss : List Value) (lfact : LatticeFact ap),
      ss.foldlM (fun lfact s => return lfact.factJoin (← mapAtUnsafe sToF s)) lfact = .ok J →
      R lfact J ∧ ∀ s ∈ ss, ∃ fs, sToF[s]? = some fs ∧ R fs J := by
    intro ss
    induction ss with
    | nil =>
        intro lfact h
        obtain rfl := Fallible.foldlM_nil_eq_ok.mp h
        exact ⟨hR.refl _, fun _ hs => absurd hs List.not_mem_nil⟩
    | cons s ss ih =>
        intro lfact h
        obtain ⟨_, hstep, h⟩ := Fallible.foldlM_cons_eq_ok.mp h
        obtain ⟨next, hnext, hstep⟩ := bind_eq_ok.mp hstep
        cases hstep
        obtain ⟨hle, hrest⟩ := ih _ h
        refine ⟨hR.trans (hR.left _ _) hle, fun s' hs' => ?_⟩
        rcases List.mem_cons.mp hs' with rfl | hs'
        · exact ⟨next, Box.mapAtUnsafe_ok hnext, hR.trans (hR.right _ _) hle⟩
        · exact hrest s' hs'
  cases ss with
  | nil => cases hs
  | cons s₀ ss =>
      obtain ⟨lfact, hlfact, h⟩ := bind_eq_ok.mp h
      obtain ⟨hle, hrest⟩ := hgen ss lfact h
      rcases List.mem_cons.mp hs with rfl | hs
      · exact ⟨lfact, Box.mapAtUnsafe_ok hlfact, hle⟩
      · exact hrest s hs

/-- Each load has the join of the facts at its stores. -/
theorem joinInterfs_getElem? {l2Ss : LoadStores} {sToF : StoreFacts ap} {joined : InterfMap ap}
    (h : joinInterfs l2Ss sToF = .ok joined) {l : Value} {ss : List Value} (hss : l2Ss[l]? = some ss) :
    ∃ J, joined[l]? = some J ∧ joinStoreFacts sToF ss = .ok J := by
  have hgen : ∀ (ps : List (Value × List Value)) (m : InterfMap ap), (∀ p ∈ ps, l2Ss[p.1]? = some p.2) →
      ps.foldlM (fun joined p => return joined.insert p.1 (← joinStoreFacts sToF p.2)) m = .ok joined →
      (∃ J, m[l]? = some J ∧ joinStoreFacts sToF ss = .ok J) ∨ (l, ss) ∈ ps →
      ∃ J, joined[l]? = some J ∧ joinStoreFacts sToF ss = .ok J := by
    intro ps
    induction ps with
    | nil =>
        intro m _ h hl
        obtain rfl := Fallible.foldlM_nil_eq_ok.mp h
        exact hl.resolve_right List.not_mem_nil
    | cons p ps ih =>
        intro m hps h hl
        obtain ⟨_, hstep, h⟩ := Fallible.foldlM_cons_eq_ok.mp h
        obtain ⟨K, hK, hstep⟩ := bind_eq_ok.mp hstep
        cases hstep
        refine ih _ (fun q hq => hps q (.tail _ hq)) h ?_
        by_cases hp : p.1 = l
        · have hp₂ : p.2 = ss := by
            have hmem := hps p (.head _)
            rw [hp, hss] at hmem
            exact (Option.some.inj hmem).symm
          refine .inl ⟨K, ?_, hp₂ ▸ hK⟩
          rw [hp, Std.TreeMap.getElem?_insert_self]
        · rcases hl with ⟨J, hJ, hjoin⟩ | hl
          · refine .inl ⟨J, ?_, hjoin⟩
            rwa [Std.TreeMap.getElem?_insert, if_neg (by simpa using hp)]
          · exact .inr ((List.mem_cons.mp hl).resolve_left fun heq => hp (by rw [← heq]))
  exact hgen l2Ss.toList {} (fun p hp => Std.TreeMap.mem_toList_iff_getElem?_eq_some.mp hp) h
    (.inr (Std.TreeMap.mem_toList_iff_getElem?_eq_some.mpr hss))

/-! ### Loads and additions by name -/

/-- An operand added to a variable. -/
def LatticeFact.addTerm (f : LatticeFact ap) (dst op : Var) : Term → LatticeFact ap
  | .int c => f.addInt dst op c
  | .var w => f.addVar dst op w

/-- The name or the constant of an operand. -/
def Operand.term (v2n : NameMap) : Operand → Except Stop Term
  | .constantInt ci => return .int (← getConstantIntUnsafe ci)
  | op => return .var (← op.valueToStringUnsafe v2n)

/-- The pointer is given an interval and then read. -/
def LatticeFact.readInterval (f : LatticeFact ap) (r p : Var) (I : Interval) : LatticeFact ap :=
  (f.assignInterval p I).assignVar r p

section Names

variable {v2n : NameMap} {dst ptr : Value} {f g k : LatticeFact ap}

theorem performAssign_value (h : performAssign v2n dst (.value ptr) f = .ok g) :
    ∃ r p, v2n[dst]? = some r ∧ v2n[ptr]? = some p ∧ g = f.assignVar r p := by
  obtain ⟨r, hr, h⟩ := bind_eq_ok.mp h
  obtain ⟨p, hp, h⟩ := bind_eq_ok.mp h
  cases h
  exact ⟨r, p, Box.mapAtUnsafe_ok hr, Box.mapAtUnsafe_ok hp, rfl⟩

theorem performAssign_ok {r p : Var} (hr : v2n[dst]? = some r) (hp : v2n[ptr]? = some p) (f : LatticeFact ap) :
    performAssign v2n dst (.value ptr) f = .ok (f.assignVar r p) := by
  simp only [performAssign, mapAtUnsafe_of_getElem? hr, mapAtUnsafe_of_getElem? hp, bind, Except.bind]
  rfl

/-- With interference, in combinational mode. -/
theorem performAssignWithInterf_false (h : performAssignWithInterf v2n false dst ptr f k = .ok g) :
    ∃ r p, v2n[dst]? = some r ∧ v2n[ptr]? = some p ∧ g = f.readInterval r p (k.getVarInterval p) := by
  obtain ⟨p, hp, h⟩ := bind_eq_ok.mp h
  obtain ⟨r, p', hr, hp', rfl⟩ := performAssign_value h
  obtain rfl := Option.some.inj ((Box.mapAtUnsafe_ok hp).symm.trans hp')
  exact ⟨r, p, hr, hp', rfl⟩

/-- With interference, in non-combinational mode. -/
theorem performAssignWithInterf_true {r p : Var} (hr : v2n[dst]? = some r) (hp : v2n[ptr]? = some p)
    (f k : LatticeFact ap) : performAssignWithInterf v2n true dst ptr f k =
      .ok (f.readInterval r p ((f.factJoin k).getVarInterval p)) := by
  have hassign := performAssign_ok hr hp (f.assignInterval p ((f.factJoin k).getVarInterval p))
  simp only [performAssignWithInterf, performNonCombinAssign, hp]
  exact hassign

theorem performBinOp_term {op : Value} {val : Operand} {d n : Var} {t : Term} (ht : val.term v2n = .ok t)
    (hd : v2n[dst]? = some d) (hn : v2n[op]? = some n) (f : LatticeFact ap) :
    performBinOp v2n .add dst (.value op) val f = .ok (f.addTerm d n t) := by
  cases val with
  | constantInt ci =>
      obtain ⟨c, hc, ht⟩ := bind_eq_ok.mp ht
      cases ht
      simp only [performBinOp, mapAtUnsafe_of_getElem? hd, hc, Operand.valueToStringUnsafe,
        mapAtUnsafe_of_getElem? hn, bind, Except.bind]
      rfl
  | value w =>
      obtain ⟨m, hm, ht⟩ := bind_eq_ok.mp ht
      cases ht
      have hm' : mapAtUnsafe v2n w = .ok m := hm
      simp only [performBinOp, mapAtUnsafe_of_getElem? hd, hm', Operand.valueToStringUnsafe,
        mapAtUnsafe_of_getElem? hn, bind, Except.bind]
      rfl
  | constantPointerNull =>
      obtain ⟨_, hm, _⟩ := bind_eq_ok.mp ht
      cases hm
  | constantExpr folded =>
      obtain ⟨_, hm, _⟩ := bind_eq_ok.mp ht
      cases hm

/-- An addition to a variable adds one term. -/
theorem performBinOp_add {op : Value} {val : Operand} (h : performBinOp v2n .add dst (.value op) val f = .ok g) :
    ∃ d n t, v2n[dst]? = some d ∧ v2n[op]? = some n ∧ val.term v2n = .ok t ∧ g = f.addTerm d n t := by
  obtain ⟨d, hd, h⟩ := bind_eq_ok.mp h
  cases val with
  | constantInt ci =>
      obtain ⟨c, hc, h⟩ := bind_eq_ok.mp h
      obtain ⟨n, hn, h⟩ := bind_eq_ok.mp h
      cases h
      exact ⟨d, n, .int c, Box.mapAtUnsafe_ok hd, Box.mapAtUnsafe_ok hn, bind_eq_ok.mpr ⟨c, hc, rfl⟩, rfl⟩
  | value w =>
      obtain ⟨n, hn, h⟩ := bind_eq_ok.mp h
      obtain ⟨m, hm, h⟩ := bind_eq_ok.mp h
      cases h
      exact ⟨d, n, .var m, Box.mapAtUnsafe_ok hd, Box.mapAtUnsafe_ok hn, bind_eq_ok.mpr ⟨m, hm, rfl⟩, rfl⟩
  | constantPointerNull =>
      obtain ⟨_, _, h⟩ := bind_eq_ok.mp h
      obtain ⟨_, hm, _⟩ := bind_eq_ok.mp h
      cases hm
  | constantExpr folded =>
      obtain ⟨_, _, h⟩ := bind_eq_ok.mp h
      obtain ⟨_, hm, _⟩ := bind_eq_ok.mp h
      cases hm

end Names

/-! ### Facts above each other -/

/-- Right after `r := p` the sum of `p` and a term is evaluated no less precisely than that of `r` and the
term. -/
def Apron.AddsAlike (ap : Apron) : Prop :=
  ∀ (f : LatticeFact ap) (r p : Var) (t : Term),
    ((f.assignVar r p).addTerm p p t).leq ((f.assignVar r p).addTerm p r t)

namespace Apron.OverApproximates

variable (hA : ap.OverApproximates) {f g : LatticeFact ap} {r p : Var} {I J : Interval}
include hA

theorem joinOrder : JoinOrder fun f g : LatticeFact ap => f.leq g where
  refl _ := hA.leq_refl _
  trans h₁ h₂ := hA.leq_trans h₁ h₂
  left _ _ := hA.join_left _ _
  right _ _ := hA.join_right _ _

theorem assignVar (h : f.leq g) (r p : Var) : (f.assignVar r p).leq (g.assignVar r p) :=
  hA.assignLinexpr r [(1, p)] h .rfl

theorem addTerm (h : f.leq g) (d n : Var) (t : Term) : (f.addTerm d n t).leq (g.addTerm d n t) := by
  cases t with
  | int c => exact hA.assignLinexpr d [(1, n)] h .rfl
  | var w => exact hA.assignTexpr d _ h

theorem readInterval (hIJ : I.Sub J) (f : LatticeFact ap) (r p : Var) :
    (f.readInterval r p I).leq (f.readInterval r p J) :=
  hA.assignVar (hA.assignLinexpr p [] (hA.leq_refl _) hIJ) r p

/-- Reading an interval that has the bounds of the pointer in it keeps the own thread's value. -/
theorem assignVar_le_readInterval (hI : (f.getVarInterval p).Sub I) (r : Var) :
    (f.assignVar r p).leq (f.readInterval r p I) :=
  hA.assignVar (hA.assignInterval p hI) r p

theorem own_sub (f k : LatticeFact ap) (p : Var) :
    (f.getVarInterval p).Sub ((f.factJoin k).getVarInterval p) :=
  hA.boundVariable p (hA.join_left _ _)

theorem interf_sub {k j : LatticeFact ap} (h : k.leq j) (f : LatticeFact ap) (p : Var) :
    (k.getVarInterval p).Sub ((f.factJoin j).getVarInterval p) :=
  hA.boundVariable p (hA.leq_trans h (hA.join_right _ _))

end Apron.OverApproximates

/-! ### Loads and atomic additions -/

section Modes

variable {cx : Ctx} {joined : InterfMap ap} {i : Instruction} {f g : LatticeFact ap} {books : Books ap}

/-- The fact of the non-combinational mode is above another one. -/
def NonCombAbove (cx : Ctx) (joined : InterfMap ap) (f : LatticeFact ap) (i : Instruction) (books : Books ap)
    (g : LatticeFact ap) : Prop :=
  ∃ n b, transferFunc cx joined true f i books = .ok (n, b) ∧ g.leq n

theorem transferFunc_ok {interf : InterfMap ap} {nonCombinInterfs : Bool} {b : Books ap} :
    transferFunc cx interf nonCombinInterfs f i books = .ok (g, b) ↔
      transferFact cx interf nonCombinInterfs f i = .ok g ∧ b = record books f g i := by
  unfold transferFunc
  rw [bind_eq_ok]
  constructor
  · rintro ⟨g', hg', h⟩
    cases h
    exact ⟨hg', rfl⟩
  · rintro ⟨hg, rfl⟩
    exact ⟨g, hg, rfl⟩

theorem nonCombAbove_of {n : LatticeFact ap} (hn : transferFact cx joined true f i = .ok n) (h : g.leq n) :
    NonCombAbove cx joined f i books g :=
  ⟨n, _, transferFunc_ok.mpr ⟨hn, rfl⟩, h⟩

/-- An instruction that does not load has one fact in both modes. -/
theorem transferFact_no_load (hl : i.isSomeLoad = false) (interf : InterfMap ap) (nonCombinInterfs : Bool) :
    transferFact cx interf nonCombinInterfs f i = transferFact cx joined true f i := by
  unfold Instruction.isSomeLoad at hl
  unfold transferFact
  cases hk : i.kind <;> rw [hk] at hl
  all_goals first | rfl | cases hl

theorem transferFact_load {ptr : Value} (hk : i.kind = .load ptr) {J : LatticeFact ap}
    (hJ : joined[i.id]? = some J) {r p : Var} (hr : cx.v2n[i.id]? = some r) (hp : cx.v2n[ptr]? = some p) :
    transferFact cx joined true f i = .ok (f.readInterval r p ((f.factJoin J).getVarInterval p)) := by
  simp only [transferFact, hk, hJ]
  exact performAssignWithInterf_true hr hp f J

theorem transferFact_add {ptr : Value} {val : Operand} (hk : i.kind = .atomicRMW .add ptr val)
    {J : LatticeFact ap} (hJ : joined[i.id]? = some J) {r p : Var} (hr : cx.v2n[i.id]? = some r)
    (hp : cx.v2n[ptr]? = some p) {t : Term} (ht : val.term cx.v2n = .ok t) :
    transferFact cx joined true f i =
      .ok ((f.readInterval r p ((f.factJoin J).getVarInterval p)).addTerm p r t) := by
  simp only [transferFact, hk, hJ, performAtomicRMWInterf, performAssignWithInterf_true hr hp f J, bind, Except.bind]
  exact performBinOp_term ht hp hr _

/-- **The value of a store.** -/
theorem nonCombAbove_store (hA : ap.OverApproximates) {J fs : LatticeFact ap} (hJ : joined[i.id]? = some J)
    (hfs : fs.leq J) {choice : InterfMap ap} (hc : choice[i.id]? = some fs)
    (h : transferFact cx choice false f i = .ok g) : NonCombAbove cx joined f i books g := by
  cases hl : i.isSomeLoad with
  | false =>
      rw [transferFact_no_load hl] at h
      exact nonCombAbove_of h (hA.leq_refl _)
  | true =>
      cases hk : i.kind with
      | load ptr =>
          simp only [transferFact, hk, hc] at h
          obtain ⟨r, p, hr, hp, rfl⟩ := performAssignWithInterf_false h
          exact nonCombAbove_of (transferFact_load hk hJ hr hp) (hA.readInterval (hA.interf_sub hfs f p) f r p)
      | atomicRMW op ptr val =>
          simp only [transferFact, hk, hc] at h
          obtain ⟨k, hread, h⟩ := bind_eq_ok.mp h
          obtain ⟨r, p, hr, hp, rfl⟩ := performAssignWithInterf_false hread
          cases op with
          | other => cases h
          | add =>
              obtain ⟨d, n, t, hd, hn, ht, rfl⟩ := performBinOp_add h
              obtain rfl := Option.some.inj (hd.symm.trans hp)
              obtain rfl := Option.some.inj (hn.symm.trans hr)
              refine nonCombAbove_of (transferFact_add hk hJ hr hp ht) ?_
              exact hA.addTerm (hA.readInterval (hA.interf_sub hfs f d) f n d) d n t
      | atomicCmpXchg ptr =>
          simp only [transferFact, hk] at h
          cases h
      | _ => simp [Instruction.isSomeLoad, hk] at hl

/-- **The own thread's value** of a load, and of an atomic addition that adds to the loaded value. -/
theorem nonCombAbove_own (hA : ap.OverApproximates) {J : LatticeFact ap} (hJ : joined[i.id]? = some J)
    {choice : InterfMap ap} (hc : choice[i.id]? = none) (h : transferFact cx choice false f i = .ok g)
    (hadds : (∀ op ptr val, i.kind ≠ .atomicRMW op ptr val) ∨ ap.AddsAlike) :
    NonCombAbove cx joined f i books g := by
  cases hl : i.isSomeLoad with
  | false =>
      rw [transferFact_no_load hl] at h
      exact nonCombAbove_of h (hA.leq_refl _)
  | true =>
      cases hk : i.kind with
      | load ptr =>
          simp only [transferFact, hk, hc] at h
          obtain ⟨r, p, hr, hp, rfl⟩ := performAssign_value h
          exact nonCombAbove_of (transferFact_load hk hJ hr hp) (hA.assignVar_le_readInterval (hA.own_sub f J p) r)
      | atomicRMW op ptr val =>
          have halike := hadds.resolve_left fun hno => hno op ptr val hk
          simp only [transferFact, hk, hc] at h
          obtain ⟨k, hread, h⟩ := bind_eq_ok.mp h
          obtain ⟨r, p, hr, hp, rfl⟩ := performAssign_value hread
          cases op with
          | other => cases h
          | add =>
              obtain ⟨d, n, t, hd, hn, ht, rfl⟩ := performBinOp_add h
              obtain rfl := Option.some.inj (hd.symm.trans hp)
              obtain rfl := Option.some.inj (hn.symm.trans hp)
              refine nonCombAbove_of (transferFact_add hk hJ hr hp ht) ?_
              have hread := hA.assignVar_le_readInterval (hA.own_sub f J n) r
              exact hA.leq_trans (halike f r n t) (hA.addTerm hread n r t)
      | atomicCmpXchg ptr =>
          simp only [transferFact, hk] at h
          cases h
      | _ => simp [Instruction.isSomeLoad, hk] at hl

/-- The own thread's value of an atomic addition, added to where it has been loaded. -/
theorem nonCombAbove_loaded (hA : ap.OverApproximates) {J : LatticeFact ap} (hJ : joined[i.id]? = some J)
    {ptr : Value} {val : Operand} (hk : i.kind = .atomicRMW .add ptr val) {k : LatticeFact ap}
    (hread : performAssign cx.v2n i.id (.value ptr) f = .ok k)
    (h : performBinOp cx.v2n .add ptr (.value i.id) val k = .ok g) : NonCombAbove cx joined f i books g := by
  obtain ⟨r, p, hr, hp, rfl⟩ := performAssign_value hread
  obtain ⟨d, n, t, hd, hn, ht, rfl⟩ := performBinOp_add h
  obtain rfl := Option.some.inj (hd.symm.trans hp)
  obtain rfl := Option.some.inj (hn.symm.trans hr)
  refine nonCombAbove_of (transferFact_add hk hJ hr hp ht) ?_
  exact hA.addTerm (hA.assignVar_le_readInterval (hA.own_sub f J d) n) d n t

end Modes

/-- **The non-combinational mode covers the choices** of the permutations: each store, and the own thread's
value, for an atomic addition as far as the domain evaluates the two forms of the sum alike. -/
theorem nonComb_covers {ap : Apron} (hA : ap.OverApproximates) (cx : Ctx) (interfs : LoadStores)
    (stFacts : StoreFacts ap) (joined : InterfMap ap) (hjoined : joinInterfs interfs stFacts = .ok joined)
    (i : Instruction) (ss : List Value) (hss : interfs[i.id]? = some ss) (f : LatticeFact ap) (books : Books ap) :
    (∀ s ∈ ss, ∀ fs, stFacts[s]? = some fs → ∀ (choice : InterfMap ap) (g : LatticeFact ap) (b : Books ap),
      choice[i.id]? = some fs → transferFunc cx choice false f i books = .ok (g, b) →
        NonCombAbove cx joined f i books g) ∧
    (∀ (choice : InterfMap ap) (g : LatticeFact ap) (b : Books ap),
      choice[i.id]? = none → transferFunc cx choice false f i books = .ok (g, b) →
        (∀ op ptr val, i.kind ≠ .atomicRMW op ptr val) ∨ ap.AddsAlike → NonCombAbove cx joined f i books g) ∧
    ∀ ptr val, i.kind = .atomicRMW .add ptr val → ∀ k g : LatticeFact ap,
      performAssign cx.v2n i.id (.value ptr) f = .ok k → performBinOp cx.v2n .add ptr (.value i.id) val k = .ok g →
        NonCombAbove cx joined f i books g := by
  obtain ⟨J, hJ, hjoin⟩ := joinInterfs_getElem? hjoined hss
  refine ⟨fun s hs fs hfs choice g b hc h => ?_, fun choice g b hc h hadds => ?_, fun ptr val hk k g hread h => ?_⟩
  · obtain ⟨fs', hfs', hle⟩ := joinStoreFacts_upper hA.joinOrder hjoin hs
    obtain rfl := Option.some.inj (hfs.symm.trans hfs')
    exact nonCombAbove_store hA hJ hle hc (transferFunc_ok.mp h).1
  · exact nonCombAbove_own hA hJ hc (transferFunc_ok.mp h).1 hadds
  · exact nonCombAbove_loaded hA hJ hk hread h

/-! ### Boxes -/

namespace Box

open Intervals (Itv)

theorem overApproximates : boxes.OverApproximates where
  leq_refl := lattice.leq_refl
  leq_trans := lattice.leq_trans
  join_left := lattice.join_left
  join_right := lattice.join_right
  boundVariable := monotone.boundVariable
  assignLinexpr := monotone.assignLinexpr
  assignTexpr := monotone.assignTexpr
  assignInterval {x} v I h := by
    refine isLeq_of fun a ha => ?_
    subst ha
    obtain ⟨J, hJ, hle⟩ := exists_ofInterval h
    have hset : boxes.assignLinexpr (some a) v ⟨[], I⟩ = some (set a v ((Itv.const 0).add J)) := by
      simp [boxes, hJ, terms]
    refine ⟨_, hset, leq_iff.mpr fun w => ?_⟩
    rw [get_set]
    split_ifs with hw
    · rwa [hw]
    · exact Itv.le_refl _

theorem assignVar_eq (b : List Itv) (d s : Var) :
    (⟨some b⟩ : LatticeFact boxes).assignVar d s = ⟨some (set b d (get b s))⟩ := by
  have hterms : (terms b [(1, s)]).add (Itv.const 0) = get b s := by
    simp only [terms, List.foldr_cons, List.foldr_nil, Itv.scale_one, Itv.add_zero]
  exact congrArg (fun I => (⟨some (set b d I)⟩ : LatticeFact boxes)) hterms

/-- The bounds of a variable and a term. -/
def sum (b : List Itv) (n : Var) : Term → Itv
  | .var w => (get b n).add (get b w)
  | .int c => (get b n).add (.const c)

theorem addTerm_eq (b : List Itv) (d n : Var) (u : Term) :
    (⟨some b⟩ : LatticeFact boxes).addTerm d n u = ⟨some (set b d (sum b n u))⟩ := by
  cases u with
  | var w => rfl
  | int c =>
      have hc : ofInterval (.const c) = some (Itv.const c) := by
        simp [Interval.const, ofInterval, Itv.mk?, Itv.const]
      simp only [LatticeFact.addTerm, LatticeFact.addInt, boxes, hc, terms, List.foldr_cons, List.foldr_nil,
        Itv.scale_one, Itv.add_zero]
      rfl

theorem addTerm_none (d n : Var) (u : Term) :
    (⟨none⟩ : LatticeFact boxes).addTerm d n u = ⟨none⟩ := by
  cases u <;> rfl

/-- Right after `r := p` a sum with `p` has the bounds of the sum with `r`. -/
theorem sum_assignVar (b : List Itv) (r p : Var) (u : Term) :
    sum (set b r (get b p)) p u = sum (set b r (get b p)) r u := by
  have hget : get (set b r (get b p)) p = get (set b r (get b p)) r := by
    rw [get_set, get_set, if_pos rfl]
    split_ifs <;> rfl
  cases u <;> rw [sum, sum, hget]

theorem addsAlike : boxes.AddsAlike := by
  intro f r p t
  obtain ⟨x⟩ := f
  cases x with
  | none => cases t <;> rfl
  | some b =>
      rw [assignVar_eq, addTerm_eq, addTerm_eq, sum_assignVar]
      exact lattice.leq_refl _

end Box

namespace AddedVariable

open Intervals (Itv)

/-- `w = load y; r = atomicrmw add p, w; return` -/
def t : Function :=
  .ofBlocks 1 [.ofInstrs 20 [⟨2, .load 3, some 32, []⟩, ⟨1, .atomicRMW .add 0 (.value 2), some 32, []⟩]
    ⟨4, .ret, none, []⟩]

/-- `store p 5; return` -/
def u : Function :=
  .ofBlocks 2 [.ofInstrs 30 [⟨5, .store (i32 5) 0, none, []⟩] ⟨6, .ret, none, []⟩]

def add : Instruction :=
  ⟨1, .atomicRMW .add 0 (.value 2), some 32, []⟩

def cx : Ctx :=
  .ofModule (.ofFunctions [t, u] [⟨0, some .other⟩, ⟨3, some .other⟩] none) 8 { noCombinsG := true }

def interfs : LoadStores :=
  .ofList [(1, [5])]

def fact (box : List Itv) (diffs : List Diff) : LatticeFact differences :=
  ⟨some ⟨box, diffs⟩⟩

/-- The store of `u` is reached with `p` in `[0, 10]`. -/
def stFacts : StoreFacts differences :=
  .ofList [(5, fact [⟨some 0, some 10, by decide⟩] [])]

/-- `p` is in `[0, 10]` and `w` in `[1, 2]`. -/
def f : LatticeFact differences :=
  fact [⟨some 0, some 10, by decide⟩, .top, ⟨some 1, some 2, by decide⟩] []

/-- `p := p + w`: nothing is known of `p - r`. -/
def own : LatticeFact differences :=
  fact [⟨some 1, some 12, by decide⟩, ⟨some 0, some 10, by decide⟩, ⟨some 1, some 2, by decide⟩]
    [⟨0, 2, ⟨some 0, some 10, by decide⟩⟩]

/-- `p := r + w`: `p - r` is in `[1, 2]`. -/
def nonComb : LatticeFact differences :=
  fact [⟨some 1, some 12, by decide⟩, ⟨some 0, some 10, by decide⟩, ⟨some 1, some 2, by decide⟩]
    [⟨0, 1, ⟨some 1, some 2, by decide⟩⟩, ⟨0, 2, ⟨some 0, some 10, by decide⟩⟩]

def joined : InterfMap differences :=
  (joinInterfs interfs stFacts).toOption.getD {}

def boxed (box : List Itv) : LatticeFact boxes :=
  ⟨some box⟩

def boxFacts : StoreFacts boxes :=
  .ofList [(5, boxed [⟨some 0, some 10, by decide⟩])]

def boxJoined : InterfMap boxes :=
  (joinInterfs interfs boxFacts).toOption.getD {}

def boxFact : LatticeFact boxes :=
  boxed [⟨some 0, some 10, by decide⟩, .top, ⟨some 1, some 2, by decide⟩]

def boxOwn : LatticeFact boxes :=
  boxed [⟨some 1, some 12, by decide⟩, ⟨some 0, some 10, by decide⟩, ⟨some 1, some 2, by decide⟩]

/-- **The own thread's value of an atomic addition is not covered** in a relational domain: the two modes add
to different variables. -/
theorem own_not_covered :
    (differences.OverApproximates ∧ differences.Sound Zone.states) ∧
      joinInterfs interfs stFacts = .ok joined ∧ interfs[add.id]? = some [5] ∧
      transferFact cx {} false f add = .ok own ∧ transferFact cx joined true f add = .ok nonComb ∧
      own.leq nonComb = false :=
  ⟨⟨Zone.overApproximates, Zone.sound⟩, rfl, rfl, rfl, rfl, rfl⟩

/-- In boxes it is covered: the two sums have the same bounds. -/
theorem nonComb_covers_boxes :
    NonCombAbove cx boxJoined boxFact add {} boxOwn :=
  (nonComb_covers Box.overApproximates cx interfs boxFacts boxJoined rfl add [5] rfl boxFact {}).2.1 {} boxOwn
    { reachStores := .ofList [(1, boxOwn)] } rfl rfl (.inr Box.addsAlike)

end AddedVariable

end Watts
