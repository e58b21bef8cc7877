import Watts.Combinations
import Watts.Coverage

/-! Coverage of the combinational exploration without pruning.  Each permutation fixes one source for
each load, so an execution is covered when every load of it keeps to one source. -/

namespace Watts

open Fallible (bind_eq_ok foldlM_invariant)

/-! ### The permutations -/

namespace CartesianProduct

/-- The C++ counter counts as the odometer does. -/
theorem incrementAndTest_eq {sizes perm next : List Nat} (hr : Odometer.InRange sizes perm)
    (h : Odometer.next sizes perm = some next) : incrementAndTest sizes perm = .ok next := by
  induction hr generalizing next with
  | nil => cases h
  | @cons size p sizes perm hp _ ih =>
      unfold Odometer.next at h
      unfold incrementAndTest
      split_ifs at h with hlt
      · cases h
        dsimp only
        rw [if_neg (by omega)]
        rfl
      · obtain ⟨next', hnext, rfl⟩ := Option.map_eq_some_iff.mp h
        dsimp only
        rw [if_pos (by omega), ih hnext]
        rfl

/-- The counter after `k` steps. -/
structure At (sizes : List Nat) (k : Nat) (cp : CartesianProduct) : Prop where
  sizesOfRows : cp.sizesOfRows = sizes
  numMaxPermutations : cp.numMaxPermutations = sizes.prod
  numPermutationsProcessed : cp.numPermutationsProcessed = k + 1
  permutation : k < sizes.prod → Odometer.after sizes k = some cp.permutation

theorem foldlM_intMul {sizes : List Nat} {acc max : Nat}
    (h : sizes.foldlM (fun max size => if size = 0 then throw (.abort "size zero row")
      else intMul max size) acc = .ok max) :
    (∀ size ∈ sizes, 0 < size) ∧ max = acc * sizes.prod := by
  induction sizes generalizing acc with
  | nil =>
      rw [← Fallible.foldlM_nil_eq_ok.mp h]
      simp
  | cons size sizes ih =>
      obtain ⟨acc', hacc, h⟩ := Fallible.foldlM_cons_eq_ok.mp h
      obtain ⟨hpos, rfl⟩ := ih h
      unfold intMul at hacc
      split_ifs at hacc with h₀ h₁
      · cases hacc
        refine ⟨fun s hs => ?_, by rw [List.prod_cons, Nat.mul_assoc]⟩
        rcases List.mem_cons.mp hs with rfl | hs
        · exact Nat.pos_of_ne_zero h₀
        · exact hpos s hs

theorem new_at {sizes : List Nat} {cp : CartesianProduct} (h : new sizes = .ok cp) :
    (∀ size ∈ sizes, 0 < size) ∧ At sizes 0 cp := by
  unfold new at h
  split_ifs at h with hempty
  · cases h
  · obtain ⟨max, hmax, h⟩ := bind_eq_ok.mp h
    cases h
    obtain ⟨hpos, rfl⟩ := foldlM_intMul hmax
    exact ⟨hpos, rfl, Nat.one_mul _, rfl, fun _ => rfl⟩

theorem At.atEnd {sizes : List Nat} {k : Nat} {cp : CartesianProduct} (h : At sizes k cp) :
    cp.atEnd = true ↔ sizes.prod ≤ k := by
  unfold CartesianProduct.atEnd
  rw [h.numMaxPermutations, h.numPermutationsProcessed, decide_eq_true_iff]
  exact Nat.lt_succ_iff

/-- One increment is one step of the odometer. -/
theorem At.increment {sizes : List Nat} {k : Nat} {cp cp' : CartesianProduct}
    (hpos : ∀ size ∈ sizes, 0 < size) (hat : At sizes k cp) (h : cp.increment = .ok cp') :
    At sizes (k + 1) cp' := by
  unfold CartesianProduct.increment at h
  dsimp only at h
  split_ifs at h with hint hend
  · cases h
    refine ⟨hat.sizesOfRows, hat.numMaxPermutations, ?_, fun hk => ?_⟩
    · exact congrArg (· + 1) hat.numPermutationsProcessed
    · unfold CartesianProduct.atEnd at hend
      simp only [hat.numMaxPermutations, hat.numPermutationsProcessed, decide_eq_true_eq] at hend
      omega
  · obtain ⟨perm, hperm, h⟩ := bind_eq_ok.mp h
    cases h
    refine ⟨hat.sizesOfRows, hat.numMaxPermutations, ?_, fun hk => ?_⟩
    · exact congrArg (· + 1) hat.numPermutationsProcessed
    · have hcur := hat.permutation (Nat.lt_of_succ_lt hk)
      obtain ⟨ds, hds, hr, hv⟩ := Odometer.after_value hpos (Nat.lt_of_succ_lt hk)
      obtain rfl : ds = cp.permutation := Option.some.inj (hds.symm.trans hcur)
      obtain ⟨es, hes, _⟩ := Odometer.after_value hpos hk
      have hnext : Odometer.next sizes cp.permutation = some es := by
        have : (Odometer.after sizes k).bind (Odometer.next sizes) = some es := hes
        rwa [hcur] at this
      have hinc := incrementAndTest_eq hr hnext
      simp only [hat.sizesOfRows] at hperm
      rw [hes, Except.ok.inj (hinc.symm.trans hperm)]

end CartesianProduct

variable {ap : Apron}

/-! ### The choices of a permutation -/

section Choices

variable {cx : Ctx} {createSite : Option Instruction} {stFacts : StoreFacts ap} {fuel : Nat}

theorem addChoice_interfMap {c c' : Choices ap} {l : Value} {sts : List Value} {n : Nat}
    (h : addChoice cx createSite stFacts fuel c ((l, sts), n) = .ok c') :
    match n with
    | 0 => c'.curInterfMap = c.curInterfMap
    | idx + 1 => ∃ st f, sts[idx]? = some st ∧ stFacts[st]? = some f ∧
        c'.curInterfMap = c.curInterfMap.insert l f := by
  unfold addChoice at h
  cases n with
  | zero =>
      cases hl : cx.module.instr? l with
      | none => simp [hl] at h
      | some li =>
          simp only [hl] at h
          obtain ⟨ss, _, h⟩ := bind_eq_ok.mp h
          rcases ss with _ | ⟨s, _ | ⟨s', ss⟩⟩ <;> cases h <;> rfl
  | succ idx =>
      cases hst : sts[idx]? with
      | none => simp [hst] at h
      | some st =>
          cases hf : stFacts[st]? with
          | none => simp [hst, hf] at h
          | some f =>
              simp only [hst, hf, Except.ok.injEq] at h
              subst h
              exact ⟨st, f, hst, hf, rfl⟩

/-- What the chosen map holds: the facts of the chosen stores and nothing else. -/
theorem gatherChoices_interfMap {perm : List Nat} {interfs : LoadStores} {c : Choices ap}
    (h : gatherChoices cx createSite perm interfs stFacts fuel = .ok c) :
    perm.length = interfs.toList.length ∧
    (∀ (l : Value) f, c.curInterfMap[l]? = some f → ∃ sts idx st,
      ((l, sts), idx + 1) ∈ interfs.toList.zip perm ∧ sts[idx]? = some st ∧
        stFacts[st]? = some f) ∧
    ∀ l sts idx, ((l, sts), idx + 1) ∈ interfs.toList.zip perm →
      (c.curInterfMap[l]?).isSome := by
  unfold gatherChoices at h
  split_ifs at h with hlen
  rw [not_not] at hlen
  refine ⟨hlen.trans (Std.TreeMap.length_toList).symm, ?_⟩
  refine foldlM_invariant (fun done (c : Choices ap) =>
    (∀ (l : Value) f, c.curInterfMap[l]? = some f → ∃ sts idx st,
      ((l, sts), idx + 1) ∈ done ∧ sts[idx]? = some st ∧ stFacts[st]? = some f) ∧
    ∀ l sts idx, ((l, sts), idx + 1) ∈ done → (c.curInterfMap[l]?).isSome) ?_ ?_ h
  · rintro done ⟨⟨l, sts⟩, n⟩ c c' ⟨hfrom, hto⟩ hstep
    have hadd := addChoice_interfMap hstep
    cases n with
    | zero =>
        rw [hadd]
        refine ⟨fun k f hk => ?_, fun k sts' idx hk => ?_⟩
        · obtain ⟨sts', idx, st, hmem, hst, hf⟩ := hfrom k f hk
          exact ⟨sts', idx, st, List.mem_append_left _ hmem, hst, hf⟩
        · rcases List.mem_append.mp hk with hk | hk
          · exact hto k sts' idx hk
          · simp at hk
    | succ idx =>
        obtain ⟨st, f, hst, hf, heq⟩ := hadd
        rw [heq]
        refine ⟨fun k g hk => ?_, fun k sts' idx' hk => ?_⟩
        · by_cases hkl : k = l
          · subst hkl
            rw [Std.TreeMap.getElem?_insert_self, Option.some.injEq] at hk
            subst hk
            exact ⟨sts, idx, st, List.mem_append_right _ (.head _), hst, hf⟩
          · have hne : ¬ l = k := fun h' => hkl h'.symm
            rw [Std.TreeMap.getElem?_insert, if_neg (by simpa using hne)] at hk
            obtain ⟨sts', idx', st', hmem, hst', hf'⟩ := hfrom k g hk
            exact ⟨sts', idx', st', List.mem_append_left _ hmem, hst', hf'⟩
        · by_cases hkl : k = l
          · subst hkl
            rw [Std.TreeMap.getElem?_insert_self]
            rfl
          · have hne : ¬ l = k := fun h' => hkl h'.symm
            rw [Std.TreeMap.getElem?_insert, if_neg (by simpa using hne)]
            rcases List.mem_append.mp hk with hk | hk
            · exact hto k sts' idx' hk
            · simp at hk
              exact absurd hk.1.1 hkl
  · exact ⟨fun l f hf => by simp at hf, fun _ _ _ hk => absurd hk List.not_mem_nil⟩

end Choices

/-! ### The loop over the permutations -/

section Loop

variable {o : BlockOrder} {cx : Ctx} {z3 : Solver} {rules : List Rule} {F : Function}
  {createSite : Option Instruction} {interfs : LoadStores} {stFacts : StoreFacts ap}
  {entryFact : LatticeFact ap} {fuel : Nat}

/-- Without constraints every permutation is analysed. -/
theorem testCurPerm_runs (hc : cx.opts.useConstraintsG = false) {perm : List Nat}
    {s s' : PermState ap} {tested : Bool}
    (h : testCurPerm o cx z3 rules F createSite perm interfs stFacts entryFact fuel s =
      .ok (tested, s')) :
    ∃ c res, gatherChoices cx createSite perm interfs stFacts fuel = .ok c ∧
      analyzeFunc o cx c.curInterfMap s.books entryFact F false fuel = .ok (res, s'.books) := by
  obtain ⟨c, hgather, h⟩ := bind_eq_ok.mp h
  have hskip : checkPermCache z3 rules cx.opts.useConstraintsG perm c s.permCache =
      (false, s.permCache) := by
    unfold checkPermCache
    rw [if_neg (by rw [hc]; exact Bool.false_ne_true)]
  simp only [hskip] at h
  obtain ⟨⟨res, books⟩, hrun, h⟩ := bind_eq_ok.mp h
  cases h
  exact ⟨c, res, hgather, hrun⟩

variable (K : Concretisation ap)

/-- Later analyses keep what earlier ones have accounted for. -/
theorem analyzeFunc_grows {interf : InterfMap ap} {books books' : Books ap} {mergeInterfs : Bool}
    {res : Std.TreeMap BlockId (LatticeFact ap)}
    (h : analyzeFunc o cx interf books entryFact F mergeInterfs fuel = .ok (res, books')) :
    Books.Grows (fun f g => K.γ f ⊆ K.γ g) books books' := by
  obtain ⟨ps, t, ⟨first, _, hrun⟩, _, _, hbooks⟩ := analyzeFunc_run h
  rw [← hbooks]
  exact hrun.grows K.joinOrder

/-- **Each permutation that the loop has still to pass is tested**, and what the test accounts for
stays. -/
theorem permLoop_tests (hc : cx.opts.useConstraintsG = false) {sizes : List Nat}
    (hpos : ∀ size ∈ sizes, 0 < size) {n k : Nat} {cp : CartesianProduct} {s t : PermState ap}
    (hat : CartesianProduct.At sizes k cp)
    (h : permLoop o cx z3 rules F createSite interfs stFacts entryFact fuel n cp s = .ok t) :
    Books.Grows (fun f g => K.γ f ⊆ K.γ g) s.books t.books ∧
      ∀ j perm, k ≤ j → j < sizes.prod → Odometer.after sizes j = some perm →
        ∃ c books books' res, gatherChoices cx createSite perm interfs stFacts fuel = .ok c ∧
          analyzeFunc o cx c.curInterfMap books entryFact F false fuel = .ok (res, books') ∧
          Books.Grows (fun f g => K.γ f ⊆ K.γ g) books' t.books := by
  induction n generalizing k cp s with
  | zero =>
      unfold permLoop at h
      split_ifs at h with hend
      cases h
      exact ⟨.refl K.joinOrder _, fun j perm hkj hj _ => absurd (hat.atEnd.mp hend) (by omega)⟩
  | succ n ih =>
      unfold permLoop at h
      split_ifs at h with hend
      · cases h
        exact ⟨.refl K.joinOrder _, fun j perm hkj hj _ => absurd (hat.atEnd.mp hend) (by omega)⟩
      · obtain ⟨⟨tested, s₁⟩, htest, h⟩ := bind_eq_ok.mp h
        obtain ⟨cp₁, hinc, h⟩ := bind_eq_ok.mp h
        obtain ⟨c, res, hgather, hrun⟩ := testCurPerm_runs hc htest
        obtain ⟨hgrows, hlater⟩ := ih (hat.increment hpos (by simpa using hinc)) h
        refine ⟨(analyzeFunc_grows K hrun).trans K.joinOrder hgrows, fun j perm hkj hj hperm => ?_⟩
        rcases Nat.eq_or_lt_of_le hkj with rfl | hlt
        · have hcur : cp.permutation = perm :=
            Option.some.inj ((hat.permutation hj).symm.trans hperm)
          rw [hcur] at hgather
          exact ⟨c, s.books, s₁.books, res, hgather, hrun, hgrows⟩
        · exact hlater j perm hlt hj hperm

end Loop

/-! ### Coverage -/

namespace Concretisation

variable (K : Concretisation ap) (interfs : LoadStores) (stFacts : StoreFacts ap)

/-- A value that the facts allow at a store. -/
def StoreAllows (st ptr : Value) (v : Int) : Prop :=
  ∃ f, stFacts[st]? = some f ∧ ∃ τ ∈ K.γ f, v = τ ptr

/-- Each execution of a load with interferences reads the thread's own value or the value of one of its
interfering stores. -/
def SourceReads : ReadRel := fun i ptr σ v =>
  v = σ ptr ∨ ∃ sts, interfs[i.id]? = some sts ∧ ∃ st ∈ sts, K.StoreAllows stFacts st ptr v

/-- Every execution of a load reads from the source that is chosen for it: a store, or the thread
itself. -/
def ChosenReads (choice : Value → Option Value) : ReadRel := fun i ptr σ v =>
  match interfs[i.id]? with
  | none => v = σ ptr
  | some sts =>
    match choice i.id with
    | none => v = σ ptr
    | some st => st ∈ sts ∧ K.StoreAllows stFacts st ptr v

variable {K interfs stFacts}

theorem ChosenReads.source {choice : Value → Option Value} {i : Instruction} {ptr : Value} {σ : Env}
    {v : Int} (h : K.ChosenReads interfs stFacts choice i ptr σ v) :
    K.SourceReads interfs stFacts i ptr σ v := by
  unfold ChosenReads at h
  split at h
  · exact .inl h
  · next sts hsts =>
    split at h
    · exact .inl h
    · next st hst => exact .inr ⟨sts, hsts, st, h.1, h.2⟩

end Concretisation

section Coverage

variable {K : Concretisation ap} {interfs : LoadStores} {stFacts : StoreFacts ap}

theorem getElem?_of_size_eq_zero (h : interfs.size = 0) (l : Value) : interfs[l]? = none := by
  apply Std.TreeMap.getElem?_of_isEmpty
  rw [Std.TreeMap.isEmpty_eq_size_eq_zero, h]
  rfl

/-- The index of the chosen source in the list of the choices for one load. -/
def choiceIndex (choice : Value → Option Value) (p : Value × List Value) : Nat :=
  match choice p.1 with
  | none => 0
  | some st => if st ∈ p.2 then p.2.idxOf st + 1 else 0

theorem choiceIndex_lt (choice : Value → Option Value) (p : Value × List Value) :
    choiceIndex choice p < p.2.length + 1 := by
  unfold choiceIndex
  split
  · exact Nat.succ_pos _
  · split_ifs with hst
    · exact Nat.succ_lt_succ (List.idxOf_lt_length_of_mem hst)
    · exact Nat.succ_pos _

theorem choiceIndices_inRange (choice : Value → Option Value) (ps : List (Value × List Value)) :
    Odometer.InRange (ps.map fun p => p.2.length + 1) (ps.map (choiceIndex choice)) := by
  induction ps with
  | nil => exact .nil
  | cons p ps ih => exact .cons (choiceIndex_lt choice p) ih

/-- What a load reads from its chosen source, the chosen map allows it to read. -/
theorem chosenReads_reads {cx : Ctx} {createSite : Option Instruction} {fuel : Nat}
    {choice : Value → Option Value} {c : Choices ap}
    (h : gatherChoices cx createSite (interfs.toList.map (choiceIndex choice)) interfs stFacts fuel =
      .ok c) {i : Instruction} {ptr : Value} {σ : Env} {v : Int}
    (hv : K.ChosenReads interfs stFacts choice i ptr σ v) :
    K.Reads c.curInterfMap false i ptr σ v := by
  obtain ⟨_, hfrom, hto⟩ := gatherChoices_interfMap h
  -- a load stands in the list once, with its own index
  have hzip : ∀ {l : Value} {sts : List Value} {n : Nat},
      ((l, sts), n) ∈ interfs.toList.zip (interfs.toList.map (choiceIndex choice)) ↔
        interfs[l]? = some sts ∧ n = choiceIndex choice (l, sts) := by
    intro l sts n
    rw [← List.map_prod_left_eq_zip, List.mem_map]
    constructor
    · rintro ⟨p, hp, heq⟩
      obtain ⟨rfl, rfl⟩ := Prod.mk.inj heq
      exact ⟨Std.TreeMap.mem_toList_iff_getElem?_eq_some.mp hp, rfl⟩
    · rintro ⟨hl, rfl⟩
      exact ⟨(l, sts), Std.TreeMap.mem_toList_iff_getElem?_eq_some.mpr hl, rfl⟩
  have hown : (∀ sts idx, interfs[i.id]? = some sts → choiceIndex choice (i.id, sts) ≠ idx + 1) →
      c.curInterfMap[i.id]? = none := by
    intro hne
    rw [Option.eq_none_iff_forall_ne_some]
    intro f hf
    obtain ⟨sts, idx, st, hmem, _, _⟩ := hfrom _ _ hf
    obtain ⟨hsts, hidx⟩ := hzip.mp hmem
    exact hne sts idx hsts hidx.symm
  unfold Concretisation.ChosenReads at hv
  unfold Concretisation.Reads
  cases hsts : interfs[i.id]? with
  | none =>
      rw [hown fun sts idx h' => by rw [hsts] at h'; cases h']
      rwa [hsts] at hv
  | some sts =>
      simp only [hsts] at hv
      cases hch : choice i.id with
      | none =>
          rw [hown fun sts' idx _ => by simp [choiceIndex, hch]]
          rwa [hch] at hv
      | some st =>
          simp only [hch] at hv
          obtain ⟨hst, f, hf, τ, hτ, hval⟩ := hv
          have hidx : choiceIndex choice (i.id, sts) = sts.idxOf st + 1 := by
            simp only [choiceIndex, hch]
            exact if_pos hst
          have hmem := hzip.mpr ⟨hsts, hidx.symm⟩
          obtain ⟨g, hg⟩ := Option.isSome_iff_exists.mp (hto _ _ _ hmem)
          obtain ⟨sts', idx', st', hmem', hst', hf'⟩ := hfrom _ _ hg
          obtain ⟨hsts', hidx'⟩ := hzip.mp hmem'
          obtain rfl : sts = sts' := Option.some.inj (hsts.symm.trans hsts')
          obtain rfl : idx' = sts.idxOf st := Nat.succ.inj (hidx'.trans hidx)
          rw [List.getElem?_idxOf hst, Option.some.injEq] at hst'
          subst hst'
          obtain rfl : f = g := Option.some.inj (hf.symm.trans hf')
          rw [hg]
          exact .inl ⟨τ, hτ, hval⟩

/-- **Coverage of the combinational exploration.**  Whatever an execution does in which every load
keeps to one source is accounted for when the loop over all permutations ends. -/
theorem analyzeThreadInterf_covers (K : Concretisation ap) (sem : Semantics) (o : BlockOrder)
    (cx : Ctx) (z3 : Solver) (rules : List Rule) (F : Function) (createSite : Option Instruction)
    (interfs : LoadStores) (stFacts : StoreFacts ap) (books : Books ap) (permCache : PermCache)
    (entryFact : LatticeFact ap) (fuel : Nat) (s : PermState ap)
    (hcombs : cx.opts.noCombinsG = false) (hpruning : cx.opts.useConstraintsG = false)
    (htr : ∀ interf, K.SoundTransfer sem cx interf F) (hbr : K.SoundBranch sem cx F)
    (h : analyzeThreadInterf o cx z3 rules F createSite interfs stFacts books permCache entryFact fuel =
      .ok s)
    (first : BasicBlock) (hfirst : F.blocks.head? = some first) (σ : Env) (hσ : σ ∈ K.γ entryFact)
    (choice : Value → Option Value) (tr : List Executed) (c : PathConf)
    (hpath : Path sem (K.ChosenReads interfs stFacts choice) F ⟨first, first.body, σ⟩ tr c) :
    ∀ e ∈ tr, K.Accounts s.books e := by
  unfold analyzeThreadInterf at h
  split_ifs at h with hempty hnc
  · -- no load has interferences
    obtain ⟨⟨res, books'⟩, hrun, h⟩ := bind_eq_ok.mp h
    cases h
    refine analyzeFunc_accounts (htr _) hbr hrun (fun i ptr σ v hv => ?_) hfirst hσ hpath
    have hnone : interfs[i.id]? = none := getElem?_of_size_eq_zero hempty _
    unfold Concretisation.ChosenReads at hv
    rw [hnone] at hv
    unfold Concretisation.Reads
    rw [Std.TreeMap.getElem?_emptyc]
    exact hv
  · rw [hcombs] at hnc
    cases hnc
  · obtain ⟨cp, hcp, h⟩ := bind_eq_ok.mp h
    have hcp' : CartesianProduct.new (interfs.toList.map fun p => p.2.length + 1) = .ok cp := by
      simpa using hcp
    obtain ⟨hpos, hat⟩ := CartesianProduct.new_at hcp'
    have hrange := choiceIndices_inRange choice interfs.toList
    obtain ⟨_, htests⟩ := permLoop_tests K hpruning hpos hat h
    obtain ⟨ch, books₁, books₂, res, hgather, hrun, hgrows⟩ :=
      htests _ _ (Nat.zero_le _) hrange.value_lt (Odometer.after_value_eq hrange)
    intro e he
    apply K.accounts_mono hgrows
    refine analyzeFunc_accounts (htr _) hbr hrun (fun i ptr σ v hv => ?_) hfirst hσ hpath e he
    rw [hcombs]
    exact chosenReads_reads hgather hv

end Coverage

namespace TwoSources

/-- `x = 1`, in another thread. -/
def storeOne : Instruction := ⟨30, .store (i32 1) 0, none, []⟩
def main : Function :=
  .ofBlocks 0 [.ofInstrs 90 [⟨31, .call (.pthreadCreate 33 (some 1) []), none, []⟩, storeOne]
    ⟨32, .ret, none, []⟩]

def storeZero : Instruction := ⟨10, .store (i32 0) 0, none, []⟩
def loadX : Instruction := ⟨2, .load 0, some 32, []⟩
def cmpX : Instruction := ⟨3, .icmp .eq (.value 2) (i32 0), some 1, []⟩
def storeY : Instruction := ⟨11, .store (i32 1) 1, none, []⟩
def loadY : Instruction := ⟨4, .load 1, some 32, []⟩
def cmpY : Instruction := ⟨5, .icmp .eq (.value 4) (i32 1), some 1, []⟩
def error : Instruction := ⟨12, .call .assertFail, none, []⟩

def entry : BasicBlock := .ofInstrs 100 [] ⟨20, .br 101, none, []⟩
def loop : BasicBlock :=
  .ofInstrs 101 [storeZero, loadX, cmpX]
    ⟨21, .condBr (.icmp 3 .eq (.value 2) (i32 0)) 102 103, none, []⟩
def again : BasicBlock := .ofInstrs 102 [storeY] ⟨22, .br 101, none, []⟩
def done : BasicBlock :=
  .ofInstrs 103 [loadY, cmpY] ⟨23, .condBr (.icmp 5 .eq (.value 4) (i32 1)) 104 105, none, []⟩
def fails : BasicBlock := .ofInstrs 104 [error] ⟨24, .unreachable, none, []⟩

/-- A thread that repeats `x = 0; l = x` while it reads its own `0`, and reports an error when it reads
another value after that. -/
def thread : Function :=
  .ofBlocks 1 [entry, loop, again, done, fails, .ofInstrs 105 [] ⟨25, .ret, none, []⟩]

theorem thread_blocks :
    thread.blocks = [entry, loop, again, done, fails, .ofInstrs 105 [] ⟨25, .ret, none, []⟩] :=
  rfl

def program : Module :=
  .ofFunctions [main, thread] [⟨0, some (.constantInt ⟨32, 0⟩)⟩, ⟨1, some (.constantInt ⟨32, 0⟩)⟩] (some 0)

def cx : Ctx :=
  .ofModule program 6 {}

/-- The fact after `storeOne`. -/
def stFacts : StoreFacts boxes :=
  .insert ∅ 30 ⟨some [.const 1, .const 0]⟩

def interfs : LoadStores :=
  .insert ∅ 2 [30]

example : getInterferingStores program thread (.insert ∅ 0 stFacts) = .ok interfs :=
  rfl

def entryFact : LatticeFact boxes :=
  ⟨some [.const 0, .const 0]⟩

abbrev K : Concretisation boxes :=
  Box.concretisation (Box.numbered 6)

/-- The analysis of the thread without constraints; the solver is not asked. -/
def analysis : Except LoopStop (PermState boxes) :=
  analyzeThreadInterf .increasing cx (fun _ _ => .lUndef) [] thread
    (some ⟨31, .call (.pthreadCreate 33 (some 1) []), none, []⟩) interfs stFacts {} {} entryFact 40

theorem plain : ∀ i ∈ thread.instrs, Box.Plain i := by
  decide

theorem storeOne_allows : K.StoreAllows stFacts 30 0 1 := by
  refine ⟨_, rfl, fun v => if v = 0 then 1 else 0, ?_, rfl⟩
  apply Box.mem_numbered
  apply Box.mem_consts [1, 0]
  intro v hv
  rcases v with _ | _ | v
  · rfl
  · rfl
  · exact absurd hv (by simp)

/-- Once around the loop and out of it: the load reads the own `0` first and then the other thread's
`1`. -/
theorem path : ∃ tr c, Path registers (K.SourceReads interfs stFacts) thread
    ⟨entry, entry.body, fun _ => 0⟩ tr c ∧ ∃ e ∈ tr, e.inst = error := by
  let σ₀ : Env := fun _ => 0
  let upd : Env → Value → Int → Env := Function.update
  let σ₁ := upd σ₀ 0 0
  let σ₂ := upd (upd σ₁ 0 0) 2 0
  let σ₃ := upd σ₂ 3 1
  let σ₄ := upd σ₃ 1 1
  let σ₅ := upd σ₄ 0 0
  let σ₆ := upd (upd σ₅ 0 1) 2 1
  let σ₇ := upd σ₆ 3 0
  let σ₈ := upd (upd σ₇ 1 1) 4 1
  let σ₉ := upd σ₈ 5 1
  have hr₂ : K.SourceReads interfs stFacts loadX 0 σ₁ 0 := .inl rfl
  have hr₆ : K.SourceReads interfs stFacts loadX 0 σ₅ 1 :=
    .inr ⟨[30], rfl, 30, .head _, storeOne_allows⟩
  have hr₈ : K.SourceReads interfs stFacts loadY 1 σ₇ 1 := .inl rfl
  have hs₁ : InstStep registers (K.SourceReads interfs stFacts) storeZero σ₀ σ₁ := .store rfl rfl
  have hs₂ : InstStep registers (K.SourceReads interfs stFacts) loadX σ₁ σ₂ := .load rfl hr₂
  have hs₃ : InstStep registers (K.SourceReads interfs stFacts) cmpX σ₂ σ₃ :=
    .other rfl rfl rfl ⟨1, ⟨0, 0, rfl, rfl, .inl ⟨rfl, rfl⟩⟩, rfl⟩
  have hs₄ : InstStep registers (K.SourceReads interfs stFacts) storeY σ₃ σ₄ := .store rfl rfl
  have hs₅ : InstStep registers (K.SourceReads interfs stFacts) storeZero σ₄ σ₅ := .store rfl rfl
  have hs₆ : InstStep registers (K.SourceReads interfs stFacts) loadX σ₅ σ₆ := .load rfl hr₆
  have hs₇ : InstStep registers (K.SourceReads interfs stFacts) cmpX σ₆ σ₇ :=
    .other rfl rfl rfl ⟨0, ⟨1, 0, rfl, rfl, .inr ⟨by simp [Predicate.Holds], rfl⟩⟩, rfl⟩
  have hs₈ : InstStep registers (K.SourceReads interfs stFacts) loadY σ₇ σ₈ := .load rfl hr₈
  have hs₉ : InstStep registers (K.SourceReads interfs stFacts) cmpY σ₈ σ₉ :=
    .other rfl rfl rfl ⟨1, ⟨1, 1, rfl, rfl, .inl ⟨rfl, rfl⟩⟩, rfl⟩
  have hb₃ : Branches registers loop.terminator σ₃ again.id :=
    .inl ⟨⟨rfl, 0, 0, rfl, rfl, by simp [Predicate.Holds]⟩, rfl⟩
  have hb₇ : Branches registers loop.terminator σ₇ done.id :=
    .inr ⟨⟨rfl, 1, 0, rfl, rfl, by simp [Predicate.Holds]⟩, rfl⟩
  have hb₉ : Branches registers done.terminator σ₉ fails.id :=
    .inl ⟨⟨rfl, 1, 1, rfl, rfl, by simp [Predicate.Holds]⟩, rfl⟩
  have hentry : Path registers (K.SourceReads interfs stFacts) thread ⟨entry, entry.body, σ₀⟩ _
      ⟨loop, loop.body, σ₀⟩ := .jump (.nil _) (.head _) (by simp [thread_blocks])
  have hagain : Path registers (K.SourceReads interfs stFacts) thread ⟨entry, entry.body, σ₀⟩ _
      ⟨again, again.body, σ₃⟩ :=
    .jump (.inst (.inst (.inst hentry hs₁) hs₂) hs₃) hb₃ (by simp [thread_blocks])
  have hloop : Path registers (K.SourceReads interfs stFacts) thread ⟨entry, entry.body, σ₀⟩ _
      ⟨loop, loop.body, σ₄⟩ := .jump (.inst hagain hs₄) (.head _) (by simp [thread_blocks])
  have hdone : Path registers (K.SourceReads interfs stFacts) thread ⟨entry, entry.body, σ₀⟩ _
      ⟨done, done.body, σ₇⟩ :=
    .jump (.inst (.inst (.inst hloop hs₅) hs₆) hs₇) hb₇ (by simp [thread_blocks])
  have hfails : Path registers (K.SourceReads interfs stFacts) thread ⟨entry, entry.body, σ₀⟩ _
      ⟨fails, fails.body, σ₉⟩ :=
    .jump (.inst (.inst hdone hs₈) hs₉) hb₉ (by simp [thread_blocks])
  exact ⟨_, _, .inst hfails (.call rfl), ⟨error, σ₉, σ₉⟩, List.mem_append_right _ (.head _), rfl⟩

/-- **The error is reached by an execution with both sources, and no permutation finds it.** -/
theorem not_covered : ∃ s, analysis = .ok s ∧ ∃ tr c,
    Path registers (K.SourceReads interfs stFacts) thread ⟨entry, entry.body, fun _ => 0⟩ tr c ∧
      ∃ e ∈ tr, ¬ K.Accounts s.books e := by
  have hnone : (analysis.toOption.map fun s => s.books.rErrors.contains 12) = some false := by
    decide +kernel
  obtain ⟨s, hs, hcontains⟩ := Fallible.exists_ok_of_toOption hnone
  obtain ⟨tr, c, hpath, e, he, heq⟩ := path
  refine ⟨s, hs, tr, c, hpath, e, he, fun hacc => ?_⟩
  have hmem : (12 : Value) ∈ s.books.rErrors := by
    unfold Concretisation.Accounts at hacc
    rwa [heq] at hacc
  rw [Std.TreeSet.mem_iff_contains, hcontains] at hmem
  cases hmem

theorem mem_entryFact : (fun _ => 0) ∈ K.γ entryFact := by
  apply Box.mem_numbered
  apply Box.mem_consts [0, 0]
  intro v hv
  rcases v with _ | _ | v
  · rfl
  · rfl
  · exact absurd hv (by simp)

/-- With the other thread as the source of the load, the store before it is accounted for. -/
theorem analyzeThreadInterf_covers_store : ∃ s, analysis = .ok s ∧
    ∃ f, s.books.reachStores[(10 : Value)]? = some f ∧ Function.update (fun _ => 0) 0 0 ∈ K.γ f := by
  obtain ⟨s, hs⟩ := exists_ok (x := analysis) (by decide +kernel)
  have hread : K.ChosenReads interfs stFacts (fun _ => some 30) loadX 0
      (Function.update (fun _ => 0) 0 0) 1 := ⟨.head _, storeOne_allows⟩
  have hloop : Path registers (K.ChosenReads interfs stFacts fun _ => some 30) thread
      ⟨entry, entry.body, fun _ => 0⟩ _ ⟨loop, loop.body, fun _ => 0⟩ :=
    .jump (.nil _) (.head _) (by simp [thread_blocks])
  have hpath := Path.inst (.inst hloop (.store (i := storeZero) rfl rfl)) (.load (i := loadX) rfl hread)
  have hcov := analyzeThreadInterf_covers K registers .increasing cx (fun _ _ => .lUndef) [] thread
    (some ⟨31, .call (.pthreadCreate 33 (some 1) []), none, []⟩) interfs stFacts {} {} entryFact 40 s rfl rfl
    (fun _ => Box.soundTransfer cx (Box.numbered_injective 6) _ _ plain) (Box.soundBranch cx _ plain) hs
    entry rfl (fun _ => 0) mem_entryFact (fun _ => some 30) _ _ hpath
  exact ⟨s, hs, hcov _ (.head _)⟩

end TwoSources

end Watts
