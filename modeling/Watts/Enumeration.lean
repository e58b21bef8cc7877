import Watts.CombinationCoverage

/-! What the loop over the permutations visits.  The counter counts in `int`: the model of the class stops
where an `int` overflows, and a second one wraps around, as the compiled code does. -/

namespace Watts

open Fallible (bind_eq_ok)

namespace CartesianProduct

/-- `for (CartesianProduct cp(sizes); !cp.AtEnd(); cp.Increment())`: the permutations, in order. -/
def visit : Nat → CartesianProduct → Except LoopStop (List (List Nat))
  | n, cp =>
    if cp.atEnd then
      .ok []
    else
      match n with
      | 0 => .error .outOfFuel
      | n + 1 => do
        let next ← cp.increment
        return cp.permutation :: (← visit n next)

/-- The loop for the rows of the given sizes. -/
def enumerate (sizes : List Nat) (fuel : Nat) : Except LoopStop (List (List Nat)) := do
  let cp ← new sizes
  cp.visit fuel

/-- The loop ends and has visited each tuple of positions exactly once. -/
def Enumerates (sizes : List Nat) : Prop :=
  ∃ fuel ps, enumerate sizes fuel = .ok ps ∧ ps.Nodup ∧ ∀ p, p ∈ ps ↔ Odometer.InRange sizes p

variable {sizes : List Nat}

theorem foldlM_intMul_ok {acc : Nat} (hpos : ∀ size ∈ sizes, 0 < size)
    (h : acc * sizes.prod < 2 ^ 31) :
    sizes.foldlM (fun max size => if size = 0 then throw (Stop.abort "size zero row")
      else intMul max size) acc = .ok (acc * sizes.prod) := by
  induction sizes generalizing acc with
  | nil => exact congrArg Except.ok (Nat.mul_one acc).symm
  | cons size sizes ih =>
      have hsize : 0 < size := hpos size (.head _)
      have hrest : ∀ s ∈ sizes, 0 < s := fun s hs => hpos s (.tail _ hs)
      rw [List.prod_cons, ← Nat.mul_assoc] at h
      have hle : acc * size ≤ acc * size * sizes.prod :=
        Nat.le_mul_of_pos_right _ (List.prod_pos hrest)
      have hmul : intMul acc size = .ok (acc * size) := if_pos (Nat.lt_of_le_of_lt hle h)
      rw [List.foldlM_cons, if_neg (Nat.ne_of_gt hsize), hmul, List.prod_cons, ← Nat.mul_assoc]
      exact ih hrest h

/-- The constructor succeeds when the number of permutations fits an `int`. -/
theorem new_ok (hne : sizes ≠ []) (hpos : ∀ size ∈ sizes, 0 < size) (h : sizes.prod < 2 ^ 31) :
    ∃ cp, new sizes = .ok cp := by
  have hempty : ¬ sizes.isEmpty = true := by simpa using hne
  refine ⟨⟨sizes.map fun _ => 0, 1, 1 * sizes.prod, sizes⟩, ?_⟩
  unfold new
  rw [if_neg hempty, foldlM_intMul_ok hpos (by rwa [Nat.one_mul])]
  rfl

theorem foldlM_intMul_lt {acc max : Nat} (hacc : acc < 2 ^ 31)
    (h : sizes.foldlM (fun max size => if size = 0 then throw (Stop.abort "size zero row")
      else intMul max size) acc = .ok max) : max < 2 ^ 31 := by
  refine Fallible.foldlM_preserves (· < 2 ^ 31) (fun size _ max max' _ hmax => ?_) hacc h
  unfold intMul at hmax
  split_ifs at hmax with _ hlt
  cases hmax
  exact hlt

/-- The constructor succeeds only then. -/
theorem new_lt {cp : CartesianProduct} (h : new sizes = .ok cp) : sizes.prod < 2 ^ 31 := by
  obtain ⟨_, hat⟩ := new_at h
  rw [← hat.numMaxPermutations]
  unfold new at h
  split_ifs at h with hempty
  · cases h
  · obtain ⟨max, hmax, h⟩ := bind_eq_ok.mp h
    cases h
    exact foldlM_intMul_lt (by decide) hmax

theorem At.increment_ok {k : Nat} {cp : CartesianProduct} (hpos : ∀ size ∈ sizes, 0 < size)
    (hat : At sizes k cp) (hk : k < sizes.prod) (h : sizes.prod < 2 ^ 31 - 1) :
    ∃ next, cp.increment = .ok next := by
  unfold CartesianProduct.increment
  rw [if_pos (by rw [hat.numPermutationsProcessed]; omega)]
  dsimp only
  split_ifs with hend
  · exact ⟨_, rfl⟩
  · unfold CartesianProduct.atEnd at hend
    simp only [hat.numMaxPermutations, hat.numPermutationsProcessed, decide_eq_true_eq] at hend
    have hlt : k + 1 < sizes.prod := by omega
    obtain ⟨ds, hds, hr, _⟩ := Odometer.after_value hpos hk
    obtain ⟨es, hes, _, _⟩ := Odometer.after_value hpos hlt
    have hcur : ds = cp.permutation := Option.some.inj (hds.symm.trans (hat.permutation hk))
    have hnext : Odometer.next sizes ds = some es := by
      have : (Odometer.after sizes k).bind (Odometer.next sizes) = some es := hes
      rwa [hds] at this
    rw [hat.sizesOfRows, ← hcur, incrementAndTest_eq hr hnext]
    exact ⟨_, rfl⟩

/-- A counter that does not overflow passes all remaining tuples. -/
theorem At.visit_ok {n k : Nat} {cp : CartesianProduct} (hpos : ∀ size ∈ sizes, 0 < size)
    (hat : At sizes k cp) (hn : sizes.prod ≤ k + n) (h : sizes.prod < 2 ^ 31 - 1) :
    cp.visit n = .ok ((Odometer.tuples sizes).drop k) := by
  induction n generalizing k cp with
  | zero =>
      unfold visit
      rw [if_pos (hat.atEnd.mpr hn)]
      exact congrArg Except.ok (Odometer.drop_tuples_eq_nil hn).symm
  | succ n ih =>
      unfold visit
      split_ifs with hend
      · rw [Odometer.drop_tuples_eq_nil (hat.atEnd.mp hend)]
      · have hk : k < sizes.prod := Nat.lt_of_not_le fun hle => hend (hat.atEnd.mpr hle)
        obtain ⟨next, hnext⟩ := hat.increment_ok hpos hk h
        have hrest := ih (hat.increment hpos hnext) (by omega)
        dsimp only
        rw [hnext, Odometer.drop_tuples hk (hat.permutation hk)]
        show (do return cp.permutation :: (← next.visit n)) = _
        rw [hrest]
        rfl

/-- A loop that ends has counted one past the number of permutations. -/
theorem At.visit_bound {n k : Nat} {cp : CartesianProduct} {ps : List (List Nat)}
    (hpos : ∀ size ∈ sizes, 0 < size) (hat : At sizes k cp) (hk : k < sizes.prod)
    (h : cp.visit n = .ok ps) : sizes.prod < 2 ^ 31 - 1 := by
  induction n generalizing k cp ps with
  | zero =>
      unfold visit at h
      rw [if_neg (fun hend => by have := hat.atEnd.mp hend; omega)] at h
      cases h
  | succ n ih =>
      unfold visit at h
      rw [if_neg (fun hend => by have := hat.atEnd.mp hend; omega)] at h
      obtain ⟨next, hnext, h⟩ := bind_eq_ok.mp h
      obtain ⟨rest, hrest, _⟩ := bind_eq_ok.mp h
      have hnext' : cp.increment = .ok next := by simpa using hnext
      rcases Nat.lt_or_ge (k + 1) sizes.prod with hlt | hge
      · exact ih (hat.increment hpos hnext') hlt hrest
      · unfold CartesianProduct.increment at hnext'
        split_ifs at hnext' with hint
        rw [hat.numPermutationsProcessed] at hint
        omega

/-- **The loop enumerates the tuples unless there are as many as the largest `int`**, in which case
counting past the last one overflows. -/
theorem enumerates_iff (sizes : List Nat) (hne : sizes ≠ []) (hpos : ∀ size ∈ sizes, 0 < size)
    (hmax : sizes.prod ≤ 2 ^ 31 - 1) : Enumerates sizes ↔ sizes.prod < 2 ^ 31 - 1 := by
  obtain ⟨cp, hcp⟩ := new_ok hne hpos (by omega)
  obtain ⟨_, hat⟩ := new_at hcp
  constructor
  · rintro ⟨fuel, ps, h, _, _⟩
    unfold enumerate at h
    rw [hcp] at h
    exact hat.visit_bound hpos (List.prod_pos hpos) h
  · intro h
    refine ⟨sizes.prod, Odometer.tuples sizes, ?_, Odometer.nodup_tuples hpos,
      fun p => Odometer.mem_tuples hpos⟩
    unfold enumerate
    rw [hcp]
    exact hat.visit_ok hpos (Nat.le_add_left _ _) h

/-- Two rows, of two and three. -/
theorem enumerates_two_three : Enumerates [2, 3] :=
  (enumerates_iff [2, 3] (by decide) (by decide) (by decide)).mpr (by decide)

/-- One row of the largest `int`. -/
theorem not_enumerates_max : ¬ Enumerates [2 ^ 31 - 1] := by
  have hpos : ∀ size ∈ [2 ^ 31 - 1], 0 < size := by decide
  rintro ⟨fuel, ps, h, _, _⟩
  obtain ⟨cp, hcp⟩ := new_ok (by decide) hpos (by decide)
  obtain ⟨_, hat⟩ := new_at hcp
  unfold enumerate at h
  rw [hcp] at h
  have hlt := hat.visit_bound hpos (by decide) h
  revert hlt
  decide

end CartesianProduct

/-! ### The counter that wraps around -/

/-- The class `CartesianProduct` as it is compiled: the two counts are values of type `int`. -/
structure WrappingProduct where
  permutation : List Nat
  numPermutationsProcessed : Int
  numMaxPermutations : Int
  sizesOfRows : List Nat

namespace WrappingProduct

open CartesianProduct (incrementAndTest)

/-- `num_max_permutations_ *= sizes_of_rows_[i]` -/
def mulSize (max : Int) (size : Nat) : Except Stop Int :=
  if size = 0 then .error (.abort "size zero row") else .ok (cInt (max * size))

/-- The constructor. -/
def new (sizes : List Nat) : Except Stop WrappingProduct := do
  if sizes.isEmpty then
    throw (.abort "num_rows_ != 0")
  let max ← sizes.foldlM mulSize 1
  return ⟨sizes.map fun _ => 0, 1, max, sizes⟩

def atEnd (cp : WrappingProduct) : Bool :=
  cp.numPermutationsProcessed > cp.numMaxPermutations

def increment (cp : WrappingProduct) : Except Stop WrappingProduct :=
  let cp := { cp with numPermutationsProcessed := cInt (cp.numPermutationsProcessed + 1) }
  if cp.atEnd then .ok cp
  else do return { cp with permutation := ← incrementAndTest cp.sizesOfRows cp.permutation }

/-- `int v = i->second.size() + 1` for each load. -/
def choicesPerLoad (interfs : LoadStores) : Except Stop (List Nat) :=
  interfs.toList.mapM fun p =>
    let v := cInt (p.2.length + 1)
    if 0 < v then .ok v.toNat else .error (.abort "making zero choices")

/-- The product for the loads of an interference map. -/
def ofInterfs (interfs : LoadStores) : Except Stop WrappingProduct := do
  new (← choicesPerLoad interfs)

section

variable {σ : Type}

/-- `for (; !cp.AtEnd(); cp.Increment())` around a test of one permutation.  The first result is the
permutations that were tested. -/
def permLoop (test : List Nat → σ → Except LoopStop σ) :
    Nat → WrappingProduct → σ → Except LoopStop (List (List Nat) × σ)
  | n, cp, s =>
    if cp.atEnd then
      .ok ([], s)
    else
      match n with
      | 0 => .error .outOfFuel
      | n + 1 => do
        let s ← test cp.permutation s
        let next ← cp.increment
        let (tested, s) ← permLoop test n next s
        return (cp.permutation :: tested, s)

end

variable {ap : Apron}

/-- The body of the loop: the count of the permutations that were not skipped is output only. -/
def testPerm (o : BlockOrder) (cx : Ctx) (z3 : Solver) (rules : List Rule) (F : Function)
    (createSite : Option Instruction) (interfs : LoadStores) (stFacts : StoreFacts ap)
    (entryFact : LatticeFact ap) (fuel : Nat) (perm : List Nat) (s : PermState ap) :
    Except LoopStop (PermState ap) := do
  let (_, s) ← testCurPerm o cx z3 rules F createSite perm interfs stFacts entryFact fuel s
  return s

/-- `analyzeThreadInterf` with the counter that wraps around.  The first result is the permutations
that were tested, if permutations are explored at all. -/
def analyzeThreadInterf (o : BlockOrder) (cx : Ctx) (z3 : Solver) (rules : List Rule) (F : Function)
    (createSite : Option Instruction) (interfs : LoadStores) (stFacts : StoreFacts ap)
    (books : Books ap) (permCache : PermCache) (entryFact : LatticeFact ap) (fuel : Nat) :
    Except LoopStop (Option (List (List Nat)) × PermState ap) :=
  if interfs.size = 0 then do
    let (res, books) ← analyzeFunc o cx {} books entryFact F false fuel
    return (none, ⟨books, res, permCache⟩)
  else if cx.opts.noCombinsG then do
    let allInterfs ← joinInterfs interfs stFacts
    let (res, books) ← analyzeFunc o cx allInterfs books entryFact F true fuel
    return (none, ⟨books, res, permCache⟩)
  else do
    let cp ← ofInterfs interfs
    let test := testPerm o cx z3 rules F createSite interfs stFacts entryFact fuel
    let (tested, s) ← permLoop test fuel cp ⟨books, {}, permCache⟩
    return (some tested, s)

end WrappingProduct

/-- The choices for each load: its stores and the own thread. -/
def LoadStores.sizes (interfs : LoadStores) : List Nat :=
  interfs.toList.map fun p => p.2.length + 1

namespace WrappingProduct

open CartesianProduct (incrementAndTest incrementAndTest_eq)

variable {sizes : List Nat}

theorem foldlM_wraps {acc : Nat} {max : Int}
    (h : sizes.foldlM mulSize (cInt acc) = .ok max) : max = cInt ((acc * sizes.prod : Nat) : Int) := by
  induction sizes generalizing acc with
  | nil =>
      rw [← Fallible.foldlM_nil_eq_ok.mp h, List.prod_nil, Nat.mul_one]
  | cons size sizes ih =>
      obtain ⟨acc', hacc, h⟩ := Fallible.foldlM_cons_eq_ok.mp h
      unfold mulSize at hacc
      split_ifs at hacc
      have hmul : cInt (cInt acc * size) = cInt ((acc * size : Nat) : Int) := by
        unfold cInt
        rw [Int.bmod_mul_bmod, Int.natCast_mul]
      rw [← Except.ok.inj hacc, hmul] at h
      rw [ih h, List.prod_cons, Nat.mul_assoc]

/-- **The constructor computes the product modulo `2 ^ 32`.** -/
theorem new_eq {cp : WrappingProduct} (h : new sizes = .ok cp) :
    cp = ⟨Odometer.zeros sizes, 1, cInt sizes.prod, sizes⟩ := by
  unfold new at h
  split_ifs at h with hempty
  · cases h
  · obtain ⟨max, hmax, h⟩ := bind_eq_ok.mp h
    have hone : (1 : Int) = cInt (1 : Nat) := rfl
    rw [hone] at hmax
    cases h
    rw [foldlM_wraps hmax, Nat.one_mul]
    rfl

theorem foldlM_ok (hpos : ∀ size ∈ sizes, 0 < size) (acc : Int) :
    ∃ max, sizes.foldlM mulSize acc = .ok max := by
  induction sizes generalizing acc with
  | nil => exact ⟨acc, rfl⟩
  | cons size sizes ih =>
      obtain ⟨max, hmax⟩ := ih (fun s hs => hpos s (.tail _ hs)) (cInt (acc * size))
      refine ⟨max, Fallible.foldlM_cons_eq_ok.mpr ⟨_, ?_, hmax⟩⟩
      exact if_neg (Nat.ne_of_gt (hpos size (.head _)))

theorem new_ok (hne : sizes ≠ []) (hpos : ∀ size ∈ sizes, 0 < size) : ∃ cp, new sizes = .ok cp := by
  obtain ⟨max, hmax⟩ := foldlM_ok hpos 1
  have hempty : ¬ sizes.isEmpty = true := by simpa using hne
  unfold new
  rw [if_neg hempty, hmax]
  exact ⟨_, rfl⟩

/-- The counter after `k` steps that have not wrapped around. -/
structure At (sizes : List Nat) (k : Nat) (cp : WrappingProduct) : Prop where
  sizesOfRows : cp.sizesOfRows = sizes
  numMaxPermutations : cp.numMaxPermutations = sizes.prod
  numPermutationsProcessed : cp.numPermutationsProcessed = k + 1
  permutation : k < sizes.prod → Odometer.after sizes k = some cp.permutation

theorem new_at {cp : WrappingProduct} (hmax : sizes.prod < 2 ^ 31) (h : new sizes = .ok cp) :
    At sizes 0 cp := by
  have hprod : cInt sizes.prod = sizes.prod := cInt_of_range (by omega) (by omega)
  rw [new_eq h, hprod]
  exact ⟨rfl, rfl, rfl, fun _ => rfl⟩

theorem At.atEnd {k : Nat} {cp : WrappingProduct} (h : At sizes k cp) :
    cp.atEnd = true ↔ sizes.prod ≤ k := by
  unfold WrappingProduct.atEnd
  rw [h.numMaxPermutations, h.numPermutationsProcessed, decide_eq_true_iff]
  omega

/-- Counting past the last tuple leaves the rows. -/
theorem incrementAndTest_last {perm : List Nat} (hr : Odometer.InRange sizes perm)
    (h : Odometer.next sizes perm = none) (next : List Nat) :
    incrementAndTest sizes perm ≠ .ok next := by
  induction hr generalizing next with
  | nil => exact nofun
  | @cons size p sizes perm hp _ ih =>
      unfold Odometer.next at h
      split_ifs at h with hlt
      unfold incrementAndTest
      dsimp only
      rw [if_pos (by omega)]
      intro hnext
      obtain ⟨rest, hrest, _⟩ := bind_eq_ok.mp hnext
      exact ih (Option.map_eq_none_iff.mp h) rest hrest

/-- An increment that succeeds is one step of the odometer: a count that wraps around is not past the
end, and there is no next tuple then. -/
theorem At.increment {k : Nat} {cp next : WrappingProduct} (hpos : ∀ size ∈ sizes, 0 < size)
    (hmax : sizes.prod < 2 ^ 31) (hat : At sizes k cp) (hk : k < sizes.prod)
    (h : cp.increment = .ok next) : At sizes (k + 1) next := by
  obtain ⟨ds, hds, hr, hv⟩ := Odometer.after_value hpos hk
  have hcur : ds = cp.permutation := Option.some.inj (hds.symm.trans (hat.permutation hk))
  unfold WrappingProduct.increment WrappingProduct.atEnd at h
  simp only [hat.sizesOfRows, hat.numMaxPermutations, hat.numPermutationsProcessed, ← hcur] at h
  cases hn : Odometer.next sizes ds with
  | none =>
      have hlast : k + 1 = sizes.prod := by rw [← hr.next_eq_none hn, hv]
      split_ifs at h with hend
      · rw [decide_eq_true_iff] at hend
        have hwrap : cInt (↑k + 1 + 1) = (k + 1 : Nat) + 1 := by
          rcases Nat.lt_or_ge (k + 2) (2 ^ 31) with hlt | hge
          · exact cInt_of_range (by omega) (by omega)
          · have hk' : k = 2 ^ 31 - 2 := by omega
            subst hk'
            rw [← hlast] at hend
            exact absurd hend (by decide)
        rw [hwrap] at h
        cases h
        exact ⟨rfl, rfl, rfl, fun hlt => by omega⟩
      · obtain ⟨perm, hperm, _⟩ := bind_eq_ok.mp h
        exact absurd hperm (incrementAndTest_last hr hn perm)
  | some es =>
      obtain ⟨hr', hv'⟩ := hr.next_eq hn
      have hlt : k + 1 < sizes.prod := by
        have := hr'.value_lt
        omega
      have hwrap : cInt (↑k + 1 + 1) = (k + 1 : Nat) + 1 := cInt_of_range (by omega) (by omega)
      rw [hwrap, if_neg (by rw [decide_eq_true_iff]; omega), incrementAndTest_eq hr hn] at h
      cases h
      refine ⟨rfl, rfl, rfl, fun _ => ?_⟩
      show (Odometer.after sizes k).bind (Odometer.next sizes) = some es
      rw [hds]
      exact hn

section

variable {σ : Type} {test : List Nat → σ → Except LoopStop σ}

/-- A loop that ends has tested all remaining tuples. -/
theorem At.permLoop_eq {n k : Nat} {cp : WrappingProduct} {s t : σ} {tested : List (List Nat)}
    (hpos : ∀ size ∈ sizes, 0 < size) (hmax : sizes.prod < 2 ^ 31) (hat : At sizes k cp)
    (h : permLoop test n cp s = .ok (tested, t)) : tested = (Odometer.tuples sizes).drop k := by
  induction n generalizing k cp s tested with
  | zero =>
      unfold permLoop at h
      split_ifs at h with hend
      cases h
      exact (Odometer.drop_tuples_eq_nil (hat.atEnd.mp hend)).symm
  | succ n ih =>
      unfold permLoop at h
      split_ifs at h with hend
      · cases h
        exact (Odometer.drop_tuples_eq_nil (hat.atEnd.mp hend)).symm
      · obtain ⟨s₁, _, h⟩ := bind_eq_ok.mp h
        obtain ⟨next, hnext, h⟩ := bind_eq_ok.mp h
        obtain ⟨⟨rest, s₂⟩, hrest, h⟩ := bind_eq_ok.mp h
        cases h
        have hk : k < sizes.prod := Nat.lt_of_not_le fun hle => hend (hat.atEnd.mpr hle)
        have hnext' : cp.increment = .ok next := by simpa using hnext
        rw [Odometer.drop_tuples hk (hat.permutation hk),
          ih (hat.increment hpos hmax hk hnext') hrest]

end

theorem mapM_choices {ps : List (Value × List Value)}
    (h : (ps.map fun p => p.2.length + 1).prod < 2 ^ 31) :
    ps.mapM (fun p => if 0 < cInt (p.2.length + 1) then
        Except.ok (cInt (p.2.length + 1)).toNat
      else .error (Stop.abort "making zero choices")) =
      .ok (ps.map fun p => p.2.length + 1) := by
  induction ps with
  | nil => rfl
  | cons p ps ih =>
      rw [List.map_cons, List.prod_cons] at h
      have hrest : 0 < (ps.map fun p => p.2.length + 1).prod := by
        apply List.prod_pos
        intro n hn
        obtain ⟨p, _, rfl⟩ := List.mem_map.mp hn
        exact Nat.succ_pos _
      have hp : p.2.length + 1 < 2 ^ 31 :=
        Nat.lt_of_le_of_lt (Nat.le_mul_of_pos_right _ hrest) h
      have hps : (ps.map fun p => p.2.length + 1).prod < 2 ^ 31 :=
        Nat.lt_of_le_of_lt (Nat.le_mul_of_pos_left _ (Nat.succ_pos _)) h
      have hv : cInt (p.2.length + 1) = p.2.length + 1 := cInt_of_range (by omega) (by omega)
      rw [List.mapM_cons, ih hps, hv, if_pos (by omega)]
      rfl

end WrappingProduct

namespace LoadStores

open WrappingProduct

variable {interfs : LoadStores}

theorem sizes_pos (interfs : LoadStores) : ∀ size ∈ interfs.sizes, 0 < size := by
  intro size hsize
  obtain ⟨p, _, rfl⟩ := List.mem_map.mp hsize
  exact Nat.succ_pos _

theorem choicesPerLoad_eq (h : interfs.sizes.prod < 2 ^ 31) :
    choicesPerLoad interfs = .ok interfs.sizes :=
  mapM_choices h

end LoadStores

namespace WrappingProduct

variable {sizes : List Nat} {ap : Apron}

/-! ### Where nothing overflows -/

/-- The counter of the model that stops at an overflow. -/
def ofProduct (cp : CartesianProduct) : WrappingProduct :=
  ⟨cp.permutation, cp.numPermutationsProcessed, cp.numMaxPermutations, cp.sizesOfRows⟩

theorem atEnd_ofProduct (cp : CartesianProduct) : (ofProduct cp).atEnd = cp.atEnd := by
  unfold WrappingProduct.atEnd CartesianProduct.atEnd ofProduct
  apply decide_eq_decide.mpr
  exact Int.ofNat_lt

theorem new_ofProduct {cp : CartesianProduct} (h : CartesianProduct.new sizes = .ok cp) :
    new sizes = .ok (ofProduct cp) := by
  obtain ⟨hpos, hat⟩ := CartesianProduct.new_at h
  have hne : sizes ≠ [] := by
    rintro rfl
    cases h
  obtain ⟨cp', hcp'⟩ := new_ok hne hpos
  have hlt : sizes.prod < 2 ^ 31 := CartesianProduct.new_lt h
  have hat' := new_at hlt hcp'
  rw [hcp', new_eq hcp', ofProduct, hat.numMaxPermutations, hat.numPermutationsProcessed,
    hat.sizesOfRows, cInt_of_range (by omega) (by omega)]
  have hzeros := Option.some.inj (hat.permutation (List.prod_pos hpos))
  rw [← hzeros]
  rfl

theorem increment_ofProduct {cp next : CartesianProduct} (h : cp.increment = .ok next) :
    (ofProduct cp).increment = .ok (ofProduct next) := by
  unfold CartesianProduct.increment at h
  split_ifs at h with hint
  have hwrap : cInt ((cp.numPermutationsProcessed : Int) + 1) =
      (cp.numPermutationsProcessed + 1 : Nat) := cInt_of_range (by omega) (by omega)
  have hatEnd := atEnd_ofProduct
    { cp with numPermutationsProcessed := cp.numPermutationsProcessed + 1 }
  unfold WrappingProduct.increment
  unfold ofProduct at hatEnd ⊢
  dsimp only at h hatEnd ⊢
  rw [hwrap, hatEnd]
  split_ifs at h with hend
  · cases h
    exact if_pos hend
  · obtain ⟨perm, hperm, h⟩ := bind_eq_ok.mp h
    cases h
    rw [if_neg hend, hperm]
    rfl

section

variable {o : BlockOrder} {cx : Ctx} {z3 : Solver} {rules : List Rule} {F : Function}
  {createSite : Option Instruction} {interfs : LoadStores} {stFacts : StoreFacts ap}
  {entryFact : LatticeFact ap} {fuel : Nat}

theorem permLoop_ofProduct {n : Nat} {cp : CartesianProduct} {s t : PermState ap}
    (h : Watts.permLoop o cx z3 rules F createSite interfs stFacts entryFact fuel n cp s = .ok t) :
    ∃ tested, permLoop (testPerm o cx z3 rules F createSite interfs stFacts entryFact fuel) n
      (ofProduct cp) s = .ok (tested, t) := by
  induction n generalizing cp s with
  | zero =>
      unfold Watts.permLoop at h
      unfold permLoop
      rw [atEnd_ofProduct]
      split_ifs at h with hend
      cases h
      exact ⟨[], if_pos hend⟩
  | succ n ih =>
      unfold Watts.permLoop at h
      unfold permLoop
      rw [atEnd_ofProduct]
      split_ifs at h with hend
      · cases h
        exact ⟨[], if_pos hend⟩
      · obtain ⟨⟨ran, s₁⟩, htest, h⟩ := bind_eq_ok.mp h
        obtain ⟨next, hnext, h⟩ := bind_eq_ok.mp h
        obtain ⟨tested, hrest⟩ := ih h
        have hnext' : cp.increment = .ok next := by simpa using hnext
        have htest' : testPerm o cx z3 rules F createSite interfs stFacts entryFact fuel
            (ofProduct cp).permutation s = .ok s₁ := bind_eq_ok.mpr ⟨_, htest, rfl⟩
        refine ⟨cp.permutation :: tested, ?_⟩
        rw [if_neg hend]
        refine bind_eq_ok.mpr ⟨s₁, htest', bind_eq_ok.mpr ⟨ofProduct next, ?_, ?_⟩⟩
        · rw [increment_ofProduct hnext']
          rfl
        · exact bind_eq_ok.mpr ⟨_, hrest, rfl⟩

/-- **An exploration in which no `int` overflows is the compiled one.** -/
theorem analyzeThreadInterf_ofProduct {books : Books ap} {permCache : PermCache} {s : PermState ap}
    (h : Watts.analyzeThreadInterf o cx z3 rules F createSite interfs stFacts books permCache entryFact
      fuel = .ok s) :
    ∃ tested, analyzeThreadInterf o cx z3 rules F createSite interfs stFacts books permCache entryFact
      fuel = .ok (tested, s) := by
  unfold Watts.analyzeThreadInterf at h
  unfold analyzeThreadInterf
  split_ifs at h with hsize hc
  · obtain ⟨r, hr, h⟩ := bind_eq_ok.mp h
    cases h
    exact ⟨none, by rw [if_pos hsize, hr]; rfl⟩
  · obtain ⟨allInterfs, hall, h⟩ := bind_eq_ok.mp h
    obtain ⟨r, hr, h⟩ := bind_eq_ok.mp h
    cases h
    refine ⟨none, ?_⟩
    rw [if_neg hsize, if_pos hc]
    exact bind_eq_ok.mpr ⟨allInterfs, hall, bind_eq_ok.mpr ⟨r, hr, rfl⟩⟩
  · obtain ⟨cp, hcp, h⟩ := bind_eq_ok.mp h
    have hcp' : CartesianProduct.new interfs.sizes = .ok cp := by
      unfold LoadStores.sizes
      simpa using hcp
    obtain ⟨tested, hloop⟩ := permLoop_ofProduct h
    have hof : ofInterfs interfs = .ok (ofProduct cp) := by
      unfold ofInterfs
      rw [LoadStores.choicesPerLoad_eq (CartesianProduct.new_lt hcp')]
      exact new_ofProduct hcp'
    refine ⟨some tested, ?_⟩
    rw [if_neg hsize, if_neg hc, hof]
    exact bind_eq_ok.mpr ⟨_, rfl, bind_eq_ok.mpr ⟨_, hloop, rfl⟩⟩

end

end WrappingProduct

namespace LoadStores

open WrappingProduct

/-- No permutation is lost: the class counts them all, and a loop that ends has tested them all. -/
structure TestsAll (interfs : LoadStores) : Prop where
  counts : ∃ cp, ofInterfs interfs = .ok cp ∧ cp.numMaxPermutations = interfs.sizes.prod
  tests : ∀ {ap : Apron} o cx z3 rules F createSite (stFacts : StoreFacts ap) books permCache
    entryFact fuel tested s, WrappingProduct.analyzeThreadInterf o cx z3 rules F createSite interfs
      stFacts books permCache entryFact fuel = .ok (some tested, s) →
        tested ≠ [] ∧ ∀ perm, Odometer.InRange interfs.sizes perm → perm ∈ tested

/-- **No permutation is lost exactly when their number fits an `int`.** -/
theorem testsAll_iff (interfs : LoadStores) (h : interfs.size ≠ 0) :
    interfs.TestsAll ↔ interfs.sizes.prod ≤ 2 ^ 31 - 1 := by
  constructor
  · rintro ⟨⟨cp, hcp, hmax⟩, _⟩
    obtain ⟨sizes, _, hnew⟩ := bind_eq_ok.mp hcp
    have hlt : cp.numMaxPermutations < 2 ^ 31 := by
      have heq : cp.numMaxPermutations = cInt sizes.prod := by rw [new_eq hnew]
      rw [heq]
      exact cInt_lt sizes.prod
    omega
  · intro hle
    have hlt : interfs.sizes.prod < 2 ^ 31 := by omega
    have hne : interfs.sizes ≠ [] := by
      apply List.ne_nil_of_length_pos
      rw [sizes, List.length_map, Std.TreeMap.length_toList]
      exact Nat.pos_of_ne_zero h
    obtain ⟨cp, hcp⟩ := WrappingProduct.new_ok hne interfs.sizes_pos
    have hof : ofInterfs interfs = .ok cp := by
      unfold ofInterfs
      rw [choicesPerLoad_eq hlt]
      exact hcp
    have hat := WrappingProduct.new_at hlt hcp
    refine ⟨⟨cp, hof, hat.numMaxPermutations⟩, ?_⟩
    intro ap o cx z3 rules F createSite stFacts books permCache entryFact fuel tested s hrun
    unfold WrappingProduct.analyzeThreadInterf at hrun
    rw [if_neg h] at hrun
    split_ifs at hrun
    · obtain ⟨_, _, hrun⟩ := bind_eq_ok.mp hrun
      obtain ⟨_, _, hrun⟩ := bind_eq_ok.mp hrun
      cases hrun
    · obtain ⟨cp', hcp', hrun⟩ := bind_eq_ok.mp hrun
      obtain ⟨⟨ps, t⟩, hloop, hrun⟩ := bind_eq_ok.mp hrun
      rw [hof] at hcp'
      obtain rfl : ps = tested := Option.some.inj (congrArg Prod.fst (Except.ok.inj hrun))
      cases hcp'
      have hall := hat.permLoop_eq interfs.sizes_pos hlt hloop
      have htested : ∀ perm, perm ∈ ps ↔ Odometer.InRange interfs.sizes perm := by
        intro perm
        rw [hall]
        exact Odometer.mem_tuples interfs.sizes_pos
      refine ⟨?_, fun perm hperm => (htested perm).mpr hperm⟩
      exact List.ne_nil_of_mem ((htested _).mpr (.zeros interfs.sizes_pos))

end LoadStores

namespace ManyLoads

def storeX : Instruction := ⟨30, .store (i32 1) 0, none, []⟩
def create : Instruction := ⟨31, .call (.pthreadCreate 33 (some 1) []), none, []⟩
def main : Function :=
  .ofBlocks 0 [.ofInstrs 90 [create, storeX] ⟨32, .ret, none, []⟩]

/-- A thread that loads `x` 31 times. -/
def thread : Function :=
  .ofBlocks 1 [.ofInstrs 91 ((List.range 31).map fun k => ⟨100 + k, .load 0, some 32, []⟩)
    ⟨34, .ret, none, []⟩]

def program : Module :=
  .ofFunctions [main, thread] [⟨0, some (.constantInt ⟨32, 0⟩)⟩] (some 0)

def cx : Ctx :=
  .ofModule program 1 {}

/-- The fact after `storeX`. -/
def stFacts : StoreFacts boxes :=
  .insert ∅ 30 ⟨some [.const 1]⟩

def interfs : LoadStores :=
  (List.range 31).foldl (fun m k => m.insert (100 + k) [30]) {}

theorem getInterferingStores_eq :
    getInterferingStores program thread (.insert ∅ 0 stFacts) = .ok interfs :=
  rfl

/-- The analysis of the thread; the solver is not asked. -/
def analysis : Except LoopStop (Option (List (List Nat)) × PermState boxes) :=
  WrappingProduct.analyzeThreadInterf .increasing cx (fun _ _ => .lUndef) [] thread (some create)
    interfs stFacts {} {} ⟨some [.const 0]⟩ 40

/-- **A thread with 31 loads and one store to load from is not analysed at all**: the number of its
permutations wraps around to a negative one, and the loop is left before the first. -/
theorem not_testsAll : getInterferingStores program thread (.insert ∅ 0 stFacts) = .ok interfs ∧
    (∃ s, analysis = .ok (some [], s)) ∧ ¬ interfs.TestsAll := by
  have htested : (analysis.toOption.map fun r => r.1) = some (some []) := by
    decide +kernel
  obtain ⟨⟨tested, s⟩, hs, rfl⟩ := Fallible.exists_ok_of_toOption htested
  refine ⟨getInterferingStores_eq, ⟨s, hs⟩, fun h => ?_⟩
  exact (h.tests _ _ _ _ _ _ _ _ _ _ _ _ _ hs).1 rfl

/-- Two loads, the one with one store and the other with two, have six permutations. -/
theorem testsAll_six : LoadStores.TestsAll (.insert (.insert ∅ 2 [30]) 3 [30, 31]) :=
  (LoadStores.testsAll_iff (.insert (.insert ∅ 2 [30]) 3 [30, 31]) (by decide)).mpr (by decide)

end ManyLoads

end Watts
