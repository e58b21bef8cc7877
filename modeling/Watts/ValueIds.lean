import Watts.IR
import Watts.Library.Fallible
import Watts.Library.Numbering
import Mathlib.Analysis.SpecialFunctions.Log.Base

/-! The bit vectors that stand for the values of the program in the relations of the solver. -/

namespace Watts

open Fallible (bind_eq_ok)
open Numbering

/-- `value_cacheG`, from the values to their `unsigned` numbers. -/
abbrev ValueCache := Std.TreeMap Value Nat

/-- `exit(EXIT_FAILURE)` of a cache that is too large. -/
def bitvectorOverflow (bvSize : Nat) : Stop :=
  .abort ("[ERROR] Overflowing Bitvector size, increase it: current size: " ++ toString bvSize)

/-- The bit vector of a value, with the cache afterwards.  `ceil(log(id) / log(2))` is `clog`, and minus
infinity for the first number, which is in no case too large. -/
def getValueBVIDSz (v : Value) (bvSize : Nat) (valueCache : ValueCache) :
    Except Stop (BitVec bvSize × ValueCache) :=
  if 32 < bvSize then
    .error (.abort "Bitvector size cannot fit in unsigned")
  else
    match valueCache[v]? with
    | some id => .ok (BitVec.ofNat bvSize id, valueCache)
    | none =>
      let id := valueCache.size % 2 ^ 32
      if Nat.clog 2 id > bvSize then
        .error (bitvectorOverflow bvSize)
      else
        .ok (BitVec.ofNat bvSize id, valueCache.insert v id)

/-- The calls of a process, one after the other. -/
def getValueBVIDs (bvSize : Nat) : List Value → ValueCache → Except Stop (List (BitVec bvSize))
  | [], _ => .ok []
  | v :: vs, valueCache => do
    let (ret, valueCache) ← getValueBVIDSz v bvSize valueCache
    return ret :: (← getValueBVIDs bvSize vs valueCache)

/-- The process exits, or two calls return the same bit vector exactly when they are for the same
value. -/
def IdsInjective (bvSize : Nat) (calls : List Value) : Prop :=
  getValueBVIDs bvSize calls {} = .error (bitvectorOverflow bvSize) ∨
    ∃ ids, getValueBVIDs bvSize calls {} = .ok ids ∧ ids.length = calls.length ∧
      ∀ i j, i < calls.length → j < calls.length → (ids[i]? = ids[j]? ↔ calls[i]? = calls[j]?)

/-- The comparison of the source, over the reals. -/
theorem lt_ceil_log_iff {id bvSize : Nat} (hid : id ≠ 0) :
    (bvSize : ℤ) < ⌈Real.log id / Real.log 2⌉ ↔ bvSize < Nat.clog 2 id := by
  have hlog : 0 ≤ Real.logb (2 : ℕ) id := Real.logb_nonneg (by norm_num) (by
    exact_mod_cast Nat.one_le_iff_ne_zero.mpr hid)
  have hceil : ((⌈Real.logb (2 : ℕ) id⌉₊ : ℕ) : ℤ) = ⌈Real.logb (2 : ℕ) id⌉ :=
    Int.natCast_ceil_eq_ceil hlog
  rw [Real.natCeil_logb_natCast] at hceil
  rw [Real.log_div_log, ← Nat.cast_ofNat, ← hceil, Int.ofNat_lt]

/-- The cache numbers the values of `vs` in order, modulo the size of `unsigned`. -/
structure Numbers (vs : List Value) (valueCache : ValueCache) : Prop where
  nodup : vs.Nodup
  size : valueCache.size = vs.length
  getElem? : ∀ v, valueCache[v]? = if v ∈ vs then some (vs.idxOf v % 2 ^ 32) else none

theorem numbers_empty : Numbers [] {} :=
  ⟨List.nodup_nil, rfl, fun v => by simp⟩

section

variable {vs calls : List Value} {v : Value} {bvSize : Nat} {valueCache : ValueCache}

theorem ofNat_mod_unsigned (hn : bvSize ≤ 32) (k : Nat) :
    BitVec.ofNat bvSize (k % 2 ^ 32) = BitVec.ofNat bvSize k := by
  apply BitVec.eq_of_toNat_eq
  rw [BitVec.toNat_ofNat, BitVec.toNat_ofNat]
  exact Nat.mod_mod_of_dvd k (pow_dvd_pow 2 hn)

theorem Numbers.insert (h : Numbers vs valueCache) (hv : v ∉ vs) :
    Numbers (vs ++ [v]) (valueCache.insert v (vs.length % 2 ^ 32)) := by
  refine ⟨?_, ?_, fun w => ?_⟩
  · rw [List.nodup_append]
    refine ⟨h.nodup, List.nodup_singleton v, fun a ha b hb heq => hv ?_⟩
    rwa [← List.mem_singleton.mp hb, ← heq]
  · have hnone : ¬ valueCache.contains v = true := by
      rw [Std.TreeMap.contains_eq_isSome_getElem?, h.getElem?, if_neg hv]
      exact Bool.false_ne_true
    rw [Std.TreeMap.size_insert, if_neg hnone, h.size, List.length_append]
    rfl
  · rw [Std.TreeMap.getElem?_insert]
    by_cases hw : w = v
    · subst hw
      simp [List.idxOf_append_of_notMem hv]
    · have hne : ¬ v = w := fun heq => hw heq.symm
      rw [if_neg (by simpa using hne), h.getElem?]
      by_cases hmem : w ∈ vs
      · rw [if_pos hmem, if_pos (List.mem_append_left _ hmem), List.idxOf_append_of_mem hmem]
      · rw [if_neg hmem, if_neg (by simpa [hw] using hmem)]

/-- A value that was seen keeps its bit vector. -/
theorem Numbers.getValueBVIDSz_of_mem (h : Numbers vs valueCache) (hn : bvSize ≤ 32) (hv : v ∈ vs) :
    getValueBVIDSz v bvSize valueCache = .ok (BitVec.ofNat bvSize (vs.idxOf v), valueCache) := by
  unfold getValueBVIDSz
  rw [if_neg (Nat.not_lt.mpr hn), h.getElem?, if_pos hv]
  dsimp only
  rw [ofNat_mod_unsigned hn]

/-- A new value gets the next number, unless the number is too large. -/
theorem Numbers.getValueBVIDSz_of_not_mem (h : Numbers vs valueCache) (hn : bvSize ≤ 32) (hv : v ∉ vs) :
    getValueBVIDSz v bvSize valueCache =
      if 2 ^ bvSize < vs.length % 2 ^ 32 then .error (bitvectorOverflow bvSize)
      else .ok (BitVec.ofNat bvSize vs.length, valueCache.insert v (vs.length % 2 ^ 32)) := by
  have hlog : Nat.clog 2 (vs.length % 2 ^ 32) > bvSize ↔ 2 ^ bvSize < vs.length % 2 ^ 32 :=
    Nat.lt_clog_iff_pow_lt (by decide)
  unfold getValueBVIDSz
  rw [if_neg (Nat.not_lt.mpr hn), h.getElem?, if_neg hv]
  simp only [h.size, hlog]
  rw [ofNat_mod_unsigned hn]

/-- **Without an exit the calls return the numbers of their values**, cut to the size. -/
theorem Numbers.getValueBVIDs_ok (h : Numbers vs valueCache) (hn : bvSize ≤ 32)
    (hfits : bvSize = 32 ∨ (number vs calls).length ≤ 2 ^ bvSize + 1) :
    getValueBVIDs bvSize calls valueCache =
      .ok (calls.map fun v => BitVec.ofNat bvSize ((number vs calls).idxOf v)) := by
  induction calls generalizing vs valueCache with
  | nil => rfl
  | cons v calls ih =>
      by_cases hv : v ∈ vs
      · rw [number_cons_of_mem hv] at hfits
        rw [number_cons_of_mem hv, List.map_cons, idxOf_number hv, getValueBVIDs,
          h.getValueBVIDSz_of_mem hn hv]
        show (do return _ :: (← getValueBVIDs bvSize calls valueCache)) = _
        rw [ih h hfits]
        rfl
      · rw [number_cons_of_not_mem hv] at hfits
        have hmem : v ∈ vs ++ [v] := List.mem_append_right _ (.head _)
        have hidx : (vs ++ [v]).idxOf v = vs.length := by simp [List.idxOf_append_of_notMem hv]
        have hlen := (prefix_number (vs ++ [v]) calls).length_le
        rw [List.length_append, List.length_singleton] at hlen
        have hlt : ¬ 2 ^ bvSize < vs.length % 2 ^ 32 := by
          rcases hfits with rfl | hle
          · exact Nat.not_lt.mpr (Nat.mod_lt _ (by decide)).le
          · have := Nat.mod_le vs.length (2 ^ 32)
            omega
        rw [number_cons_of_not_mem hv, List.map_cons, idxOf_number hmem, hidx, getValueBVIDs,
          h.getValueBVIDSz_of_not_mem hn hv, if_neg hlt]
        show (do return _ :: (← getValueBVIDs bvSize calls _)) = _
        rw [ih (h.insert hv) hfits]
        rfl

/-- With two more values than bit vectors, the process exits. -/
theorem Numbers.getValueBVIDs_exits (h : Numbers vs valueCache) (hn : bvSize < 32)
    (hlen : vs.length ≤ 2 ^ bvSize + 1) (hmany : 2 ^ bvSize + 1 < (number vs calls).length) :
    getValueBVIDs bvSize calls valueCache = .error (bitvectorOverflow bvSize) := by
  induction calls generalizing vs valueCache with
  | nil =>
      rw [number] at hmany
      omega
  | cons v calls ih =>
      by_cases hv : v ∈ vs
      · rw [number_cons_of_mem hv] at hmany
        rw [getValueBVIDs, h.getValueBVIDSz_of_mem hn.le hv]
        show (do return _ :: (← getValueBVIDs bvSize calls valueCache)) = _
        rw [ih h hlen hmany]
        rfl
      · rw [number_cons_of_not_mem hv] at hmany
        rw [getValueBVIDs, h.getValueBVIDSz_of_not_mem hn.le hv]
        have hpow : 2 ^ bvSize ≤ 2 ^ 31 := Nat.pow_le_pow_right (by decide) (by omega)
        have hmod : vs.length % 2 ^ 32 = vs.length := Nat.mod_eq_of_lt (by omega)
        rw [hmod]
        split_ifs with hlt
        · rfl
        · show (do return _ :: (← getValueBVIDs bvSize calls _)) = _
          rw [ih (hmod ▸ h.insert hv) (by rw [List.length_append, List.length_singleton]; omega) hmany]
          rfl

end

/-- The numbers below `2 ^ bvSize` are told apart, and the next one is the first again. -/
theorem ofNat_idxOf_injective_iff {bvSize : Nat} {calls : List Value} :
    (∀ v ∈ calls, ∀ w ∈ calls, BitVec.ofNat bvSize ((number [] calls).idxOf v) =
      BitVec.ofNat bvSize ((number [] calls).idxOf w) → v = w) ↔ calls.dedup.length ≤ 2 ^ bvSize := by
  rw [← length_number]
  constructor
  · intro h
    by_contra hlt
    rw [Nat.not_le] at hlt
    obtain ⟨v, hv, hidx⟩ := exists_idxOf (Nat.zero_lt_of_lt hlt)
    obtain ⟨w, hw, hidx'⟩ := exists_idxOf hlt
    have heq : v = w := by
      apply h v hv w hw
      rw [hidx, hidx']
      apply BitVec.eq_of_toNat_eq
      rw [BitVec.toNat_ofNat, BitVec.toNat_ofNat, Nat.zero_mod, Nat.mod_self]
    rw [heq, hidx'] at hidx
    exact absurd hidx (Nat.two_pow_pos bvSize).ne'
  · intro hle v hv w hw heq
    have hlt : ∀ {u : Value}, u ∈ calls → (number [] calls).idxOf u < 2 ^ bvSize := fun hu =>
      Nat.lt_of_lt_of_le (List.idxOf_lt_length_of_mem (mem_number.mpr (.inr hu))) hle
    have hnat := congrArg BitVec.toNat heq
    rw [BitVec.toNat_ofNat, BitVec.toNat_ofNat, Nat.mod_eq_of_lt (hlt hv),
      Nat.mod_eq_of_lt (hlt hw)] at hnat
    exact (List.idxOf_inj (mem_number.mpr (.inr hv))).mp hnat

/-- **The bit vectors tell the values apart, or the process exits, unless there is exactly one value more
than bit vectors**; with the size of `unsigned` it never exits. -/
theorem idsInjective_iff (bvSize : Nat) (hn : bvSize ≤ 32) (calls : List Value) :
    IdsInjective bvSize calls ↔
      calls.dedup.length ≤ 2 ^ bvSize ∨ bvSize < 32 ∧ 2 ^ bvSize + 1 < calls.dedup.length := by
  rw [← length_number]
  by_cases hmany : bvSize < 32 ∧ 2 ^ bvSize + 1 < (number [] calls).length
  · constructor
    · exact fun _ => .inr hmany
    · exact fun _ => .inl (numbers_empty.getValueBVIDs_exits hmany.1 (Nat.zero_le _) hmany.2)
  · have hfits : bvSize = 32 ∨ (number [] calls).length ≤ 2 ^ bvSize + 1 := by omega
    have hrun := numbers_empty.getValueBVIDs_ok hn hfits
    rw [or_iff_left hmany, length_number, ← ofNat_idxOf_injective_iff]
    unfold IdsInjective
    rw [hrun]
    constructor
    · rintro (hexit | ⟨ids, hids, _, hinj⟩) v hv w hw heq
      · cases hexit
      · cases hids
        obtain ⟨i, hi, rfl⟩ := List.getElem_of_mem hv
        obtain ⟨j, hj, rfl⟩ := List.getElem_of_mem hw
        have := (hinj i j hi hj).mp (by simpa [hi, hj] using heq)
        simpa [hi, hj] using this
    · intro hinj
      refine .inr ⟨_, rfl, List.length_map _, fun i j hi hj => ?_⟩
      rw [List.getElem?_map, List.getElem?_map, List.getElem?_eq_getElem hi,
        List.getElem?_eq_getElem hj, Option.map_some, Option.map_some, Option.some_inj, Option.some_inj]
      constructor
      · exact hinj _ (List.getElem_mem hi) _ (List.getElem_mem hj)
      · exact fun heq => by rw [heq]

/-- Three values for the two bit vectors of one bit: the third gets the bit vector of the first. -/
theorem not_idsInjective_one : getValueBVIDs 1 [10, 11, 12] {} = .ok [0, 1, 0] ∧
    ¬ IdsInjective 1 [10, 11, 12] := by
  have hids : getValueBVIDs 1 [10, 11, 12] {} = .ok [0, 1, 0] := by
    decide
  refine ⟨hids, ?_⟩
  rintro (hexit | ⟨ids, hok, _, hinj⟩)
  · rw [hids] at hexit
    cases hexit
  · rw [hids] at hok
    cases hok
    exact absurd ((hinj 0 2 (by decide) (by decide)).mp rfl) (by decide)

/-- Two values have different bit vectors of one bit. -/
theorem idsInjective_one : IdsInjective 1 [10, 11, 10] :=
  (idsInjective_iff 1 (by decide) [10, 11, 10]).mpr (.inl (by decide))

end Watts
