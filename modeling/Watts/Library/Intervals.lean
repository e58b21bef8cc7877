import Mathlib.Algebra.Order.Ring.Int
import Mathlib.Tactic.Common

/-! Non-empty integer intervals with optional bounds, ordered by inclusion: the least upper bound, the
arithmetic of interval expressions and the restriction by a bound.  Each operation is sound for the
integers of its operands and monotone. -/

namespace Intervals

/-- A non-empty interval; an absent bound is infinite. -/
structure Itv where
  inf : Option Int
  sup : Option Int
  nonempty : ∀ l ∈ inf, ∀ h ∈ sup, l ≤ h
deriving DecidableEq, Repr

/-! ### Remainders with the sign of the dividend -/

theorem tmod_natAbs (x m : Int) : x.tmod m.natAbs = x.tmod m := by
  rcases Int.natAbs_eq m with heq | heq
  · exact congrArg _ heq.symm
  · rw [show m = -(m.natAbs : Int) from heq, Int.tmod_neg, Int.natAbs_neg, Int.natAbs_natCast]

theorem tmod_bounds {c : Nat} (hc : 0 < c) (x : Int) : -c < x.tmod c ∧ x.tmod c < c := by
  have hhigh := Int.tmod_lt_of_pos x (b := (c : Int)) (by omega)
  have hlow := Int.tmod_lt_of_pos (-x) (b := (c : Int)) (by omega)
  rw [Int.neg_tmod] at hlow
  omega

theorem tmod_eq_self {c : Nat} {x : Int} (hlow : -c < x) (hhigh : x < c) : x.tmod c = x := by
  by_cases hpos : 0 ≤ x
  · exact Int.tmod_eq_of_lt hpos hhigh
  · have hneg := Int.tmod_eq_of_lt (a := -x) (b := (c : Int)) (by omega) (by omega)
    rw [Int.neg_tmod] at hneg
    omega

namespace Itv

/-- The integers of an interval. -/
def Mem (x : Int) (I : Itv) : Prop :=
  (∀ l ∈ I.inf, l ≤ x) ∧ ∀ h ∈ I.sup, x ≤ h

/-- The interval with the given bounds, if it is not empty. -/
def mk? (inf sup : Option Int) : Option Itv :=
  if h : ∀ l ∈ inf, ∀ h ∈ sup, l ≤ h then some ⟨inf, sup, h⟩ else none

def top : Itv :=
  ⟨none, none, by simp⟩

def const (c : Int) : Itv :=
  ⟨some c, some c, by simp⟩

/-- The integers from `c` on. -/
def upFrom (c : Int) : Itv :=
  ⟨some c, none, by simp⟩

/-- The integers up to `c`. -/
def downFrom (c : Int) : Itv :=
  ⟨none, some c, by simp⟩

/-- The integers whose absolute value is less than `c`. -/
def ball (c : Nat) (hc : 0 < c) : Itv :=
  ⟨some (-(c - 1)), some (c - 1), by rintro _ ⟨⟩ _ ⟨⟩; omega⟩

/-- The non-negative integers less than `c`. -/
def residues (c : Nat) (hc : 0 < c) : Itv :=
  ⟨some 0, some (c - 1), by rintro _ ⟨⟩ _ ⟨⟩; omega⟩

/-- Inclusion. -/
def le (I J : Itv) : Bool :=
  (match J.inf, I.inf with
    | none, _ => true
    | some _, none => false
    | some m, some l => decide (m ≤ l)) &&
  match J.sup, I.sup with
    | none, _ => true
    | some _, none => false
    | some m, some h => decide (h ≤ m)

def join (I J : Itv) : Itv where
  inf := match I.inf, J.inf with
    | some l, some m => some (min l m)
    | _, _ => none
  sup := match I.sup, J.sup with
    | some h, some m => some (max h m)
    | _, _ => none
  nonempty := by
    rcases I with ⟨_ | l, _ | h, hI⟩ <;> rcases J with ⟨_ | m, _ | n, hJ⟩ <;> simp at hI hJ ⊢
    omega

def add (I J : Itv) : Itv where
  inf := match I.inf, J.inf with
    | some l, some m => some (l + m)
    | _, _ => none
  sup := match I.sup, J.sup with
    | some h, some m => some (h + m)
    | _, _ => none
  nonempty := by
    rcases I with ⟨_ | l, _ | h, hI⟩ <;> rcases J with ⟨_ | m, _ | n, hJ⟩ <;> simp at hI hJ ⊢
    omega

/-- Multiplication by a positive factor. -/
def scalePos (c : Int) (hc : 0 < c) (I : Itv) : Itv where
  inf := I.inf.map (c * ·)
  sup := I.sup.map (c * ·)
  nonempty := by
    rcases I with ⟨_ | l, _ | h, hI⟩ <;> simp at hI ⊢
    exact Int.mul_le_mul_of_nonneg_left hI hc.le

def neg (I : Itv) : Itv where
  inf := I.sup.map (- ·)
  sup := I.inf.map (- ·)
  nonempty := by
    rcases I with ⟨_ | l, _ | h, hI⟩ <;> simp at hI ⊢
    exact hI

def scale (c : Int) (I : Itv) : Itv :=
  if h : 0 < c then I.scalePos c h
  else if h : 0 < -c then (I.scalePos (-c) h).neg
  else .const 0

/-- The remainders by `c`, with the sign of the dividend. -/
def tmod (I : Itv) (c : Nat) (hc : 0 < c) : Itv :=
  if I.le (ball c hc) then I
  else if I.le (upFrom 0) then residues c hc
  else ball c hc

/-- The part of an interval that is at least `c`. -/
def atLeast (I : Itv) (c : Int) : Option Itv :=
  mk? (match I.inf with | none => some c | some l => some (max l c)) I.sup

/-- The part of an interval that is at most `c`. -/
def atMost (I : Itv) (c : Int) : Option Itv :=
  mk? I.inf (match I.sup with | none => some c | some h => some (min h c))

/-- What is left of an interval without the point `c`, rounded to an interval. -/
def without (I : Itv) (c : Int) : Option Itv :=
  if I = const c then none else some I

/-! ### Inclusion -/

theorem exists_mem (I : Itv) : ∃ x, I.Mem x := by
  rcases I with ⟨_ | l, _ | h, hI⟩
  · exact ⟨0, by simp [Mem]⟩
  · exact ⟨h, by simp [Mem]⟩
  · exact ⟨l, by simp [Mem]⟩
  · simp only [Option.mem_def, Option.some.injEq, forall_eq'] at hI
    exact ⟨l, by simp [Mem, hI]⟩

/-- Inclusion is inclusion of the sets of integers. -/
theorem le_iff {I J : Itv} : I.le J ↔ ∀ x, I.Mem x → J.Mem x := by
  constructor
  · intro h x hx
    rcases I with ⟨_ | l, _ | h, hI⟩ <;> rcases J with ⟨_ | m, _ | n, hJ⟩ <;>
      simp [le, Mem] at h hx ⊢ <;> omega
  · intro H
    rcases I with ⟨_ | l, _ | h, hI⟩ <;> rcases J with ⟨_ | m, _ | n, hJ⟩ <;>
      simp [le, Mem] at hI hJ H ⊢
    -- an integer of `I` below the lower bound, or above the upper bound, of `J`
    case none.none.none.some => exact absurd (H (n + 1)) (by omega)
    case none.none.some.none => exact absurd (H (m - 1)) (by omega)
    case none.none.some.some => exact absurd (H (m - 1)) (by omega)
    case none.some.none.some => exact H h le_rfl
    case none.some.some.none => exact absurd (H (min h (m - 1)) (by omega)) (by omega)
    case none.some.some.some => exact absurd (H (min h (m - 1)) (by omega)) (by omega)
    case some.none.none.some => exact absurd (H (max l (n + 1)) (by omega)) (by omega)
    case some.none.some.none => exact H l le_rfl
    case some.none.some.some => exact absurd (H (max l (n + 1)) (by omega)) (by omega)
    case some.some.none.some => exact H h hI le_rfl
    case some.some.some.none => exact H l le_rfl hI
    case some.some.some.some => exact ⟨(H l le_rfl hI).1, (H h hI le_rfl).2⟩

@[simp] theorem le_refl (I : Itv) : I.le I :=
  le_iff.mpr fun _ h => h

theorem le_trans {I J K : Itv} (h₁ : I.le J) (h₂ : J.le K) : I.le K :=
  le_iff.mpr fun x hx => le_iff.mp h₂ x (le_iff.mp h₁ x hx)

/-- An interval is determined by its integers. -/
theorem eq_of_mem_iff {I J : Itv} (h : ∀ x, I.Mem x ↔ J.Mem x) : I = J := by
  have h₁ := le_iff.mpr fun x hx => (h x).mp hx
  have h₂ := le_iff.mpr fun x hx => (h x).mpr hx
  rcases I with ⟨_ | l, _ | n, hI⟩ <;> rcases J with ⟨_ | m, _ | k, hJ⟩ <;>
    simp [le] at h₁ h₂ ⊢ <;> omega

@[simp] theorem mem_top (x : Int) : top.Mem x := by
  simp [top, Mem]

@[simp] theorem le_top (I : Itv) : I.le top :=
  le_iff.mpr fun x _ => mem_top x

@[simp] theorem mem_const {x c : Int} : (const c).Mem x ↔ x = c := by
  simp only [const, Mem, Option.mem_def, Option.some.injEq, forall_eq']
  omega

theorem mem_of_mk? {inf sup : Option Int} {I : Itv} (h : mk? inf sup = some I) (x : Int) :
    I.Mem x ↔ (∀ l ∈ inf, l ≤ x) ∧ ∀ h ∈ sup, x ≤ h := by
  unfold mk? at h
  split_ifs at h
  cases h
  rfl

/-- The bounds of a non-empty set of integers make an interval. -/
theorem mk?_isSome {inf sup : Option Int} {x : Int} (h₁ : ∀ l ∈ inf, l ≤ x) (h₂ : ∀ h ∈ sup, x ≤ h) :
    ∃ I, mk? inf sup = some I ∧ I.Mem x := by
  unfold mk?
  rw [dif_pos fun l hl h hh => (h₁ l hl).trans (h₂ h hh)]
  exact ⟨_, rfl, h₁, h₂⟩

/-! ### Joins -/

theorem join_left (I J : Itv) : I.le (join I J) := by
  refine le_iff.mpr fun x hx => ?_
  rcases I with ⟨_ | l, _ | h, hI⟩ <;> rcases J with ⟨_ | m, _ | n, hJ⟩ <;>
    simp [join, Mem] at hx ⊢ <;> omega

theorem join_comm (I J : Itv) : join I J = join J I := by
  rcases I with ⟨_ | l, _ | h, hI⟩ <;> rcases J with ⟨_ | m, _ | n, hJ⟩ <;>
    simp [join, min_comm, max_comm]

theorem join_right (I J : Itv) : J.le (join I J) :=
  join_comm I J ▸ join_left J I

theorem mem_join_const {a b x : Int} (ha : a ≤ x) (hb : x ≤ b) : ((const a).join (const b)).Mem x := by
  simp only [join, const, Mem]
  refine ⟨fun l hl => ?_, fun h hh => ?_⟩
  · cases hl
    exact (min_le_left a b).trans ha
  · cases hh
    exact hb.trans (le_max_right a b)

theorem join_least {I J K : Itv} (h₁ : I.le K) (h₂ : J.le K) : (join I J).le K := by
  rcases I with ⟨_ | l, _ | h, hI⟩ <;> rcases J with ⟨_ | m, _ | n, hJ⟩ <;>
    rcases K with ⟨_ | p, _ | q, hK⟩ <;> simp [le, join] at h₁ h₂ ⊢ <;> omega

/-! ### Arithmetic -/

theorem mem_add {I J : Itv} {x y : Int} (hx : I.Mem x) (hy : J.Mem y) : (add I J).Mem (x + y) := by
  rcases I with ⟨_ | l, _ | h, hI⟩ <;> rcases J with ⟨_ | m, _ | n, hJ⟩ <;>
    simp [add, Mem] at hx hy ⊢ <;> omega

theorem add_mono {I I' J J' : Itv} (h₁ : I.le I') (h₂ : J.le J') : (add I J).le (add I' J') := by
  rcases I with ⟨_ | l, _ | h, hI⟩ <;> rcases J with ⟨_ | m, _ | n, hJ⟩ <;>
    rcases I' with ⟨_ | l', _ | h', hI'⟩ <;> rcases J' with ⟨_ | m', _ | n', hJ'⟩ <;>
    simp [le, add] at h₁ h₂ ⊢ <;> omega

@[simp] theorem add_zero (I : Itv) : I.add (const 0) = I := by
  rcases I with ⟨_ | l, _ | n, hI⟩ <;> simp [add, const]

@[simp] theorem zero_add (I : Itv) : (const 0).add I = I := by
  rcases I with ⟨_ | l, _ | n, hI⟩ <;> simp [add, const]

/-- Each integer of a sum of intervals is a sum of their integers. -/
theorem exists_of_mem_add {I J : Itv} {z : Int} (h : (add I J).Mem z) : ∃ x, I.Mem x ∧ J.Mem (z - x) := by
  obtain ⟨x, hx⟩ := I.exists_mem
  obtain ⟨y, hy⟩ := J.exists_mem
  -- `z - y`, as far as the bounds of the first interval reach
  rcases I with ⟨_ | l, _ | n, hI⟩
  case none.none =>
    refine ⟨z - y, ?_⟩
    rcases J with ⟨_ | m, _ | k, hJ⟩ <;> simp [add, Mem] at h hx hy ⊢ <;> omega
  case none.some =>
    refine ⟨min (z - y) n, ?_⟩
    rcases J with ⟨_ | m, _ | k, hJ⟩ <;> simp [add, Mem] at h hx hy ⊢ <;> omega
  case some.none =>
    refine ⟨max (z - y) l, ?_⟩
    rcases J with ⟨_ | m, _ | k, hJ⟩ <;> simp [add, Mem] at h hx hy ⊢ <;> omega
  case some.some =>
    refine ⟨max (min (z - y) n) l, ?_⟩
    rcases J with ⟨_ | m, _ | k, hJ⟩ <;> simp [add, Mem] at h hx hy ⊢ <;> omega

theorem mem_scalePos {I : Itv} {x c : Int} (hc : 0 < c) (hx : I.Mem x) :
    (I.scalePos c hc).Mem (c * x) := by
  rcases I with ⟨_ | l, _ | h, hI⟩ <;> simp [scalePos, Mem] at hx ⊢
  · exact Int.mul_le_mul_of_nonneg_left hx hc.le
  · exact Int.mul_le_mul_of_nonneg_left hx hc.le
  · exact ⟨Int.mul_le_mul_of_nonneg_left hx.1 hc.le, Int.mul_le_mul_of_nonneg_left hx.2 hc.le⟩

theorem scalePos_mono {I J : Itv} {c : Int} (hc : 0 < c) (h : I.le J) :
    (I.scalePos c hc).le (J.scalePos c hc) := by
  rcases I with ⟨_ | l, _ | h, hI⟩ <;> rcases J with ⟨_ | m, _ | n, hJ⟩ <;>
    simp [le, scalePos] at h ⊢
  · exact Int.mul_le_mul_of_nonneg_left h hc.le
  · exact Int.mul_le_mul_of_nonneg_left h hc.le
  · exact Int.mul_le_mul_of_nonneg_left h hc.le
  · exact Int.mul_le_mul_of_nonneg_left h hc.le
  · exact ⟨Int.mul_le_mul_of_nonneg_left h.1 hc.le, Int.mul_le_mul_of_nonneg_left h.2 hc.le⟩

theorem mem_neg {I : Itv} {x : Int} (hx : I.Mem x) : I.neg.Mem (-x) := by
  rcases I with ⟨_ | l, _ | h, hI⟩ <;> simp [neg, Mem] at hx ⊢ <;> omega

theorem neg_mono {I J : Itv} (h : I.le J) : I.neg.le J.neg := by
  rcases I with ⟨_ | l, _ | h, hI⟩ <;> rcases J with ⟨_ | m, _ | n, hJ⟩ <;>
    simp [le, neg] at h ⊢ <;> omega

theorem mem_scale {I : Itv} {x : Int} (c : Int) (hx : I.Mem x) : (I.scale c).Mem (c * x) := by
  unfold scale
  split_ifs with h₁ h₂
  · exact mem_scalePos h₁ hx
  · have := mem_neg (mem_scalePos h₂ hx)
    rwa [Int.neg_mul, Int.neg_neg] at this
  · obtain rfl : c = 0 := by omega
    simp

theorem scale_mono {I J : Itv} (c : Int) (h : I.le J) : (I.scale c).le (J.scale c) := by
  unfold scale
  split_ifs with h₁ h₂
  · exact scalePos_mono h₁ h
  · exact neg_mono (scalePos_mono h₂ h)
  · exact le_refl _

@[simp] theorem scale_one (I : Itv) : I.scale 1 = I := by
  rcases I with ⟨_ | l, _ | n, hI⟩ <;> simp [scale, scalePos]

theorem mem_ball {c : Nat} {hc : 0 < c} {x : Int} : (ball c hc).Mem x ↔ -c < x ∧ x < c := by
  simp only [ball, Mem, Option.mem_def, Option.some.injEq, forall_eq']
  omega

theorem tmod_of_le {I : Itv} {c : Nat} {hc : 0 < c} (h : I.le (ball c hc)) : I.tmod c hc = I :=
  if_pos h

theorem tmod_le_ball (I : Itv) {c : Nat} (hc : 0 < c) : (I.tmod c hc).le (ball c hc) := by
  unfold tmod
  split_ifs with h₁ h₂
  · exact h₁
  · refine le_iff.mpr fun x hx => ?_
    simp only [residues, ball, Mem, Option.mem_def, Option.some.injEq, forall_eq'] at hx ⊢
    omega
  · exact le_refl _

theorem mem_tmod {I : Itv} {x : Int} {c : Nat} (hc : 0 < c) (hx : I.Mem x) :
    (I.tmod c hc).Mem (x.tmod c) := by
  obtain ⟨hgt, hlt⟩ := tmod_bounds hc x
  unfold tmod
  split_ifs with h₁ h₂
  · obtain ⟨hlow, hhigh⟩ := mem_ball.mp (le_iff.mp h₁ x hx)
    rwa [tmod_eq_self hlow hhigh]
  · have hmem := le_iff.mp h₂ x hx
    simp only [upFrom, Mem, Option.mem_def, Option.some.injEq, forall_eq'] at hmem
    have := Int.tmod_nonneg (c : Int) hmem.1
    simp only [residues, Mem, Option.mem_def, Option.some.injEq, forall_eq']
    omega
  · exact mem_ball.mpr ⟨hgt, hlt⟩

theorem tmod_mono {I J : Itv} {c : Nat} (hc : 0 < c) (h : I.le J) : (I.tmod c hc).le (J.tmod c hc) := by
  refine le_iff.mpr fun x hx => ?_
  unfold tmod at hx ⊢
  by_cases hJ : J.le (ball c hc)
  · rw [if_pos hJ]
    rw [if_pos (le_trans h hJ)] at hx
    exact le_iff.mp h x hx
  · rw [if_neg hJ]
    by_cases hJ₀ : J.le (upFrom 0)
    · rw [if_pos hJ₀]
      split_ifs at hx with h₁ h₂
      · exact ⟨(le_iff.mp (le_trans h hJ₀) x hx).1, (le_iff.mp h₁ x hx).2⟩
      · exact hx
      · exact absurd (le_trans h hJ₀) h₂
    · rw [if_neg hJ₀]
      split_ifs at hx with h₁ h₂
      · exact le_iff.mp h₁ x hx
      · simp only [ball, residues, Mem, Option.mem_def, Option.some.injEq, forall_eq'] at hx ⊢
        omega
      · exact hx

/-! ### Restrictions -/

theorem mem_atLeast {I J : Itv} {c : Int} (h : I.atLeast c = some J) (x : Int) :
    J.Mem x ↔ I.Mem x ∧ c ≤ x := by
  unfold atLeast at h
  rw [mem_of_mk? h]
  rcases I with ⟨_ | l, _ | n, hI⟩ <;> simp [Mem] <;> omega

theorem atLeast_isSome {I : Itv} {c x : Int} (hx : I.Mem x) (hc : c ≤ x) :
    ∃ J, I.atLeast c = some J ∧ J.Mem x := by
  unfold atLeast
  refine mk?_isSome ?_ hx.2
  rcases I with ⟨_ | l, _ | n, hI⟩ <;> simp [Mem] at hx ⊢ <;> omega

theorem mem_atMost {I J : Itv} {c : Int} (h : I.atMost c = some J) (x : Int) :
    J.Mem x ↔ I.Mem x ∧ x ≤ c := by
  unfold atMost at h
  rw [mem_of_mk? h]
  rcases I with ⟨_ | l, _ | n, hI⟩ <;> simp [Mem]
  omega

theorem atMost_isSome {I : Itv} {c x : Int} (hx : I.Mem x) (hc : x ≤ c) :
    ∃ J, I.atMost c = some J ∧ J.Mem x := by
  unfold atMost
  refine mk?_isSome hx.1 ?_
  rcases I with ⟨_ | l, _ | n, hI⟩ <;> simp [Mem] at hx ⊢ <;> omega

theorem without_isSome {I : Itv} {c x : Int} (hx : I.Mem x) (hc : x ≠ c) :
    I.without c = some I := by
  unfold without
  rw [if_neg]
  rintro rfl
  exact hc (mem_const.mp hx)

theorem eq_const_of_le {I : Itv} {c : Int} (h : I.le (const c)) : I = const c := by
  rcases I with ⟨_ | l, _ | n, hI⟩ <;> simp [le, const] at hI h ⊢
  omega

/-- A restriction of a part of an interval is part of the restriction. -/
theorem restrict_mono {I J I' : Itv} {r : Itv → Option Itv} {P : Int → Prop}
    (hmem : ∀ {I I'}, r I = some I' → ∀ x, I'.Mem x ↔ I.Mem x ∧ P x)
    (hsome : ∀ {I x}, I.Mem x → P x → ∃ I', r I = some I' ∧ I'.Mem x) (h : I.le J)
    (hI : r I = some I') : ∃ J', r J = some J' ∧ I'.le J' := by
  obtain ⟨x, hx⟩ := I'.exists_mem
  obtain ⟨hxI, hxP⟩ := (hmem hI x).mp hx
  obtain ⟨J', hJ', _⟩ := hsome (le_iff.mp h x hxI) hxP
  refine ⟨J', hJ', le_iff.mpr fun y hy => ?_⟩
  obtain ⟨hyI, hyP⟩ := (hmem hI y).mp hy
  exact (hmem hJ' y).mpr ⟨le_iff.mp h y hyI, hyP⟩

theorem atLeast_mono {I J I' : Itv} {c : Int} (h : I.le J) (hI : I.atLeast c = some I') :
    ∃ J', J.atLeast c = some J' ∧ I'.le J' :=
  restrict_mono (fun h => mem_atLeast h) atLeast_isSome h hI

theorem atMost_mono {I J I' : Itv} {c : Int} (h : I.le J) (hI : I.atMost c = some I') :
    ∃ J', J.atMost c = some J' ∧ I'.le J' :=
  restrict_mono (fun h => mem_atMost h) atMost_isSome h hI

theorem without_mono {I J I' : Itv} {c : Int} (h : I.le J) (hI : I.without c = some I') :
    ∃ J', J.without c = some J' ∧ I'.le J' := by
  unfold without at hI ⊢
  by_cases hJ : J = const c
  · rw [if_pos (eq_const_of_le (hJ ▸ h))] at hI
    cases hI
  · rw [if_neg hJ]
    split_ifs at hI
    cases hI
    exact ⟨J, rfl, h⟩

end Itv

end Intervals
