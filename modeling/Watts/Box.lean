import Watts.ApronLaws
import Watts.Library.Intervals

/-! The manager that `-box` selects, as far as the pass uses it: an abstract value bounds each variable
by an interval.  It satisfies the laws assumed of Apron, so the results of this development apply to
it. -/

namespace Watts

open Intervals (Itv)

namespace Box

/-- The bounds of a variable; a variable past the end of the list is unbounded. -/
def get (b : List Itv) (v : Var) : Itv :=
  b.getD v .top

def set (b : List Itv) (v : Var) (I : Itv) : List Itv :=
  (List.range (max b.length (v + 1))).map fun w => if w = v then I else get b w

def leq (a b : List Itv) : Bool :=
  (List.range b.length).all fun v => (get a v).le (get b v)

def join (a b : List Itv) : List Itv :=
  (List.range (min a.length b.length)).map fun v => (get a v).join (get b v)

/-- The bounds of a sum of scaled variables. -/
def terms (b : List Itv) (ts : List (Int × Var)) : Itv :=
  ts.foldr (fun t acc => ((get b t.2).scale t.1).add acc) (.const 0)

def ofInterval : Interval → Option Itv
  | .bottom => none
  | .range inf sup => Itv.mk? inf sup

def texpr (b : List Itv) : TExpr → Itv
  | .add op1 op2 => (get b op1).add (get b op2)
  | .mul cst op => (get b op).scale cst
  | .mod op cst => if h : 0 < cst.natAbs then (get b op).tmod cst.natAbs h else .top

/-- Whether all integers of an interval compare with zero as the constraint type says. -/
def entails (E : Itv) : ConsType → Bool
  | .eq => E.le (.const 0)
  | .supeq => E.le (.upFrom 0)
  | .sup => E.le (.upFrom 1)
  | .diseq => E.le (.upFrom 1) || E.le (.downFrom (-1))

/-- The integers of an interval that exceed `c` as the constraint type says. -/
def restrictUp (I : Itv) (c : Int) : ConsType → Option Itv
  | .eq => I.atLeast c >>= fun J => J.atMost c
  | .supeq => I.atLeast c
  | .sup => I.atLeast (c + 1)
  | .diseq => I.without c

/-- The integers of an interval below `c`, as the constraint type says. -/
def restrictDown (I : Itv) (c : Int) : ConsType → Option Itv
  | .eq => I.atLeast c >>= fun J => J.atMost c
  | .supeq => I.atMost c
  | .sup => I.atMost (c - 1)
  | .diseq => I.without c

/-- Restrict the variable of a constraint with one variable. -/
def meetLincons (b : List Itv) (c : LinCons) : Option (List Itv) :=
  match c.terms with
  | [(k, v)] =>
    if k = 1 then (restrictUp (get b v) (-c.cst) c.ty).map (set b v)
    else if k = -1 then (restrictDown (get b v) c.cst c.ty).map (set b v)
    else some b
  | _ => some b

/-! ### What the operations do to the bounds -/

theorem get_map_range (n : Nat) (f : Var → Itv) (v : Nat) :
    get ((List.range n).map f) v = if v < n then f v else .top := by
  unfold get
  rw [List.getD_eq_getElem?_getD, List.getElem?_map]
  by_cases h : v < n
  · rw [List.getElem?_range h, if_pos h]
    rfl
  · rw [List.getElem?_eq_none (by simpa using h), if_neg h]
    rfl

theorem get_of_length_le {b : List Itv} {v : Nat} (h : b.length ≤ v) : get b v = .top := by
  unfold get
  rw [List.getD_eq_getElem?_getD, List.getElem?_eq_none h]
  rfl

theorem get_set (b : List Itv) (v w : Nat) (I : Itv) :
    get (set b v I) w = if w = v then I else get b w := by
  unfold set
  rw [get_map_range]
  by_cases hw : w < max b.length (v + 1)
  · rw [if_pos hw]
  · rw [if_neg hw, if_neg (by omega), get_of_length_le (by omega)]

theorem leq_iff {a b : List Itv} : leq a b ↔ ∀ v : Nat, (get a v).le (get b v) := by
  unfold leq
  rw [List.all_eq_true]
  constructor
  · intro h v
    by_cases hv : v < b.length
    · exact h v (List.mem_range.mpr hv)
    · rw [get_of_length_le (b := b) (by omega)]
      exact Itv.le_top _
  · exact fun h v _ => h v

theorem le_get_join (a b : List Itv) (v : Var) :
    ((get a v).join (get b v)).le (get (join a b) v) := by
  unfold join
  rw [get_map_range]
  split_ifs
  · exact Itv.le_refl _
  · exact Itv.le_top _

theorem get_join_le {a b : List Itv} {v : Nat} {K : Itv} (ha : (get a v).le K) (hb : (get b v).le K) :
    (get (join a b) v).le K := by
  unfold join
  rw [get_map_range]
  by_cases hv : v < min a.length b.length
  · rw [if_pos hv]
    exact Itv.join_least ha hb
  · rw [if_neg hv]
    rcases min_le_iff.mp (Nat.not_lt.mp hv) with h | h
    · rwa [get_of_length_le h] at ha
    · rwa [get_of_length_le h] at hb

/-- The states of a box. -/
def Mem (σ : Var → Int) (b : List Itv) : Prop :=
  ∀ v, (get b v).Mem (σ v)

theorem exists_mem (b : List Itv) : ∃ σ, Mem σ b :=
  ⟨fun v => ((get b v).exists_mem).choose, fun v => ((get b v).exists_mem).choose_spec⟩

theorem mem_terms {b : List Itv} {σ : Var → Int} (h : Mem σ b) (ts : List (Int × Var)) :
    (terms b ts).Mem (ts.map fun t => t.1 * σ t.2).sum := by
  induction ts with
  | nil => simp [terms]
  | cons t ts ih =>
      rw [List.map_cons, List.sum_cons]
      exact Itv.mem_add (Itv.mem_scale t.1 (h t.2)) ih

theorem terms_mono {a b : List Itv} (h : leq a b) (ts : List (Int × Var)) :
    (terms a ts).le (terms b ts) := by
  induction ts with
  | nil => exact Itv.le_refl _
  | cons t ts ih => exact Itv.add_mono (Itv.scale_mono t.1 (leq_iff.mp h t.2)) ih

theorem set_mono {a b : List Itv} (h : leq a b) (v : Var) {I J : Itv} (hIJ : I.le J) :
    leq (set a v I) (set b v J) := by
  refine leq_iff.mpr fun w => ?_
  rw [get_set, get_set]
  split_ifs
  · exact hIJ
  · exact leq_iff.mp h w

theorem texpr_mono {a b : List Itv} (h : leq a b) (e : TExpr) : (texpr a e).le (texpr b e) := by
  have hget := leq_iff.mp h
  cases e with
  | add op1 op2 => exact Itv.add_mono (hget op1) (hget op2)
  | mul cst op => exact Itv.scale_mono cst (hget op)
  | mod op cst =>
      simp only [texpr]
      split_ifs with hc
      · exact Itv.tmod_mono hc (hget op)
      · exact Itv.le_refl _

theorem ofInterval_mem {I : Interval} {J : Itv} (h : ofInterval I = some J) (x : Int) :
    J.Mem x ↔ I.Mem x := by
  cases I with
  | bottom => cases h
  | range inf sup => exact Itv.mem_of_mk? h x

theorem ofInterval_isSome {I : Interval} {x : Int} (h : I.Mem x) :
    ∃ J, ofInterval I = some J ∧ J.Mem x := by
  cases I with
  | bottom => exact absurd h id
  | range inf sup => exact Itv.mk?_isSome h.1 h.2

theorem ofInterval_mono {I J : Interval} (h : I.Sub J) {I' : Itv} (hI : ofInterval I = some I') :
    ∃ J', ofInterval J = some J' ∧ I'.le J' := by
  obtain ⟨x, hx⟩ := I'.exists_mem
  obtain ⟨J', hJ', _⟩ := ofInterval_isSome (h x ((ofInterval_mem hI x).mp hx))
  refine ⟨J', hJ', Itv.le_iff.mpr fun y hy => ?_⟩
  exact (ofInterval_mem hJ' y).mpr (h y ((ofInterval_mem hI y).mp hy))

theorem entails_mono {E E' : Itv} (h : E.le E') {ty : ConsType} (he : entails E' ty) :
    entails E ty := by
  cases ty with
  | eq => exact Itv.le_trans h he
  | supeq => exact Itv.le_trans h he
  | sup => exact Itv.le_trans h he
  | diseq =>
      simp only [entails, Bool.or_eq_true] at he ⊢
      exact he.imp (Itv.le_trans h) (Itv.le_trans h)

/-- An entailed constraint holds in every state of the box. -/
theorem holds_of_entails {b : List Itv} {σ : Var → Int} (h : Mem σ b) {c : LinCons}
    (he : entails ((terms b c.terms).add (.const c.cst)) c.ty) : c.Holds σ := by
  have hmem := Itv.mem_add (mem_terms h c.terms) (Itv.mem_const.mpr (rfl : c.cst = c.cst))
  unfold LinCons.Holds
  unfold entails at he
  cases hty : c.ty with
  | eq =>
      rw [hty] at he
      exact Itv.mem_const.mp (Itv.le_iff.mp he _ hmem)
  | supeq =>
      rw [hty] at he
      exact (Itv.le_iff.mp he _ hmem).1 0 rfl
  | sup =>
      rw [hty] at he
      have := (Itv.le_iff.mp he _ hmem).1 1 rfl
      dsimp only
      omega
  | diseq =>
      rw [hty] at he
      dsimp only
      rcases Bool.or_eq_true_iff.mp he with he | he
      · have := (Itv.le_iff.mp he _ hmem).1 1 rfl
        omega
      · have := (Itv.le_iff.mp he _ hmem).2 (-1) rfl
        omega

theorem restrictUp_mono {I J I' : Itv} (h : I.le J) (c : Int) (ty : ConsType)
    (hI : restrictUp I c ty = some I') : ∃ J', restrictUp J c ty = some J' ∧ I'.le J' := by
  cases ty with
  | eq =>
      obtain ⟨K, hK, hI⟩ := Option.bind_eq_some_iff.mp hI
      obtain ⟨K', hK', hle⟩ := Itv.atLeast_mono h hK
      obtain ⟨J', hJ', hle'⟩ := Itv.atMost_mono hle hI
      exact ⟨J', Option.bind_eq_some_iff.mpr ⟨K', hK', hJ'⟩, hle'⟩
  | supeq => exact Itv.atLeast_mono h hI
  | sup => exact Itv.atLeast_mono h hI
  | diseq => exact Itv.without_mono h hI

theorem restrictDown_mono {I J I' : Itv} (h : I.le J) (c : Int) (ty : ConsType)
    (hI : restrictDown I c ty = some I') : ∃ J', restrictDown J c ty = some J' ∧ I'.le J' := by
  cases ty with
  | eq => exact restrictUp_mono h c .eq hI
  | supeq => exact Itv.atMost_mono h hI
  | sup => exact Itv.atMost_mono h hI
  | diseq => exact Itv.without_mono h hI

theorem meetLincons_mono {a b a' : List Itv} (h : leq a b) (c : LinCons)
    (ha : meetLincons a c = some a') : ∃ b', meetLincons b c = some b' ∧ leq a' b' := by
  obtain ⟨ty, ts, cst⟩ := c
  unfold meetLincons at ha ⊢
  split at ha
  · next k v hts =>
      simp only at hts
      subst hts
      dsimp only at ha ⊢
      by_cases h₁ : k = 1
      · rw [if_pos h₁] at ha ⊢
        obtain ⟨I', hI', rfl⟩ := Option.map_eq_some_iff.mp ha
        obtain ⟨J', hJ', hle⟩ := restrictUp_mono (leq_iff.mp h v) _ _ hI'
        exact ⟨_, Option.map_eq_some_iff.mpr ⟨J', hJ', rfl⟩, set_mono h v hle⟩
      · rw [if_neg h₁] at ha ⊢
        by_cases h₂ : k = -1
        · rw [if_pos h₂] at ha ⊢
          obtain ⟨I', hI', rfl⟩ := Option.map_eq_some_iff.mp ha
          obtain ⟨J', hJ', hle⟩ := restrictDown_mono (leq_iff.mp h v) _ _ hI'
          exact ⟨_, Option.map_eq_some_iff.mpr ⟨J', hJ', rfl⟩, set_mono h v hle⟩
        · rw [if_neg h₂] at ha ⊢
          cases ha
          exact ⟨b, rfl, h⟩
  · next hts =>
      cases ha
      exact ⟨b, rfl, h⟩

end Box

/-- The manager of the boxes; `none` is bottom. -/
def boxes : Apron where
  Abstract1 := Option (List Itv)
  bottom := none
  top := some []
  isLeq a b := match a, b with
    | none, _ => true
    | some _, none => false
    | some a, some b => Box.leq a b
  isEq a b := match a, b with
    | none, none => true
    | some a, some b => Box.leq a b && Box.leq b a
    | _, _ => false
  isBottom a := a.isNone
  join a b := match a, b with
    | none, b => b
    | a, none => a
    | some a, some b => some (Box.join a b)
  assignLinexpr a v e := a >>= fun b =>
    (Box.ofInterval e.cst).map fun I => Box.set b v ((Box.terms b e.terms).add I)
  assignTexpr a v e := a.map fun b => Box.set b v (Box.texpr b e)
  boundVariable a v := match a with
    | none => .bottom
    | some b => .range (Box.get b v).inf (Box.get b v).sup
  satLincons a c := match a with
    | none => true
    | some b => Box.entails ((Box.terms b c.terms).add (.const c.cst)) c.ty
  meetLincons a c := a >>= fun b => Box.meetLincons b c

namespace Box

/-- Inclusion of boxes, when the smaller one is not bottom. -/
theorem isLeq_some {a : List Itv} {y : boxes.Abstract1} :
    boxes.isLeq (some a) y ↔ ∃ b, y = some b ∧ leq a b := by
  cases y with
  | none => simp [boxes]
  | some b => simp [boxes]

theorem isLeq_bottom {x : boxes.Abstract1} : boxes.isLeq x boxes.bottom ↔ x = none := by
  cases x with
  | none => simp [boxes]
  | some a => simp [boxes]

/-- An inclusion is proved for the smaller boxes that are not bottom. -/
theorem isLeq_of {x y : boxes.Abstract1} (h : ∀ a, x = some a → ∃ b, y = some b ∧ leq a b) :
    boxes.isLeq x y := by
  cases x with
  | none => rfl
  | some a => exact isLeq_some.mpr (h a rfl)

theorem lattice : boxes.Lattice where
  leq_refl x := isLeq_of fun a ha => ⟨a, ha, leq_iff.mpr fun _ => Itv.le_refl _⟩
  leq_trans {x y z} h₁ h₂ := by
    refine isLeq_of fun a ha => ?_
    subst ha
    obtain ⟨b, rfl, hab⟩ := isLeq_some.mp h₁
    obtain ⟨c, rfl, hbc⟩ := isLeq_some.mp h₂
    exact ⟨c, rfl, leq_iff.mpr fun v => Itv.le_trans (leq_iff.mp hab v) (leq_iff.mp hbc v)⟩
  bottom_leq x := rfl
  join_left x y := by
    refine isLeq_of fun a ha => ?_
    subst ha
    cases y with
    | none => exact ⟨a, rfl, leq_iff.mpr fun _ => Itv.le_refl _⟩
    | some b => exact ⟨_, rfl, leq_iff.mpr fun v =>
        Itv.le_trans (Itv.join_left _ _) (le_get_join a b v)⟩
  join_right x y := by
    refine isLeq_of fun b hb => ?_
    subst hb
    cases x with
    | none => exact ⟨b, rfl, leq_iff.mpr fun _ => Itv.le_refl _⟩
    | some a => exact ⟨_, rfl, leq_iff.mpr fun v =>
        Itv.le_trans (Itv.join_right _ _) (le_get_join a b v)⟩
  join_least {x y z} h₁ h₂ := by
    cases x with
    | none => exact h₂
    | some a =>
        cases y with
        | none => exact h₁
        | some b =>
            obtain ⟨c, rfl, hac⟩ := isLeq_some.mp h₁
            obtain ⟨c', hc', hbc⟩ := isLeq_some.mp h₂
            cases hc'
            exact isLeq_some.mpr ⟨c, rfl, leq_iff.mpr fun v =>
              get_join_le (leq_iff.mp hac v) (leq_iff.mp hbc v)⟩
  isEq_iff x y := by
    cases x <;> cases y <;> simp [boxes]

theorem strict : boxes.Strict where
  assignLinexpr v e h := by
    rw [isLeq_bottom.mp h]
    rfl
  assignTexpr v e h := by
    rw [isLeq_bottom.mp h]
    rfl
  meetLincons c h := by
    rw [isLeq_bottom.mp h]
    rfl

theorem monotone : boxes.Monotone where
  assignLinexpr {x y} v ts I J h hIJ := by
    refine isLeq_of fun a ha => ?_
    obtain ⟨b, rfl, ha⟩ := Option.bind_eq_some_iff.mp ha
    obtain ⟨I', hI', rfl⟩ := Option.map_eq_some_iff.mp ha
    obtain ⟨b', rfl, hle⟩ := isLeq_some.mp h
    obtain ⟨J', hJ', hle'⟩ := ofInterval_mono hIJ hI'
    have hset : boxes.assignLinexpr (some b') v ⟨ts, J⟩ = some (set b' v ((terms b' ts).add J')) := by
      simp [boxes, hJ']
    exact ⟨_, hset, set_mono hle v (Itv.add_mono (terms_mono hle ts) hle')⟩
  assignTexpr {x y} v e h := by
    refine isLeq_of fun a ha => ?_
    obtain ⟨b, rfl, rfl⟩ := Option.map_eq_some_iff.mp ha
    obtain ⟨b', rfl, hle⟩ := isLeq_some.mp h
    exact ⟨_, rfl, set_mono hle v (texpr_mono hle e)⟩
  meetLincons {x y} c h := by
    refine isLeq_of fun a ha => ?_
    obtain ⟨b, rfl, ha⟩ := Option.bind_eq_some_iff.mp ha
    obtain ⟨b', rfl, hle⟩ := isLeq_some.mp h
    obtain ⟨a', ha', hle'⟩ := meetLincons_mono hle c ha
    exact ⟨a', ha', hle'⟩
  boundVariable {x y} v h z hz := by
    cases x with
    | none => exact absurd hz id
    | some a =>
        obtain ⟨b, rfl, hle⟩ := isLeq_some.mp h
        exact Itv.le_iff.mp (leq_iff.mp hle v) z hz
  satLincons {x y} c h hs := by
    cases x with
    | none => rfl
    | some a =>
        obtain ⟨b, rfl, hle⟩ := isLeq_some.mp h
        exact entails_mono (Itv.add_mono (terms_mono hle c.terms) (Itv.le_refl _)) hs
  contradiction {x} c c' hcc h h' := by
    cases x with
    | none => rfl
    | some a =>
        obtain ⟨σ, hσ⟩ := exists_mem a
        exact absurd (holds_of_entails hσ h') (hcc σ (holds_of_entails hσ h))

end Box

end Watts
