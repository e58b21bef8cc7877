import Watts.StateSets

/-! A relational manager: boxes that also bound the differences of variables.  An assignment of a sum keeps
the difference of the target and each other summand inside the bounds of the rest, as octagons do. -/

namespace Watts

open Intervals (Itv)

/-- The difference of two variables is inside an interval. -/
structure Diff where
  fst : Var
  snd : Var
  range : Itv
deriving DecidableEq

/-- A box with bounds of differences. -/
structure Zone where
  box : List Itv
  diffs : List Diff

/-- An interval with the bounds of a variable in it is not empty, and its bounds are not tighter. -/
theorem Box.exists_ofInterval {b : List Itv} {v : Var} {I : Interval}
    (h : (Interval.range (get b v).inf (get b v).sup).Sub I) :
    ∃ J, ofInterval I = some J ∧ (get b v).le ((Itv.const 0).add J) := by
  obtain ⟨z, hz⟩ := (get b v).exists_mem
  obtain ⟨J, hJ, _⟩ := ofInterval_isSome (h z hz)
  refine ⟨J, hJ, ?_⟩
  rw [Itv.zero_add]
  exact Itv.le_iff.mpr fun y hy => (ofInterval_mem hJ y).mpr (h y hy)

namespace Zone

/-- A listed difference has tighter bounds. -/
def entails (ds : List Diff) (d : Diff) : Bool :=
  ds.any fun d' => d'.fst = d.fst && d'.snd = d.snd && d'.range.le d.range

def leq (a b : Zone) : Bool :=
  Box.leq a.box b.box && b.diffs.all (entails a.diffs)

def join (a b : Zone) : Zone :=
  ⟨Box.join a.box b.box, a.diffs.filter (entails b.diffs) ++ b.diffs.filter (entails a.diffs)⟩

/-- The differences without a variable. -/
def forget (v : Var) (ds : List Diff) : List Diff :=
  ds.filter fun d => d.fst ≠ v && d.snd ≠ v

/-- Assign to a variable bounds and bounds of its differences with others. -/
def assign (a : Zone) (v : Var) (I : Itv) (rel : List (Var × Itv)) : Zone :=
  ⟨Box.set a.box v I, (rel.filter (·.1 ≠ v)).map (fun r => ⟨v, r.1, r.2⟩) ++ forget v a.diffs⟩

/-- A variable and a constant: the difference is the constant. -/
def ofLinear (ts : List (Int × Var)) (I : Itv) : List (Var × Itv) :=
  match ts with
  | [(k, w)] => if k = 1 then [(w, I)] else []
  | _ => []

/-- A sum of two variables: the difference with each is inside the bounds of the other. -/
def ofTree (b : List Itv) : TExpr → List (Var × Itv)
  | .add op1 op2 => [(op1, Box.get b op2), (op2, Box.get b op1)]
  | _ => []

end Zone

/-- The manager of the boxes with differences; `none` is bottom. -/
def differences : Apron where
  Abstract1 := Option Zone
  bottom := none
  top := some ⟨[], []⟩
  isLeq a b := match a, b with
    | none, _ => true
    | some _, none => false
    | some a, some b => a.leq b
  isEq a b := match a, b with
    | none, none => true
    | some a, some b => a.leq b && b.leq a
    | _, _ => false
  isBottom a := a.isNone
  join a b := match a, b with
    | none, b => b
    | a, none => a
    | some a, some b => some (a.join b)
  assignLinexpr a v e := a >>= fun a =>
    (Box.ofInterval e.cst).map fun I =>
      a.assign v ((Box.terms a.box e.terms).add I) (Zone.ofLinear e.terms I)
  assignTexpr a v e := a.map fun a => a.assign v (Box.texpr a.box e) (Zone.ofTree a.box e)
  boundVariable a v := match a with
    | none => .bottom
    | some a => .range (Box.get a.box v).inf (Box.get a.box v).sup
  satLincons a c := match a with
    | none => true
    | some a => Box.entails ((Box.terms a.box c.terms).add (.const c.cst)) c.ty
  meetLincons a c := a >>= fun a => (Box.meetLincons a.box c).map fun b => ⟨b, a.diffs⟩

namespace Zone

variable {a b c : Zone} {ds ds' : List Diff} {d : Diff} {v : Var} {I J : Itv}

theorem entails_iff :
    entails ds d ↔ ∃ d' ∈ ds, d'.fst = d.fst ∧ d'.snd = d.snd ∧ d'.range.le d.range := by
  unfold entails
  rw [List.any_eq_true]
  simp only [Bool.and_eq_true, decide_eq_true_eq, and_assoc]

theorem entails_of_mem (h : d ∈ ds) : entails ds d :=
  entails_iff.mpr ⟨d, h, rfl, rfl, Itv.le_refl _⟩

theorem entails_trans (h : ∀ e ∈ ds', entails ds e) (hd : entails ds' d) : entails ds d := by
  obtain ⟨e, he, h₁, h₂, hle⟩ := entails_iff.mp hd
  obtain ⟨e', he', h₁', h₂', hle'⟩ := entails_iff.mp (h e he)
  exact entails_iff.mpr ⟨e', he', h₁'.trans h₁, h₂'.trans h₂, Itv.le_trans hle' hle⟩

theorem leq_iff : a.leq b ↔ Box.leq a.box b.box ∧ ∀ d ∈ b.diffs, entails a.diffs d := by
  unfold leq
  rw [Bool.and_eq_true, List.all_eq_true]

theorem leq_refl (a : Zone) : a.leq a :=
  leq_iff.mpr ⟨Box.leq_iff.mpr fun _ => Itv.le_refl _, fun _ hd => entails_of_mem hd⟩

theorem leq_trans (h₁ : a.leq b) (h₂ : b.leq c) : a.leq c := by
  obtain ⟨hbox₁, hdiffs₁⟩ := leq_iff.mp h₁
  obtain ⟨hbox₂, hdiffs₂⟩ := leq_iff.mp h₂
  refine leq_iff.mpr ⟨Box.leq_iff.mpr fun v => ?_, fun d hd => entails_trans hdiffs₁ (hdiffs₂ d hd)⟩
  exact Itv.le_trans (Box.leq_iff.mp hbox₁ v) (Box.leq_iff.mp hbox₂ v)

theorem join_left (a b : Zone) : a.leq (a.join b) := by
  refine leq_iff.mpr ⟨Box.leq_iff.mpr fun v => Itv.le_trans (Itv.join_left _ _) (Box.le_get_join _ _ v),
    fun d hd => ?_⟩
  rcases List.mem_append.mp hd with hd | hd
  · exact entails_of_mem (List.mem_filter.mp hd).1
  · exact (List.mem_filter.mp hd).2

theorem join_right (a b : Zone) : b.leq (a.join b) := by
  refine leq_iff.mpr ⟨Box.leq_iff.mpr fun v => Itv.le_trans (Itv.join_right _ _) (Box.le_get_join _ _ v),
    fun d hd => ?_⟩
  rcases List.mem_append.mp hd with hd | hd
  · exact (List.mem_filter.mp hd).2
  · exact entails_of_mem (List.mem_filter.mp hd).1

theorem mem_forget : d ∈ forget v ds ↔ d ∈ ds ∧ d.fst ≠ v ∧ d.snd ≠ v := by
  unfold forget
  rw [List.mem_filter, Bool.and_eq_true, decide_eq_true_eq, decide_eq_true_eq]

theorem mem_assign {rel : List (Var × Itv)} :
    d ∈ (a.assign v I rel).diffs ↔ (∃ r ∈ rel, r.1 ≠ v ∧ d = ⟨v, r.1, r.2⟩) ∨ d ∈ forget v a.diffs := by
  unfold assign
  rw [List.mem_append, List.mem_map]
  simp only [List.mem_filter, decide_eq_true_eq, and_assoc, eq_comm (b := d)]

/-- Assignments of larger bounds to a larger value. -/
theorem assign_mono (h : a.leq b) (v : Var) (hIJ : I.le J) {rel rel' : List (Var × Itv)}
    (hrel : ∀ r ∈ rel', ∃ r' ∈ rel, r'.1 = r.1 ∧ r'.2.le r.2) : (a.assign v I rel).leq (b.assign v J rel') := by
  obtain ⟨hbox, hdiffs⟩ := leq_iff.mp h
  refine leq_iff.mpr ⟨Box.set_mono hbox v hIJ, fun d hd => ?_⟩
  rcases mem_assign.mp hd with ⟨r, hr, hne, rfl⟩ | hd
  · obtain ⟨r', hr', heq, hle⟩ := hrel r hr
    exact entails_iff.mpr ⟨⟨v, r'.1, r'.2⟩, mem_assign.mpr (.inl ⟨r', hr', heq ▸ hne, rfl⟩), rfl, heq, hle⟩
  · obtain ⟨hd, h₁, h₂⟩ := mem_forget.mp hd
    obtain ⟨e, he, he₁, he₂, hle⟩ := entails_iff.mp (hdiffs d hd)
    exact entails_iff.mpr ⟨e, mem_assign.mpr (.inr (mem_forget.mpr ⟨he, he₁ ▸ h₁, he₂ ▸ h₂⟩)), he₁, he₂, hle⟩

/-- Forgetting a variable and giving it larger bounds. -/
theorem le_assign (h : (Box.get a.box v).le I) : a.leq (a.assign v I []) := by
  refine leq_iff.mpr ⟨Box.leq_iff.mpr fun w => ?_, fun d hd => ?_⟩
  · rw [assign, Box.get_set]
    split_ifs with hw
    · rwa [hw]
    · exact Itv.le_refl _
  · rcases mem_assign.mp hd with ⟨r, hr, _⟩ | hd
    · cases hr
    · exact entails_of_mem (mem_forget.mp hd).1

theorem ofLinear_mono (ts : List (Int × Var)) (h : I.le J) :
    ∀ r ∈ ofLinear ts J, ∃ r' ∈ ofLinear ts I, r'.1 = r.1 ∧ r'.2.le r.2 := by
  intro r hr
  unfold ofLinear at hr ⊢
  cases ts with
  | nil => cases hr
  | cons t ts =>
      cases ts with
      | cons _ _ => cases hr
      | nil =>
          dsimp only at hr ⊢
          split_ifs at hr ⊢
          · rw [List.mem_singleton.mp hr]
            exact ⟨_, .head _, rfl, h⟩
          · cases hr

theorem ofTree_mono {b b' : List Itv} (h : Box.leq b b') (e : TExpr) :
    ∀ r ∈ ofTree b' e, ∃ r' ∈ ofTree b e, r'.1 = r.1 ∧ r'.2.le r.2 := by
  intro r hr
  cases e with
  | add op1 op2 =>
      rcases List.mem_pair.mp hr with rfl | rfl
      · exact ⟨_, .head _, rfl, Box.leq_iff.mp h op2⟩
      · exact ⟨_, .tail _ (.head _), rfl, Box.leq_iff.mp h op1⟩
  | _ => cases hr

/-- Inclusion, when the smaller value is not bottom. -/
theorem isLeq_some {a : Zone} {y : differences.Abstract1} :
    differences.isLeq (some a) y ↔ ∃ b, y = some b ∧ a.leq b := by
  cases y with
  | none => simp [differences]
  | some b => simp [differences]

theorem isLeq_of {x y : differences.Abstract1} (h : ∀ a, x = some a → ∃ b, y = some b ∧ a.leq b) :
    differences.isLeq x y := by
  cases x with
  | none => rfl
  | some a => exact isLeq_some.mpr (h a rfl)

theorem overApproximates : differences.OverApproximates where
  leq_refl x := isLeq_of fun a ha => ⟨a, ha, leq_refl a⟩
  leq_trans {x y z} h₁ h₂ := by
    refine isLeq_of fun a ha => ?_
    subst ha
    obtain ⟨b, rfl, hab⟩ := isLeq_some.mp h₁
    obtain ⟨c, rfl, hbc⟩ := isLeq_some.mp h₂
    exact ⟨c, rfl, leq_trans hab hbc⟩
  join_left x y := by
    refine isLeq_of fun a ha => ?_
    subst ha
    cases y with
    | none => exact ⟨a, rfl, leq_refl a⟩
    | some b => exact ⟨_, rfl, join_left a b⟩
  join_right x y := by
    refine isLeq_of fun b hb => ?_
    subst hb
    cases x with
    | none => exact ⟨b, rfl, leq_refl b⟩
    | some a => exact ⟨_, rfl, join_right a b⟩
  boundVariable {x y} v h z hz := by
    cases x with
    | none => exact absurd hz id
    | some a =>
        obtain ⟨b, rfl, hle⟩ := isLeq_some.mp h
        exact Itv.le_iff.mp (Box.leq_iff.mp (leq_iff.mp hle).1 v) z hz
  assignLinexpr {x y} v ts I J h hIJ := by
    refine isLeq_of fun a ha => ?_
    obtain ⟨a', rfl, ha⟩ := Option.bind_eq_some_iff.mp ha
    obtain ⟨I', hI', rfl⟩ := Option.map_eq_some_iff.mp ha
    obtain ⟨b', rfl, hle⟩ := isLeq_some.mp h
    obtain ⟨J', hJ', hle'⟩ := Box.ofInterval_mono hIJ hI'
    have hset : differences.assignLinexpr (some b') v ⟨ts, J⟩ =
        some (b'.assign v ((Box.terms b'.box ts).add J') (ofLinear ts J')) := by
      simp [differences, hJ']
    refine ⟨_, hset, assign_mono hle v ?_ (ofLinear_mono ts hle')⟩
    exact Itv.add_mono (Box.terms_mono (leq_iff.mp hle).1 ts) hle'
  assignTexpr {x y} v e h := by
    refine isLeq_of fun a ha => ?_
    obtain ⟨a', rfl, rfl⟩ := Option.map_eq_some_iff.mp ha
    obtain ⟨b', rfl, hle⟩ := isLeq_some.mp h
    have hbox := (leq_iff.mp hle).1
    exact ⟨_, rfl, assign_mono hle v (Box.texpr_mono hbox e) (ofTree_mono hbox e)⟩
  assignInterval {x} v I h := by
    refine isLeq_of fun a ha => ?_
    subst ha
    obtain ⟨J, hJ, hle⟩ := Box.exists_ofInterval h
    have hset : differences.assignLinexpr (some a) v ⟨[], I⟩ =
        some (a.assign v ((Itv.const 0).add J) []) := by
      simp [differences, hJ, Box.terms, ofLinear]
    exact ⟨_, hset, le_assign hle⟩

/-! ### States -/

/-- The states of a box that keep the differences in their bounds. -/
def states : differences.Abstract1 → Set (Var → Int)
  | none => ∅
  | some a => {τ | Box.Mem τ a.box ∧ ∀ d ∈ a.diffs, d.range.Mem (τ d.fst - τ d.snd)}

theorem mem_states {x : differences.Abstract1} {τ : Var → Int} : τ ∈ states x ↔
    ∃ a : Zone, x = some a ∧ Box.Mem τ a.box ∧ ∀ d ∈ a.diffs, d.range.Mem (τ d.fst - τ d.snd) := by
  cases x with
  | none => simp [states]
  | some a =>
      constructor
      · exact fun h => ⟨a, rfl, h⟩
      · rintro ⟨a', ha', h⟩
        cases ha'
        exact h

theorem states_mono {x y : differences.Abstract1} (h : differences.isLeq x y) : states x ⊆ states y := by
  intro τ hτ
  obtain ⟨a, rfl, hbox, hdiffs⟩ := mem_states.mp hτ
  obtain ⟨b, rfl, hle⟩ := isLeq_some.mp h
  obtain ⟨hle₁, hle₂⟩ := leq_iff.mp hle
  refine mem_states.mpr ⟨b, rfl, Box.mem_of_leq hle₁ hbox, fun d hd => ?_⟩
  obtain ⟨e, he, h₁, h₂, hrange⟩ := entails_iff.mp (hle₂ d hd)
  rw [← h₁, ← h₂]
  exact Itv.le_iff.mp hrange _ (hdiffs e he)

/-- An assignment of a value in the bounds, whose differences are in their bounds. -/
theorem mem_states_assign {τ : Var → Int} (hbox : Box.Mem τ a.box)
    (hdiffs : ∀ d ∈ a.diffs, d.range.Mem (τ d.fst - τ d.snd)) (v : Var) {x : Int} (hx : I.Mem x)
    {rel : List (Var × Itv)} (hrel : ∀ r ∈ rel, r.2.Mem (x - τ r.1)) :
    Function.update τ v x ∈ states (some (a.assign v I rel)) := by
  refine ⟨Box.mem_set hbox v hx, fun d hd => ?_⟩
  rcases mem_assign.mp hd with ⟨r, hr, hne, rfl⟩ | hd
  · rw [Function.update_self, Function.update_of_ne hne]
    exact hrel r hr
  · obtain ⟨hd, h₁, h₂⟩ := mem_forget.mp hd
    rw [Function.update_of_ne h₁, Function.update_of_ne h₂]
    exact hdiffs d hd

theorem sound : differences.Sound states where
  assignLinexpr {x τ} v {e z} hτ hz := by
    obtain ⟨a, rfl, hbox, hdiffs⟩ := mem_states.mp hτ
    obtain ⟨k, hk, rfl⟩ := hz
    obtain ⟨I, hI, hmem⟩ := Box.ofInterval_isSome hk
    have hset : differences.assignLinexpr (some a) v e =
        some (a.assign v ((Box.terms a.box e.terms).add I) (ofLinear e.terms I)) := by
      simp [differences, hI]
    rw [hset]
    refine mem_states_assign hbox hdiffs v (Itv.mem_add (Box.mem_terms hbox e.terms) hmem) fun r hr => ?_
    obtain ⟨ts, cst⟩ := e
    unfold ofLinear at hr
    cases ts with
    | nil => cases hr
    | cons t ts =>
        cases ts with
        | cons _ _ => cases hr
        | nil =>
            dsimp only at hr
            split_ifs at hr with ht
            · rw [List.mem_singleton.mp hr]
              simp only [List.map_cons, List.map_nil, List.sum_cons, List.sum_nil, ht]
              rwa [Int.one_mul, Int.add_zero, add_sub_cancel_left]
            · cases hr
  assignTexpr {x τ} v e hτ := by
    obtain ⟨a, rfl, hbox, hdiffs⟩ := mem_states.mp hτ
    refine mem_states_assign hbox hdiffs v (Box.mem_texpr hbox e) fun r hr => ?_
    cases e with
    | add op1 op2 =>
        rcases List.mem_pair.mp hr with rfl | rfl
        · rw [TExpr.eval, add_sub_cancel_left]
          exact hbox op2
        · rw [TExpr.eval, Int.add_sub_cancel]
          exact hbox op1
    | _ => cases hr
  joinLeft x y := states_mono (overApproximates.join_left x y)
  joinRight x y := states_mono (overApproximates.join_right x y)
  satLincons {x c τ} hs hτ := by
    obtain ⟨a, rfl, hbox, _⟩ := mem_states.mp hτ
    exact Box.holds_of_entails hbox hs
  meetLincons {x c τ} hτ hc := by
    obtain ⟨a, rfl, hbox, hdiffs⟩ := mem_states.mp hτ
    obtain ⟨b, hb, hmem⟩ := Box.meetLincons_sound hbox hc
    exact mem_states.mpr ⟨⟨b, a.diffs⟩, by simp [differences, hb], hmem, hdiffs⟩

end Zone

end Watts
