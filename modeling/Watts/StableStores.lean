import Watts.BoxSound
import Watts.Interferences

/-! What the test that ends the outer loop decides.  It looks for a fact that is definitely larger than
the old one, and a fact that is incomparable with the old one is not. -/

namespace Watts

variable {ap : Apron}

/-- No store belongs to two functions. -/
def ReachStores.Unique (rs : ReachStores ap) : Prop :=
  ∀ (s : Value) (g g' : FuncId) (st st' : StoreFacts ap), rs[g]? = some st → rs[g']? = some st' →
    s ∈ st → s ∈ st' → g = g'

/-- Every store of the second map is one of the first, with a fact that contains the new one. -/
def Contained (oldI newI : ReachStores ap) : Prop :=
  ∀ s newF, newI.Holds s newF → ∃ oldF, oldI.Holds s oldF ∧ newF.leq oldF

/-- A store that keeps the outer loop going: it is reached for the first time, or its new fact is
definitely larger. -/
def Grown (oldI newI : ReachStores ap) (s : Value) (newF : LatticeFact ap) : Prop :=
  newI.Holds s newF ∧ ∀ oldF, oldI.Holds s oldF → ¬ NotLarger newF oldF

/-- The two facts of every store in both maps are comparable. -/
def AllComparable (oldI newI : ReachStores ap) : Prop :=
  ∀ s oldF newF, oldI.Holds s oldF → newI.Holds s newF → newF.areValsLEq oldF ∨ newF.areValsGEq oldF

/-- The facts of all stores, with their functions forgotten. -/
def ReachStores.entries (rs : ReachStores ap) : List (Value × LatticeFact ap) :=
  rs.toList.flatMap fun p => p.2.toList

theorem ReachStores.mem_entries {rs : ReachStores ap} {s : Value} {f : LatticeFact ap} :
    (s, f) ∈ rs.entries ↔ rs.Holds s f := by
  unfold ReachStores.entries ReachStores.Holds
  rw [List.mem_flatMap]
  constructor
  · rintro ⟨⟨g, st⟩, hg, hs⟩
    exact ⟨g, st, Std.TreeMap.mem_toList_iff_getElem?_eq_some.mp hg,
      Std.TreeMap.mem_toList_iff_getElem?_eq_some.mp hs⟩
  · rintro ⟨g, st, hg, hs⟩
    exact ⟨(g, st), Std.TreeMap.mem_toList_iff_getElem?_eq_some.mpr hg,
      Std.TreeMap.mem_toList_iff_getElem?_eq_some.mpr hs⟩

/-- The comparison is made store by store. -/
theorem allComparable_iff {oldI newI : ReachStores ap} : AllComparable oldI newI ↔
    ∀ p ∈ oldI.entries, ∀ q ∈ newI.entries, p.1 = q.1 → q.2.areValsLEq p.2 ∨ q.2.areValsGEq p.2 := by
  constructor
  · rintro h ⟨s, oldF⟩ hp ⟨_, newF⟩ hq rfl
    exact h _ _ _ (ReachStores.mem_entries.mp hp) (ReachStores.mem_entries.mp hq)
  · intro h s oldF newF hold hnew
    exact h _ (ReachStores.mem_entries.mpr hold) _ (ReachStores.mem_entries.mpr hnew) rfl

instance (oldI newI : ReachStores ap) : Decidable (AllComparable oldI newI) :=
  decidable_of_iff _ allComparable_iff.symm

theorem ReachStores.Unique.holds_unique {rs : ReachStores ap} (h : rs.Unique) {s : Value}
    {f f' : LatticeFact ap} (hf : rs.Holds s f) (hf' : rs.Holds s f') : f = f' := by
  obtain ⟨g, st, hg, hs⟩ := hf
  obtain ⟨g', st', hg', hs'⟩ := hf'
  have hmem : s ∈ st := Std.TreeMap.mem_iff_isSome_getElem?.mpr (by rw [hs]; rfl)
  have hmem' : s ∈ st' := Std.TreeMap.mem_iff_isSome_getElem?.mpr (by rw [hs']; rfl)
  obtain rfl := h s g g' st st' hg hg' hmem hmem'
  obtain rfl : st = st' := Option.some.inj (hg.symm.trans hg')
  exact Option.some.inj (hs.symm.trans hs')

/-! ### The test returns -/

/-- The maps of a list have no key twice, also not in two of them. -/
theorem ReachStores.Unique.keys_nodup {rs : ReachStores ap} (h : rs.Unique) :
    ((rs.toList.flatMap fun p => p.2.toList).map Prod.fst).Nodup := by
  rw [List.map_flatMap, List.nodup_flatMap]
  constructor
  · intro p _
    have hdistinct := p.2.distinct_keys_toList
    rw [List.nodup_iff_pairwise_ne, List.pairwise_map]
    exact hdistinct.imp fun hne heq => hne (Nat.compare_eq_eq.mpr heq)
  · refine rs.distinct_keys_toList.imp_of_mem fun {p q} hp hq hne => ?_
    intro s hs hs'
    obtain ⟨⟨_, f⟩, hf, rfl⟩ := List.mem_map.mp hs
    obtain ⟨⟨_, f'⟩, hf', heq⟩ := List.mem_map.mp hs'
    dsimp only at heq
    subst heq
    refine hne (Nat.compare_eq_eq.mpr ?_)
    exact h _ p.1 q.1 p.2 q.2 (Std.TreeMap.mem_toList_iff_getElem?_eq_some.mp hp)
      (Std.TreeMap.mem_toList_iff_getElem?_eq_some.mp hq)
      (Std.TreeMap.mem_iff_isSome_getElem?.mpr
        (by rw [Std.TreeMap.mem_toList_iff_getElem?_eq_some.mp hf]; rfl))
      (Std.TreeMap.mem_iff_isSome_getElem?.mpr
        (by rw [Std.TreeMap.mem_toList_iff_getElem?_eq_some.mp hf']; rfl))

/-- Maps without a common store are combined. -/
theorem ReachStores.Unique.flatten {rs : ReachStores ap} (h : rs.Unique) :
    ∃ flat, flattenReachStores rs = .ok flat := by
  have hfold : ∀ (ps : List (Value × LatticeFact ap)) (facts : StoreFacts ap),
      (ps.map Prod.fst).Nodup → (∀ p ∈ ps, p.1 ∉ facts) →
      ∃ flat, ps.foldlM (fun (facts : StoreFacts ap) p =>
        if facts.contains p.1 then (.error (.abort "duplicate store") : Except Stop _)
        else .ok (facts.insert p.1 p.2)) facts = .ok flat := by
    intro ps
    induction ps with
    | nil => exact fun facts _ _ => ⟨facts, rfl⟩
    | cons p ps ih =>
        intro facts hnodup hnew
        rw [List.map_cons, List.nodup_cons] at hnodup
        have hp : facts.contains p.1 = false := by
          rw [← Bool.not_eq_true, ← Std.TreeMap.mem_iff_contains]
          exact hnew p List.mem_cons_self
        obtain ⟨flat, hflat⟩ := ih (facts.insert p.1 p.2) hnodup.2 (by
          intro q hq hmem
          rcases Std.TreeMap.mem_insert.mp hmem with heq | hmem
          · exact hnodup.1 (Nat.compare_eq_eq.mp heq ▸ List.mem_map_of_mem hq)
          · exact hnew q (List.mem_cons_of_mem _ hq) hmem)
        refine ⟨flat, Fallible.foldlM_cons_eq_ok.mpr ⟨facts.insert p.1 p.2, ?_, hflat⟩⟩
        rw [hp]
        rfl
  exact hfold _ {} h.keys_nodup fun _ _ => Std.TreeMap.not_mem_emptyc

/-- When no store has grown, the test says that the stores are stable. -/
theorem stableStores_of_not_grown {oldI newI : ReachStores ap} (hold : oldI.Unique) (hnew : newI.Unique)
    (h : ∀ s newF, ¬ Grown oldI newI s newF) : stableStores oldI newI = .ok true := by
  obtain ⟨flatOld, hfold⟩ := hold.flatten
  obtain ⟨flatNew, hfnew⟩ := hnew.flatten
  refine Fallible.bind_eq_ok.mpr ⟨flatOld, hfold, Fallible.bind_eq_ok.mpr ⟨flatNew, hfnew, ?_⟩⟩
  have hstep : ∀ p ∈ flatNew.toList, stableStore flatOld p.1 p.2 = .ok true := by
    intro p hp
    have hmem := (flattenReachStores_getElem? hfnew p.1 p.2).mp
      (Std.TreeMap.mem_toList_iff_getElem?_eq_some.mp hp)
    have hgrown := h p.1 p.2
    unfold Grown at hgrown
    push Not at hgrown
    obtain ⟨oldF, hoF, hle⟩ := hgrown hmem
    unfold stableStore
    rw [(flattenReachStores_getElem? hfold p.1 oldF).mpr hoF]
    rcases hle with heq | hge
    · simp [heq]
    · simp [hge]
  generalize flatNew.toList = ps at hstep
  induction ps with
  | nil => rfl
  | cons p ps ih =>
      refine Fallible.bind_eq_ok.mpr ⟨true, hstep p List.mem_cons_self, ?_⟩
      exact ih fun q hq => hstep q (List.mem_cons_of_mem _ hq)

/-- Stable stores with comparable facts are contained. -/
theorem AllComparable.contained (hL : ap.Lattice) {oldI newI : ReachStores ap} (hcomp : AllComparable oldI newI)
    (hstable : stableStores oldI newI = .ok true) : Contained oldI newI := by
  intro s newF hnF
  obtain ⟨oldF, hoF, hle⟩ := stableStores_true hstable hnF
  refine ⟨oldF, hoF, ?_⟩
  rcases hcomp s oldF newF hoF hnF with hleq | hgeq
  · exact hleq
  · rcases hle with heq | hnge
    · exact ((hL.isEq_iff _ _).mp heq).1
    · rw [hgeq] at hnge
      cases hnge

/-- **What stable stores mean.**  The test is right about containment exactly when some store has grown
or the facts of all stores are comparable. -/
theorem stableStores_contained_iff (hL : ap.Lattice) (oldI newI : ReachStores ap)
    (hold : oldI.Unique) (hnew : newI.Unique) :
    (stableStores oldI newI = .ok true → Contained oldI newI) ↔
      (∃ s newF, Grown oldI newI s newF) ∨ AllComparable oldI newI := by
  constructor
  · intro hdecides
    by_cases hgrown : ∃ s newF, Grown oldI newI s newF
    · exact .inl hgrown
    · push Not at hgrown
      right
      intro s oldF newF hoF hnF
      obtain ⟨oldF', hoF', hle⟩ := hdecides (stableStores_of_not_grown hold hnew hgrown) s newF hnF
      obtain rfl := hold.holds_unique hoF hoF'
      exact .inl hle
  · rintro (⟨s', newF', hnF', hgrown⟩ | hcomp) hstable
    · obtain ⟨oldF', hoF', hle'⟩ := stableStores_true hstable hnF'
      exact absurd hle' (hgrown oldF' hoF')
    · exact hcomp.contained hL hstable

namespace Incomparable

/-- One store of one function, after which `x` is `c`. -/
def storeOf (c : Int) : ReachStores boxes :=
  Std.TreeMap.insert ∅ 1 (Std.TreeMap.insert ∅ 10 ⟨some [.const c]⟩)

theorem storeOf_holds {c : Int} {s : Value} {f : LatticeFact boxes} :
    (storeOf c).Holds s f ↔ s = 10 ∧ f = ⟨some [.const c]⟩ := by
  unfold ReachStores.Holds storeOf
  constructor
  · rintro ⟨g, st, hg, hs⟩
    rw [Std.TreeMap.getElem?_insert] at hg
    split_ifs at hg
    · cases hg
      rw [Std.TreeMap.getElem?_insert] at hs
      split_ifs at hs with heq
      · exact ⟨(Nat.compare_eq_eq.mp heq).symm, (Option.some.inj hs).symm⟩
      · simp at hs
    · simp at hg
  · rintro ⟨rfl, rfl⟩
    exact ⟨1, _, Std.TreeMap.getElem?_insert_self, Std.TreeMap.getElem?_insert_self⟩

theorem storeOf_unique (c : Int) : (storeOf c).Unique := by
  intro s g g' st st' hg hg' _ _
  unfold storeOf at hg hg'
  rw [Std.TreeMap.getElem?_insert] at hg hg'
  split_ifs at hg with h
  · split_ifs at hg' with h'
    · exact (Nat.compare_eq_eq.mp h).symm.trans (Nat.compare_eq_eq.mp h')
    · simp at hg'
  · simp at hg

/-- **A store whose value changes from `0` to `2` counts as stable.** -/
theorem stable_not_contained :
    stableStores (storeOf 0) (storeOf 2) = .ok true ∧ ¬ Contained (storeOf 0) (storeOf 2) := by
  refine ⟨by decide, fun h => ?_⟩
  obtain ⟨oldF, hoF, hle⟩ := h 10 ⟨some [.const 2]⟩ (storeOf_holds.mpr ⟨rfl, rfl⟩)
  obtain ⟨_, rfl⟩ := storeOf_holds.mp hoF
  revert hle
  decide

theorem stableStores_contained_storeOf :
    stableStores (storeOf 1) (storeOf 1) = .ok true ∧ Contained (storeOf 1) (storeOf 1) := by
  have hstable : stableStores (storeOf 1) (storeOf 1) = .ok true := by decide
  refine ⟨hstable, (stableStores_contained_iff Box.lattice (storeOf 1) (storeOf 1) (storeOf_unique 1)
    (storeOf_unique 1)).mpr (.inr ?_) hstable⟩
  intro s oldF newF hoF hnF
  obtain ⟨_, rfl⟩ := storeOf_holds.mp hoF
  obtain ⟨_, rfl⟩ := storeOf_holds.mp hnF
  exact .inl (by decide)

end Incomparable

end Watts
