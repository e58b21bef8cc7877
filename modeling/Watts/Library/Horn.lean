import Mathlib.Data.List.Basic
import Mathlib.Tactic.Common

/-! Horn rules over relations between constants, and what they derive: the least interpretation closed
under the rules.  Anything that holds in every interpretation closed under the rules can be proved of
the derivable atoms, one rule at a time. -/

namespace Horn

/-- An argument of an atom in a rule: a constant or one of the rule's variables. -/
inductive Term (C : Type*)
  | const (c : C)
  | bound (i : Nat)
deriving DecidableEq

structure Atom (P C : Type*) where
  pred : P
  args : List (Term C)
deriving DecidableEq

/-- An atom without variables. -/
structure GroundAtom (P C : Type*) where
  pred : P
  args : List C
deriving DecidableEq

/-- A rule: the conjunction of the body implies the head. -/
structure Rule (P C : Type*) where
  body : List (Atom P C)
  head : Atom P C
deriving DecidableEq

variable {P C : Type*}

def Term.inst (σ : Nat → C) : Term C → C
  | .const c => c
  | .bound i => σ i

def Atom.inst (σ : Nat → C) (a : Atom P C) : GroundAtom P C :=
  ⟨a.pred, a.args.map (Term.inst σ)⟩

/-- A rule without a body. -/
def Rule.fact (p : P) (cs : List C) : Rule P C :=
  ⟨[], ⟨p, cs.map .const⟩⟩

/-- The atoms that the rules derive. -/
inductive Derives (R : List (Rule P C)) : GroundAtom P C → Prop
  | rule {r : Rule P C} (σ : Nat → C) (hr : r ∈ R) (hb : ∀ a ∈ r.body, Derives R (a.inst σ)) :
      Derives R (r.head.inst σ)

/-- An interpretation that is closed under a rule. -/
def Rule.Holds (I : GroundAtom P C → Prop) (r : Rule P C) : Prop :=
  ∀ σ, (∀ a ∈ r.body, I (a.inst σ)) → I (r.head.inst σ)

variable {R R' : List (Rule P C)} {I : GroundAtom P C → Prop}

/-- **What is closed under the rules contains everything derivable.** -/
theorem Derives.sound (hI : ∀ r ∈ R, r.Holds I) {a : GroundAtom P C} (h : Derives R a) : I a := by
  induction h with
  | rule σ hr _ ih => exact hI _ hr σ ih

/-- The derivable atoms are themselves closed under the rules. -/
theorem Derives.closed {r : Rule P C} (hr : r ∈ R) : r.Holds (Derives R) :=
  fun σ hb => .rule σ hr hb

theorem Derives.mono (hR : ∀ r ∈ R, r ∈ R') {a : GroundAtom P C} (h : Derives R a) : Derives R' a :=
  h.sound fun _ hr => Derives.closed (hR _ hr)

@[simp] theorem Rule.fact_inst (p : P) (cs : List C) (σ : Nat → C) :
    (Rule.fact p cs).head.inst σ = ⟨p, cs⟩ := by
  unfold Rule.fact Atom.inst
  rw [List.map_map]
  exact congrArg _ (List.map_id cs)

/-- An interpretation with the atom of a fact is closed under the fact. -/
theorem Rule.fact_holds {p : P} {cs : List C} (h : I ⟨p, cs⟩) : (Rule.fact p cs).Holds I := by
  intro σ _
  rwa [Rule.fact_inst]

theorem Derives.fact {p : P} {cs : List C} (σ : Nat → C) (h : Rule.fact p cs ∈ R) :
    Derives R ⟨p, cs⟩ := by
  rw [← Rule.fact_inst p cs σ]
  exact .rule σ h fun _ ha => absurd ha List.not_mem_nil

/-! ### Reading facts -/

/-- The constant that an argument is. -/
def Term.const? : Term C → Option C
  | .const c => some c
  | .bound _ => none

/-- The atom that a rule states without a body and without variables. -/
def Rule.ground? (r : Rule P C) : Option (GroundAtom P C) :=
  if r.body.isEmpty then (r.head.args.mapM Term.const?).map (⟨r.head.pred, ·⟩) else none

theorem inst_of_const? {ts : List (Term C)} {cs : List C} (h : ts.mapM Term.const? = some cs) (σ : Nat → C) :
    ts.map (Term.inst σ) = cs := by
  induction ts generalizing cs with
  | nil =>
      rw [List.mapM_nil] at h
      exact Option.some.inj h
  | cons t ts ih =>
      rw [List.mapM_cons] at h
      obtain ⟨c, hc, h⟩ := Option.bind_eq_some_iff.mp h
      obtain ⟨cs', hcs, h⟩ := Option.bind_eq_some_iff.mp h
      cases h
      cases t with
      | const d =>
          cases hc
          rw [List.map_cons, ih hcs, Term.inst]
      | bound i => cases hc

/-- An interpretation with the atom that a rule states is closed under the rule. -/
theorem Rule.ground?_holds {r : Rule P C} {a : GroundAtom P C} (h : r.ground? = some a) (ha : I a) : r.Holds I := by
  unfold ground? at h
  split_ifs at h with hbody
  obtain ⟨cs, hcs, rfl⟩ := Option.map_eq_some_iff.mp h
  intro σ _
  unfold Atom.inst
  rw [inst_of_const? hcs]
  exact ha

end Horn
