import Watts.LatticeFact

/-! What is assumed of Apron, beyond its interface, by the results about orders of facts: the inclusion
test is a preorder with least element bottom and the join a least upper bound; operations on bottom
give bottom; operations are monotone and a larger fact entails no more.  From these laws follows that
every transfer function keeps a bottom fact bottom and is monotone: both are instances of one walk
through the transfer functions with a relation that the operations of Apron preserve. -/

namespace Watts

/-- An interval is inside another. -/
def Interval.Sub (I J : Interval) : Prop :=
  ∀ x, I.Mem x → J.Mem x

/-- The concrete meaning of a constraint. -/
def LinCons.Holds (c : LinCons) (σ : Var → Int) : Prop :=
  let e := (c.terms.map fun t => t.1 * σ t.2).sum + c.cst
  match c.ty with
  | .eq => e = 0
  | .supeq => e ≥ 0
  | .sup => e > 0
  | .diseq => e ≠ 0

namespace Apron

structure Lattice (ap : Apron) : Prop where
  leq_refl : ∀ a, ap.isLeq a a
  leq_trans : ∀ {a b c}, ap.isLeq a b → ap.isLeq b c → ap.isLeq a c
  bottom_leq : ∀ a, ap.isLeq ap.bottom a
  join_left : ∀ a b, ap.isLeq a (ap.join a b)
  join_right : ∀ a b, ap.isLeq b (ap.join a b)
  join_least : ∀ {a b c}, ap.isLeq a c → ap.isLeq b c → ap.isLeq (ap.join a b) c
  isEq_iff : ∀ a b, ap.isEq a b ↔ ap.isLeq a b ∧ ap.isLeq b a

structure Strict (ap : Apron) : Prop where
  assignLinexpr : ∀ {a} v e, ap.isLeq a ap.bottom → ap.isLeq (ap.assignLinexpr a v e) ap.bottom
  assignTexpr : ∀ {a} v e, ap.isLeq a ap.bottom → ap.isLeq (ap.assignTexpr a v e) ap.bottom
  meetLincons : ∀ {a} c, ap.isLeq a ap.bottom → ap.isLeq (ap.meetLincons a c) ap.bottom

structure Monotone (ap : Apron) : Prop where
  assignLinexpr : ∀ {a b} v ts {I J : Interval}, ap.isLeq a b → I.Sub J →
    ap.isLeq (ap.assignLinexpr a v ⟨ts, I⟩) (ap.assignLinexpr b v ⟨ts, J⟩)
  assignTexpr : ∀ {a b} v e, ap.isLeq a b → ap.isLeq (ap.assignTexpr a v e) (ap.assignTexpr b v e)
  meetLincons : ∀ {a b} c, ap.isLeq a b → ap.isLeq (ap.meetLincons a c) (ap.meetLincons b c)
  boundVariable : ∀ {a b} v, ap.isLeq a b → (ap.boundVariable a v).Sub (ap.boundVariable b v)
  satLincons : ∀ {a b} c, ap.isLeq a b → ap.satLincons b c → ap.satLincons a c
  /-- Only bottom entails two constraints that exclude each other. -/
  contradiction : ∀ {a} c c', (∀ σ : Var → Int, c.Holds σ → ¬ c'.Holds σ) → ap.satLincons a c →
    ap.satLincons a c' → ap.isLeq a ap.bottom

/-- The join is an upper bound, and bounds and assignments are monotone.  Assigning an interval that has the
bounds of the variable in it over-approximates. -/
structure OverApproximates (ap : Apron) : Prop where
  leq_refl : ∀ a, ap.isLeq a a
  leq_trans : ∀ {a b c}, ap.isLeq a b → ap.isLeq b c → ap.isLeq a c
  join_left : ∀ a b, ap.isLeq a (ap.join a b)
  join_right : ∀ a b, ap.isLeq b (ap.join a b)
  boundVariable : ∀ {a b} v, ap.isLeq a b → (ap.boundVariable a v).Sub (ap.boundVariable b v)
  assignLinexpr : ∀ {a b} v ts {I J : Interval}, ap.isLeq a b → I.Sub J →
    ap.isLeq (ap.assignLinexpr a v ⟨ts, I⟩) (ap.assignLinexpr b v ⟨ts, J⟩)
  assignTexpr : ∀ {a b} v e, ap.isLeq a b → ap.isLeq (ap.assignTexpr a v e) (ap.assignTexpr b v e)
  assignInterval : ∀ {a} v {I : Interval}, (ap.boundVariable a v).Sub I →
    ap.isLeq a (ap.assignLinexpr a v ⟨[], I⟩)

end Apron

variable {ap : Apron}

/-! ### Computations that may stop -/

/-- Whenever both computations return, the results are related. -/
def Related {α β : Type} (R : α → β → Prop) (x : Except Stop α) (y : Except Stop β) : Prop :=
  ∀ a b, x = .ok a → y = .ok b → R a b

namespace Related

variable {α β α' β' : Type} {R : α → β → Prop} {Q : α' → β' → Prop}

theorem ok {a : α} {b : β} (h : R a b) : Related R (.ok a) (.ok b) := by
  rintro _ _ ⟨⟩ ⟨⟩
  exact h

theorem errorLeft {e : Stop} {y : Except Stop β} : Related R (.error e) y := by
  rintro _ _ ⟨⟩

theorem errorRight {e : Stop} {x : Except Stop α} : Related R x (.error e) := by
  rintro _ _ _ ⟨⟩

theorem bind {x : Except Stop α} {y : Except Stop β} {f : α → Except Stop α'}
    {g : β → Except Stop β'} (h : Related R x y) (hfg : ∀ a b, R a b → Related Q (f a) (g b)) :
    Related Q (x >>= f) (y >>= g) := by
  intro a b ha hb
  cases x with
  | error e => cases ha
  | ok a' =>
      cases y with
      | error e => cases hb
      | ok b' => exact hfg a' b' (h a' b' rfl rfl) a b ha hb

/-- Both computations start with the same step. -/
theorem bindSame {γ : Type} {x : Except Stop γ} {f : γ → Except Stop α'} {g : γ → Except Stop β'}
    (hfg : ∀ a, x = .ok a → Related Q (f a) (g a)) : Related Q (x >>= f) (x >>= g) := by
  intro a b ha hb
  cases x with
  | error e => cases ha
  | ok a' => exact hfg a' rfl a b ha hb

theorem foldlM {γ : Type} {f : α → γ → Except Stop α} {g : β → γ → Except Stop β}
    (hstep : ∀ a b c, R a b → Related R (f a c) (g b c)) :
    ∀ (l : List γ) {a : α} {b : β}, R a b → Related R (l.foldlM f a) (l.foldlM g b) := by
  intro l
  induction l with
  | nil => exact fun h => .ok h
  | cons c l ih =>
      intro a b h
      rw [List.foldlM_cons, List.foldlM_cons]
      exact .bind (hstep a b c h) fun _ _ => ih

end Related

/-! ### Relations that the operations preserve -/

/-- A relation that every operation of Apron preserves. -/
structure Preserved (R : LatticeFact ap → LatticeFact ap → Prop) : Prop where
  ofBottom : ∀ {f g : LatticeFact ap}, f.leq ⟨ap.bottom⟩ → R f g
  assignLinexpr : ∀ {f g : LatticeFact ap} v ts {I J : Interval}, R f g → I.Sub J →
    R ⟨ap.assignLinexpr f.absVals v ⟨ts, I⟩⟩ ⟨ap.assignLinexpr g.absVals v ⟨ts, J⟩⟩
  assignTexpr : ∀ {f g : LatticeFact ap} v e, R f g →
    R ⟨ap.assignTexpr f.absVals v e⟩ ⟨ap.assignTexpr g.absVals v e⟩
  meetLincons : ∀ {f g : LatticeFact ap} c, R f g →
    R ⟨ap.meetLincons f.absVals c⟩ ⟨ap.meetLincons g.absVals c⟩
  join : ∀ {f g f' g' : LatticeFact ap}, R f g → R f' g' → R (f.factJoin f') (g.factJoin g')
  /-- What a fact joined with an interference says of a variable. -/
  joinBound : ∀ {f g : LatticeFact ap} h v, R f g → f.leq ⟨ap.bottom⟩ ∨
    ((f.factJoin h).getVarInterval v).Sub ((g.factJoin h).getVarInterval v)
  /-- What a pair of exclusive queries says of both facts. -/
  sat : ∀ {f g : LatticeFact ap}, R f g → f.leq ⟨ap.bottom⟩ ∨ ∀ c, g.isSat c → f.isSat c
  exclusive : ∀ {f g : LatticeFact ap} c c', R f g → (∀ σ : Var → Int, c.Holds σ → ¬ c'.Holds σ) →
    f.isSat c → f.isSat c' → f.leq ⟨ap.bottom⟩
  bottomAssign : ∀ {f : LatticeFact ap} v e, f.leq ⟨ap.bottom⟩ →
    (⟨ap.assignLinexpr f.absVals v e⟩ : LatticeFact ap).leq ⟨ap.bottom⟩

theorem Interval.Sub.rfl {I : Interval} : I.Sub I := fun _ h => h

/-- Being bottom is preserved, whatever stands on the right. -/
theorem preserved_bottom (hL : ap.Lattice) (hS : ap.Strict) :
    Preserved fun f _ : LatticeFact ap => f.leq ⟨ap.bottom⟩ where
  ofBottom h := h
  assignLinexpr v ts _ _ h _ := hS.assignLinexpr v ⟨ts, _⟩ h
  assignTexpr v e h := hS.assignTexpr v e h
  meetLincons c h := hS.meetLincons c h
  join h h' := hL.join_least h h'
  joinBound _ _ h := .inl h
  sat h := .inl h
  exclusive _ _ h _ _ _ := h
  bottomAssign v e h := hS.assignLinexpr v e h

/-- The inclusion of facts is preserved. -/
theorem preserved_leq (hL : ap.Lattice) (hS : ap.Strict) (hM : ap.Monotone) :
    Preserved fun f g : LatticeFact ap => f.leq g where
  ofBottom h := hL.leq_trans h (hL.bottom_leq _)
  assignLinexpr v ts _ _ h hIJ := hM.assignLinexpr v ts h hIJ
  assignTexpr v e h := hM.assignTexpr v e h
  meetLincons c h := hM.meetLincons c h
  join h h' := hL.join_least (hL.leq_trans h (hL.join_left _ _)) (hL.leq_trans h' (hL.join_right _ _))
  joinBound _ v h := .inr (hM.boundVariable v
    (hL.join_least (hL.leq_trans h (hL.join_left _ _)) (hL.join_right _ _)))
  sat h := .inr fun c hc => hM.satLincons c h hc
  exclusive c c' _ hcc h₁ h₂ := hM.contradiction c c' hcc h₁ h₂
  bottomAssign v e h := hS.assignLinexpr v e h

namespace Preserved

variable {R : LatticeFact ap → LatticeFact ap → Prop} (hR : Preserved R)
include hR

theorem assignInt {f g : LatticeFact ap} (v : Var) (c : Int) (h : R f g) :
    R (f.assignInt v c) (g.assignInt v c) :=
  hR.assignLinexpr v [] h .rfl

theorem assignVar {f g : LatticeFact ap} (v w : Var) (h : R f g) :
    R (f.assignVar v w) (g.assignVar v w) :=
  hR.assignLinexpr v [(1, w)] h .rfl

theorem assignInterval {f g : LatticeFact ap} (v : Var) {I J : Interval} (h : R f g) (hIJ : I.Sub J) :
    R (f.assignInterval v I) (g.assignInterval v J) :=
  hR.assignLinexpr v [] h hIJ

/-- Setting truth values is preserved when the left fact sets no more of them. -/
theorem assignTrueFalse {f g : LatticeFact ap} (v : Var) {tf ff tg fg : Bool} (h : R f g)
    (hb : f.leq ⟨ap.bottom⟩ ∨ ((tf → tg) ∧ (ff → fg))) :
    Related R (f.assignTrueFalse v tf ff) (g.assignTrueFalse v tg fg) := by
  intro a b ha hb'
  have hbot : f.leq ⟨ap.bottom⟩ → R a b := by
    intro hf
    refine hR.ofBottom ?_
    unfold LatticeFact.assignTrueFalse at ha
    split_ifs at ha <;> cases ha <;> exact hR.bottomAssign _ _ hf
  rcases hb with hf | ⟨ht, hf⟩
  · exact hbot hf
  · have h01 : (Interval.range (some 0) (some 1)).Sub (.range (some 0) (some 1)) := .rfl
    have h1 : (Interval.const 1).Sub (.range (some 0) (some 1)) := by
      intro x hx
      simp only [Interval.const, Interval.Mem, Option.mem_def, Option.some.injEq,
        forall_eq'] at hx ⊢
      omega
    have h0 : (Interval.const 0).Sub (.range (some 0) (some 1)) := by
      intro x hx
      simp only [Interval.const, Interval.Mem, Option.mem_def, Option.some.injEq,
        forall_eq'] at hx ⊢
      omega
    unfold LatticeFact.assignTrueFalse at ha hb'
    cases tf <;> cases ff <;> cases tg <;> cases fg <;> simp at ha hb' ht hf <;> subst ha hb'
    · exact hR.assignInt v 0 h
    · exact hR.assignLinexpr v [] h h0
    · exact hR.assignInt v 1 h
    · exact hR.assignLinexpr v [] h h1
    · exact hR.assignInterval v h h01

omit hR in
theorem assignCmp_eq (f : LatticeFact ap) (v : Var) (sat unsat : Bool) :
    f.assignCmp v sat unsat = f.assignTrueFalse v (sat || !unsat) (unsat || !sat) := by
  cases sat <;> cases unsat <;> rfl

/-- The common body of the comparisons is preserved for exclusive queries. -/
theorem assignCmp {f g : LatticeFact ap} (v : Var) {sf uf sg ug : Bool} (h : R f g)
    (hsat : f.leq ⟨ap.bottom⟩ ∨ ((sg → sf) ∧ (ug → uf))) (hex : sf → uf → f.leq ⟨ap.bottom⟩) :
    Related R (f.assignCmp v sf uf) (g.assignCmp v sg ug) := by
  rw [assignCmp_eq, assignCmp_eq]
  refine hR.assignTrueFalse v h ?_
  rcases hsat with hb | ⟨h₁, h₂⟩
  · exact .inl hb
  · by_cases hboth : sf = true ∧ uf = true
    · exact .inl (hex hboth.1 hboth.2)
    · right
      revert h₁ h₂ hboth
      cases sf <;> cases uf <;> cases sg <;> cases ug <;> simp

end Preserved

end Watts
