import Watts.Comparisons

/-! The values of type `i1`.  Facts represent true by `1`, comparisons read a one-bit value as a signed
number, and `getConstantIntUnsafe` reads the one-bit constant true as `-1`.  The four producers and the
branch agree exactly where none of these readings meets another. -/

namespace Watts

open BBOps LatticeFact
open Box (eval Comparable Names)

/-! ### Overwriting a variable -/

/-- Giving a variable the empty interval leaves the other variables as they are: a new value for it
brings the states back. -/
def Apron.Overwrites (ap : Apron) (γ : ap.Abstract1 → Set (Var → Int)) : Prop :=
  ∀ {a : ap.Abstract1} {τ : Var → Int} (v : Var) {e : LinExpr} {x : Int}, τ ∈ γ a →
    (∀ t ∈ e.terms, t.2 ≠ v) → e.Mem τ x →
      Function.update τ v x ∈ γ (ap.assignLinexpr (ap.assignLinexpr a v ⟨[], .bottom⟩) v e)

namespace partialSets

/-- The state in which every variable has a value. -/
def whole (τ : Var → Int) : Var → Option Int :=
  some ∘ τ

theorem whole_injective {τ τ' : Var → Int} (h : whole τ = whole τ') : τ = τ' :=
  funext fun v => Option.some.inj (congrFun h v)

theorem whole_update (τ : Var → Int) (v : Var) (x : Int) :
    whole (Function.update τ v x) = Function.update (whole τ) v (some x) :=
  Function.comp_update some τ v x

/-- The states of a set in which every variable has a value. -/
def states (a : Set (Var → Option Int)) : Set (Var → Int) :=
  {τ | whole τ ∈ a}

/-- The value of an expression whose variables have values. -/
def Value (e : LinExpr) (σ : Var → Option Int) (x : Int) : Prop :=
  ∃ τ : Var → Int, (∀ t ∈ e.terms, σ t.2 = some (τ t.2)) ∧ e.Mem τ x

/-- One state after an assignment; the empty interval takes the value of the variable away. -/
def Assigned (v : Var) (e : LinExpr) (σ σ' : Var → Option Int) : Prop :=
  (∃ x, Value e σ x ∧ σ' = Function.update σ v (some x)) ∨
    (∀ k, ¬ e.cst.Mem k) ∧ σ' = Function.update σ v none

end partialSets

open scoped Classical in
/-- The manager whose abstract values are sets of states in which variables may have no value. -/
noncomputable def partialSets : Apron where
  Abstract1 := Set (Var → Option Int)
  bottom := ∅
  top := Set.univ
  isLeq a b := decide (a ⊆ b)
  isEq a b := decide (a = b)
  isBottom a := decide (a = ∅)
  join a b := a ∪ b
  assignLinexpr a v e := {σ' | ∃ σ ∈ a, partialSets.Assigned v e σ σ'}
  assignTexpr a v e := partialSets.whole '' {τ' | ∃ τ ∈ partialSets.states a, τ' = Function.update τ v (e.eval τ)}
  boundVariable _ _ := .range none none
  satLincons a c := decide (∀ τ ∈ partialSets.states a, c.Holds τ)
  meetLincons a c := partialSets.whole '' {τ | τ ∈ partialSets.states a ∧ c.Holds τ}

namespace partialSets

theorem mem_whole {A : Set (Var → Int)} {τ : Var → Int} : τ ∈ states (whole '' A) ↔ τ ∈ A := by
  constructor
  · rintro ⟨τ', hτ', heq⟩
    rwa [← whole_injective heq]
  · exact fun h => ⟨τ, h, rfl⟩

theorem sound : partialSets.Sound states where
  assignLinexpr {a τ} v {e x} hτ hx := by
    refine ⟨whole τ, hτ, .inl ⟨x, ⟨τ, fun _ _ => rfl, hx⟩, ?_⟩⟩
    exact whole_update τ v x
  assignTexpr {a τ} v e hτ := mem_whole.mpr ⟨τ, hτ, rfl⟩
  joinLeft _ _ _ hτ := .inl hτ
  joinRight _ _ _ hτ := .inr hτ
  satLincons hs hτ := (@of_decide_eq_true _ (Classical.propDecidable _) hs) _ hτ
  meetLincons hτ hc := mem_whole.mpr ⟨hτ, hc⟩

theorem overwrites : partialSets.Overwrites states := by
  intro a τ v e x hτ he hx
  refine ⟨Function.update (whole τ) v none, ⟨whole τ, hτ, .inr ⟨fun k hk => hk, rfl⟩⟩, .inl ⟨x, ⟨τ, ?_, hx⟩, ?_⟩⟩
  · intro t ht
    rw [Function.update_of_ne (he t ht)]
    rfl
  · rw [whole_update, Function.update_idem]

/-- The set of one state. -/
def only (τ : Var → Int) : partialSets.Abstract1 :=
  Set.singleton (whole τ)

theorem sharp : partialSets.Sharp states only where
  mem_only _ := rfl
  satLincons {τ c} h := by
    refine @decide_eq_true _ (Classical.propDecidable _) ?_
    intro τ' hτ'
    obtain rfl := whole_injective hτ'
    exact h
  assignConst {τ τ' v c} h := by
    obtain ⟨σ, rfl, ⟨x, ⟨τ₁, _, hx⟩, hσ'⟩ | ⟨hnone, _⟩⟩ := h
    · rw [LinExpr.mem_const.mp hx] at hσ'
      exact whole_injective (hσ'.trans (whole_update τ v c).symm)
    · exact absurd (by simp [Interval.const, Interval.Mem]) (hnone c)
  meetLincons h := mem_whole.mp h

end partialSets

/-! ### Chains of one-bit values -/

section Chains

variable (v2n : NameMap) (oneBit : Var → Bool)

/-- Every one-bit value is `0` or `1`. -/
def Encoded (τ : Var → Int) : Prop :=
  ∀ m, oneBit m = true → ∃ b, τ m = truth b

/-- The truth value of a one-bit operand. -/
def Operand.bit (τ : Var → Int) (op : Operand) : Bool :=
  op.eval v2n τ ≠ 0

def Incoming.bit (τ : Var → Int) : Incoming → Bool
  | .constantInt ci => (Operand.constantInt ci).bit v2n τ
  | .cmpInst cmp => (Operand.value cmp).bit v2n τ
  | .other => false

/-- The number that a comparison reads: a one-bit value is `0` or `-1`. -/
def Term.signed (τ : Var → Int) : Term → Int
  | .var m => if oneBit m then -τ m else τ m
  | .int c => c

/-- The result of an instruction in a state. -/
def Result (τ : Var → Int) (b : Bool) : Kind → Prop
  | .icmp pred op0 op1 => ∃ s t, Names v2n op0 s ∧ Names v2n op1 t ∧
      (pred.Holds (s.signed oneBit τ) (t.signed oneBit τ) ↔ b = true)
  | .binary _ op0 op1 => b = (op0.bit v2n τ ^^ op1.bit v2n τ)
  | .phi incoming => ∃ v ∈ incoming, b = v.bit v2n τ
  | _ => False

/-- The instructions of a chain, executed one after the other. -/
inductive Runs : List Instruction → (Var → Int) → (Var → Int) → Prop
  | nil (τ : Var → Int) : Runs [] τ τ
  | cons {i : Instruction} {is : List Instruction} {n : Var} {b : Bool} {τ τ' : Var → Int} :
      v2n[i.id]? = some n → Result v2n oneBit τ b i.kind →
      Runs is (Function.update τ n (truth b)) τ' → Runs (i :: is) τ τ'

/-- A one-bit operand: a constant or a named one-bit variable. -/
def Operand.OneBit : Operand → Prop
  | .constantInt ci => ci.bits = 1
  | .value v => ∃ m, v2n[v]? = some m ∧ oneBit m = true
  | _ => False

/-- An incoming value of a one-bit phi node: a constant, or a comparison other than the phi node. -/
def Incoming.OneBit (n : Var) : Incoming → Prop
  | .constantInt ci => ci.bits = 1
  | .cmpInst cmp => ∃ m, v2n[cmp]? = some m ∧ oneBit m = true ∧ m ≠ n
  | .other => False

/-- A one-bit variable is compared with a one-bit constant. -/
def SameWidth : Term → Term → Prop
  | .var m, .int c | .int c, .var m => oneBit m = true → c = 0 ∨ c = -1
  | _, _ => True

/-- The instructions with a one-bit result that the transfer function accepts. -/
def Accepted (i : Instruction) : Prop :=
  ∃ n, v2n[i.id]? = some n ∧ oneBit n = true ∧ match i.kind with
    | .icmp pred op0 op1 => ∃ s t, Names v2n op0 s ∧ Names v2n op1 t ∧ CmpTerms n s t ∧ pred.Handled s ∧
        SameWidth oneBit s t
    | .binary op op0 op1 => op = .xor ∧ i.bitWidth = some 1 ∧ op0.OneBit v2n oneBit ∧ op1.OneBit v2n oneBit
    | .phi incoming => incoming ≠ [] ∧ ∀ v ∈ incoming, v.OneBit v2n oneBit n
    | _ => False

/-- The conditions that a branch after the chain may test. -/
def Branchable (chain : List Instruction) : Condition → Prop
  | .icmp ic pred op0 op1 => ∃ i ∈ chain, i.id = ic ∧ i.kind = .icmp pred op0 op1
  | .value v => ∃ m, v2n[v]? = some m ∧ oneBit m = true

/-- The truth value of a condition; the operands of a comparison have not changed since. -/
def Condition.IsTrue (τ : Var → Int) (b : Bool) (cond : Condition) : Prop :=
  (Operand.value cond.val).bit v2n τ = b ∧ match cond with
    | .icmp _ pred op0 op1 => Result v2n oneBit τ b (.icmp pred op0 op1)
    | .value _ => True

end Chains

/-- In every fact of a sound manager whose assignments to a variable leave the others as they are, every
state of one-bit values that are `0` or `1` passes the chain and a branch after it: no transfer function
aborts, the resulting fact has the state in which true is `1` and false is `0`, and so does the fact of
the direction that the branch takes. -/
def TruthKept (cx : Ctx) (oneBit : Var → Bool) (chain : List Instruction) : Prop :=
  ∀ (ap : Apron) (γ : ap.Abstract1 → Set (Var → Int)), ap.Sound γ → ap.Overwrites γ →
    ∀ (interf : InterfMap ap) (nonCombinInterfs : Bool) (f : LatticeFact ap) (τ τ' : Var → Int),
      τ ∈ γ f.absVals → Encoded oneBit τ → Runs cx.v2n oneBit chain τ τ' →
      ∃ f', chain.foldlM (transferFact cx interf nonCombinInterfs) f = .ok f' ∧ τ' ∈ γ f'.absVals ∧
        ∀ cond b, Branchable cx.v2n oneBit chain cond → cond.IsTrue cx.v2n oneBit τ' b →
          ∃ f'', f'.constrainTF cx.opts cond b cx.v2n = .ok f'' ∧ τ' ∈ γ f''.absVals

/-- The comparison with a one-bit variable reads `1` as it reads `-1`. -/
def SignFree (oneBit : Var → Bool) (pred : Predicate) : Term → Term → Prop
  | .var m, .int c => oneBit m = true → (pred.Holds (-1) c ↔ pred.Holds 1 c)
  | .int c, .var m => oneBit m = true → (pred.Holds c (-1) ↔ pred.Holds c 1)
  | _, _ => True

/-- The instructions whose readings of true agree: no comparison of one-bit values that depends on the
sign and none that loses the smallest `int`, no constant true on the left of an exclusive or, and none
in a phi node. -/
def Agreed (cx : Ctx) (oneBit : Var → Bool) (i : Instruction) : Prop :=
  match i.kind with
  | .icmp pred op0 op1 => ∀ s t, Names cx.v2n op0 s → Names cx.v2n op1 t →
      CmpSafe cx.opts pred s t ∧ SignFree oneBit pred s t
  | .binary _ op0 _ => ∀ ci, op0 = .constantInt ci → ci.val.toInt ≠ -1
  | .phi incoming => ∀ ci, .constantInt ci ∈ incoming → ci.val.toInt ≠ -1
  | _ => True

section

variable {ap : Apron} {γ : ap.Abstract1 → Set (Var → Int)} {v2n : NameMap} {oneBit : Var → Bool}

theorem Box.Names.unique {op : Operand} {s t : Term} (hs : Names v2n op s) (ht : Names v2n op t) :
    s = t := by
  cases op with
  | constantInt ci =>
      cases s <;> cases t <;> simp only [Names] at hs ht
      rw [hs] at ht
      rw [Except.ok.inj ht]
  | value v =>
      cases s <;> cases t <;> simp only [Names] at hs ht
      rw [hs] at ht
      rw [Option.some.inj ht]
  | _ => cases s <;> exact absurd hs id

theorem ConstantInt.toInt_of_one_bit {ci : ConstantInt} (h : ci.bits = 1) :
    ci.val.toInt = 0 ∨ ci.val.toInt = -1 := by
  obtain ⟨bits, val⟩ := ci
  obtain rfl : bits = 1 := h
  revert val
  decide

theorem Encoded.update {τ : Var → Int} (h : Encoded oneBit τ) (n : Var) (b : Bool) :
    Encoded oneBit (Function.update τ n (truth b)) := by
  intro m hm
  by_cases hmn : m = n
  · subst hmn
    exact ⟨b, Function.update_self ..⟩
  · rw [Function.update_of_ne hmn]
    exact h m hm

/-- A named one-bit variable holds its truth value. -/
theorem Encoded.eq_truth {τ : Var → Int} (h : Encoded oneBit τ) {v : Value} {m : Var}
    (hv : v2n[v]? = some m) (hm : oneBit m = true) : τ m = truth ((Operand.value v).bit v2n τ) := by
  obtain ⟨b, hb⟩ := h m hm
  unfold Operand.bit
  rw [Operand.eval_value hv, hb]
  cases b <;> rfl

/-- Where the sign does not matter a comparison of the values in the fact is the program's. -/
theorem signed_holds {τ : Var → Int} (henc : Encoded oneBit τ) {pred : Predicate} {n : Var} {s t : Term}
    (hterms : CmpTerms n s t) (hfree : SignFree oneBit pred s t) :
    pred.Holds (s.signed oneBit τ) (t.signed oneBit τ) ↔ pred.Holds (eval τ s) (eval τ t) := by
  have hvar : ∀ m, (oneBit m = true ∧ τ m = 1) ∨ (Term.var m).signed oneBit τ = τ m := by
    intro m
    simp only [Term.signed]
    split_ifs with hm
    · obtain ⟨b, hb⟩ := henc m hm
      cases b with
      | true => exact .inl ⟨hm, hb⟩
      | false => exact .inr (by rw [hb]; rfl)
    · exact .inr rfl
  have hone : ∀ m, oneBit m = true → τ m = 1 → (Term.var m).signed oneBit τ = -1 := by
    intro m hm hval
    simp only [Term.signed, hm, if_true, hval]
  cases s with
  | var m =>
      cases t with
      | var m' => exact absurd hterms id
      | int c =>
          rcases hvar m with ⟨hm, hval⟩ | heq
          · simp only [hone m hm hval, eval, hval]
            exact hfree hm
          · rw [heq]
            rfl
  | int c =>
      cases t with
      | int c' => exact absurd hterms id
      | var m =>
          rcases hvar m with ⟨hm, hval⟩ | heq
          · simp only [hone m hm hval, eval, hval]
            exact hfree hm
          · rw [heq]
            rfl

/-! ### Exclusive or -/

/-- The truth values that are considered for an operand contain its own. -/
theorem logicOperand_sound (hS : ap.Sound γ) (useOctG : Bool) {f : LatticeFact ap} {τ : Var → Int}
    (hτ : τ ∈ γ f.absVals) (henc : Encoded oneBit τ) {op : Operand} (hop : op.OneBit v2n oneBit) (one : Int)
    (hone : one ≠ 0) (hconst : ∀ ci, op = .constantInt ci → ci.val.toInt = 0 ∨ ci.val.toInt = one)
    (msg : String) : ∃ zero one', logicOperand useOctG v2n one msg f op = .ok (zero, one') ∧
      if op.bit v2n τ then one' = true else zero = true := by
  cases op with
  | constantInt ci =>
      have hbit : (Operand.constantInt ci).bit v2n τ = decide (ci.val.toInt ≠ 0) := rfl
      have hrange : getConstantIntUnsafe ci = .ok ci.val.toInt := by
        rcases ConstantInt.toInt_of_one_bit hop with h | h <;>
          exact getConstantIntUnsafe_of_range (by rw [h]; decide) (by rw [h]; decide)
      rw [hbit]
      rcases hconst ci rfl with h | h
      · refine ⟨true, false, ?_, by simp [h]⟩
        simp only [logicOperand, hrange, bind, Except.bind, h, if_true]
        rfl
      · refine ⟨false, true, ?_, by simp [h, hone]⟩
        simp only [logicOperand, hrange, bind, Except.bind, h, hone, if_true, if_false]
        rfl
  | value v =>
      obtain ⟨m, hv, hm⟩ := hop
      have hval := henc.eq_truth hv hm
      have heq : ∀ c : Int, -(2 ^ 31) < c ∧ c < 2 ^ 31 → f.isEq useOctG (.var m) (.int c) = true → τ m = c :=
        fun c hc h => by
          have hab : (Term.var m).Orderable (.int c) := ⟨by omega, hc.2⟩
          have hba : (Term.int c).Orderable (.var m) := trivial
          exact isEq_sound hS hτ hab hba (fun _ => hc) h
      have hres : logicOperand useOctG v2n one msg f (.value v) =
          if !(f.isEq useOctG (.var m) (.int 0) || f.isEq useOctG (.var m) (.int 1)) then .ok (true, true)
          else .ok (f.isEq useOctG (.var m) (.int 0), f.isEq useOctG (.var m) (.int 1)) := by
        simp only [logicOperand, Operand.valueToStringUnsafe, mapAtUnsafe_of_getElem? hv, bind, Except.bind]
        rfl
      rw [hres]
      have h0 := heq 0 (by decide)
      have h1 := heq 1 (by decide)
      cases hz : f.isEq useOctG (.var m) (.int 0) <;> cases ho : f.isEq useOctG (.var m) (.int 1)
      · refine ⟨true, true, rfl, ?_⟩
        split_ifs <;> rfl
      · refine ⟨false, true, rfl, ?_⟩
        cases hb : (Operand.value v).bit v2n τ with
        | true => rfl
        | false =>
            rw [hb, h1 ho] at hval
            cases hval
      · refine ⟨true, false, rfl, ?_⟩
        cases hb : (Operand.value v).bit v2n τ with
        | false => rfl
        | true =>
            rw [hb, h0 hz] at hval
            cases hval
      · rw [h0 hz] at h1
        exact absurd (h1 ho) (by decide)
  | _ => exact absurd hop id

/-- **An exclusive or** without the constant true on the left. -/
theorem performLogicOp_sound (hS : ap.Sound γ) {useOctG : Bool} {f : LatticeFact ap} {τ : Var → Int}
    (hτ : τ ∈ γ f.absVals) (henc : Encoded oneBit τ) {i : Instruction} {n : Var} (hn : v2n[i.id]? = some n)
    (hw : i.bitWidth = some 1) {op0 op1 : Operand} (h0 : op0.OneBit v2n oneBit)
    (h1 : op1.OneBit v2n oneBit) (hleft : ∀ ci, op0 = .constantInt ci → ci.val.toInt ≠ -1) :
    ∃ f', performLogicOp useOctG v2n .xor i op0 op1 f = .ok f' ∧
      Function.update τ n (truth (op0.bit v2n τ ^^ op1.bit v2n τ)) ∈ γ f'.absVals := by
  obtain ⟨z0, o0, hop0, hbit0⟩ := logicOperand_sound hS useOctG hτ henc h0 1
    (by decide) (by
      rintro ci rfl
      rcases ConstantInt.toInt_of_one_bit h0 with h | h
      · exact .inl h
      · exact absurd h (hleft ci rfl)) "op0 contant != 0 or 1"
  obtain ⟨z1, o1, hop1, hbit1⟩ := logicOperand_sound hS useOctG hτ henc h1 (-1)
    (by decide) (by
      rintro ci rfl
      exact ConstantInt.toInt_of_one_bit h1) "op1 constant != 0 or 1"
  have hset : if (op0.bit v2n τ ^^ op1.bit v2n τ) then ((o0 && z1) || (z0 && o1)) = true
      else ((z0 && z1) || (o0 && o1)) = true := by
    cases hb0 : op0.bit v2n τ <;> cases hb1 : op1.bit v2n τ <;>
      simp only [hb0, hb1, if_true, Bool.false_eq_true, if_false] at hbit0 hbit1 <;>
      simp [hbit0, hbit1]
  obtain ⟨f', hf', hmem⟩ := assignTrueFalse_sound hS hτ n hset
  refine ⟨f', ?_, hmem⟩
  have hany : (!(((o0 && z1) || (z0 && o1)) || ((z0 && z1) || (o0 && o1)))) = false := by
    cases hb : (op0.bit v2n τ ^^ op1.bit v2n τ) <;>
      simp only [hb, if_true, Bool.false_eq_true, if_false] at hset <;>
      rw [hset] <;> simp
  simp only [performLogicOp, hn, hw, hop0, hop1, bind, Except.bind, hany]
  exact hf'

/-! ### Phi nodes -/

theorem LinExpr.mem_congr {e : LinExpr} {τ τ' : Var → Int} (h : ∀ t ∈ e.terms, τ t.2 = τ' t.2) {x : Int}
    (hx : e.Mem τ x) : e.Mem τ' x := by
  obtain ⟨k, hk, rfl⟩ := hx
  refine ⟨k, hk, ?_⟩
  rw [List.map_congr_left fun t ht => by rw [h t ht]]

/-- One incoming value that is not the constant true is joined as an expression for its truth value. -/
theorem joinIncoming_eq {n : Var} {v : Incoming} (hv : v.OneBit v2n oneBit n)
    (hfalse : ∀ ci, v = .constantInt ci → ci.val.toInt ≠ -1) :
    ∃ e : LinExpr, (∀ t ∈ e.terms, t.2 ≠ n) ∧
      (∀ τ, Encoded oneBit τ → e.Mem τ (truth (v.bit v2n τ))) ∧
      ∀ (ap : Apron) (ret : LatticeFact ap),
        joinIncoming v2n n ret v = .ok (ret.factJoin ⟨ap.assignLinexpr ret.absVals n e⟩) := by
  cases v with
  | constantInt ci =>
      have hzero : ci.val.toInt = 0 := by
        rcases ConstantInt.toInt_of_one_bit hv with h | h
        · exact h
        · exact absurd h (hfalse ci rfl)
      have hrange : getConstantIntUnsafe ci = .ok 0 := by
        rw [getConstantIntUnsafe_of_range] <;> rw [hzero] <;> decide
      refine ⟨⟨[], .const 0⟩, by simp, fun τ _ => ?_, fun ap ret => ?_⟩
      · have hbit : (Incoming.constantInt ci).bit v2n τ = false := by
          show decide (ci.val.toInt ≠ 0) = false
          rw [hzero]
          rfl
        rw [hbit]
        exact LinExpr.mem_const.mpr rfl
      · unfold joinIncoming
        dsimp only
        rw [hrange]
        rfl
  | cmpInst cmp =>
      obtain ⟨m, hcmp, hm, hne⟩ := hv
      refine ⟨⟨[(1, m)], .const 0⟩, ?_, fun τ henc => ?_, fun ap ret => ?_⟩
      · intro t ht
        rw [List.mem_singleton.mp ht]
        exact hne
      · exact LinExpr.mem_var.mpr (henc.eq_truth hcmp hm).symm
      · unfold joinIncoming
        dsimp only
        rw [mapAtUnsafe_of_getElem? hcmp]
        rfl
  | other => exact absurd hv id

/-- The joins keep what is there and add the truth value of each incoming value. -/
theorem foldlM_joinIncoming_sound (hS : ap.Sound γ) {τ : Var → Int} (henc : Encoded oneBit τ) {n : Var}
    {incoming : List Incoming} (hin : ∀ v ∈ incoming, v.OneBit v2n oneBit n)
    (hfalse : ∀ ci, .constantInt ci ∈ incoming → ci.val.toInt ≠ -1) (ret : LatticeFact ap) {y : Int}
    (hret : Function.update τ n y ∈ γ ret.absVals) :
    ∃ f', incoming.foldlM (joinIncoming v2n n) ret = .ok f' ∧ γ ret.absVals ⊆ γ f'.absVals ∧
      ∀ v ∈ incoming, Function.update τ n (truth (v.bit v2n τ)) ∈ γ f'.absVals := by
  induction incoming generalizing ret with
  | nil => exact ⟨ret, rfl, subset_rfl, by simp⟩
  | cons v incoming ih =>
      obtain ⟨e, hterms, hval, hjoin⟩ := joinIncoming_eq (hin v List.mem_cons_self)
        (fun ci hci => hfalse ci (hci ▸ List.mem_cons_self))
      have hmem : Function.update τ n (truth (v.bit v2n τ)) ∈ γ (ap.assignLinexpr ret.absVals n e) := by
        have hx : e.Mem (Function.update τ n y) (truth (v.bit v2n τ)) :=
          LinExpr.mem_congr (fun t ht => (Function.update_of_ne (hterms t ht) _ _).symm) (hval τ henc)
        have := hS.assignLinexpr n hret hx
        rwa [Function.update_idem] at this
      obtain ⟨f', hf', hsub, hall⟩ := ih (fun w hw => hin w (List.mem_cons_of_mem _ hw))
        (fun ci hci => hfalse ci (List.mem_cons_of_mem _ hci))
        (ret.factJoin ⟨ap.assignLinexpr ret.absVals n e⟩) (hS.joinLeft _ _ hret)
      refine ⟨f', Fallible.foldlM_cons_eq_ok.mpr ⟨_, hjoin ap ret, hf'⟩,
        (hS.joinLeft _ _).trans hsub, ?_⟩
      intro w hw
      rcases List.mem_cons.mp hw with rfl | hw
      · exact hsub (hS.joinRight _ _ hmem)
      · exact hall w hw

/-- **A phi node** without the constant true. -/
theorem performPhiInst_sound (hS : ap.Sound γ) (hO : ap.Overwrites γ) {f : LatticeFact ap} {τ : Var → Int}
    (hτ : τ ∈ γ f.absVals) (henc : Encoded oneBit τ) {phi : Value} {n : Var} (hn : v2n[phi]? = some n)
    {incoming : List Incoming} (hne : incoming ≠ []) (hin : ∀ v ∈ incoming, v.OneBit v2n oneBit n)
    (hfalse : ∀ ci, .constantInt ci ∈ incoming → ci.val.toInt ≠ -1) :
    ∃ f', performPhiInst v2n phi incoming f = .ok f' ∧
      ∀ v ∈ incoming, Function.update τ n (truth (v.bit v2n τ)) ∈ γ f'.absVals := by
  cases incoming with
  | nil => exact absurd rfl hne
  | cons v incoming =>
      obtain ⟨e, hterms, hval, hjoin⟩ := joinIncoming_eq (hin v List.mem_cons_self)
        (fun ci hci => hfalse ci (hci ▸ List.mem_cons_self))
      -- the first incoming value brings the state back
      have hfirst : Function.update τ n (truth (v.bit v2n τ)) ∈
          γ ((f.setBottom n).factJoin ⟨ap.assignLinexpr (f.setBottom n).absVals n e⟩).absVals :=
        hS.joinRight _ _ (hO n hτ hterms (hval τ henc))
      obtain ⟨f', hf', hsub, hall⟩ := foldlM_joinIncoming_sound hS henc
        (fun w hw => hin w (List.mem_cons_of_mem _ hw))
        (fun ci hci => hfalse ci (List.mem_cons_of_mem _ hci)) _ hfirst
      refine ⟨f', ?_, ?_⟩
      · unfold performPhiInst
        rw [mapAtUnsafe_of_getElem? hn]
        exact Fallible.foldlM_cons_eq_ok.mpr ⟨_, hjoin ap _, hf'⟩
      · intro w hw
        rcases List.mem_cons.mp hw with rfl | hw
        · exact hsub hfirst
        · exact hall w hw

/-! ### The chain -/

theorem CmpTerms.mixed {n : Var} {s t : Term} (h : CmpTerms n s t) :
    (∃ m c, s = .var m ∧ t = .int c) ∨ ∃ c m, s = .int c ∧ t = .var m := by
  cases s <;> cases t <;> simp [CmpTerms] at h ⊢

variable {cx : Ctx}

/-- **One instruction** of a chain returns and keeps the state with the truth value. -/
theorem transferFact_sound (hS : ap.Sound γ) (hO : ap.Overwrites γ) (interf : InterfMap ap)
    (nonCombinInterfs : Bool) {f : LatticeFact ap} {τ : Var → Int} (hτ : τ ∈ γ f.absVals)
    (henc : Encoded oneBit τ) {i : Instruction} (hacc : Accepted cx.v2n oneBit i) (hag : Agreed cx oneBit i)
    {n : Var} (hn : cx.v2n[i.id]? = some n) {b : Bool} (hres : Result cx.v2n oneBit τ b i.kind) :
    ∃ f', transferFact cx interf nonCombinInterfs f i = .ok f' ∧
      Function.update τ n (truth b) ∈ γ f'.absVals := by
  obtain ⟨n', hn', _, hkind⟩ := hacc
  obtain rfl : n' = n := Option.some.inj (hn'.symm.trans hn)
  unfold Agreed at hag
  unfold transferFact
  generalize hk : i.kind = k at hkind hag hres
  cases k with
  | icmp pred op0 op1 =>
      obtain ⟨s, t, hs, ht, hterms, hp, _⟩ := hkind
      obtain ⟨s', t', hs', ht', hb⟩ := hres
      obtain rfl := hs.unique hs'
      obtain rfl := ht.unique ht'
      obtain ⟨hsafe, hfree⟩ := hag s t hs ht
      rw [signed_holds henc hterms hfree] at hb
      dsimp only
      rw [performAssignCmp_eq hn hs ht hterms.mixed]
      exact cmpTerms_sound_of_safe hS hterms hp hsafe hτ hb
  | binary op op0 op1 =>
      obtain ⟨rfl, hw, h0, h1⟩ := hkind
      rw [show b = (op0.bit cx.v2n τ ^^ op1.bit cx.v2n τ) from hres]
      exact performLogicOp_sound hS hτ henc hn hw h0 h1 hag
  | phi incoming =>
      obtain ⟨hne, hin⟩ := hkind
      obtain ⟨v, hv, rfl⟩ := hres
      obtain ⟨f', hf', hall⟩ := performPhiInst_sound hS hO hτ henc hn hne hin hag
      exact ⟨f', hf', hall v hv⟩
  | _ => exact absurd hkind id

theorem Runs.encoded {chain : List Instruction} {τ τ' : Var → Int} (h : Runs v2n oneBit chain τ τ')
    (henc : Encoded oneBit τ) : Encoded oneBit τ' := by
  induction h with
  | nil => exact henc
  | cons _ _ _ ih => exact ih (henc.update _ _)

/-- **A run** of a chain. -/
theorem foldlM_transferFact_sound (hS : ap.Sound γ) (hO : ap.Overwrites γ) (interf : InterfMap ap)
    (nonCombinInterfs : Bool) {chain : List Instruction} (hacc : ∀ i ∈ chain, Accepted cx.v2n oneBit i)
    (hag : ∀ i ∈ chain, Agreed cx oneBit i) {f : LatticeFact ap} {τ τ' : Var → Int} (hτ : τ ∈ γ f.absVals)
    (henc : Encoded oneBit τ) (hrun : Runs cx.v2n oneBit chain τ τ') :
    ∃ f', chain.foldlM (transferFact cx interf nonCombinInterfs) f = .ok f' ∧ τ' ∈ γ f'.absVals := by
  induction hrun generalizing f with
  | nil τ => exact ⟨f, rfl, hτ⟩
  | cons hn hres _ ih =>
      obtain ⟨f₁, hf₁, hmem⟩ := transferFact_sound hS hO interf nonCombinInterfs hτ henc
        (hacc _ List.mem_cons_self) (hag _ List.mem_cons_self) hn hres
      obtain ⟨f', hf', hmem'⟩ := ih (fun i hi => hacc i (List.mem_cons_of_mem _ hi))
        (fun i hi => hag i (List.mem_cons_of_mem _ hi)) hmem (henc.update _ _)
      exact ⟨f', Fallible.foldlM_cons_eq_ok.mpr ⟨f₁, hf₁, hf'⟩, hmem'⟩

/-- **The branch** on a value of the chain keeps the states of its direction. -/
theorem constrainTF_sound (hS : ap.Sound γ) {chain : List Instruction}
    (hacc : ∀ i ∈ chain, Accepted cx.v2n oneBit i) (hag : ∀ i ∈ chain, Agreed cx oneBit i)
    {f : LatticeFact ap} {τ : Var → Int} (hτ : τ ∈ γ f.absVals) (henc : Encoded oneBit τ) {cond : Condition}
    (hcond : Branchable cx.v2n oneBit chain cond) {b : Bool} (hb : cond.IsTrue cx.v2n oneBit τ b) :
    ∃ f', f.constrainTF cx.opts cond b cx.v2n = .ok f' ∧ τ ∈ γ f'.absVals := by
  obtain ⟨hbit, hcmp⟩ := hb
  cases cond with
  | value v =>
      obtain ⟨m, hv, hm⟩ := hcond
      refine ⟨_, ?_, constrainVarTF_sound hS cx.opts.useOctG hτ (n := m) (hbit ▸ henc.eq_truth hv hm)⟩
      unfold LatticeFact.constrainTF
      rw [show (Condition.value v).val = v from rfl, mapAtUnsafe_of_getElem? hv]
      cases cx.opts.constrICmp <;> rfl
  | icmp ic pred op0 op1 =>
      obtain ⟨i, hi, rfl, hkind⟩ := hcond
      have hag := hag i hi
      obtain ⟨n, hn, hone, hacc⟩ := hacc i hi
      unfold Agreed at hag
      rw [hkind] at hacc hag
      obtain ⟨s, t, hs, ht, hterms, hp, _⟩ := hacc
      obtain ⟨s', t', hs', ht', hholds⟩ := hcmp
      obtain rfl := hs.unique hs'
      obtain rfl := ht.unique ht'
      obtain ⟨hsafe, hfree⟩ := hag s t hs ht
      rw [signed_holds henc hterms hfree] at hholds
      refine ⟨_, constrainTF_eq hn hs ht hterms.orderable.1 pred b, ?_⟩
      exact refineCmp_sound hS hterms hp hsafe hτ (hbit ▸ henc.eq_truth hn hone) hholds

theorem truthKept_of_agreed {chain : List Instruction} (hacc : ∀ i ∈ chain, Accepted cx.v2n oneBit i)
    (hag : ∀ i ∈ chain, Agreed cx oneBit i) : TruthKept cx oneBit chain := by
  intro ap γ hS hO interf nonCombinInterfs f τ τ' hτ henc hrun
  obtain ⟨f', hf', hmem⟩ := foldlM_transferFact_sound hS hO interf nonCombinInterfs hacc hag hτ henc hrun
  exact ⟨f', hf', hmem, fun cond b hcond hb =>
    constrainTF_sound hS hacc hag hmem (hrun.encoded henc) hcond hb⟩

/-! ### Nothing else agrees -/

theorem encoded_zero : Encoded oneBit fun _ => 0 :=
  fun _ _ => ⟨false, rfl⟩

theorem encoded_single {m : Var} {x : Int} (hx : oneBit m = true → ∃ b, x = truth b) :
    Encoded oneBit (single m x) := by
  intro m' hm'
  by_cases h : m' = m
  · subst h
    rw [single_self]
    exact hx hm'
  · exact ⟨false, Function.update_of_ne h _ _⟩

/-- One instruction, from one state. -/
theorem TruthKept.only {i : Instruction} (h : TruthKept cx oneBit [i]) {n : Var}
    (hn : cx.v2n[i.id]? = some n) {τ : Var → Int} (henc : Encoded oneBit τ) {b : Bool}
    (hres : Result cx.v2n oneBit τ b i.kind) :
    ∃ f', transferFact cx (∅ : InterfMap partialSets) true ⟨partialSets.only τ⟩ i = .ok f' ∧
      Function.update τ n (truth b) ∈ partialSets.states f'.absVals ∧
      ∀ cond b', Branchable cx.v2n oneBit [i] cond →
        cond.IsTrue cx.v2n oneBit (Function.update τ n (truth b)) b' →
        ∃ f'', f'.constrainTF cx.opts cond b' cx.v2n = .ok f'' ∧
          Function.update τ n (truth b) ∈ partialSets.states f''.absVals := by
  obtain ⟨f', hf', hrest⟩ := h partialSets partialSets.states partialSets.sound partialSets.overwrites ∅ true
    ⟨partialSets.only τ⟩ τ _ (partialSets.sharp.mem_only τ) henc (.cons hn hres (.nil _))
  obtain ⟨f₁, hf₁, hnil⟩ := Fallible.foldlM_cons_eq_ok.mp hf'
  cases hnil
  exact ⟨_, hf₁, hrest⟩

theorem Term.signed_update {τ : Var → Int} {n : Var} {x : Int} {t : Term} (h : t ≠ .var n) :
    t.signed oneBit (Function.update τ n x) = t.signed oneBit τ := by
  cases t with
  | int c => rfl
  | var m =>
      have hm : m ≠ n := fun heq => h (heq ▸ rfl)
      simp only [Term.signed, Function.update_of_ne hm]

theorem CmpTerms.ne {n : Var} {s t : Term} (h : CmpTerms n s t) : s ≠ .var n ∧ t ≠ .var n := by
  cases s <;> cases t <;> simp [CmpTerms] at h ⊢ <;> exact h.1

/-- A kept comparison keeps the states in the sense of the terms. -/
theorem TruthKept.cmpKeptAt {i : Instruction} (h : TruthKept cx oneBit [i]) {n : Var}
    (hn : cx.v2n[i.id]? = some n) {pred : Predicate} {op0 op1 : Operand}
    (hk : i.kind = .icmp pred op0 op1) {s t : Term} (hs : Names cx.v2n op0 s) (ht : Names cx.v2n op1 t)
    (hterms : CmpTerms n s t) {τ : Var → Int} (henc : Encoded oneBit τ) {b : Bool}
    (hb : pred.Holds (s.signed oneBit τ) (t.signed oneBit τ) ↔ b = true) :
    CmpKeptAt partialSets.states cx.opts n pred s t ⟨partialSets.only τ⟩ τ b := by
  obtain ⟨f', hf', hmem, hbranch⟩ := h.only hn henc (b := b) (by rw [hk]; exact ⟨s, t, hs, ht, hb⟩)
  unfold transferFact at hf'
  rw [hk] at hf'
  dsimp only at hf'
  rw [performAssignCmp_eq hn hs ht hterms.mixed] at hf'
  refine ⟨f', hf', hmem, ?_⟩
  obtain ⟨f'', hf'', hmem'⟩ := hbranch (.icmp i.id pred op0 op1) b ⟨i, List.mem_singleton_self i, rfl, hk⟩ (by
    refine ⟨?_, s, t, hs, ht, ?_⟩
    · show decide ((Operand.value i.id).eval cx.v2n _ ≠ 0) = b
      rw [Operand.eval_value hn, Function.update_self]
      cases b <;> rfl
    · rwa [Term.signed_update hterms.ne.1, Term.signed_update hterms.ne.2])
  rw [constrainTF_eq hn hs ht hterms.orderable.1] at hf''
  cases hf''
  exact hmem'

theorem exists_bool (P : Prop) : ∃ b : Bool, P ↔ b = true := by
  by_cases hP : P
  · exact ⟨true, by simp [hP]⟩
  · exact ⟨false, by simp [hP]⟩

/-- The variable of a comparison, and what the comparison asks of its value. -/
theorem signFree_of_kept (opts : Options) {n : Var} {pred : Predicate} {s t : Term}
    (hterms : CmpTerms n s t) (hp : pred.Handled s) (hwidth : SameWidth oneBit s t)
    (h : ∀ m, s = .var m ∨ t = .var m → ∀ (x : Int) (b : Bool), (oneBit m = true → x = 1) →
      (pred.Holds (s.signed oneBit (single m x)) (t.signed oneBit (single m x)) ↔ b = true) →
        CmpKeptAt partialSets.states opts n pred s t ⟨partialSets.only (single m x)⟩ (single m x) b) :
    SignFree oneBit pred s t := by
  -- on the state of `1` alone the comparison has one result
  have hone : ∀ m, s = .var m ∨ t = .var m → Comparable s t → Comparable t s →
      (pred.Holds (s.signed oneBit (single m 1)) (t.signed oneBit (single m 1)) ↔
        pred.Holds (eval (single m 1) s) (eval (single m 1) t)) := by
    intro m hm hst hts
    obtain ⟨b, hb⟩ := exists_bool (pred.Holds (s.signed oneBit (single m 1)) (t.signed oneBit (single m 1)))
    obtain ⟨b', hb'⟩ := exists_bool (pred.Holds (eval (single m 1) s) (eval (single m 1) t))
    obtain ⟨f₁, hf₁, hmem, _⟩ := h m hm 1 b (fun _ => rfl) hb
    rw [cmpTerms_only partialSets.sound partialSets.sharp opts.useOctG n hp hst hts hb'] at hf₁
    cases hf₁
    have hval := congrFun (assignInt_only partialSets.sharp hmem) n
    rw [Function.update_self, Function.update_self] at hval
    rw [hb, hb']
    cases b <;> cases b' <;> simp [truth] at hval ⊢
  cases s with
  | var m =>
      cases t with
      | var m' => trivial
      | int c =>
          intro hm
          have hc : Comparable (.var m) (.int c) := by
            rcases hwidth hm with rfl | rfl <;> exact ⟨by decide, by decide⟩
          have heq := hone m (.inl rfl) hc trivial
          simpa only [Term.signed, hm, if_true, single_self, eval] using heq
  | int c =>
      cases t with
      | int c' => trivial
      | var m =>
          intro hm
          have hc : Comparable (.var m) (.int c) := by
            rcases hwidth hm with rfl | rfl <;> exact ⟨by decide, by decide⟩
          have heq := hone m (.inr rfl) trivial hc
          simpa only [Term.signed, hm, if_true, single_self, eval] using heq

/-- A comparison that keeps its states agrees. -/
theorem agreed_icmp {i : Instruction} (h : TruthKept cx oneBit [i]) {n : Var}
    (hn : cx.v2n[i.id]? = some n) {pred : Predicate} {op0 op1 : Operand}
    (hk : i.kind = .icmp pred op0 op1) {s t : Term} (hs : Names cx.v2n op0 s) (ht : Names cx.v2n op1 t)
    (hterms : CmpTerms n s t) (hp : pred.Handled s) (hwidth : SameWidth oneBit s t) :
    CmpSafe cx.opts pred s t ∧ SignFree oneBit pred s t := by
  have hsafe : (∀ m, s = .var m ∨ t = .var m → oneBit m = false) → CmpSafe cx.opts pred s t := by
    intro hwide
    refine safe_of_keptAt partialSets.sound partialSets.sharp hterms hp fun m hm x b hb => ?_
    refine h.cmpKeptAt hn hk hs ht hterms
      (encoded_single fun hone => absurd (hwide m hm) (by rw [hone]; decide)) ?_
    have hsigned : ∀ u : Term, (s = u ∨ t = u) → u.signed oneBit (single m x) = eval (single m x) u := by
      intro u hu
      cases u with
      | int c => rfl
      | var m' =>
          simp only [Term.signed, hwide m' hu, Bool.false_eq_true, if_false]
          rfl
    rwa [hsigned s (.inl rfl), hsigned t (.inr rfl)]
  refine ⟨?_, signFree_of_kept cx.opts hterms hp hwidth fun m hm x b hx hb => ?_⟩
  · cases s with
    | var m =>
        cases t with
        | var m' => trivial
        | int c =>
            cases hm : oneBit m with
            | true =>
                rintro rfl
                exact absurd (hwidth hm) (by decide)
            | false =>
                refine hsafe ?_
                rintro m' (heq | heq) <;> cases heq
                exact hm
    | int c =>
        cases t with
        | int c' => trivial
        | var m =>
            cases hm : oneBit m with
            | true =>
                rintro rfl
                exact absurd (hwidth hm) (by decide)
            | false =>
                refine hsafe ?_
                rintro m' (heq | heq) <;> cases heq
                exact hm
  · exact h.cmpKeptAt hn hk hs ht hterms (encoded_single fun hone => ⟨true, hx hone⟩) hb

/-- The constant true on the left of an exclusive or aborts. -/
theorem performLogicOp_error {ap : Apron} {i : Instruction} {n : Var} (hn : v2n[i.id]? = some n)
    (hw : i.bitWidth = some 1) {ci : ConstantInt} (hci : ci.val.toInt = -1) (useOctG : Bool) (op1 : Operand)
    (f : LatticeFact ap) : performLogicOp useOctG v2n .xor i (.constantInt ci) op1 f =
      .error (.abort "op0 contant != 0 or 1") := by
  have hrange : getConstantIntUnsafe ci = .ok (-1) := by
    rw [getConstantIntUnsafe_of_range] <;> rw [hci] <;> decide
  unfold performLogicOp logicOperand
  simp only [hn, hw, hrange, bind, Except.bind]
  rfl

/-- The states in which the one-bit results of a phi node may be. -/
def NotOne (n : Var) (a : partialSets.Abstract1) : Prop :=
  ∀ σ : Var → Option Int, (id a : Set (Var → Option Int)) σ → σ n ≠ some 1 ∧ ∀ v, v ≠ n → σ v = some 0

theorem joinIncoming_notOne {n : Var} {v : Incoming} (hv : v.OneBit v2n oneBit n)
    {ret ret' : LatticeFact partialSets} (hret : NotOne n ret.absVals)
    (h : joinIncoming v2n n ret v = .ok ret') : NotOne n ret'.absVals := by
  have hassign : ∀ e : LinExpr, (∀ σ : Var → Option Int, (∀ v, v ≠ n → σ v = some 0) →
      ∀ x, partialSets.Value e σ x → x ≠ 1) →
      NotOne n (ret.factJoin ⟨partialSets.assignLinexpr ret.absVals n e⟩).absVals := by
    intro e he σ hσ
    rcases hσ with hσ | ⟨σ₀, hσ₀, ⟨x, hx, rfl⟩ | ⟨_, rfl⟩⟩
    · exact hret σ hσ
    · refine ⟨?_, fun v hv => ?_⟩
      · rw [Function.update_self]
        exact fun heq => he σ₀ (hret σ₀ hσ₀).2 x hx (Option.some.inj heq)
      · rw [Function.update_of_ne hv]
        exact (hret σ₀ hσ₀).2 v hv
    · refine ⟨?_, fun v hv => ?_⟩
      · rw [Function.update_self]
        exact nofun
      · rw [Function.update_of_ne hv]
        exact (hret σ₀ hσ₀).2 v hv
  cases v with
  | constantInt ci =>
      have hci := ConstantInt.toInt_of_one_bit hv
      unfold joinIncoming at h
      dsimp only at h
      rw [getConstantIntUnsafe_of_range (by omega) (by omega)] at h
      cases h
      refine hassign ⟨[], .const ci.val.toInt⟩ ?_
      rintro σ _ x ⟨τ, _, hx⟩
      rw [LinExpr.mem_const.mp hx]
      omega
  | cmpInst cmp =>
      obtain ⟨m, hcmp, _, hne⟩ := hv
      unfold joinIncoming at h
      dsimp only at h
      rw [mapAtUnsafe_of_getElem? hcmp] at h
      cases h
      refine hassign ⟨[(1, m)], .const 0⟩ ?_
      rintro σ hσ x ⟨τ, hterms, hx⟩
      have hval := hterms (1, m) (List.mem_singleton_self _)
      rw [hσ m hne] at hval
      rw [LinExpr.mem_var.mp hx, ← Option.some.inj hval]
      decide
  | other => exact absurd hv id

/-- **In the phi node the constant true is not `1`.** -/
theorem performPhiInst_notOne {phi : Value} {n : Var} (hn : v2n[phi]? = some n) {incoming : List Incoming}
    (hin : ∀ v ∈ incoming, v.OneBit v2n oneBit n) {f' : LatticeFact partialSets}
    (h : performPhiInst v2n phi incoming ⟨partialSets.only fun _ => 0⟩ = .ok f') : NotOne n f'.absVals := by
  unfold performPhiInst at h
  rw [mapAtUnsafe_of_getElem? hn] at h
  refine Fallible.foldlM_preserves (fun ret : LatticeFact partialSets => NotOne n ret.absVals) ?_ ?_ h
  · intro v hv ret ret' hret hstep
    exact joinIncoming_notOne (hin v hv) hret hstep
  · rintro σ ⟨σ₀, rfl, ⟨x, ⟨τ, _, hx⟩, _⟩ | ⟨_, rfl⟩⟩
    · exact absurd (LinExpr.mem_interval.mp hx) id
    · refine ⟨?_, fun v hv => ?_⟩
      · rw [Function.update_self]
        exact nofun
      · rw [Function.update_of_ne hv]
        rfl

/-- A kept instruction agrees. -/
theorem agreed_of_kept {i : Instruction} (hacc : Accepted cx.v2n oneBit i) (h : TruthKept cx oneBit [i]) :
    Agreed cx oneBit i := by
  obtain ⟨n, hn, _, hkind⟩ := hacc
  unfold Agreed
  have honly := fun b (hres : Result cx.v2n oneBit (fun _ => 0) b i.kind) => h.only hn encoded_zero hres
  unfold transferFact at honly
  have hcmp := fun pred op0 op1 (hk : i.kind = .icmp pred op0 op1) s t hs ht hterms hp hwidth =>
    agreed_icmp h hn hk (s := s) (t := t) hs ht hterms hp hwidth
  generalize i.kind = k at hkind honly hcmp
  cases k with
  | icmp pred op0 op1 =>
      obtain ⟨s, t, hs, ht, hterms, hp, hwidth⟩ := hkind
      intro s' t' hs' ht'
      obtain rfl := hs.unique hs'
      obtain rfl := ht.unique ht'
      exact hcmp pred op0 op1 rfl s t hs ht hterms hp hwidth
  | binary op op0 op1 =>
      obtain ⟨rfl, hw, _, _⟩ := hkind
      rintro ci rfl hci
      obtain ⟨f', hf', _⟩ := honly _ rfl
      dsimp only at hf'
      rw [performLogicOp_error hn hw hci] at hf'
      cases hf'
  | phi incoming =>
      obtain ⟨_, hin⟩ := hkind
      intro ci hmem hci
      have hbit : (Incoming.constantInt ci).bit cx.v2n (fun _ => 0) = true := by
        show decide (ci.val.toInt ≠ 0) = true
        rw [hci]
        rfl
      obtain ⟨f', hf', hstate, _⟩ := honly _ ⟨_, hmem, rfl⟩
      refine (performPhiInst_notOne hn hin hf' _ hstate).1 ?_
      rw [hbit]
      exact congrArg some (Function.update_self ..)
  | _ => trivial

/-- Every chain of some instructions keeps its truth values. -/
def ChainsKept (cx : Ctx) (oneBit : Var → Bool) (is : Set Instruction) : Prop :=
  ∀ chain : List Instruction, (∀ i ∈ chain, i ∈ is) → TruthKept cx oneBit chain

/-- **One encoding of truth values.**  Among instructions that the transfer function accepts, all chains
keep true as `1` and false as `0`, without aborts and through every branch, exactly when every
instruction agrees. -/
theorem truthKept_iff (cx : Ctx) (oneBit : Var → Bool) (is : Set Instruction)
    (hacc : ∀ i ∈ is, Accepted cx.v2n oneBit i) :
    ChainsKept cx oneBit is ↔ ∀ i ∈ is, Agreed cx oneBit i := by
  constructor
  · intro h i hi
    refine agreed_of_kept (hacc i hi) (h [i] fun j hj => ?_)
    rwa [List.mem_singleton.mp hj]
  · intro h chain hchain
    exact truthKept_of_agreed (fun i hi => hacc i (hchain i hi)) fun i hi => h i (hchain i hi)

end

namespace ShortCircuit

/-- The `i1` constants. -/
def bit (b : Bool) : ConstantInt :=
  ⟨1, BitVec.ofBool b⟩

/-- `%2 = phi i1 [true, lhs], [%1, rhs]`, as for `||`. -/
def phiOr : Instruction :=
  ⟨2, .phi [.constantInt (bit true), .cmpInst 1], some 1, []⟩

/-- `%2 = phi i1 [false, lhs], [%1, rhs]`, as for `&&`. -/
def phiAnd : Instruction :=
  ⟨2, .phi [.constantInt (bit false), .cmpInst 1], some 1, []⟩

/-- `%2 = xor i1 true, %1` -/
def xorLeft : Instruction :=
  ⟨2, .binary .xor (.constantInt (bit true)) (.value 1), some 1, []⟩

/-- `%2 = xor i1 %1, true`, as for `!`. -/
def xorRight : Instruction :=
  ⟨2, .binary .xor (.value 1) (.constantInt (bit true)), some 1, []⟩

/-- `%2 = icmp eq i1 %1, true` -/
def isTrue : Instruction :=
  ⟨2, .icmp .eq (.value 1) (.constantInt (bit true)), some 1, []⟩

def cx : Ctx :=
  .ofModule (.ofFunctions [] [] none) 3 {}

/-- The values `1` and `2` are of type `i1`. -/
def oneBit (v : Var) : Bool :=
  v == 1 || v == 2

theorem accepted_phi (b : Bool) :
    Accepted cx.v2n oneBit ⟨2, .phi [.constantInt (bit b), .cmpInst 1], some 1, []⟩ := by
  refine ⟨2, rfl, rfl, by simp, ?_⟩
  intro v hv
  rcases List.mem_pair.mp hv with rfl | rfl
  · rfl
  · exact ⟨1, rfl, rfl, by decide⟩

/-- The constant true is read as `-1`. -/
theorem names_true : Names cx.v2n (.constantInt (bit true)) (.int (-1)) :=
  (getConstantIntUnsafe_of_range (by decide) (by decide)).trans (congrArg _ (by decide))

theorem accepted_isTrue : Accepted cx.v2n oneBit isTrue :=
  ⟨2, rfl, rfl, .var 1, .int (-1), rfl, names_true, ⟨by decide, by decide, by decide⟩, ⟨rfl, nofun⟩,
    fun _ => .inr rfl⟩

theorem accepted_xorLeft : Accepted cx.v2n oneBit xorLeft :=
  ⟨2, rfl, rfl, rfl, rfl, rfl, 1, rfl, rfl⟩

theorem accepted_xorRight : Accepted cx.v2n oneBit xorRight :=
  ⟨2, rfl, rfl, rfl, rfl, ⟨1, rfl, rfl⟩, rfl⟩

/-- **The constant true is `-1`** in a phi node and for a comparison, and aborts on the left of an
exclusive or. -/
theorem not_truthKept : ¬ TruthKept cx oneBit [phiOr] ∧ ¬ TruthKept cx oneBit [xorLeft] ∧
    ¬ TruthKept cx oneBit [isTrue] := by
  refine ⟨fun h => ?_, fun h => ?_, fun h => ?_⟩
  · exact agreed_of_kept (accepted_phi true) h (bit true) (.head _) (by decide)
  · exact agreed_of_kept accepted_xorLeft h (bit true) rfl (by decide)
  · have hfree := (agreed_of_kept accepted_isTrue h (.var 1) (.int (-1)) rfl names_true).2 rfl
    exact absurd (hfree.mp rfl) (by simp [Predicate.Holds])

/-- Chains of `&&` and `!` keep their truth values. -/
theorem truthKept_and_not : ChainsKept cx oneBit {phiAnd, xorRight} :=
  (truthKept_iff cx oneBit {phiAnd, xorRight} (by
    rintro i (rfl | rfl)
    · exact accepted_phi false
    · exact accepted_xorRight)).mpr (by
    rintro i (rfl | rfl)
    · intro ci hci
      rcases List.mem_pair.mp hci with h | h <;> cases h
      decide
    · exact nofun)

end ShortCircuit

end Watts
