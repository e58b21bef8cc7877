import Watts.Options

/-! The interface of the Apron library that the pass calls, and over it the class `LatticeFact`:
assignments, comparisons, constraints and joins of abstract values.  Apron itself is a parameter.
Its variables are the names `v0, v1, ...` that `getName` hands out, written as their numbers. -/

namespace Watts

/-- The name `v<n>` of an Apron variable. -/
abbrev Var := Nat

/-- The map from values to their Apron names. -/
abbrev NameMap := Std.TreeMap Value Var

/-- `Utils::mapAtUnsafe`: crash when the key is not in the map. -/
def mapAtUnsafe {α : Type} (m : Std.TreeMap Value α) (key : Value) : Except Stop α :=
  match m[key]? with
  | some a => .ok a
  | none => .error (.abort "[ERROR] mapAtUnsafe: value not in map")

/-- The name of an operand that is not an integer constant. -/
def Operand.valueToStringUnsafe (v2n : NameMap) : Operand → Except Stop Var
  | .value v => mapAtUnsafe v2n v
  | _ => .error (.abort "[ERROR] mapAtUnsafe: value not in map")

/-- `Utils::getConstantIntUnsafe`: the signed value of a constant, which has to fit an `int`. -/
def getConstantIntUnsafe (ci : ConstantInt) : Except Stop Int :=
  if -(2 ^ 31) ≤ ci.val.toInt ∧ ci.val.toInt < 2 ^ 31 then
    .ok ci.val.toInt
  else
    .error (.abort "constant too large")

/-- The value of a C `int` computation: 32-bit two's complement. -/
def cInt (x : Int) : Int :=
  x.bmod (2 ^ 32)

theorem cInt_of_range {x : Int} (h₁ : -(2 ^ 31) ≤ x) (h₂ : x < 2 ^ 31) : cInt x = x := by
  unfold cInt
  rw [Int.bmod_eq_of_le] <;> omega

theorem cInt_lt (x : Int) : cInt x < 2 ^ 31 := by
  have h := @Int.bmod_lt x (2 ^ 32) (by decide)
  unfold cInt
  omega

/-- `ap_interval_t` over the integers; an absent bound is infinite. -/
inductive Interval
  | bottom
  | range (inf sup : Option Int)
deriving DecidableEq, Repr

namespace Interval

/-- The interval `[c, c]`. -/
def const (c : Int) : Interval :=
  .range (some c) (some c)

/-- The integers of an interval. -/
def Mem (x : Int) : Interval → Prop
  | .bottom => False
  | .range lo hi => (∀ l ∈ lo, l ≤ x) ∧ ∀ h ∈ hi, x ≤ h

end Interval

/-- `ap_linexpr1_t`: a sum of scaled variables and an interval. -/
structure LinExpr where
  terms : List (Int × Var)
  cst : Interval := .const 0
deriving DecidableEq, Repr

/-- `ap_constyp_t`, the constraint types that the pass uses. -/
inductive ConsType
  | eq | supeq | sup | diseq
deriving DecidableEq, Repr

/-- `ap_lincons1_t`: the linear expression compared with zero. -/
structure LinCons where
  ty : ConsType
  terms : List (Int × Var)
  cst : Int
deriving DecidableEq, Repr

/-- `ap_texpr1_t`, the integer tree expressions that the pass builds. -/
inductive TExpr
  | add (op1 op2 : Var)
  | mul (cst : Int) (op : Var)
  | mod (op : Var) (cst : Int)
deriving DecidableEq, Repr

/-- The functions of an Apron manager. -/
structure Apron where
  Abstract1 : Type
  bottom : Abstract1
  top : Abstract1
  isLeq : Abstract1 → Abstract1 → Bool
  isEq : Abstract1 → Abstract1 → Bool
  isBottom : Abstract1 → Bool
  join : Abstract1 → Abstract1 → Abstract1
  assignLinexpr : Abstract1 → Var → LinExpr → Abstract1
  assignTexpr : Abstract1 → Var → TExpr → Abstract1
  boundVariable : Abstract1 → Var → Interval
  satLincons : Abstract1 → LinCons → Bool
  meetLincons : Abstract1 → LinCons → Abstract1

/-- The abstract value of the class `LatticeFact`. -/
structure LatticeFact (ap : Apron) where
  absVals : ap.Abstract1

/-- An operand of a comparison or constraint after naming: a variable or an `int`. -/
inductive Term
  | var (v : Var)
  | int (c : Int)
deriving DecidableEq, Repr

namespace LatticeFact

variable {ap : Apron}

/-- Whether this fact is contained in the other. -/
def leq (f other : LatticeFact ap) : Bool :=
  ap.isLeq f.absVals other.absVals

def isBottom (f : LatticeFact ap) : Bool :=
  ap.isBottom f.absVals

def areValsLEq (f1 f2 : LatticeFact ap) : Bool :=
  ap.isLeq f1.absVals f2.absVals

def areValsGEq (f1 f2 : LatticeFact ap) : Bool :=
  ap.isLeq f2.absVals f1.absVals

def areValsEq (f1 f2 : LatticeFact ap) : Bool :=
  ap.isEq f1.absVals f2.absVals

def factJoin (lf1 lf2 : LatticeFact ap) : LatticeFact ap :=
  ⟨ap.join lf1.absVals lf2.absVals⟩

/-- `assign(to, int)` -/
def assignInt (f : LatticeFact ap) (dst : Var) (c : Int) : LatticeFact ap :=
  ⟨ap.assignLinexpr f.absVals dst ⟨[], .const c⟩⟩

/-- `assign(to, from)` -/
def assignVar (f : LatticeFact ap) (dst src : Var) : LatticeFact ap :=
  ⟨ap.assignLinexpr f.absVals dst ⟨[(1, src)], .const 0⟩⟩

def assignInterval (f : LatticeFact ap) (v : Var) (interv : Interval) : LatticeFact ap :=
  ⟨ap.assignLinexpr f.absVals v ⟨[], interv⟩⟩

def setBottom (f : LatticeFact ap) (dst : Var) : LatticeFact ap :=
  f.assignInterval dst .bottom

def getVarInterval (f : LatticeFact ap) (v : Var) : Interval :=
  ap.boundVariable f.absVals v

/-- `add(to, op, int)` -/
def addInt (f : LatticeFact ap) (dst op : Var) (c : Int) : LatticeFact ap :=
  ⟨ap.assignLinexpr f.absVals dst ⟨[(1, op)], .const c⟩⟩

/-- `add(to, op1, op2)` -/
def addVar (f : LatticeFact ap) (dst op1 op2 : Var) : LatticeFact ap :=
  ⟨ap.assignTexpr f.absVals dst (.add op1 op2)⟩

def mul (f : LatticeFact ap) (dst op : Var) (c : Int) : LatticeFact ap :=
  ⟨ap.assignTexpr f.absVals dst (.mul c op)⟩

def mod (f : LatticeFact ap) (dst op : Var) (c : Int) : LatticeFact ap :=
  ⟨ap.assignTexpr f.absVals dst (.mod op c)⟩

/-- The constraint `op0 - op1 ⋈ 0`.  The source has one overload for each position of an `int`; the
negated right `int` is itself computed in `int`. -/
def createSubConstr (op0 op1 : Term) (cons : ConsType) : LinCons :=
  match op0, op1 with
  | .var v0, .var v1 => ⟨cons, [(1, v0), (-1, v1)], 0⟩
  | .int c0, .var v1 => ⟨cons, [(-1, v1)], c0⟩
  | .var v0, .int c1 => ⟨cons, [(1, v0)], cInt (-1 * c1)⟩
  | .int c0, .int c1 => ⟨cons, [], cInt (c0 - c1)⟩

def isSat (f : LatticeFact ap) (cons : LinCons) : Bool :=
  ap.satLincons f.absVals cons

def isGeq (f : LatticeFact ap) (op1 op2 : Term) : Bool :=
  f.isSat (createSubConstr op1 op2 .supeq)

def isLeq (f : LatticeFact ap) (op1 op2 : Term) : Bool :=
  f.isGeq op2 op1

def isGT (f : LatticeFact ap) (op1 op2 : Term) : Bool :=
  f.isSat (createSubConstr op1 op2 .sup)

def isLT (f : LatticeFact ap) (op1 op2 : Term) : Bool :=
  f.isGT op2 op1

/-- Equality; octagons test it as two inequalities. -/
def isEq (useOctG : Bool) (f : LatticeFact ap) (op1 op2 : Term) : Bool :=
  if useOctG then
    f.isGeq op1 op2 && f.isLeq op1 op2
  else
    f.isSat (createSubConstr op1 op2 .eq)

/-- Disequality; octagons test it as two strict inequalities. -/
def isNEq (useOctG : Bool) (f : LatticeFact ap) (op1 op2 : Term) : Bool :=
  if useOctG then
    if f.isLT op1 op2 then true else f.isGT op1 op2
  else
    f.isSat (createSubConstr op1 op2 .diseq)

/-- Set a truth value; the caller has asked for at least one of the two. -/
def assignTrueFalse (f : LatticeFact ap) (dst : Var) (setTrue setFalse : Bool) :
    Except Stop (LatticeFact ap) :=
  if setTrue && setFalse then
    .ok (f.assignInterval dst (.range (some 0) (some 1)))
  else if setTrue then
    .ok (f.assignInt dst 1)
  else if setFalse then
    .ok (f.assignInt dst 0)
  else
    .error (.abort "neither set-true nor set-false")

/-- The common body of the comparisons: when neither the predicate nor its negation is certain,
both are assumed. -/
def assignCmp (f : LatticeFact ap) (dst : Var) (sat unsat : Bool) : Except Stop (LatticeFact ap) :=
  if !sat && !unsat then
    f.assignTrueFalse dst true true
  else
    f.assignTrueFalse dst sat unsat

def icmpEq (useOctG : Bool) (f : LatticeFact ap) (dst : Var) (op1 op2 : Term) :
    Except Stop (LatticeFact ap) :=
  f.assignCmp dst (f.isEq useOctG op1 op2) (f.isNEq useOctG op1 op2)

/-- The overload with the constant on the left is not implemented. -/
def icmpNEq (useOctG : Bool) (f : LatticeFact ap) (dst : Var) (op1 op2 : Term) :
    Except Stop (LatticeFact ap) :=
  match op1 with
  | .int _ => .error (.abort "unimplemented")
  | .var _ => f.assignCmp dst (f.isNEq useOctG op1 op2) (f.isEq useOctG op1 op2)

def icmpGt (f : LatticeFact ap) (dst : Var) (op1 op2 : Term) : Except Stop (LatticeFact ap) :=
  f.assignCmp dst (f.isGT op1 op2) (f.isLeq op1 op2)

def icmpLeq (f : LatticeFact ap) (dst : Var) (op1 op2 : Term) : Except Stop (LatticeFact ap) :=
  f.assignCmp dst (f.isLeq op1 op2) (f.isGT op1 op2)

def icmpLt (f : LatticeFact ap) (dst : Var) (op1 op2 : Term) : Except Stop (LatticeFact ap) :=
  f.assignCmp dst (f.isLT op1 op2) (f.isGeq op1 op2)

def icmpGeq (f : LatticeFact ap) (dst : Var) (op1 op2 : Term) : Except Stop (LatticeFact ap) :=
  f.assignCmp dst (f.isGeq op1 op2) (f.isLT op1 op2)

def meetAndFreeConstr (f : LatticeFact ap) (cons : LinCons) : LatticeFact ap :=
  ⟨ap.meetLincons f.absVals cons⟩

def meetGeq (f : LatticeFact ap) (op0 op1 : Term) : LatticeFact ap :=
  f.meetAndFreeConstr (createSubConstr op0 op1 .supeq)

def meetGt (f : LatticeFact ap) (op0 op1 : Term) : LatticeFact ap :=
  f.meetAndFreeConstr (createSubConstr op0 op1 .sup)

def meetLt (f : LatticeFact ap) (op0 op1 : Term) : LatticeFact ap :=
  f.meetAndFreeConstr (createSubConstr op1 op0 .sup)

def meetLeq (f : LatticeFact ap) (op0 op1 : Term) : LatticeFact ap :=
  f.meetAndFreeConstr (createSubConstr op1 op0 .supeq)

def meetEq (useOctG : Bool) (f : LatticeFact ap) (op0 op1 : Term) : LatticeFact ap :=
  if useOctG then
    (f.meetLeq op0 op1).meetGeq op0 op1
  else
    f.meetAndFreeConstr (createSubConstr op0 op1 .eq)

def meetNEq (useOctG : Bool) (f : LatticeFact ap) (op0 op1 : Term) : LatticeFact ap :=
  if useOctG then
    factJoin (f.meetLt op0 op1) (f.meetGt op0 op1)
  else
    f.meetAndFreeConstr (createSubConstr op0 op1 .diseq)

def meetConstrTy (useOctG : Bool) (f : LatticeFact ap) (op0 op1 : Term) (cons : ConsType) :
    LatticeFact ap :=
  match cons with
  | .eq => f.meetEq useOctG op0 op1
  | .supeq => f.meetGeq op0 op1
  | .sup => f.meetGt op0 op1
  | .diseq => f.meetNEq useOctG op0 op1

/-- `constrainTF(b, tf)` on a variable: keep the states where it is `1`, respectively `0`. -/
def constrainVarTF (useOctG : Bool) (f : LatticeFact ap) (b : Var) (tf : Bool) : LatticeFact ap :=
  f.meetEq useOctG (.var b) (.int (if tf then 1 else 0))

/-- `constrainFact(Value, Value, cons)` -/
def constrainFact (useOctG : Bool) (f : LatticeFact ap) (op0 op1 : Operand) (cons : ConsType)
    (v2n : NameMap) : Except Stop (LatticeFact ap) :=
  match op0, op1 with
  | .constantInt _, .constantInt _ => .error (.abort "constraining with two constants")
  | .constantInt ci0, op1 => do
    let val0 ← getConstantIntUnsafe ci0
    let op1Str ← op1.valueToStringUnsafe v2n
    return f.meetConstrTy useOctG (.int val0) (.var op1Str) cons
  | op0, .constantInt ci1 => do
    let val1 ← getConstantIntUnsafe ci1
    let op0Str ← op0.valueToStringUnsafe v2n
    return f.meetConstrTy useOctG (.var op0Str) (.int val1) cons
  | op0, op1 => do
    let op0Str ← op0.valueToStringUnsafe v2n
    let op1Str ← op1.valueToStringUnsafe v2n
    return f.meetConstrTy useOctG (.var op0Str) (.var op1Str) cons

/-- Constrain with the predicate of an `icmp` whose result is `tf`; signedness is ignored. -/
def constrainICmp (useOctG : Bool) (f : LatticeFact ap) (pred : Predicate) (op0 op1 : Operand)
    (tf : Bool) (v2n : NameMap) : Except Stop (LatticeFact ap) :=
  match pred with
  | .ne =>
    if !tf then f.constrainFact useOctG op0 op1 .eq v2n
    else f.constrainFact useOctG op0 op1 .diseq v2n
  | .eq =>
    if !tf then f.constrainFact useOctG op0 op1 .diseq v2n
    else f.constrainFact useOctG op0 op1 .eq v2n
  | .ugt | .sgt =>
    if !tf then f.constrainFact useOctG op1 op0 .supeq v2n
    else f.constrainFact useOctG op0 op1 .sup v2n
  | .ult | .slt =>
    if !tf then f.constrainFact useOctG op0 op1 .supeq v2n
    else f.constrainFact useOctG op1 op0 .sup v2n
  | .uge | .sge =>
    if !tf then f.constrainFact useOctG op1 op0 .sup v2n
    else f.constrainFact useOctG op0 op1 .supeq v2n
  | .ule | .sle =>
    if !tf then f.constrainFact useOctG op0 op1 .sup v2n
    else f.constrainFact useOctG op1 op0 .supeq v2n

/-- `constrainTF(Value, tf)`: constrain the condition of a branch and, when it is an `icmp` and
this is enabled, its predicate. -/
def constrainTF (opts : Options) (f : LatticeFact ap) (cond : Condition) (tf : Bool)
    (v2n : NameMap) : Except Stop (LatticeFact ap) := do
  let vstr ← mapAtUnsafe v2n cond.val
  match opts.constrICmp, cond with
  | true, .icmp _ pred op0 op1 =>
    let ret ← f.constrainICmp opts.useOctG pred op0 op1 tf v2n
    return ret.constrainVarTF opts.useOctG vstr tf
  | _, _ => return f.constrainVarTF opts.useOctG vstr tf

end LatticeFact

end Watts
