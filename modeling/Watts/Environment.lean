import Watts.LatticeFact
import Watts.Library.Fallible
import Watts.Library.Numbering
import Watts.Library.PartialInverse

/-! The variables of the Apron environment: the values that the visitor, the globals and the parameters
yield, and the names that `createEnvironment` gives them.  The names number the values in the order in which
they are found. -/

namespace Watts

open Fallible (bind_eq_ok foldlM_invariant)
open Numbering (number)
open PartialInverse (Inverse)

/-- The classes of types that the collection of the variables tells apart. -/
inductive Ty
  | integer | floatingPoint | pointer | vector | struct | array | other
deriving DecidableEq, Repr

/-- What LLVM knows of a program beyond what the rest of the pass reads: the types of results, of the
contents of globals and of the parameters of each function, and which instructions of no other kind are
comparisons or unary. -/
structure Types where
  result : Value → Ty
  content : Value → Ty
  parameters : FuncId → List (Value × Ty)
  isUnaryOrCmp : Value → Bool

/-- `VarVisitor::Vars` -/
structure Vars where
  ints : List Value := []
  floats : List Value := []

namespace VarVisitor

def mergeVars (v1 v2 : Vars) : Vars :=
  ⟨v1.ints ++ v2.ints, v1.floats ++ v2.floats⟩

section Visit

variable (types : Types)

/-- Enter an instruction by the type of its result. -/
def handleInstructionWithRet (vars : Vars) (i : Instruction) : Except Stop Vars :=
  match types.result i.id with
  | .floatingPoint => .ok { vars with floats := vars.floats ++ [i.id] }
  | .integer | .pointer => .ok { vars with ints := vars.ints ++ [i.id] }
  | .vector => .error (.abort "vectors are unhandled")
  | .struct => .error (.abort "structures are unhandled")
  | .array => .error (.abort "arrays are unhandled")
  | .other => .error (.abort "unhhandled  type; see above")

/-- The instructions with a method of the visitor: phi nodes, binary and unary operators, allocations,
loads, comparisons, casts and `atomicrmw`. -/
def visits (i : Instruction) : Bool :=
  match i.kind with
  | .alloca | .load _ | .icmp .. | .binary .. | .cast _ | .phi _ | .atomicRMW .. => true
  | .other => types.isUnaryOrCmp i.id
  | _ => false

def visitInst (vars : Vars) (i : Instruction) : Except Stop Vars :=
  if visits types i then handleInstructionWithRet types vars i else .ok vars

def visit (M : Module) : Except Stop Vars :=
  M.instrs.foldlM (visitInst types) {}

end Visit

end VarVisitor

section Collect

variable (types : Types) (M : Module)

def Types.isIntegerGlobal (g : GlobalVariable) : Bool :=
  types.content g.id == .integer

def Types.isFloatGlobal (g : GlobalVariable) : Bool :=
  types.content g.id == .floatingPoint

/-- A global that is neither is only warned about. -/
def addGlobal (vars : Vars) (g : GlobalVariable) : Vars :=
  if types.isIntegerGlobal g then { vars with ints := vars.ints ++ [g.id] }
  else if types.isFloatGlobal g then { vars with floats := vars.floats ++ [g.id] }
  else vars

def getAllVarNames : Except Stop Vars := do
  let vars ← VarVisitor.visit types M
  return M.globals.foldl (addGlobal types) vars

def addParameter (vars : Vars) (a : Value × Ty) : Except Stop Vars :=
  match a.2 with
  | .pointer | .integer => .ok { vars with ints := vars.ints ++ [a.1] }
  | .floatingPoint => .ok { vars with floats := vars.floats ++ [a.1] }
  | _ => .error (.abort "see above")

def getFuncParamNames : Except Stop Vars :=
  (M.functions.flatMap fun f => types.parameters f.id).foldlM addParameter {}

/-- All variables of the environment. -/
def getVars : Except Stop Vars := do
  let vs ← getAllVarNames types M
  return VarVisitor.mergeVars vs (← getFuncParamNames types M)

end Collect

/-! ### Names -/

/-- The two maps of `createEnvironment`. -/
structure ValueNames where
  valToName : NameMap := {}
  nameToVal : Std.TreeMap Var Value := {}

/-- The name of a value, which gets a fresh one when it has none. -/
def getName (names : ValueNames) (v : Value) : Var × ValueNames :=
  match names.valToName[v]? with
  | none =>
    let newSz := names.valToName.size
    (newSz, ⟨names.valToName.insert v newSz, names.nameToVal.insertIfNew newSz v⟩)
  | some name => (name, names)

def getNames (names : ValueNames) (vs : List Value) : ValueNames :=
  vs.foldl (fun names v => (getName names v).2) names

/-- The maps with the names of all variables, those of the integers first.  The environment that Apron
allocates for them is not modelled. -/
def createEnvironment (types : Types) (M : Module) : Except Stop ValueNames := do
  let vs ← getVars types M
  return getNames (getNames {} vs.ints) vs.floats

/-- The names number the values of `vs`, which are pairwise different. -/
structure ValueNames.Number (names : ValueNames) (vs : List Value) : Prop where
  nodup : vs.Nodup
  size : names.valToName.size = vs.length
  valToName : ∀ v : Value, names.valToName[v]? = if v ∈ vs then some (vs.idxOf v) else none
  nameToVal : ∀ n : Var, names.nameToVal[n]? = vs[n]?

namespace ValueNames.Number

theorem empty : ValueNames.Number {} [] :=
  ⟨List.nodup_nil, rfl, fun v => by simp, fun n => by simp⟩

variable {names : ValueNames} {vs : List Value}

/-- **One value**: it keeps its number or gets the next one. -/
theorem getName (h : names.Number vs) (v : Value) :
    (Watts.getName names v).2.Number (if v ∈ vs then vs else vs ++ [v]) ∧
      (Watts.getName names v).1 = (if v ∈ vs then vs else vs ++ [v]).idxOf v := by
  unfold Watts.getName
  by_cases hv : v ∈ vs
  · rw [h.valToName, if_pos hv, if_pos hv]
    exact ⟨h, rfl⟩
  · have hnone : names.valToName[v]? = none := by rw [h.valToName, if_neg hv]
    rw [hnone, if_neg hv]
    dsimp only
    rw [h.size]
    refine ⟨⟨?_, ?_, fun w => ?_, fun n => ?_⟩, by simp [List.idxOf_append_of_notMem hv]⟩
    · rw [List.nodup_append]
      refine ⟨h.nodup, List.nodup_singleton v, fun a ha b hb heq => hv ?_⟩
      rwa [← List.mem_singleton.mp hb, ← heq]
    · rw [PartialInverse.size_insert hnone, h.size, List.length_append]
      rfl
    · rw [Std.TreeMap.getElem?_insert]
      by_cases hw : w = v
      · subst hw
        simp [List.idxOf_append_of_notMem hv]
      · have hne : ¬ v = w := fun heq => hw heq.symm
        rw [if_neg (by simpa using hne), h.valToName]
        by_cases hmem : w ∈ vs
        · rw [if_pos hmem, if_pos (List.mem_append_left _ hmem), List.idxOf_append_of_mem hmem]
        · rw [if_neg hmem, if_neg (by simpa [hw] using hmem)]
    · have hnew : vs.length ∉ names.nameToVal := by
        rw [← Std.TreeMap.isSome_getElem?_iff_mem, h.nameToVal]
        simp
      rw [Std.TreeMap.getElem?_insertIfNew, h.nameToVal]
      by_cases hn : n = vs.length
      · subst hn
        simp [hnew]
      · have hne : ¬ vs.length = n := fun heq => hn heq.symm
        rw [if_neg (fun hc => hne (Nat.compare_eq_eq.mp hc.1)), List.getElem?_append]
        split_ifs with hlt
        · rfl
        · rw [List.getElem?_eq_none (Nat.not_lt.mp hlt), List.getElem?_eq_none]
          simp only [List.length_singleton]
          omega

/-- **The names number the values** in the order in which they first occur. -/
theorem getNames (h : names.Number vs) (ws : List Value) : (Watts.getNames names ws).Number (number vs ws) := by
  induction ws generalizing names vs with
  | nil => exact h
  | cons w ws ih => exact ih (h.getName w).1

/-- The two maps are inverse to each other. -/
theorem inverse (h : names.Number vs) :
    Inverse (fun v : Value => names.valToName[v]?) (fun n : Var => names.nameToVal[n]?) := by
  intro v n
  dsimp only
  rw [h.valToName, h.nameToVal]
  constructor
  · intro hv
    split_ifs at hv with hmem
    rw [← Option.some.inj hv]
    exact List.getElem?_idxOf hmem
  · intro hn
    obtain ⟨hlt, rfl⟩ := List.getElem?_eq_some_iff.mp hn
    rw [if_pos (List.getElem_mem hlt), h.nodup.idxOf_getElem n hlt]

end ValueNames.Number

/-! ### The variables -/

/-- The values that have a variable, in the order in which they are named. -/
def Vars.values (vars : Vars) : List Value :=
  vars.ints ++ vars.floats

theorem createEnvironment_number {types : Types} {M : Module} {names : ValueNames}
    (h : createEnvironment types M = .ok names) :
    ∃ vs, getVars types M = .ok vs ∧ names.Number (number [] vs.values) := by
  obtain ⟨vs, hvs, h⟩ := bind_eq_ok.mp h
  cases h
  refine ⟨vs, hvs, ?_⟩
  unfold Vars.values
  rw [Numbering.number_append]
  exact (ValueNames.Number.empty.getNames vs.ints).getNames vs.floats

/-- What has a variable: the instructions that are visited, the globals of integer and floating point type,
and the parameters. -/
def IsVariable (types : Types) (M : Module) (v : Value) : Prop :=
  (∃ i ∈ M.instrs, VarVisitor.visits types i = true ∧ i.id = v) ∨
    (∃ g ∈ M.globals, (types.isIntegerGlobal g || types.isFloatGlobal g) = true ∧ g.id = v) ∨
    ∃ f ∈ M.functions, ∃ a ∈ types.parameters f.id, a.1 = v

section

variable {types : Types} {M : Module} {vars vars' : Vars} {v : Value}

theorem VarVisitor.visitInst_values {i : Instruction} (h : visitInst types vars i = .ok vars') :
    v ∈ vars'.values ↔ v ∈ vars.values ∨ visits types i = true ∧ i.id = v := by
  unfold visitInst at h
  split_ifs at h with hvisits
  · unfold handleInstructionWithRet at h
    cases htype : types.result i.id <;> rw [htype] at h <;> cases h <;>
      simp only [Vars.values, List.mem_append, List.mem_singleton, hvisits, true_and, eq_comm (a := v)] <;> tauto
  · cases h
    simp [hvisits]

theorem addGlobal_values (g : GlobalVariable) :
    v ∈ (addGlobal types vars g).values ↔
      v ∈ vars.values ∨ (types.isIntegerGlobal g || types.isFloatGlobal g) = true ∧ g.id = v := by
  unfold addGlobal
  split_ifs with hint hfloat
  · simp only [Vars.values, List.mem_append, List.mem_singleton, hint, Bool.true_or, true_and, eq_comm (a := v)]
    tauto
  · simp only [Vars.values, List.mem_append, List.mem_singleton, hfloat, Bool.or_true, true_and, eq_comm (a := v)]
    tauto
  · simp [hint, hfloat]

theorem addGlobals_values (gs : List GlobalVariable) :
    v ∈ (gs.foldl (addGlobal types) vars).values ↔
      v ∈ vars.values ∨ ∃ g ∈ gs, (types.isIntegerGlobal g || types.isFloatGlobal g) = true ∧ g.id = v := by
  induction gs generalizing vars with
  | nil => simp
  | cons g gs ih =>
      rw [List.foldl_cons, ih, addGlobal_values, or_assoc]
      simp [or_and_right, exists_or]

theorem addParameter_values {a : Value × Ty} (h : addParameter vars a = .ok vars') :
    v ∈ vars'.values ↔ v ∈ vars.values ∨ a.1 = v := by
  unfold addParameter at h
  cases htype : a.2 <;> rw [htype] at h <;> cases h <;>
    simp only [Vars.values, List.mem_append, List.mem_singleton, eq_comm (a := v)] <;> tauto

/-- **The variables** that are collected. -/
theorem getVars_values (h : getVars types M = .ok vars) : v ∈ vars.values ↔ IsVariable types M v := by
  obtain ⟨vs, hvs, h⟩ := bind_eq_ok.mp h
  obtain ⟨params, hparams, h⟩ := bind_eq_ok.mp h
  cases h
  obtain ⟨insts, hinsts, hvs⟩ := bind_eq_ok.mp hvs
  cases hvs
  have hvisited : v ∈ insts.values ↔ ∃ i ∈ M.instrs, VarVisitor.visits types i = true ∧ i.id = v := by
    refine foldlM_invariant (fun done (vars : Vars) =>
      v ∈ vars.values ↔ ∃ i ∈ done, VarVisitor.visits types i = true ∧ i.id = v) ?_ (by simp [Vars.values]) hinsts
    intro done i vars vars' hdone hi
    rw [VarVisitor.visitInst_values hi, hdone]
    simp [or_and_right, exists_or]
  have hglobals : v ∈ (M.globals.foldl (addGlobal types) insts).values ↔ v ∈ insts.values ∨
      ∃ g ∈ M.globals, (types.isIntegerGlobal g || types.isFloatGlobal g) = true ∧ g.id = v :=
    addGlobals_values M.globals
  have hparameters : v ∈ params.values ↔ ∃ f ∈ M.functions, ∃ a ∈ types.parameters f.id, a.1 = v := by
    have hall := foldlM_invariant (fun done (vars : Vars) => v ∈ vars.values ↔ ∃ a ∈ done, a.1 = v)
      (fun done a vars vars' hdone ha => by
        rw [addParameter_values ha, hdone]
        simp [or_and_right, exists_or]) (by simp [Vars.values]) hparams
    rw [hall]
    simp only [List.mem_flatMap]
    constructor
    · rintro ⟨a, ⟨f, hf, ha⟩, rfl⟩
      exact ⟨f, hf, a, ha, rfl⟩
    · rintro ⟨f, hf, a, ha, rfl⟩
      exact ⟨a, ⟨f, hf, ha⟩, rfl⟩
  have hmerge : v ∈ (VarVisitor.mergeVars (M.globals.foldl (addGlobal types) insts) params).values ↔
      v ∈ (M.globals.foldl (addGlobal types) insts).values ∨ v ∈ params.values := by
    simp only [VarVisitor.mergeVars, Vars.values, List.mem_append]
    tauto
  rw [hmerge, hglobals, hvisited, hparameters, or_assoc]
  rfl

/-- The values that have a name are the variables. -/
theorem isSome_valToName {names : ValueNames} (h : createEnvironment types M = .ok names) (v : Value) :
    names.valToName[v]?.isSome ↔ IsVariable types M v := by
  obtain ⟨vs, hvs, hnames⟩ := createEnvironment_number h
  have hmem : v ∈ number [] vs.values ↔ v ∈ vs.values := by
    rw [Numbering.mem_number]
    simp
  rw [hnames.valToName, ← getVars_values hvs, ← hmem]
  split_ifs with hv
  · exact ⟨fun _ => hv, fun _ => rfl⟩
  · exact ⟨fun h => absurd h Bool.false_ne_true, fun h => absurd h hv⟩

/-- **The names**: each variable has one, no two have the same, and they are the numbers below how many there
are. -/
theorem createEnvironment_inverse {names : ValueNames} (h : createEnvironment types M = .ok names) :
    Inverse (fun v : Value => names.valToName[v]?) (fun n : Var => names.nameToVal[n]?) ∧
      (∀ v, names.valToName[v]?.isSome ↔ IsVariable types M v) ∧
      ∀ n, names.nameToVal[n]?.isSome ↔ n < names.valToName.size := by
  obtain ⟨vs, _, hnames⟩ := createEnvironment_number h
  refine ⟨hnames.inverse, isSome_valToName h, fun n => ?_⟩
  rw [hnames.nameToVal, hnames.size]
  simp

end

namespace Variables

/-- `x = load y; y = x + 1` in a function with a floating point and an integer parameter. -/
def program : Module :=
  .ofFunctions [.ofBlocks 0 [.ofInstrs 1 [⟨11, .load 101, some 32, []⟩,
    ⟨12, .binary .add (.value 11) (.constantInt ⟨32, 1⟩), some 32, []⟩, ⟨13, .store (.value 12) 101, none, []⟩]
      ⟨14, .ret, none, []⟩]]
    [⟨100, some .other⟩, ⟨101, some (.constantInt ⟨32, 0⟩)⟩, ⟨102, some .other⟩] (some 0)

def types : Types where
  result _ := .integer
  content v := if v = 100 then .floatingPoint else if v = 101 then .integer else .struct
  parameters _ := [(15, .floatingPoint), (16, .integer)]
  isUnaryOrCmp _ := false

/-- Six values have a name; the third global has none. -/
theorem createEnvironment_inverse_program : ∃ names, createEnvironment types program = .ok names ∧
    names.valToName.toList = [(11, 0), (12, 1), (15, 5), (16, 3), (100, 4), (101, 2)] ∧
    Inverse (fun v : Value => names.valToName[v]?) (fun n : Var => names.nameToVal[n]?) ∧
      (∀ v, names.valToName[v]?.isSome ↔ IsVariable types program v) ∧
      ∀ n, names.nameToVal[n]?.isSome ↔ n < names.valToName.size := by
  obtain ⟨names, hnames, hlist⟩ := Fallible.exists_ok_of_toOption (x := createEnvironment types program)
    (f := fun names => names.valToName.toList)
    (c := [(11, 0), (12, 1), (15, 5), (16, 3), (100, 4), (101, 2)]) (by decide)
  exact ⟨names, hnames, hlist, createEnvironment_inverse hnames⟩

end Variables

end Watts
