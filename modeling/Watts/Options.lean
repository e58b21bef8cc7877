import Watts.IR

/-! The command line flags of the pass, the check of their combinations, and the sets of
instructions that the slicing flags select by metadata. -/

namespace Watts

/-- The command line flags that the modelled code reads. -/
structure Options where
  useBoxG : Bool := false
  useOctG : Bool := false
  usePolyG : Bool := false
  useLinEqG : Bool := false
  noCombinsG : Bool := false
  useConstraintsG : Bool := false
  assertSliceG : Bool := false
  impactG : Bool := false
  dynInitG : Bool := false
  filterMHB : Bool := false
  tsoConstrG : Bool := false
  psoConstrG : Bool := false
  rmoConstrG : Bool := false
  constrICmp : Bool := true
  z3BinLocG : String := ""
deriving DecidableEq, Repr

/-- Reject the invalid combinations of flags; `-constraints` switches `-dyninit` on. -/
def checkCommandLineArgs (o : Options) : Except Stop Options :=
  if !o.useBoxG && !o.useOctG && !o.usePolyG && !o.useLinEqG then
    .error (.abort "[ERROR] Select an abstract domain (-box, -oct, -pkpoly -pklineq)\n")
  else if o.tsoConstrG && o.psoConstrG then
    .error (.abort "[ERROR] both -pso and -tso cannot be used\n")
  else if (o.useBoxG && (o.useOctG || o.usePolyG || o.useLinEqG))
      || (o.useOctG && (o.useBoxG || o.usePolyG || o.useLinEqG))
      || (o.usePolyG && (o.useBoxG || o.useOctG || o.useLinEqG))
      || (o.useLinEqG && (o.useBoxG || o.useOctG || o.usePolyG)) then
    .error (.abort "[ERROR] More than one abstract domain selected\n")
  else if o.useConstraintsG && o.noCombinsG then
    .error (.abort "[ERROR] Constraint solver mode (-constraints) must not use -nocombs\n")
  else if o.useConstraintsG && o.z3BinLocG.isEmpty then
    .error (.abort "[ERROR] -constraints without specify location of Z3 (-z3 <loc>)\n")
  else if o.useConstraintsG then
    .ok { o with dynInitG := true }
  else
    .ok o

/-- The instructions without some metadata.  The source returns before it looks at the module. -/
def instsWithoutMetadata (_M : Module) (_md : String) : Std.TreeSet Value :=
  {}

/-- The instructions with some metadata. -/
def instsWithMetadata (M : Module) (md : String) : Std.TreeSet Value :=
  M.instrs.foldl (fun ret i => if i.metadata.contains md then ret.insert i.id else ret) {}

/-- The statements off the assertion slice, when `-aslice` is given. -/
def getAssertSliceInvIfEnabled (o : Options) (M : Module) : Except Stop (Std.TreeSet Value) :=
  if !o.assertSliceG then
    .ok {}
  else
    let ret := instsWithoutMetadata M "AssertSlice"
    if M.instrs.length = ret.size then
      .error (.abort "[ERROR] no statements not found on slice of an assertion\n")
    else
      .ok ret

/-- The statements impacted by a change, when `-impact` is given. -/
def getImpactedIfEnabled (o : Options) (M : Module) : Except Stop (Std.TreeSet Value) :=
  if !o.impactG then
    .ok {}
  else
    let ret := instsWithMetadata M "Impacted"
    if ret.size = 0 then
      .error (.abort "[ERROR] No impacted statements found, did you run the change-impact pass?\n")
    else
      .ok ret

/-- The statements that may impact a change, when `-impact` is given. -/
def getMayImpactIfEnabled (o : Options) (M : Module) : Std.TreeSet Value :=
  if !o.impactG then {} else instsWithMetadata M "MayImpact"

/-- The early return of `instsWithoutMetadata` leaves the inverted slice empty whenever the pass
gets past it. -/
theorem getAssertSliceInvIfEnabled_eq_empty {o : Options} {M : Module} {s : Std.TreeSet Value}
    (h : getAssertSliceInvIfEnabled o M = .ok s) : s = {} := by
  unfold getAssertSliceInvIfEnabled instsWithoutMetadata at h
  dsimp only at h
  split_ifs at h <;> exact (Except.ok.inj h).symm

/-- Accepted flags never combine `-constraints` with `-nocombs`, and `-constraints` has turned
`-dyninit` on. -/
theorem checkCommandLineArgs_constraints {o o' : Options} (h : checkCommandLineArgs o = .ok o')
    (hc : o'.useConstraintsG) : o'.noCombinsG = false ∧ o'.dynInitG = true := by
  unfold checkCommandLineArgs at h
  split_ifs at h with h₁ h₂ h₃ h₄ h₅ h₆
  · cases h
    rw [h₆, Bool.true_and, Bool.not_eq_true] at h₄
    exact ⟨h₄, rfl⟩
  · cases h
    exact absurd hc h₆

end Watts
