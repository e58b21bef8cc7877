import Watts.Library.Hexadecimal
import Watts.ValToStrDB
import Watts.ValueIds

/-! The identifiers of the database in the metadata of a module: `dumpIDMapToModule` writes them and
`parseIDMapFromModule` reads them back, in another run of the tool. -/

namespace Watts

open Fallible (bind_eq_ok foldlM_invariant)
open Numbering (number)

/-- `Utils::to_const_bitvec`: a number in the eight hexadecimal digits of an `unsigned`. -/
def to_const_bitvec (i : Nat) : String :=
  "#x" ++ String.ofList (Hexadecimal.pad 8 i)

theorem to_const_bitvec_injective {i j : Nat} (h : to_const_bitvec i = to_const_bitvec j) : i = j := by
  have hlist := congrArg String.toList h
  simp only [to_const_bitvec, String.toList_append, String.toList_ofList] at hlist
  exact Hexadecimal.pad_injective (List.append_cancel_left hlist)

theorem to_const_bitvec_ne_empty (i : Nat) : to_const_bitvec i ≠ "" := by
  intro h
  have hlist := congrArg String.toList h
  rw [to_const_bitvec, String.toList_append] at hlist
  cases hlist

/-- An operand of a metadata node. -/
inductive MDOperand
  | value (v : Value)
  | constantInt (n : Nat)
  | mdString (s : String)
deriving DecidableEq, Repr

abbrev MDNode := List MDOperand

/-- The metadata that the database uses: `CIAA_INFO` of the instructions, and the named nodes
`FUNC_ARGS_INFO`, `GLOBALS_INFO` and `FUNC_INFO`, if the module has them. -/
structure Metadata where
  info : Std.TreeMap Value MDNode := {}
  funcArgsInfo : Option (List MDNode) := none
  globalsInfo : Option (List MDNode) := none
  funcInfo : Option (List MDNode) := none

/-- What `dyn_cast` tells the dump about a value. -/
inductive Place
  | instruction
  | argument (parent : Value) (argNo : Nat)
  | globalVariable (inModule : Bool)
  | constantExpr
  | function
  | constant
  | other
deriving DecidableEq, Repr

/-- Where the values of a module stand: its instructions, and the arguments of each function in order. -/
structure Places where
  place : Value → Place
  insts : List Value
  args : Value → List Value
  insts_place : ∀ i ∈ insts, place i = .instruction
  args_get : ∀ f n a, (args f)[n]? = some a ↔ place a = .argument f n
  parent_place : ∀ a f n, place a = .argument f n → place f = .function
  argNo_lt : ∀ a f n, place a = .argument f n → n < 2 ^ 32

namespace ValToStrDB

/-! ### The dump -/

/-- What the loop over the database has collected. -/
structure Dump where
  db : ValToStrDB
  info : Std.TreeMap Value MDNode
  funcArgs : MDNode := []
  globalVars : MDNode := []
  funcs : MDNode := []

/-- The text of an identifier, a bit vector in one of the two modes. -/
def idText (useBitvectors : Bool) (db : ValToStrDB) (strId : String) : Except Stop (String × ValToStrDB) :=
  if useBitvectors then do
    let (id, db) ← db.saveAndGetIntIDOfString strId
    return (to_const_bitvec id, db)
  else
    return (strId, db)

/-- One pair of the database. -/
def dumpValue (P : Places) (useBitvectors : Bool) (d : Dump) (e : Value × String) : Except Stop Dump := do
  let (text, db) ← idText useBitvectors d.db e.2
  let mds := MDOperand.mdString text
  match P.place e.1 with
  | .instruction => return { d with db, info := d.info.insert e.1 [mds] }
  | .argument parent argNo => return { d with db, funcArgs := d.funcArgs ++ [.value parent, .constantInt argNo, mds] }
  | .globalVariable inModule =>
    if inModule then return { d with db, globalVars := d.globalVars ++ [.value e.1, mds] }
    else throw (.abort "Module does not contain global")
  | .constantExpr => throw (.abort "ConstantExpr in IDmap is unhandled")
  | .function => return { d with db, funcs := d.funcs ++ [.value e.1, mds] }
  | .constant => throw (.abort "Constant in IDmap is unhandled")
  | .other => throw (.abort "unhandled value in IDMap (see above)")

/-- Add a node to a named node that has been emptied. -/
def addNode (size : Nat) (nodeMsg namedMsg : String) (md : MDNode) : Except Stop (Option (List MDNode)) :=
  if md.length % size ≠ 0 then
    .error (.abort nodeMsg)
  else
    let nmdn := [] ++ [md]
    if nmdn.length ≠ 1 then .error (.abort namedMsg) else .ok (some nmdn)

def dumpIDMapToModule (P : Places) (useBitvectors : Bool) (db : ValToStrDB) (M : Metadata) :
    Except Stop (ValToStrDB × Metadata) := do
  let d ← db.idMap.toList.foldlM (dumpValue P useBitvectors) { db, info := M.info }
  let funcArgsInfo ← addNode 3 "incorrect number of func arg MDs"
    "Incorrect size of func args NamedMDNode (!= 1)" d.funcArgs
  let globalsInfo ← addNode 2 "incorrect number of global MDs"
    "Incorrect size of globals NamedMDNode (!= 1)" d.globalVars
  let funcInfo ← addNode 2 "incorrect number of function MDs"
    "Incorrect size of funcs NamedMDNode (!= 1)" d.funcs
  return (d.db, { info := d.info, funcArgsInfo, globalsInfo, funcInfo })

/-! ### Reading it back -/

/-- The map that the parser fills. -/
abbrev IDMap := Std.TreeMap Value String

/-- `dyn_cast<MDString>` and the check that the text is not empty. -/
def getText (msg emptyMsg : String) : MDOperand → Except Stop String
  | .mdString str => if str = "" then .error (.abort emptyMsg) else .ok str
  | _ => .error (.abort msg)

/-- The metadata of one instruction. -/
def parseInst (M : Metadata) (ret : IDMap) (i : Value) : Except Stop IDMap :=
  match M.info[i]? with
  | none => .ok ret
  | some [op] => do
    let str ← getText "Instruction with non MDString metadata" "Instruction with empty metadata string" op
    return ret.insert i str
  | some _ => .error (.abort "Malformed MDNode found (size != 1)")

/-- The argument of a function with a number. -/
def getFuncArg (P : Places) (f : Value) (i : Nat) : Except Stop Value :=
  match (P.args f).find? fun a => P.place a = .argument f i with
  | some a => .ok a
  | none => .error (.abort "Operand out of bounds")

/-- The function that an operand is. -/
def getFunction (P : Places) (msg : String) : MDOperand → Except Stop Value
  | .value f => if P.place f = .function then .ok f else .error (.abort msg)
  | _ => .error (.abort msg)

/-- The assertion after the cast looks at the value again and not at its result. -/
def constantIntToUint64 : MDOperand → Except Stop Nat
  | .constantInt n => .ok n
  | _ => .error (.abort "Null value passed")

def isGlobalVariable : Place → Bool
  | .globalVariable _ => true
  | _ => false

/-- The global variable that an operand is. -/
def getGlobal (P : Places) (msg : String) : MDOperand → Except Stop Value
  | .value g => if isGlobalVariable (P.place g) then .ok g else .error (.abort msg)
  | _ => .error (.abort msg)

/-- The triples of a node. -/
def parseFuncArgs (P : Places) : MDNode → IDMap → Except Stop IDMap
  | fVal :: posVal :: strVal :: rest, ret => do
    let f ← getFunction P "First operand not function" fVal
    let pos ← constantIntToUint64 posVal
    let str ← getText "Third operand not MDString" "Empty metadata string" strVal
    let a ← getFuncArg P f (pos % 2 ^ 32)
    parseFuncArgs P rest (ret.insert a str)
  | _, ret => .ok ret

/-- The pairs of a node, whose first operands are all of one class. -/
def parsePairs (cast : MDOperand → Except Stop Value) : MDNode → IDMap → Except Stop IDMap
  | val :: strVal :: rest, ret => do
    let v ← cast val
    let str ← getText "Second operand not MDString" "Empty metadata string" strVal
    parsePairs cast rest (ret.insert v str)
  | _, ret => .ok ret

/-- The only node of a named node. -/
def parseNamed (size : Nat) (namedMsg nodeMsg : String) (parse : MDNode → IDMap → Except Stop IDMap)
    (nmdn : Option (List MDNode)) (ret : IDMap) : Except Stop IDMap :=
  match nmdn with
  | none => .ok ret
  | some [md] => if md.length % size ≠ 0 then .error (.abort nodeMsg) else parse md ret
  | some _ => .error (.abort namedMsg)

def parseIDMapFromModule (P : Places) (M : Metadata) : Except Stop IDMap := do
  let ret ← P.insts.foldlM (parseInst M) {}
  let ret ← parseNamed 3 "function Named MD of wrong size" "func mdnode of wrong size" (parseFuncArgs P)
    M.funcArgsInfo ret
  let ret ← parseNamed 2 "global var Named MD of wrong size" "global mdnode of wrong size"
    (parsePairs (getGlobal P "First operand not GlobalVar")) M.globalsInfo ret
  parseNamed 2 "function named MD of wrong size" "func mdnode of wrong size"
    (parsePairs (getFunction P "first operand not Function")) M.funcInfo ret

/-! ### What every database satisfies -/

/-- The strings of the values differ and have integers, and so do the integers while they suffice. -/
structure Entered (T : ValueTable) (db : ValToStrDB) : Prop where
  names : ∀ (v : Value) s, db.idMap[v]? = some s → ∃ n < db.idMap.size, s = newID (T.pointers v) n
  injective : ∀ (v w : Value) s, db.idMap[v]? = some s → db.idMap[w]? = some s → v = w
  known : ∀ (v : Value) s, db.idMap[v]? = some s → ∃ n, db.strIDToInt[s]? = some n
  ints : ∀ (s : String) n, db.strIDToInt[s]? = some n → n < db.strIDToInt.size
  intsInjective : db.strIDToInt.size ≤ 2 ^ 32 → ∀ (s t : String) n, db.strIDToInt[s]? = some n →
    db.strIDToInt[t]? = some n → s = t

namespace Entered

variable {T : ValueTable} {db db' : ValToStrDB}

theorem empty (T : ValueTable) : Entered T {} where
  names v s h := by simp at h
  injective v w s h := by simp at h
  known v s h := by simp at h
  ints s n h := by simp at h
  intsInjective _ s t n h := by simp at h

/-- A new string. -/
theorem insertString {s : String} (h : Entered T db) (hs : db.strIDToInt[s]? = none) :
    Entered T { db with strIDToInt := db.strIDToInt.insert s (db.strIDToInt.size % 2 ^ 32) } where
  names := h.names
  injective := h.injective
  known v t hv := by
    dsimp only
    rw [Std.TreeMap.getElem?_insert]
    split_ifs
    · exact ⟨_, rfl⟩
    · exact h.known v t hv
  ints t n ht := by
    dsimp only at ht ⊢
    rw [PartialInverse.size_insert hs]
    rw [Std.TreeMap.getElem?_insert] at ht
    split_ifs at ht
    · rw [← Option.some.inj ht]
      exact Nat.lt_succ_of_le (Nat.mod_le _ _)
    · exact Nat.lt_succ_of_lt (h.ints t n ht)
  intsInjective hsize t u n ht hu := by
    dsimp only at hsize ht hu
    rw [PartialInverse.size_insert hs] at hsize
    rw [Nat.mod_eq_of_lt (by omega), Std.TreeMap.getElem?_insert] at ht hu
    split_ifs at ht hu with htc huc huc
    · rw [← Std.LawfulEqCmp.eq_of_compare htc, ← Std.LawfulEqCmp.eq_of_compare huc]
    · have := h.ints u n hu
      have := Option.some.inj ht
      omega
    · have := h.ints t n ht
      have := Option.some.inj hu
      omega
    · exact h.intsInjective (by omega) t u n ht hu

theorem saveAndGetIntIDOfString {s : String} {id : Nat} (h : Entered T db)
    (hsave : db.saveAndGetIntIDOfString s = .ok (id, db')) : Entered T db' := by
  unfold ValToStrDB.saveAndGetIntIDOfString at hsave
  split_ifs at hsave
  cases hs : db.strIDToInt[s]? with
  | none =>
      rw [hs] at hsave
      cases hsave
      exact h.insertString hs
  | some n =>
      rw [hs] at hsave
      cases hsave
      exact h

/-- A new value. -/
theorem mapInsert {v : Value} (h : Entered T db)
    (hsave : db.mapInsert v (newID (T.pointers v) db.idMap.size) = .ok db') : Entered T db' := by
  unfold ValToStrDB.mapInsert at hsave
  split_ifs at hsave with hv _ hstr
  cases hsave
  have hv : db.idMap[v]? = none := by
    rwa [← Std.TreeMap.mem_iff_contains, ← Std.TreeMap.isSome_getElem?_iff_mem, Bool.not_eq_true,
      Option.isSome_eq_false_iff, Option.isNone_iff_eq_none] at hv
  have hstr : db.strIDToInt[newID (T.pointers v) db.idMap.size]? = none := by
    rwa [← Std.TreeMap.mem_iff_contains, ← Std.TreeMap.isSome_getElem?_iff_mem, Bool.not_eq_true,
      Option.isSome_eq_false_iff, Option.isNone_iff_eq_none] at hstr
  have hnew := h.insertString hstr
  -- the string of another value carries another number
  have hother : ∀ w : Value, db.idMap[w]? ≠ some (newID (T.pointers v) db.idMap.size) := by
    intro w hw
    obtain ⟨n, hn, heq⟩ := h.names w _ hw
    exact absurd (newID_injective heq) hn.ne'
  refine ⟨fun w s hw => ?_, fun w x s hw hx => ?_, fun w s hw => ?_, hnew.ints, hnew.intsInjective⟩
  · dsimp only at hw ⊢
    rw [PartialInverse.size_insert hv]
    rw [Std.TreeMap.getElem?_insert] at hw
    split_ifs at hw with heq
    · obtain rfl := Std.LawfulEqCmp.eq_of_compare heq
      exact ⟨db.idMap.size, Nat.lt_succ_self _, (Option.some.inj hw).symm⟩
    · obtain ⟨n, hn, hs⟩ := h.names w s hw
      exact ⟨n, Nat.lt_succ_of_lt hn, hs⟩
  · dsimp only at hw hx
    rw [Std.TreeMap.getElem?_insert] at hw hx
    split_ifs at hw hx with hwc hxc hxc
    · rw [← Std.LawfulEqCmp.eq_of_compare hwc, ← Std.LawfulEqCmp.eq_of_compare hxc]
    · rw [← Option.some.inj hw] at hx
      exact absurd hx (hother x)
    · rw [← Option.some.inj hx] at hw
      exact absurd hw (hother w)
    · exact h.injective w x s hw hx
  · dsimp only at hw ⊢
    rw [Std.TreeMap.getElem?_insert] at hw
    split_ifs at hw with hwc
    · rw [← Option.some.inj hw]
      exact ⟨_, Std.TreeMap.getElem?_insert_self⟩
    · exact hnew.known w s hw

theorem saveAndGetID {v : Value} {s : String} (h : Entered T db) (hsave : db.saveAndGetID T v = .ok (s, db')) :
    Entered T db' ∧ s ≠ "" := by
  rcases lookedUp_cases T v with ⟨e, herr, _⟩ | ⟨u, str, hl, hstr⟩ | ⟨u, hl, hu⟩
  · rw [herr] at hsave
    cases hsave
  · rw [saveAndGetID_of_getStr hl hstr] at hsave
    cases hsave
    exact ⟨h, Constants.getStr_ne_empty hstr⟩
  · cases hs : db.idMap[u]? with
    | some t =>
        rw [saveAndGetID_of_some hl hu hs] at hsave
        cases hsave
        obtain ⟨n, _, hname⟩ := h.names u _ hs
        exact ⟨h, hname ▸ newID_ne_empty _ n⟩
    | none =>
        simp only [ValToStrDB.saveAndGetID, hl, hu.2, hs, if_neg hu.1, bind, Except.bind] at hsave
        cases hins : db.mapInsert u (newID (T.pointers u) db.idMap.size) with
        | error e =>
            rw [hins] at hsave
            cases hsave
        | ok db₁ =>
            rw [hins] at hsave
            cases hsave
            exact ⟨h.mapInsert hins, newID_ne_empty _ _⟩

/-- **One call.** -/
theorem exec {c : Call} (h : Entered T db) (hc : db.exec T c = .ok db') : Entered T db' := by
  cases c with
  | saveAndGetID v =>
      obtain ⟨r, hr, hc⟩ := bind_eq_ok.mp hc
      cases hc
      exact (h.saveAndGetID (s := r.1) hr).1
  | saveAndGetIntID v =>
      obtain ⟨r, hr, hc⟩ := bind_eq_ok.mp hc
      cases hc
      obtain ⟨q, hq, _⟩ := bind_eq_ok.mp hr
      obtain ⟨hentered, hne⟩ := h.saveAndGetID (s := q.1) hq
      rw [saveAndGetIntID_of_ok (s := q.1) hne hq] at hr
      exact hentered.saveAndGetIntIDOfString hr
  | saveAndGetIntIDOfString s =>
      obtain ⟨r, hr, hc⟩ := bind_eq_ok.mp hc
      cases hc
      exact h.saveAndGetIntIDOfString hr

/-- **All calls**, also those that leave the four maps no longer inverse. -/
theorem run {calls : List Call} (h : ValToStrDB.run T calls = .ok db) : Entered T db :=
  Fallible.foldlM_preserves (Entered T) (fun _ _ _ _ hs hstep => hs.exec hstep) (empty T) h

end Entered

/-! ### What is written -/

/-- The text of an identifier that has an integer. -/
def text (useBitvectors : Bool) (db : ValToStrDB) (strId : String) : String :=
  if useBitvectors then to_const_bitvec (db.strIDToInt[strId]?.getD 0) else strId

theorem idText_eq (useBitvectors : Bool) {db : ValToStrDB} {strId : String} {n : Nat} (hne : strId ≠ "")
    (hn : db.strIDToInt[strId]? = some n) :
    idText useBitvectors db strId = .ok (text useBitvectors db strId, db) := by
  unfold idText text
  cases useBitvectors with
  | false => rfl
  | true =>
      rw [if_pos rfl, if_pos rfl, saveAndGetIntIDOfString_of_some hne hn, hn]
      rfl

theorem text_ne_empty (useBitvectors : Bool) (db : ValToStrDB) {strId : String} (hne : strId ≠ "") :
    text useBitvectors db strId ≠ "" := by
  unfold text
  split_ifs
  · exact to_const_bitvec_ne_empty _
  · exact hne

/-- The values that the dump can write. -/
def Dumpable : Place → Prop
  | .instruction | .argument .. | .function => True
  | .globalVariable inModule => inModule = true
  | .constantExpr | .constant | .other => False

def isArgument : Place → Bool
  | .argument .. => true
  | _ => false

def isFunction : Place → Bool
  | .function => true
  | _ => false

section Written

variable (P : Places) (text : String → String)

/-- The three operands of an argument. -/
def argOps (e : Value × String) : MDNode :=
  match P.place e.1 with
  | .argument parent argNo => [.value parent, .constantInt argNo, .mdString (text e.2)]
  | _ => []

/-- The two operands of a value of one class. -/
def pairOps (p : Place → Bool) (e : Value × String) : MDNode :=
  if p (P.place e.1) then [.value e.1, .mdString (text e.2)] else []

/-- The effect of a pair that can be written. -/
def dumped (d : Dump) (e : Value × String) : Dump where
  db := d.db
  info := if P.place e.1 = .instruction then d.info.insert e.1 [.mdString (text e.2)] else d.info
  funcArgs := d.funcArgs ++ argOps P text e
  globalVars := d.globalVars ++ pairOps P text isGlobalVariable e
  funcs := d.funcs ++ pairOps P text isFunction e

/-- The pairs of the values of one class, with their texts. -/
def pairsOf (p : Place → Bool) (es : List (Value × String)) : List (Value × String) :=
  (es.filter fun e => p (P.place e.1)).map fun e => (e.1, text e.2)

theorem pairsOf_cons (p : Place → Bool) (e : Value × String) (es : List (Value × String)) :
    pairsOf P text p (e :: es) = if p (P.place e.1) then (e.1, text e.2) :: pairsOf P text p es
      else pairsOf P text p es := by
  unfold pairsOf
  rw [List.filter_cons]
  split_ifs <;> rfl

end Written

section Dump

variable {P : Places} {useBitvectors : Bool} {db : ValToStrDB} {e : Value × String}

theorem dumpValue_eq {d : Dump} (hd : d.db = db) (hne : e.2 ≠ "") {n : Nat} (hn : db.strIDToInt[e.2]? = some n)
    (hplace : Dumpable (P.place e.1)) :
    dumpValue P useBitvectors d e = .ok (dumped P (text useBitvectors db) d e) := by
  unfold dumpValue dumped argOps pairOps
  rw [hd, idText_eq useBitvectors hne hn, Fallible.ok_bind]
  cases hp : P.place e.1 with
  | globalVariable inModule =>
      rw [hp] at hplace
      obtain rfl : inModule = true := hplace
      simp [isGlobalVariable, isFunction, pure, Except.pure]
  | instruction | argument | function => simp [isGlobalVariable, isFunction, pure, Except.pure]
  | constantExpr | constant | other =>
      rw [hp] at hplace
      exact hplace.elim

theorem foldlM_dumpValue {es : List (Value × String)}
    (hes : ∀ e ∈ es, e.2 ≠ "" ∧ (∃ n, db.strIDToInt[e.2]? = some n) ∧ Dumpable (P.place e.1)) {d : Dump}
    (hd : d.db = db) :
    es.foldlM (dumpValue P useBitvectors) d = .ok (es.foldl (dumped P (text useBitvectors db)) d) := by
  induction es generalizing d with
  | nil => rfl
  | cons e es ih =>
      obtain ⟨hne, ⟨n, hn⟩, hplace⟩ := hes e (.head _)
      rw [List.foldlM_cons, dumpValue_eq hd hne hn hplace, Fallible.ok_bind, List.foldl_cons]
      exact ih (fun e' he' => hes e' (.tail _ he')) hd

variable (P) (text : String → String)

/-- **What the loop over the database collects.** -/
theorem foldl_dumped (es : List (Value × String)) (d : Dump) :
    es.foldl (dumped P text) d =
      { db := d.db
        info := d.info.insertMany ((es.filter fun e => P.place e.1 = .instruction).map fun e =>
          (e.1, [.mdString (text e.2)]))
        funcArgs := d.funcArgs ++ es.flatMap (argOps P text)
        globalVars := d.globalVars ++ es.flatMap (pairOps P text isGlobalVariable)
        funcs := d.funcs ++ es.flatMap (pairOps P text isFunction) } := by
  induction es generalizing d with
  | nil => simp
  | cons e es ih =>
      rw [List.foldl_cons, ih]
      simp only [dumped, List.flatMap_cons, List.append_assoc, List.filter_cons]
      by_cases hp : P.place e.1 = .instruction
      · simp [hp, Std.TreeMap.insertMany_cons]
      · simp [hp]

theorem addNode_funcArgs (es : List (Value × String)) (nodeMsg namedMsg : String) :
    addNode 3 nodeMsg namedMsg (es.flatMap (argOps P text)) = .ok (some [es.flatMap (argOps P text)]) := by
  have hlength : (es.flatMap (argOps P text)).length % 3 = 0 := by
    induction es with
    | nil => rfl
    | cons e es ih =>
        have hops : (argOps P text e).length = 3 ∨ (argOps P text e).length = 0 := by
          unfold argOps
          cases P.place e.1 <;> simp
        rw [List.flatMap_cons, List.length_append]
        omega
  unfold addNode
  rw [if_neg (not_not_intro hlength)]
  rfl

theorem addNode_pairs (p : Place → Bool) (es : List (Value × String)) (nodeMsg namedMsg : String) :
    addNode 2 nodeMsg namedMsg (es.flatMap (pairOps P text p)) = .ok (some [es.flatMap (pairOps P text p)]) := by
  have hlength : (es.flatMap (pairOps P text p)).length % 2 = 0 := by
    induction es with
    | nil => rfl
    | cons e es ih =>
        have hops : (pairOps P text p e).length = 2 ∨ (pairOps P text p e).length = 0 := by
          unfold pairOps
          split_ifs <;> simp
        rw [List.flatMap_cons, List.length_append]
        omega
  unfold addNode
  rw [if_neg (not_not_intro hlength)]
  rfl

/-! ### What is read -/

variable {P} {text}

theorem getFuncArg_eq {a f : Value} {n : Nat} (h : P.place a = .argument f n) : getFuncArg P f n = .ok a := by
  unfold getFuncArg
  have hfind : (P.args f).find? (fun a => P.place a = .argument f n) = some a := by
    cases hfind : (P.args f).find? (fun a => P.place a = .argument f n) with
    | none =>
        have hmem := List.mem_of_getElem? ((P.args_get f n a).mpr h)
        have hnone := List.find?_eq_none.mp hfind a hmem
        simp [h] at hnone
    | some b =>
        have hb : P.place b = .argument f n := by simpa using List.find?_some hfind
        have hget := ((P.args_get f n b).mpr hb).symm.trans ((P.args_get f n a).mpr h)
        exact hget
  rw [hfind]

theorem getText_eq {msg emptyMsg str : String} (h : str ≠ "") : getText msg emptyMsg (.mdString str) = .ok str := by
  rw [getText, if_neg h]

/-- **The triples are read back.** -/
theorem parseFuncArgs_argOps {es : List (Value × String)} (hes : ∀ e ∈ es, text e.2 ≠ "") (ret : IDMap) :
    parseFuncArgs P (es.flatMap (argOps P text)) ret = .ok (ret.insertMany (pairsOf P text isArgument es)) := by
  induction es generalizing ret with
  | nil => simp [parseFuncArgs, pairsOf]
  | cons e es ih =>
      have ih := ih (fun e' he' => hes e' (.tail _ he'))
      rw [List.flatMap_cons, pairsOf_cons]
      unfold argOps
      cases hp : P.place e.1 with
      | argument f n =>
          have hmod : n % 2 ^ 32 = n := Nat.mod_eq_of_lt (P.argNo_lt _ _ _ hp)
          rw [List.cons_append, List.cons_append, List.cons_append, List.nil_append, parseFuncArgs, getFunction,
            if_pos (P.parent_place _ _ _ hp), Fallible.ok_bind, constantIntToUint64, Fallible.ok_bind,
            getText_eq (hes e (.head _)), Fallible.ok_bind, hmod, getFuncArg_eq hp, Fallible.ok_bind]
          exact (ih _).trans (by rw [isArgument, if_pos rfl, Std.TreeMap.insertMany_cons])
      | _ => exact ih ret

/-- **The pairs are read back.** -/
theorem parsePairs_pairOps {p : Place → Bool} {cast : MDOperand → Except Stop Value}
    (hcast : ∀ v, p (P.place v) = true → cast (.value v) = .ok v) {es : List (Value × String)}
    (hes : ∀ e ∈ es, text e.2 ≠ "") (ret : IDMap) :
    parsePairs cast (es.flatMap (pairOps P text p)) ret = .ok (ret.insertMany (pairsOf P text p es)) := by
  induction es generalizing ret with
  | nil => simp [parsePairs, pairsOf]
  | cons e es ih =>
      have ih := ih (fun e' he' => hes e' (.tail _ he'))
      rw [List.flatMap_cons, pairsOf_cons]
      unfold pairOps
      split_ifs with hp
      · rw [List.cons_append, List.cons_append, List.nil_append, parsePairs, hcast _ hp, Fallible.ok_bind,
          getText_eq (hes e (.head _)), Fallible.ok_bind, Std.TreeMap.insertMany_cons]
        exact ih _
      · exact ih ret

end Dump

section Maps

variable {α β : Type}

/-- A selection of a map, put into another. -/
theorem getElem?_insertMany_filter (ret : Std.TreeMap Value β) (m : Std.TreeMap Value α) (p : Value → Bool)
    (f : α → β) (v : Value) : (ret.insertMany ((m.toList.filter fun e => p e.1).map fun e => (e.1, f e.2)))[v]? =
      if p v then (m[v]?.map f).or ret[v]? else ret[v]? := by
  have hdistinct : ((m.toList.filter fun e => p e.1).map fun e => (e.1, f e.2)).Pairwise
      fun a b => ¬ compare a.1 b.1 = .eq := by
    rw [List.pairwise_map]
    exact Std.TreeMap.distinct_keys_toList.filter _
  by_cases hv : ∃ s, m[v]? = some s ∧ p v = true
  · obtain ⟨s, hs, hp⟩ := hv
    rw [if_pos hp, hs]
    refine Std.TreeMap.getElem?_insertMany_list_of_mem (Nat.compare_eq_eq.mpr rfl) hdistinct ?_
    exact List.mem_map.mpr ⟨(v, s), List.mem_filter.mpr ⟨Std.TreeMap.mem_toList_iff_getElem?_eq_some.mpr hs, hp⟩, rfl⟩
  · have hout : (((m.toList.filter fun e => p e.1).map fun e => (e.1, f e.2)).map Prod.fst).contains v = false := by
      rw [← Bool.not_eq_true, List.contains_iff_mem]
      intro hmem
      obtain ⟨q, hq, rfl⟩ := List.mem_map.mp hmem
      obtain ⟨e, he, rfl⟩ := List.mem_map.mp hq
      obtain ⟨he, hp⟩ := List.mem_filter.mp he
      exact hv ⟨e.2, Std.TreeMap.mem_toList_iff_getElem?_eq_some.mp he, hp⟩
    rw [Std.TreeMap.getElem?_insertMany_list_of_contains_eq_false hout]
    split_ifs with hp
    · cases hs : m[v]? with
      | none => rfl
      | some s => exact absurd ⟨s, hs, hp⟩ hv
    · rfl

end Maps

/-- The text of a well-formed node. -/
def nodeText : MDNode → Option String
  | [.mdString str] => some str
  | _ => none

/-- The parser accepts the metadata of the instruction. -/
def WellFormed (M : Metadata) (i : Value) : Prop :=
  ∀ node, M.info[i]? = some node → ∃ str, str ≠ "" ∧ node = [.mdString str]

theorem foldlM_parseInst {M : Metadata} {is : List Value} (his : ∀ i ∈ is, WellFormed M i) :
    ∃ ret, is.foldlM (parseInst M) {} = .ok ret ∧
      ∀ v : Value, ret[v]? = if v ∈ is then M.info[v]?.bind nodeText else none := by
  refine Fallible.foldlM_ok (fun done (ret : IDMap) =>
    ∀ v : Value, ret[v]? = if v ∈ done then M.info[v]?.bind nodeText else none) (fun done i ret hi hret => ?_) (by simp)
  cases hnode : M.info[i]? with
  | none =>
      refine ⟨ret, by rw [parseInst, hnode], fun v => ?_⟩
      rw [hret]
      by_cases hv : v = i
      · subst hv
        simp [hnode]
      · simp [hv]
  | some node =>
      obtain ⟨str, hne, rfl⟩ := his i hi node hnode
      refine ⟨ret.insert i str, ?_, fun v => ?_⟩
      · rw [parseInst, hnode]
        dsimp only
        rw [getText_eq hne]
        rfl
      · rw [Std.TreeMap.getElem?_insert, hret]
        by_cases hv : v = i
        · subst hv
          simp [hnode, nodeText]
        · have hne : ¬ i = v := fun h => hv h.symm
          simp [hv, hne]

/-! ### The round trip -/

/-- What is read after a dump: the identifier of a value of the database, unless that is an instruction of
another module, and what an instruction of the module had before. -/
def readBack (P : Places) (useBitvectors : Bool) (db : ValToStrDB) (M : Metadata) (v : Value) : Option String :=
  match db.idMap[v]? with
  | some strId => if P.place v = .instruction ∧ v ∉ P.insts then none else some (text useBitvectors db strId)
  | none => if v ∈ P.insts then M.info[v]?.bind nodeText else none

section RoundTrip

variable {P : Places} {db : ValToStrDB} {M : Metadata} {T : ValueTable} {calls : List Call}

/-- The metadata after the dump. -/
def dumpedMetadata (P : Places) (useBitvectors : Bool) (db : ValToStrDB) (M : Metadata) : Metadata :=
  let es := db.idMap.toList
  let txt := text useBitvectors db
  { info := M.info.insertMany
      ((es.filter fun e => P.place e.1 = .instruction).map fun e => (e.1, [.mdString (txt e.2)]))
    funcArgsInfo := some [es.flatMap (argOps P txt)]
    globalsInfo := some [es.flatMap (pairOps P txt isGlobalVariable)]
    funcInfo := some [es.flatMap (pairOps P txt isFunction)] }

theorem dumpIDMapToModule_eq (useBitvectors : Bool)
    (hes : ∀ e ∈ db.idMap.toList, e.2 ≠ "" ∧ (∃ n, db.strIDToInt[e.2]? = some n) ∧ Dumpable (P.place e.1)) :
    dumpIDMapToModule P useBitvectors db M = .ok (db, dumpedMetadata P useBitvectors db M) := by
  unfold dumpIDMapToModule
  rw [foldlM_dumpValue hes rfl, Fallible.ok_bind, foldl_dumped]
  dsimp only
  rw [List.nil_append, List.nil_append, List.nil_append, addNode_funcArgs, addNode_pairs, addNode_pairs]
  rfl

theorem dumpedMetadata_info (useBitvectors : Bool) (v : Value) :
    (dumpedMetadata P useBitvectors db M).info[v]? = if P.place v = .instruction then
      (db.idMap[v]?.map fun s => [.mdString (text useBitvectors db s)]).or M.info[v]? else M.info[v]? := by
  have h := getElem?_insertMany_filter M.info db.idMap (fun v => P.place v = .instruction)
    (fun s => [MDOperand.mdString (text useBitvectors db s)]) v
  simp only [decide_eq_true_eq] at h
  exact h

/-- The parser on what the dump writes. -/
theorem parse_dumpedMetadata (useBitvectors : Bool)
    (htext : ∀ e ∈ db.idMap.toList, text useBitvectors db e.2 ≠ "")
    (hwf : ∀ i ∈ P.insts, WellFormed (dumpedMetadata P useBitvectors db M) i) :
    ∃ ret, parseIDMapFromModule P (dumpedMetadata P useBitvectors db M) = .ok ret ∧
      ∀ v : Value, ret[v]? = if isFunction (P.place v) || isGlobalVariable (P.place v) || isArgument (P.place v) then
        db.idMap[v]?.map (text useBitvectors db)
        else if v ∈ P.insts then (dumpedMetadata P useBitvectors db M).info[v]?.bind nodeText else none := by
  obtain ⟨ret, hret, hinsts⟩ := foldlM_parseInst hwf
  have hglobal : ∀ v, isGlobalVariable (P.place v) = true →
      getGlobal P "First operand not GlobalVar" (.value v) = .ok v := fun v hv => by rw [getGlobal, if_pos hv]
  have hfunc : ∀ v, isFunction (P.place v) = true →
      getFunction P "first operand not Function" (.value v) = .ok v := by
    intro v hv
    rw [getFunction, if_pos]
    cases hp : P.place v <;> rw [hp] at hv <;> first | rfl | cases hv
  have hlength : ∀ {size : Nat} {nodeMsg namedMsg : String} {md : MDNode},
      addNode size nodeMsg namedMsg md = .ok (some [md]) → ¬ md.length % size ≠ 0 := by
    intro size nodeMsg namedMsg md h
    unfold addNode at h
    split_ifs at h with hne
    exact hne
  refine ⟨((ret.insertMany (pairsOf P (text useBitvectors db) isArgument db.idMap.toList)).insertMany
    (pairsOf P (text useBitvectors db) isGlobalVariable db.idMap.toList)).insertMany
    (pairsOf P (text useBitvectors db) isFunction db.idMap.toList), ?_, fun v => ?_⟩
  · unfold parseIDMapFromModule
    rw [hret, Fallible.ok_bind]
    unfold dumpedMetadata parseNamed
    dsimp only
    rw [if_neg (hlength (addNode_funcArgs P (text useBitvectors db) _ "" "")), parseFuncArgs_argOps htext,
      Fallible.ok_bind, if_neg (hlength (addNode_pairs P (text useBitvectors db) _ _ "" "")),
      parsePairs_pairOps hglobal htext, Fallible.ok_bind,
      if_neg (hlength (addNode_pairs P (text useBitvectors db) _ _ "" "")), parsePairs_pairOps hfunc htext]
  · have hpairs : ∀ (ret : IDMap) (p : Place → Bool),
        (ret.insertMany (pairsOf P (text useBitvectors db) p db.idMap.toList))[v]? =
          if p (P.place v) then (db.idMap[v]?.map (text useBitvectors db)).or ret[v]? else ret[v]? :=
      fun ret p => getElem?_insertMany_filter ret db.idMap (fun v => p (P.place v)) (text useBitvectors db) v
    have hout : P.place v ≠ .instruction → v ∉ P.insts := fun hne hv => hne (P.insts_place v hv)
    rw [hpairs, hpairs, hpairs, hinsts]
    cases hp : P.place v with
    | instruction => simp [isFunction, isGlobalVariable, isArgument]
    | _ =>
        have hv := hout (by rw [hp]; simp)
        simp [isFunction, isGlobalVariable, isArgument, hv]

/-- A database whose identifiers are entered is dumped, and the parser finds them again. -/
theorem Entered.dump_readBack (useBitvectors : Bool) (hentered : Entered T db)
    (hplace : ∀ v ∈ db.idMap, Dumpable (P.place v))
    (hstale : ∀ i ∈ P.insts, i ∉ db.idMap → WellFormed M i) :
    ∃ M' ret, dumpIDMapToModule P useBitvectors db M = .ok (db, M') ∧
      parseIDMapFromModule P M' = .ok ret ∧ ∀ v : Value, ret[v]? = readBack P useBitvectors db M v := by
  have hes : ∀ e ∈ db.idMap.toList, e.2 ≠ "" ∧ (∃ n, db.strIDToInt[e.2]? = some n) ∧ Dumpable (P.place e.1) := by
    intro e he
    have hget := Std.TreeMap.mem_toList_iff_getElem?_eq_some.mp he
    obtain ⟨n, _, hname⟩ := hentered.names _ _ hget
    refine ⟨hname ▸ newID_ne_empty _ n, hentered.known _ _ hget, hplace e.1 ?_⟩
    exact Std.TreeMap.mem_iff_isSome_getElem?.mpr (Option.isSome_iff_exists.mpr ⟨_, hget⟩)
  have htext : ∀ e ∈ db.idMap.toList, text useBitvectors db e.2 ≠ "" := fun e he =>
    text_ne_empty useBitvectors db (hes e he).1
  have hwf : ∀ i ∈ P.insts, WellFormed (dumpedMetadata P useBitvectors db M) i := by
    intro i hi node hnode
    rw [dumpedMetadata_info, if_pos (P.insts_place i hi)] at hnode
    cases hs : db.idMap[i]? with
    | none =>
        rw [hs] at hnode
        refine hstale i hi (fun hmem => ?_) node hnode
        rw [Std.TreeMap.mem_iff_isSome_getElem?, hs] at hmem
        cases hmem
    | some s =>
        rw [hs] at hnode
        cases hnode
        exact ⟨_, htext (i, s) (Std.TreeMap.mem_toList_iff_getElem?_eq_some.mpr hs), rfl⟩
  obtain ⟨ret, hret, hread⟩ := parse_dumpedMetadata useBitvectors htext hwf
  refine ⟨_, ret, dumpIDMapToModule_eq useBitvectors hes, hret, fun v => ?_⟩
  have hout : P.place v ≠ .instruction → v ∉ P.insts := fun hne hv => hne (P.insts_place v hv)
  rw [hread, dumpedMetadata_info]
  unfold readBack
  cases hs : db.idMap[v]? with
  | none =>
      cases hp : P.place v with
      | instruction => simp [isFunction, isGlobalVariable, isArgument]
      | _ =>
          have hv := hout (by rw [hp]; simp)
          simp [isFunction, isGlobalVariable, isArgument, hv]
  | some s =>
      have hdumpable := (hes (v, s) (Std.TreeMap.mem_toList_iff_getElem?_eq_some.mpr hs)).2.2
      cases hp : P.place v with
      | instruction =>
          by_cases hv : v ∈ P.insts
          · simp [isFunction, isGlobalVariable, isArgument, hv, nodeText]
          · simp [isFunction, isGlobalVariable, isArgument, hv]
      | argument | globalVariable | function => simp [isFunction, isGlobalVariable, isArgument]
      | constantExpr | constant | other =>
          rw [hp] at hdumpable
          exact hdumpable.elim

/-- **The round trip.**  A database that any calls have made is dumped without a failed assertion, if all its
values can be dumped, and the parser finds their identifiers again. -/
theorem parse_dump (useBitvectors : Bool) (hrun : run T calls = .ok db)
    (hplace : ∀ v ∈ db.idMap, Dumpable (P.place v))
    (hstale : ∀ i ∈ P.insts, i ∉ db.idMap → WellFormed M i) :
    ∃ M' ret, dumpIDMapToModule P useBitvectors db M = .ok (db, M') ∧
      parseIDMapFromModule P M' = .ok ret ∧ ∀ v : Value, ret[v]? = readBack P useBitvectors db M v :=
  (Entered.run hrun).dump_readBack useBitvectors hplace hstale

theorem text_injective (useBitvectors : Bool) (h : Entered T db)
    (hsize : useBitvectors = true → db.strIDToInt.size ≤ 2 ^ 32) {v w : Value} {s t : String}
    (hv : db.idMap[v]? = some s) (hw : db.idMap[w]? = some t)
    (heq : text useBitvectors db s = text useBitvectors db t) : v = w := by
  have hst : s = t := by
    cases useBitvectors with
    | false => exact heq
    | true =>
        obtain ⟨n, hn⟩ := h.known v s hv
        obtain ⟨m, hm⟩ := h.known w t hw
        have hnm := to_const_bitvec_injective (show to_const_bitvec _ = to_const_bitvec _ from heq)
        rw [hn, hm] at hnm
        exact h.intsInjective (hsize rfl) s t n hn (hm.trans (congrArg some hnm.symm))
  exact h.injective v w s hv (hst ▸ hw)

/-- **The identifiers that are read identify the values**, if the module had none of other values before. -/
theorem parse_dump_injective (useBitvectors : Bool) (hrun : run T calls = .ok db)
    (hplace : ∀ v ∈ db.idMap, Dumpable (P.place v) ∧ (P.place v = .instruction → v ∈ P.insts))
    (hfresh : ∀ i ∈ P.insts, i ∉ db.idMap → M.info[i]? = none)
    (hsize : useBitvectors = true → db.strIDToInt.size ≤ 2 ^ 32) :
    ∃ M' ret, dumpIDMapToModule P useBitvectors db M = .ok (db, M') ∧ parseIDMapFromModule P M' = .ok ret ∧
      (∀ v : Value, v ∈ ret ↔ v ∈ db.idMap) ∧
      ∀ (v w : Value) str, ret[v]? = some str → ret[w]? = some str → v = w := by
  have hentered := Entered.run hrun
  obtain ⟨M', ret, hdump, hparse, hread⟩ := hentered.dump_readBack useBitvectors (fun v hv => (hplace v hv).1)
    (M := M) (fun i hi hout node hnode => by rw [hfresh i hi hout] at hnode; cases hnode)
  have hsame : ∀ v : Value, ret[v]? = db.idMap[v]?.map (text useBitvectors db) := by
    intro v
    rw [hread]
    unfold readBack
    cases hs : db.idMap[v]? with
    | none =>
        have hout : v ∉ db.idMap := by
          rw [Std.TreeMap.mem_iff_isSome_getElem?, hs]
          exact Bool.false_ne_true
        dsimp only
        split_ifs with hv
        · rw [hfresh v hv hout]
          rfl
        · rfl
    | some s =>
        have hmem : v ∈ db.idMap := by
          rw [Std.TreeMap.mem_iff_isSome_getElem?, hs]
          rfl
        dsimp only
        rw [if_neg (fun h => h.2 ((hplace v hmem).2 h.1))]
        rfl
  refine ⟨M', ret, hdump, hparse, fun v => ?_, fun v w str hv hw => ?_⟩
  · rw [Std.TreeMap.mem_iff_isSome_getElem?, Std.TreeMap.mem_iff_isSome_getElem?, hsame, Option.isSome_map]
  · rw [hsame] at hv hw
    obtain ⟨s, hs, hv⟩ := Option.map_eq_some_iff.mp hv
    obtain ⟨t, ht, hw⟩ := Option.map_eq_some_iff.mp hw
    exact text_injective useBitvectors hentered hsize hs ht (hv.trans hw.symm)

end RoundTrip

namespace DumpedModule

/-- Two instructions, a function with two arguments, and a global variable. -/
def places : Places where
  place v := if v = 11 then .argument 10 0 else if v = 12 then .argument 10 1 else
    if v = 0 ∨ v = 3 then .instruction else if v = 20 then .globalVariable true else
    if v = 10 then .function else .other
  insts := [0, 3]
  args f := if f = 10 then [11, 12] else []
  insts_place := by decide
  args_get f n a := by
    by_cases hf : f = 10
    · subst hf
      rcases n with _ | _ | n
      · by_cases ha : a = 11 <;> simp [ha, eq_comm]
        split_ifs <;> simp_all
      · by_cases ha : a = 12 <;> simp [ha, eq_comm]
        split_ifs <;> simp_all
      · simp
        split_ifs <;> simp
    · simp only [if_neg hf, List.getElem?_nil, reduceCtorEq, false_iff]
      split_ifs <;> simp [eq_comm (a := (10 : Nat)), hf]
  parent_place a f n h := by
    split_ifs at h <;> cases h <;> rfl
  argNo_lt a f n h := by
    split_ifs at h <;> cases h <;> decide

def values : ValueTable where
  kind v := if v = 0 ∨ v = 3 then .instruction else if v = 11 ∨ v = 12 then .argument else
    if v = 20 then .globalVariable else .constant
  pointers v := if v = 20 then 1 else 0
  use_ne v asI h := by
    split_ifs at h

def calls : List Call :=
  [.saveAndGetID 20, .saveAndGetID 12, .saveAndGetIntID 0, .saveAndGetID 10]

theorem run_calls : ∃ db, run values calls = .ok db ∧
    (db.idMap.toList, db.strIDToInt.size) = ([(0, "2"), (10, "3"), (12, "1"), (20, "*0")], 4) := by
  refine Fallible.exists_ok_of_toOption (f := fun (db : ValToStrDB) => (db.idMap.toList, db.strIDToInt.size)) ?_
  decide

theorem mem_idMap {db : ValToStrDB} (h : db.idMap.toList = [(0, "2"), (10, "3"), (12, "1"), (20, "*0")])
    (v : Value) : v ∈ db.idMap ↔ v ∈ [0, 10, 12, 20] := by
  rw [← Std.TreeMap.mem_keys, ← Std.TreeMap.map_fst_toList_eq_keys, h]
  rfl

theorem placed : ∀ v ∈ [0, 10, 12, 20], Dumpable (places.place v) ∧
    (places.place v = .instruction → v ∈ places.insts) := by
  simp [places, Dumpable]

/-- The second instruction has an identifier from an earlier dump. -/
def stale : Metadata where
  info := .ofList [(3, [MDOperand.mdString "*0"])]

theorem stale_wellFormed (i : Value) (hi : i ∈ places.insts) : WellFormed stale i := by
  intro node hnode
  have hnodes : ∀ i ∈ [0, 3], stale.info[i]? = none ∨ stale.info[i]? = some [.mdString "*0"] := by decide
  rcases hnodes i hi with h | h
  · rw [h] at hnode
    cases hnode
  · rw [h] at hnode
    cases hnode
    exact ⟨"*0", by decide, rfl⟩

/-- **An identifier that an earlier dump has left** on an instruction is read as that of a global. -/
theorem parse_dump_stale : ∃ db M' ret, run values calls = .ok db ∧
    dumpIDMapToModule places false db stale = .ok (db, M') ∧ parseIDMapFromModule places M' = .ok ret ∧
    ret[(3 : Value)]? = some "*0" ∧ ret[(20 : Value)]? = some "*0" := by
  obtain ⟨db, hdb, h⟩ := run_calls
  obtain ⟨hlist, _⟩ := Prod.mk.inj h
  have hmem := mem_idMap hlist
  obtain ⟨M', ret, hdump, hparse, hread⟩ := parse_dump (P := places) (M := stale) false hdb
    (fun v hv => (placed v ((hmem v).mp hv)).1) (fun i hi _ => stale_wellFormed i hi)
  have hthree : db.idMap[(3 : Value)]? = none := by
    rw [Std.TreeMap.getElem?_eq_none]
    rw [hmem]
    decide
  have htwenty : db.idMap[(20 : Value)]? = some "*0" := by
    rw [← Std.TreeMap.mem_toList_iff_getElem?_eq_some, hlist]
    decide
  refine ⟨db, M', ret, hdb, hdump, hparse, ?_, ?_⟩
  · rw [hread, readBack, hthree]
    change (if 3 ∈ places.insts then stale.info[(3 : Value)]?.bind nodeText else none) = some "*0"
    decide
  · rw [hread, readBack, htwenty]
    rfl

/-- The bit vectors identify the four values. -/
theorem parse_dump_injective_bitvectors : ∃ db M' ret, run values calls = .ok db ∧
    dumpIDMapToModule places true db {} = .ok (db, M') ∧ parseIDMapFromModule places M' = .ok ret ∧
    (∀ v : Value, v ∈ ret ↔ v ∈ db.idMap) ∧
    ∀ (v w : Value) str, ret[v]? = some str → ret[w]? = some str → v = w := by
  obtain ⟨db, hdb, h⟩ := run_calls
  obtain ⟨hlist, hsize⟩ := Prod.mk.inj h
  obtain ⟨M', ret, hall⟩ := parse_dump_injective (P := places) (M := {}) true hdb
    (fun v hv => placed v ((mem_idMap hlist v).mp hv)) (fun _ _ _ => rfl) (fun _ => by rw [hsize]; decide)
  exact ⟨db, M', ret, hdb, hall⟩

end DumpedModule

end ValToStrDB

/-! ### The bit vectors of the solver

`valueCacheToMetadata` writes the number of each instruction that the solver knows, as `BVID`. -/

/-- A number in as many hexadecimal digits as the size has nibbles. -/
def bvText (sz i : Nat) : String :=
  "#x" ++ String.ofList (Hexadecimal.pad ((sz + 3) / 4) i)

/-- `z3_fp_helpers::to_const_bitvec`, of a number that has to fit. -/
def to_const_bitvecSz (i sz : Nat) : Except Stop String :=
  if i < 2 ^ sz then .ok (bvText sz i)
  else .error (.abort "value bigger than size")

/-- One pair of the cache; values other than instructions are only warned about. -/
def bvidToMetadata (P : Places) (bvSize : Nat) (bvids : Std.TreeMap Value MDNode) (e : Value × Nat) :
    Except Stop (Std.TreeMap Value MDNode) := do
  let bvstr ← to_const_bitvecSz e.2 bvSize
  if P.place e.1 = .instruction then
    return bvids.insert e.1 [.mdString bvstr]
  return bvids

def valueCacheToMetadata (P : Places) (bvSize : Nat) (valueCache : ValueCache) (bvids : Std.TreeMap Value MDNode) :
    Except Stop (Std.TreeMap Value MDNode) :=
  if valueCache.size = 0 then
    .ok bvids
  else
    valueCache.toList.foldlM (bvidToMetadata P bvSize) bvids

/-- The cache that some calls leave. -/
def cacheAfter (bvSize : Nat) (calls : List Value) : Except Stop ValueCache :=
  calls.foldlM (fun valueCache v => do return (← getValueBVIDSz v bvSize valueCache).2) {}

section ValueCache

variable {P : Places} {bvSize : Nat} {calls : List Value} {valueCache : ValueCache}

/-- The cache numbers the values that were asked for. -/
theorem cacheAfter_numbers (hn : bvSize ≤ 32) (h : cacheAfter bvSize calls = .ok valueCache) :
    Numbers (number [] calls) valueCache := by
  refine foldlM_invariant (fun done (valueCache : ValueCache) => Numbers (number [] done) valueCache) ?_
    numbers_empty h
  intro done v cache cache' hdone hstep
  obtain ⟨r, hr, hstep⟩ := bind_eq_ok.mp hstep
  cases hstep
  rw [Numbering.number_append, number]
  by_cases hv : v ∈ number [] done
  · rw [hdone.getValueBVIDSz_of_mem hn hv] at hr
    cases hr
    rw [if_pos hv]
    exact hdone
  · rw [hdone.getValueBVIDSz_of_not_mem hn hv] at hr
    split_ifs at hr
    cases hr
    rw [if_neg hv]
    exact hdone.insert hv

theorem Numbers.mem_toList {vs : List Value} (h : Numbers vs valueCache) {e : Value × Nat} :
    e ∈ valueCache.toList ↔ e.1 ∈ vs ∧ e.2 = vs.idxOf e.1 % 2 ^ 32 := by
  rw [Std.TreeMap.mem_toList_iff_getElem?_eq_some, h.getElem?]
  split_ifs with hv
  · rw [Option.some_inj]
    exact ⟨fun heq => ⟨hv, heq.symm⟩, fun heq => heq.2.symm⟩
  · exact iff_of_false (by simp) fun heq => hv heq.1

/-- The numbers of the cache are small enough exactly when there are not more values than bit vectors. -/
theorem cache_fits_iff (hn : bvSize < 32) (h : cacheAfter bvSize calls = .ok valueCache) :
    (∀ e ∈ valueCache.toList, e.2 < 2 ^ bvSize) ↔ calls.dedup.length ≤ 2 ^ bvSize := by
  have hnumbers := cacheAfter_numbers hn.le h
  rw [← Numbering.length_number]
  constructor
  · intro hfits
    by_contra hlt
    obtain ⟨v, hv, hidx⟩ := Numbering.exists_idxOf (Nat.lt_of_not_le hlt)
    have hmod : 2 ^ bvSize % 2 ^ 32 = 2 ^ bvSize := Nat.mod_eq_of_lt (Nat.pow_lt_pow_right (by decide) hn)
    have hmem : (v, 2 ^ bvSize) ∈ valueCache.toList :=
      hnumbers.mem_toList.mpr ⟨Numbering.mem_number.mpr (.inr hv), by rw [hidx, hmod]⟩
    exact absurd (hfits _ hmem) (Nat.lt_irrefl _)
  · intro hle e he
    obtain ⟨hv, heq⟩ := hnumbers.mem_toList.mp he
    calc e.2 ≤ (number [] calls).idxOf e.1 := heq ▸ Nat.mod_le _ _
      _ < (number [] calls).length := List.idxOf_lt_length_of_mem hv
      _ ≤ 2 ^ bvSize := hle

theorem foldlM_bvidToMetadata {es : List (Value × Nat)} (hes : ∀ e ∈ es, e.2 < 2 ^ bvSize)
    (bvids : Std.TreeMap Value MDNode) :
    es.foldlM (bvidToMetadata P bvSize) bvids = .ok (bvids.insertMany
      ((es.filter fun e => P.place e.1 = .instruction).map fun e => (e.1, [.mdString (bvText bvSize e.2)]))) := by
  induction es generalizing bvids with
  | nil => simp [pure, Except.pure]
  | cons e es ih =>
      have hstep : bvidToMetadata P bvSize bvids e = .ok (if P.place e.1 = .instruction then
          bvids.insert e.1 [.mdString (bvText bvSize e.2)] else bvids) := by
        unfold bvidToMetadata to_const_bitvecSz
        rw [if_pos (hes e (.head _)), Fallible.ok_bind]
        split_ifs <;> rfl
      rw [List.foldlM_cons, hstep, Fallible.ok_bind, ih (fun e' he' => hes e' (.tail _ he')), List.filter_cons]
      by_cases hp : P.place e.1 = .instruction
      · simp [hp, Std.TreeMap.insertMany_cons]
      · simp [hp]

theorem foldlM_bvidToMetadata_error {es : List (Value × Nat)} (hes : ¬ ∀ e ∈ es, e.2 < 2 ^ bvSize)
    (bvids : Std.TreeMap Value MDNode) :
    es.foldlM (bvidToMetadata P bvSize) bvids = .error (.abort "value bigger than size") := by
  cases h : es.foldlM (bvidToMetadata P bvSize) bvids with
  | ok bvids' =>
      refine absurd (fun e he => ?_) hes
      obtain ⟨_, _, hstep⟩ := Fallible.foldlM_step_ok h he
      obtain ⟨_, htext, _⟩ := bind_eq_ok.mp hstep
      unfold to_const_bitvecSz at htext
      split_ifs at htext with hlt
      exact hlt
  | error e =>
      have hfails : Fallible.FailsIn (· = .abort "value bigger than size")
          (es.foldlM (bvidToMetadata P bvSize) bvids) := by
        refine .foldlM (fun e _ bvids => .bind ?_ fun _ => ?_) _
        · unfold to_const_bitvecSz
          split_ifs
          · exact .ok _
          · exact .error rfl
        · split_ifs
          · exact .ok _
          · exact .ok _
      rw [hfails e h]

/-- **The `BVID` of an instruction is the bit vector that the solver has for it**, unless there are more values
than bit vectors: then an assertion fails. -/
theorem valueCacheToMetadata_cases (hn : bvSize < 32) (h : cacheAfter bvSize calls = .ok valueCache)
    (bvids : Std.TreeMap Value MDNode) :
    (calls.dedup.length ≤ 2 ^ bvSize →
      ∃ bvids', valueCacheToMetadata P bvSize valueCache bvids = .ok bvids' ∧
        ∀ v ∈ calls, P.place v = .instruction → ∃ b, getValueBVIDSz v bvSize valueCache = .ok (b, valueCache) ∧
          bvids'[v]? = some [.mdString (bvText bvSize b.toNat)]) ∧
      (2 ^ bvSize < calls.dedup.length →
        valueCacheToMetadata P bvSize valueCache bvids = .error (.abort "value bigger than size")) := by
  have hnumbers := cacheAfter_numbers hn.le h
  have hempty : valueCache.size = 0 → calls = [] := by
    intro hsize
    rw [hnumbers.size, Numbering.length_number] at hsize
    simpa using hsize
  unfold valueCacheToMetadata
  refine ⟨fun hfits => ?_, fun hlt => ?_⟩
  · have hes := (cache_fits_iff hn h).mpr hfits
    split_ifs with hsize
    · rw [hempty hsize]
      exact ⟨bvids, rfl, fun v hv => absurd hv List.not_mem_nil⟩
    · refine ⟨_, foldlM_bvidToMetadata hes bvids, fun v hv hplace => ?_⟩
      have hmem : v ∈ number [] calls := Numbering.mem_number.mpr (.inr hv)
      have hlt : (number [] calls).idxOf v < 2 ^ bvSize := by
        rw [← Numbering.length_number] at hfits
        exact Nat.lt_of_lt_of_le (List.idxOf_lt_length_of_mem hmem) hfits
      have hmod : (number [] calls).idxOf v % 2 ^ 32 = (number [] calls).idxOf v :=
        Nat.mod_eq_of_lt (hlt.trans (Nat.pow_lt_pow_right (by decide) hn))
      refine ⟨_, hnumbers.getValueBVIDSz_of_mem hn.le hmem, ?_⟩
      rw [BitVec.toNat_ofNat, Nat.mod_eq_of_lt hlt]
      have hread := ValToStrDB.getElem?_insertMany_filter bvids valueCache (fun v => P.place v = .instruction)
        (fun n => [MDOperand.mdString (bvText bvSize n)]) v
      rw [if_pos (decide_eq_true hplace), hnumbers.getElem?, if_pos hmem, hmod] at hread
      exact hread
  · split_ifs with hsize
    · rw [hempty hsize] at hlt
      exact absurd hlt (Nat.not_lt_zero _)
    · exact foldlM_bvidToMetadata_error (fun hes => hlt.not_ge ((cache_fits_iff hn h).mp hes)) bvids

end ValueCache

namespace DumpedModule

/-- The third value has no bit vector of one bit, and the dump fails. -/
theorem valueCacheToMetadata_one : ∃ valueCache, cacheAfter 1 [0, 3, 12, 0] = .ok valueCache ∧
    valueCacheToMetadata ValToStrDB.DumpedModule.places 1 valueCache {} =
      .error (.abort "value bigger than size") := by
  obtain ⟨cache, hcache, _⟩ := Fallible.exists_ok_of_toOption (x := cacheAfter 1 [0, 3, 12, 0])
    (f := fun (valueCache : ValueCache) => valueCache.size) (c := 3) (by decide)
  exact ⟨cache, hcache, (valueCacheToMetadata_cases (by decide) hcache {}).2 (by decide)⟩

end DumpedModule

end Watts
