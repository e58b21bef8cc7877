import Mathlib.Data.List.Induction
import Watts.IR
import Watts.Library.Fallible
import Watts.Library.PartialInverse

/-! The database of `ValToStrDB.cpp`: the string identifier of each value of a program, the integer of each
string, and the reverse of the two maps. -/

namespace Watts

open Fallible (bind_eq_ok)
open PartialInverse

/-- A constant expression as an instruction, as far as `getConstExprUse` tells them apart. -/
inductive AsInstruction
  | getElementPtr (pointerOperand : Value)
  | cast (operand : Value)
  | other
deriving DecidableEq, Repr

/-- What `dyn_cast` tells the database about a value. -/
inductive ValueKind
  | instruction
  | argument
  | globalVariable
  | constantInt (ci : ConstantInt)
  | constantPointerNull
  | constantExpr (asI : AsInstruction)
  | constant
  | other
deriving DecidableEq, Repr

/-- The value that a constant expression uses. -/
def getConstExprUse : AsInstruction → Except Stop Value
  | .getElementPtr pointerOperand => .ok pointerOperand
  | .cast operand => .ok operand
  | .other => .error (.abort "unhandled ConstExpr type (see above)")

/-- The values of a program, with the number of nested pointers in their types.  A constant expression is
not its own operand. -/
structure ValueTable where
  kind : Value → ValueKind
  pointers : Value → Nat
  use_ne : ∀ v asI, kind v = .constantExpr asI → getConstExprUse asI ≠ .ok v

/-- The static string of a constant, if it has one. -/
def Constants.getStr : ValueKind → Option String
  | .constantInt ci => some (toString ci.val.toInt ++ "CONST_INT")
  | .constantPointerNull => some "NULL"
  | _ => none

/-- One `*` for each nested pointer. -/
def getStars (pointers : Nat) : String :=
  String.ofList (List.replicate pointers '*')

/-- The string identifier of the value with a number. -/
def newID (pointers id : Nat) : String :=
  if 0 < pointers then getStars pointers ++ toString id else toString id

structure ValToStrDB where
  idMap : Std.TreeMap Value String := {}
  revIDMap : Std.TreeMap String Value := {}
  strIDToInt : Std.TreeMap String Nat := {}
  revStrIDToInt : Std.TreeMap Nat String := {}

/-- The assertions of `mapInsert`. -/
def Stop.OfMapInsert (e : Stop) : Prop :=
  e = .abort "Overwritting value in map" ∨ e = .abort "Overwritting value in rev map" ∨
    e = .abort "f == StrIDToInt.end()"

namespace ValToStrDB

/-- Insert a value and its string into the four maps. -/
def mapInsert (db : ValToStrDB) (v : Value) (s : String) : Except Stop ValToStrDB :=
  if db.idMap.contains v then
    .error (.abort "Overwritting value in map")
  else if db.revIDMap.contains s then
    .error (.abort "Overwritting value in rev map")
  else if db.strIDToInt.contains s then
    .error (.abort "f == StrIDToInt.end()")
  else
    let intID := db.strIDToInt.size % 2 ^ 32
    .ok { idMap := db.idMap.insert v s
          revIDMap := db.revIDMap.insert s v
          strIDToInt := db.strIDToInt.insert s intID
          revStrIDToInt := db.revStrIDToInt.insert intID s }

/-- The value that the database looks up: a constant expression stands for what it uses. -/
def lookedUp (T : ValueTable) (v : Value) : Except Stop Value :=
  match T.kind v with
  | .constantExpr asI => getConstExprUse asI
  | _ => .ok v

/-- The string identifier of a value; a new value gets the number of values as its own. -/
def saveAndGetID (T : ValueTable) (db : ValToStrDB) (v : Value) : Except Stop (String × ValToStrDB) := do
  let v ← lookedUp T v
  if T.kind v = .other then
    throw (.abort "unhandled types (see above)")
  match Constants.getStr (T.kind v) with
  | some str => return (str, db)
  | none =>
    match db.idMap[v]? with
    | none =>
      let newID := newID (T.pointers v) db.idMap.size
      return (newID, ← db.mapInsert v newID)
    | some s => return (s, db)

/-- `saveAndGetIntID` of a string.  A new string is entered into one of the two maps only. -/
def saveAndGetIntIDOfString (db : ValToStrDB) (s : String) : Except Stop (Nat × ValToStrDB) :=
  if s = "" then
    .error (.abort "size zero string passed")
  else
    match db.strIDToInt[s]? with
    | none =>
      let newID := db.strIDToInt.size % 2 ^ 32
      .ok (newID, { db with strIDToInt := db.strIDToInt.insert s newID })
    | some id => .ok (id, db)

/-- `saveAndGetIntID` of a value. -/
def saveAndGetIntID (T : ValueTable) (db : ValToStrDB) (v : Value) : Except Stop (Nat × ValToStrDB) := do
  let (s, db) ← db.saveAndGetID T v
  if s = "" then
    throw (.abort "0 length string")
  db.saveAndGetIntIDOfString s

/-- The value with an integer; `none` is `NULL`. -/
def getValueOrNULL (db : ValToStrDB) (id : Nat) : Option Value :=
  match db.revStrIDToInt[id]? with
  | none => none
  | some strId => db.revIDMap[strId]?

end ValToStrDB

/-! ### The identifiers -/

theorem newID_toList (pointers id : Nat) :
    (newID pointers id).toList = List.replicate pointers '*' ++ Nat.toDigits 10 id := by
  have hid : (toString id).toList = Nat.toDigits 10 id := Nat.toList_repr
  unfold newID getStars
  split_ifs with hp
  · rw [String.toList_append, String.toList_ofList, hid]
  · rw [hid, Nat.eq_zero_of_not_pos hp, List.replicate_zero, List.nil_append]

/-- The digits of an identifier are those of its number. -/
theorem newID_digits (pointers id : Nat) :
    (newID pointers id).toList.filter Char.isDigit = Nat.toDigits 10 id := by
  rw [newID_toList, List.filter_append, List.filter_replicate_of_neg (by decide), List.nil_append,
    List.filter_eq_self]
  exact fun c hc => Nat.isDigit_of_mem_toDigits (by decide) (by decide) hc

theorem newID_injective {p p' id id' : Nat} (h : newID p id = newID p' id') : id = id' := by
  have hdigits : Nat.toDigits 10 id = Nat.toDigits 10 id' := by
    rw [← newID_digits p id, h, newID_digits]
  calc id = Nat.ofDigitChars 10 (Nat.toDigits 10 id) 0 := (Nat.ofDigitChars_toDigits (by decide) (by decide)).symm
    _ = Nat.ofDigitChars 10 (Nat.toDigits 10 id') 0 := by rw [hdigits]
    _ = id' := Nat.ofDigitChars_toDigits (by decide) (by decide)

theorem newID_ne_empty (pointers id : Nat) : newID pointers id ≠ "" := by
  intro h
  have hdigits := newID_digits pointers id
  rw [h] at hdigits
  exact Nat.toDigits_ne_nil hdigits.symm

/-- The string of a constant contains a letter, and an identifier does not. -/
theorem Constants.mem_getStr {k : ValueKind} {str : String} (h : Constants.getStr k = some str) :
    'N' ∈ str.toList := by
  cases k <;> simp only [Constants.getStr, Option.some.injEq, reduceCtorEq] at h
  · rw [← h, String.toList_append]
    exact List.mem_append_right _ (by decide)
  · rw [← h]
    decide

theorem Constants.getStr_ne_empty {k : ValueKind} {str : String} (h : Constants.getStr k = some str) : str ≠ "" := by
  rintro rfl
  exact absurd (Constants.mem_getStr h) (by decide)

theorem Constants.getStr_ne_newID {k : ValueKind} {str : String} (h : Constants.getStr k = some str)
    (pointers id : Nat) : str ≠ newID pointers id := by
  have hN := Constants.mem_getStr h
  intro heq
  rw [heq, newID_toList, List.mem_append] at hN
  rcases hN with hN | hN
  · exact absurd (List.eq_of_mem_replicate hN) (by decide)
  · exact absurd (Nat.isDigit_of_mem_toDigits (by decide) (by decide) hN) (by decide)

/-! ### The invariant -/

namespace ValToStrDB

/-- A value that gets an entry when it is looked up. -/
def Stored (T : ValueTable) (v : Value) : Prop :=
  T.kind v ≠ .other ∧ Constants.getStr (T.kind v) = none

/-- The string of each value carries a number of its own, and the strings are numbered in order. -/
structure Numbered (T : ValueTable) (db : ValToStrDB) : Prop where
  ids : Inverse (fun v : Value => db.idMap[v]?) (fun s : String => db.revIDMap[s]?)
  ints : Inverse (fun s : String => db.strIDToInt[s]?) (fun n : Nat => db.revStrIDToInt[n]?)
  strings : ∀ s : String, db.strIDToInt[s]? = none ↔ db.revIDMap[s]? = none
  range : ∀ n : Nat, db.revStrIDToInt[n]? = none ↔ db.strIDToInt.size ≤ n
  size : db.strIDToInt.size ≤ 2 ^ 32
  names : ∀ (v : Value) s, db.idMap[v]? = some s → ∃ n < db.idMap.size, s = newID (T.pointers v) n

theorem numbered_empty (T : ValueTable) : Numbered T {} where
  ids v s := by simp
  ints s n := by simp
  strings s := by simp
  range n := by simp
  size := by decide
  names v s h := by simp at h

/-- The database after `mapInsert`. -/
def inserted (db : ValToStrDB) (v : Value) (s : String) : ValToStrDB where
  idMap := db.idMap.insert v s
  revIDMap := db.revIDMap.insert s v
  strIDToInt := db.strIDToInt.insert s (db.strIDToInt.size % 2 ^ 32)
  revStrIDToInt := db.revStrIDToInt.insert (db.strIDToInt.size % 2 ^ 32) s

section Numbered

variable {T : ValueTable} {db : ValToStrDB} {v : Value}

/-- A new identifier is not the string of a value. -/
theorem Numbered.fresh (h : Numbered T db) (v : Value) :
    db.revIDMap[newID (T.pointers v) db.idMap.size]? = none := by
  cases hw : db.revIDMap[newID (T.pointers v) db.idMap.size]? with
  | none => rfl
  | some w =>
      obtain ⟨n, hn, heq⟩ := h.names w _ ((h.ids w _).mpr hw)
      exact absurd (newID_injective heq) hn.ne'

/-- The string of a constant has no integer. -/
theorem Numbered.getStr_none (h : Numbered T db) {k : ValueKind} {str : String} (hs : Constants.getStr k = some str) :
    db.strIDToInt[str]? = none := by
  rw [h.strings]
  cases hrev : db.revIDMap[str]? with
  | none => rfl
  | some w =>
      obtain ⟨n, _, hname⟩ := h.names w str ((h.ids w str).mpr hrev)
      exact absurd hname (Constants.getStr_ne_newID hs _ n)

/-- **The assertions of `mapInsert` hold** for a new value and its identifier. -/
theorem Numbered.mapInsert_eq (h : Numbered T db) (hv : db.idMap[v]? = none) :
    db.mapInsert v (newID (T.pointers v) db.idMap.size) =
      .ok (db.inserted v (newID (T.pointers v) db.idMap.size)) := by
  have hrev := h.fresh v
  have hstr := (h.strings _).mpr hrev
  unfold mapInsert
  rw [if_neg (not_contains hv), if_neg (not_contains hrev), if_neg (not_contains hstr)]
  rfl

theorem Numbered.inserted (h : Numbered T db) (hv : db.idMap[v]? = none) (hsize : db.strIDToInt.size < 2 ^ 32) :
    Numbered T (db.inserted v (newID (T.pointers v) db.idMap.size)) := by
  have hrev := h.fresh v
  have hstr := (h.strings _).mpr hrev
  have hint : db.revStrIDToInt[db.strIDToInt.size]? = none := (h.range _).mpr le_rfl
  have hmod : db.strIDToInt.size % 2 ^ 32 = db.strIDToInt.size := Nat.mod_eq_of_lt hsize
  refine ⟨?_, ?_, fun s => ?_, fun n => ?_, ?_, fun w s hw => ?_⟩
  · simp only [ValToStrDB.inserted, getElem?_insert]
    exact h.ids.update hv hrev
  · simp only [ValToStrDB.inserted, getElem?_insert, hmod]
    exact h.ints.update hstr hint
  · simp only [ValToStrDB.inserted, Std.TreeMap.getElem?_insert]
    split_ifs with hs
    · simp
    · exact h.strings s
  · simp only [ValToStrDB.inserted, Std.TreeMap.getElem?_insert, hmod, size_insert hstr, Nat.compare_eq_eq]
    split_ifs with hn
    · exact iff_of_false not_false (by omega)
    · rw [h.range n]
      omega
  · simp only [ValToStrDB.inserted, size_insert hstr]
    omega
  · simp only [ValToStrDB.inserted, Std.TreeMap.getElem?_insert, Nat.compare_eq_eq, size_insert hv] at hw ⊢
    split_ifs at hw with hvw
    · subst hvw
      exact ⟨db.idMap.size, Nat.lt_succ_self _, (Option.some.inj hw).symm⟩
    · obtain ⟨n, hn, hs⟩ := h.names w s hw
      exact ⟨n, Nat.lt_succ_of_lt hn, hs⟩

end Numbered

/-! ### One call -/

section Calls

variable {T : ValueTable} {db : ValToStrDB} {v u : Value} {s : String}

theorem saveAndGetID_of_some (hl : lookedUp T v = .ok u) (hu : Stored T u) (hs : db.idMap[u]? = some s) :
    db.saveAndGetID T v = .ok (s, db) := by
  simp only [saveAndGetID, hl, hu.2, hs, if_neg hu.1, bind, Except.bind]
  rfl

theorem Numbered.saveAndGetID_of_none (h : Numbered T db) (hl : lookedUp T v = .ok u) (hu : Stored T u)
    (hnone : db.idMap[u]? = none) : db.saveAndGetID T v = .ok (newID (T.pointers u) db.idMap.size,
      db.inserted u (newID (T.pointers u) db.idMap.size)) := by
  simp only [saveAndGetID, hl, hu.2, hnone, if_neg hu.1, h.mapInsert_eq hnone, bind, Except.bind]
  rfl

theorem saveAndGetID_of_getStr (hl : lookedUp T v = .ok u) (hs : Constants.getStr (T.kind u) = some s) :
    db.saveAndGetID T v = .ok (s, db) := by
  have hother : T.kind u ≠ .other := by
    intro hother
    rw [hother] at hs
    cases hs
  simp only [saveAndGetID, hl, hs, if_neg hother, bind, Except.bind]
  rfl

/-- What a call looks up: a value, a constant, or nothing that the database handles. -/
theorem lookedUp_cases (T : ValueTable) (v : Value) :
    (∃ e, (∀ db : ValToStrDB, db.saveAndGetID T v = .error e) ∧ ¬ e.OfMapInsert) ∨
      (∃ u s, lookedUp T v = .ok u ∧ Constants.getStr (T.kind u) = some s) ∨
      ∃ u, lookedUp T v = .ok u ∧ Stored T u := by
  cases hl : lookedUp T v with
  | error e =>
      refine .inl ⟨e, fun db => ?_, ?_⟩
      · simp only [saveAndGetID, hl, bind, Except.bind]
      · unfold lookedUp at hl
        cases hk : T.kind v with
        | constantExpr asI =>
            rw [hk] at hl
            cases asI <;> cases hl
            simp [Stop.OfMapInsert]
        | _ =>
            rw [hk] at hl
            cases hl
  | ok u =>
      by_cases hother : T.kind u = .other
      · refine .inl ⟨.abort "unhandled types (see above)", fun db => ?_, by simp [Stop.OfMapInsert]⟩
        simp only [saveAndGetID, hl, if_pos hother, bind, Except.bind]
        rfl
      · cases hs : Constants.getStr (T.kind u) with
        | some s => exact .inr (.inl ⟨u, s, rfl, hs⟩)
        | none => exact .inr (.inr ⟨u, rfl, hother, hs⟩)

theorem saveAndGetIntIDOfString_of_some {id : Nat} (hne : s ≠ "") (hs : db.strIDToInt[s]? = some id) :
    db.saveAndGetIntIDOfString s = .ok (id, db) := by
  simp only [saveAndGetIntIDOfString, if_neg hne, hs]

theorem saveAndGetIntIDOfString_of_none (hne : s ≠ "") (hs : db.strIDToInt[s]? = none) :
    db.saveAndGetIntIDOfString s = .ok (db.strIDToInt.size % 2 ^ 32,
      { db with strIDToInt := db.strIDToInt.insert s (db.strIDToInt.size % 2 ^ 32) }) := by
  simp only [saveAndGetIntIDOfString, if_neg hne, hs]

theorem saveAndGetIntID_of_ok {db₁ : ValToStrDB} (hne : s ≠ "") (h : db.saveAndGetID T v = .ok (s, db₁)) :
    db.saveAndGetIntID T v = db₁.saveAndGetIntIDOfString s := by
  simp only [saveAndGetIntID, h, if_neg hne, bind, Except.bind]

/-- **The integer of a stored value leads back to it**, also when the value is new. -/
theorem Numbered.saveAndGetIntID_stored (h : Numbered T db) (hl : lookedUp T v = .ok u) (hu : Stored T u) :
    ∃ s id db₁, db.saveAndGetID T v = .ok (s, db₁) ∧ db.saveAndGetIntID T v = .ok (id, db₁) ∧
      db₁.getValueOrNULL id = some u := by
  cases hs : db.idMap[u]? with
  | some s =>
      obtain ⟨n, _, hname⟩ := h.names u s hs
      have hne : s ≠ "" := hname ▸ newID_ne_empty _ n
      have hrev : db.revIDMap[s]? = some u := (h.ids u s).mp hs
      cases hid : db.strIDToInt[s]? with
      | none => rw [(h.strings s).mp hid] at hrev; cases hrev
      | some id =>
          have hback : db.revStrIDToInt[id]? = some s := (h.ints s id).mp hid
          have hsave := saveAndGetID_of_some hl hu hs
          refine ⟨s, id, db, hsave, ?_, ?_⟩
          · rw [saveAndGetIntID_of_ok hne hsave, saveAndGetIntIDOfString_of_some hne hid]
          · simp only [getValueOrNULL, hback, hrev]
  | none =>
      have hsave := h.saveAndGetID_of_none hl hu hs
      have hne := newID_ne_empty (T.pointers u) db.idMap.size
      refine ⟨_, db.strIDToInt.size % 2 ^ 32, _, hsave, ?_, ?_⟩
      · rw [saveAndGetIntID_of_ok hne hsave, saveAndGetIntIDOfString_of_some hne]
        exact Std.TreeMap.getElem?_insert_self
      · simp only [getValueOrNULL, ValToStrDB.inserted, Std.TreeMap.getElem?_insert_self]

end Calls

/-! ### The four maps -/

/-- The three entry points. -/
inductive Call
  | saveAndGetID (v : Value)
  | saveAndGetIntID (v : Value)
  | saveAndGetIntIDOfString (s : String)
deriving DecidableEq, Repr

def exec (T : ValueTable) (db : ValToStrDB) : Call → Except Stop ValToStrDB
  | .saveAndGetID v => do return (← db.saveAndGetID T v).2
  | .saveAndGetIntID v => do return (← db.saveAndGetIntID T v).2
  | .saveAndGetIntIDOfString s => do return (← db.saveAndGetIntIDOfString s).2

/-- The database after some calls. -/
def run (T : ValueTable) (calls : List Call) : Except Stop ValToStrDB :=
  calls.foldlM (exec T) {}

/-- The reverse maps are the inverses, both maps are injective, and every value of the database is found
under its integer. -/
structure MutuallyInverse (T : ValueTable) (db : ValToStrDB) : Prop where
  ids : Inverse (fun v : Value => db.idMap[v]?) (fun s : String => db.revIDMap[s]?)
  ints : Inverse (fun s : String => db.strIDToInt[s]?) (fun n : Nat => db.revStrIDToInt[n]?)
  idsInjective : ∀ (v w : Value) s, db.idMap[v]? = some s → db.idMap[w]? = some s → v = w
  intsInjective : ∀ (s t : String) n, db.strIDToInt[s]? = some n → db.strIDToInt[t]? = some n → s = t
  found : ∀ v ∈ db.idMap, ∃ id db', db.saveAndGetIntID T v = .ok (id, db') ∧ db'.getValueOrNULL id = some v

/-- After each of the calls that returns the maps are mutually inverse, and no assertion of `mapInsert`
fails. -/
def StaysInverse (T : ValueTable) (calls : List Call) : Prop :=
  (∀ done db, done <+: calls → run T done = .ok db → MutuallyInverse T db) ∧
    ∀ e, run T calls = .error e → ¬ e.OfMapInsert

/-- The value has an entry, or it is no constant expression and an integer is left for it. -/
def Fits (T : ValueTable) (db : ValToStrDB) (u : Value) : Prop :=
  db.idMap[u]? = none → (∀ asI, T.kind u ≠ .constantExpr asI) ∧ db.strIDToInt.size < 2 ^ 32

/-- A call that asks for the integers of values only, or of strings that have one. -/
def Regular (T : ValueTable) (db : ValToStrDB) : Call → Prop
  | .saveAndGetID v => ∀ u, lookedUp T v = .ok u → Stored T u → Fits T db u
  | .saveAndGetIntID v => ∀ u, lookedUp T v = .ok u →
      Constants.getStr (T.kind u) = none ∧ (Stored T u → Fits T db u)
  | .saveAndGetIntIDOfString s => s = "" ∨ s ∈ db.strIDToInt

/-- All values of the database are looked up as themselves. -/
structure Plain (T : ValueTable) (db : ValToStrDB) : Prop extends Numbered T db where
  plain : ∀ (v : Value) s, db.idMap[v]? = some s → Stored T v ∧ ∀ asI, T.kind v ≠ .constantExpr asI

theorem plain_empty (T : ValueTable) : Plain T {} :=
  ⟨numbered_empty T, fun v s h => by simp at h⟩

theorem lookedUp_self {T : ValueTable} {v : Value} (h : ∀ asI, T.kind v ≠ .constantExpr asI) :
    lookedUp T v = .ok v := by
  unfold lookedUp
  cases hk : T.kind v with
  | constantExpr asI => exact absurd hk (h asI)
  | _ => rfl

section Steps

variable {T : ValueTable} {db : ValToStrDB}

theorem Plain.mutuallyInverse (h : Plain T db) : MutuallyInverse T db where
  ids := h.ids
  ints := h.ints
  idsInjective _ _ _ hv hw := h.ids.injective hv hw
  intsInjective _ _ _ hs ht := h.ints.injective hs ht
  found v hv := by
    obtain ⟨s, hs⟩ := Option.isSome_iff_exists.mp (Std.TreeMap.mem_iff_isSome_getElem?.mp hv)
    obtain ⟨hstored, hplain⟩ := h.plain v s hs
    obtain ⟨_, id, db₁, _, hint, hval⟩ := h.saveAndGetIntID_stored (lookedUp_self hplain) hstored
    exact ⟨id, db₁, hint, hval⟩

theorem Plain.inserted (h : Plain T db) {u : Value} (hu : Stored T u) (hnone : db.idMap[u]? = none)
    (hfits : Fits T db u) : Plain T (db.inserted u (newID (T.pointers u) db.idMap.size)) where
  toNumbered := h.toNumbered.inserted hnone (hfits hnone).2
  plain v s hv := by
    simp only [ValToStrDB.inserted, Std.TreeMap.getElem?_insert, Nat.compare_eq_eq] at hv
    split_ifs at hv with huv
    · subst huv
      exact ⟨hu, (hfits hnone).1⟩
    · exact h.plain v s hv

/-- A value that fits is entered into all four maps. -/
theorem Plain.saveAndGetID_stored (h : Plain T db) {v u : Value} (hl : lookedUp T v = .ok u) (hu : Stored T u)
    (hfits : Fits T db u) {s : String} {db₁ : ValToStrDB} (hsave : db.saveAndGetID T v = .ok (s, db₁)) :
    Plain T db₁ := by
  cases hs : db.idMap[u]? with
  | some s' =>
      rw [saveAndGetID_of_some hl hu hs] at hsave
      cases hsave
      exact h
  | none =>
      rw [h.saveAndGetID_of_none hl hu hs] at hsave
      cases hsave
      exact h.inserted hu hs hfits

/-- **A regular call** keeps the invariant and breaks no assertion of `mapInsert`. -/
theorem Plain.exec (h : Plain T db) {c : Call} (hc : Regular T db c) :
    (∃ db', db.exec T c = .ok db' ∧ Plain T db') ∨ ∃ e, db.exec T c = .error e ∧ ¬ e.OfMapInsert := by
  cases c with
  | saveAndGetID v =>
      rcases lookedUp_cases T v with ⟨e, herr, he⟩ | ⟨u, s, hl, hs⟩ | ⟨u, hl, hu⟩
      · exact .inr ⟨e, by rw [ValToStrDB.exec, herr db]; rfl, he⟩
      · exact .inl ⟨db, by rw [ValToStrDB.exec, saveAndGetID_of_getStr hl hs]; rfl, h⟩
      · obtain ⟨s, id, db₁, hsave, _⟩ := h.saveAndGetIntID_stored hl hu
        exact .inl ⟨db₁, by rw [ValToStrDB.exec, hsave]; rfl, h.saveAndGetID_stored hl hu (hc u hl hu) hsave⟩
  | saveAndGetIntID v =>
      rcases lookedUp_cases T v with ⟨e, herr, he⟩ | ⟨u, s, hl, hs⟩ | ⟨u, hl, hu⟩
      · refine .inr ⟨e, ?_, he⟩
        rw [ValToStrDB.exec, saveAndGetIntID, herr db]
        rfl
      · rw [(hc u hl).1] at hs
        cases hs
      · obtain ⟨s, id, db₁, hsave, hint, _⟩ := h.saveAndGetIntID_stored hl hu
        exact .inl ⟨db₁, by rw [ValToStrDB.exec, hint]; rfl, h.saveAndGetID_stored hl hu ((hc u hl).2 hu) hsave⟩
  | saveAndGetIntIDOfString s =>
      by_cases hne : s = ""
      · refine .inr ⟨.abort "size zero string passed", ?_, by simp [Stop.OfMapInsert]⟩
        rw [ValToStrDB.exec, saveAndGetIntIDOfString, if_pos hne]
        rfl
      · obtain ⟨id, hid⟩ := Option.isSome_iff_exists.mp
          (Std.TreeMap.mem_iff_isSome_getElem?.mp (hc.resolve_left hne))
        exact .inl ⟨db, by rw [ValToStrDB.exec, saveAndGetIntIDOfString_of_some hne hid]; rfl, h⟩

/-- The newest value is not found if it is a constant expression: another value, or a constant, is looked
up in its place. -/
theorem Numbered.not_found (h : Numbered T db) {u : Value} {asI : AsInstruction}
    (hk : T.kind u = .constantExpr asI) {s : String} {n : Nat} (hs : db.idMap[u]? = some s)
    (hn : db.strIDToInt[s]? = some n) (hlast : n + 1 = db.strIDToInt.size) :
    ¬ ∃ id db', db.saveAndGetIntID T u = .ok (id, db') ∧ db'.getValueOrNULL id = some u := by
  rintro ⟨id, db', hint, hval⟩
  rcases lookedUp_cases T u with ⟨e, herr, _⟩ | ⟨w, str, hl, hstr⟩ | ⟨w, hl, hw⟩
  · simp only [saveAndGetIntID, herr db, bind, Except.bind] at hint
    cases hint
  · -- the string of the constant gets the next integer
    have hne : str ≠ "" := Constants.getStr_ne_empty hstr
    rw [saveAndGetIntID_of_ok hne (saveAndGetID_of_getStr hl hstr),
      saveAndGetIntIDOfString_of_none hne (h.getStr_none hstr)] at hint
    cases hint
    unfold getValueOrNULL at hval
    dsimp only at hval
    cases hrev : db.revStrIDToInt[db.strIDToInt.size % 2 ^ 32]? with
    | none =>
        rw [hrev] at hval
        cases hval
    | some t =>
        rw [hrev] at hval
        have hut : db.idMap[u]? = some t := (h.ids u t).mpr hval
        obtain rfl : s = t := Option.some.inj (hs.symm.trans hut)
        have hnum := (h.ints s _).mpr hrev
        dsimp only at hnum
        rw [hn, Option.some.injEq] at hnum
        have := h.size
        omega
  · have hne : w ≠ u := by
      rintro rfl
      apply T.use_ne w asI hk
      simpa only [lookedUp, hk] using hl
    obtain ⟨_, id', db₁, _, hint', hval'⟩ := h.saveAndGetIntID_stored hl hw
    rw [hint'] at hint
    cases hint
    exact hne (Option.some.inj (hval'.symm.trans hval))

/-- A string that enters one map only. -/
theorem Numbered.not_mutuallyInverse_string (h : Numbered T db) {s : String} (hs : db.strIDToInt[s]? = none)
    (n : Nat) : ¬ MutuallyInverse T { db with strIDToInt := db.strIDToInt.insert s n } := by
  intro hm
  have hints := hm.ints
  simp only [getElem?_insert] at hints
  exact h.ints.not_update_left hs n hints

/-- A value for which no integer is left takes the integer of another. -/
theorem Numbered.not_mutuallyInverse_full (h : Numbered T db) (u : Value) (hsize : 2 ^ 32 ≤ db.strIDToInt.size) :
    ¬ MutuallyInverse T (db.inserted u (newID (T.pointers u) db.idMap.size)) := by
  intro hm
  have hzero : db.strIDToInt.size % 2 ^ 32 = 0 := by
    rw [Nat.le_antisymm h.size hsize]
    exact Nat.mod_self _
  have hstr := (h.strings _).mpr (h.fresh u)
  have hints := hm.ints
  simp only [ValToStrDB.inserted, hzero, getElem?_insert] at hints
  cases hold : db.revStrIDToInt[0]? with
  | none =>
      rw [h.range] at hold
      omega
  | some t => exact h.ints.not_update_of_some hstr hold hints

/-- A value that does not fit. -/
theorem Numbered.not_mutuallyInverse_inserted (h : Numbered T db) {u : Value} (hfits : ¬ Fits T db u) :
    db.idMap[u]? = none ∧ ¬ MutuallyInverse T (db.inserted u (newID (T.pointers u) db.idMap.size)) := by
  obtain ⟨hnone, hfits⟩ := Classical.not_imp.mp hfits
  refine ⟨hnone, fun hm => ?_⟩
  by_cases hsize : db.strIDToInt.size < 2 ^ 32
  · have hexpr : ∃ asI, T.kind u = .constantExpr asI := by
      by_contra hno
      exact hfits ⟨fun asI hk => hno ⟨asI, hk⟩, hsize⟩
    obtain ⟨asI, hk⟩ := hexpr
    have hstr := (h.strings _).mpr (h.fresh u)
    refine (h.inserted hnone hsize).not_found hk (s := newID (T.pointers u) db.idMap.size)
      (n := db.strIDToInt.size) ?_ ?_ ?_ (hm.found u ?_)
    · exact Std.TreeMap.getElem?_insert_self
    · rw [ValToStrDB.inserted, Std.TreeMap.getElem?_insert_self, Nat.mod_eq_of_lt hsize]
    · rw [ValToStrDB.inserted, size_insert hstr]
    · exact Std.TreeMap.mem_insert_self
  · exact h.not_mutuallyInverse_full u (Nat.le_of_not_lt hsize) hm

/-- **A call that is not regular** leaves maps that are not mutually inverse. -/
theorem Numbered.exec_irregular (h : Numbered T db) {c : Call} (hc : ¬ Regular T db c) :
    ∃ db', db.exec T c = .ok db' ∧ ¬ MutuallyInverse T db' := by
  cases c with
  | saveAndGetID v =>
      obtain ⟨u, hc⟩ := Classical.not_forall.mp hc
      obtain ⟨hl, hc⟩ := Classical.not_imp.mp hc
      obtain ⟨hu, hfits⟩ := Classical.not_imp.mp hc
      obtain ⟨hnone, hno⟩ := h.not_mutuallyInverse_inserted hfits
      exact ⟨_, by rw [ValToStrDB.exec, h.saveAndGetID_of_none hl hu hnone]; rfl, hno⟩
  | saveAndGetIntID v =>
      obtain ⟨u, hc⟩ := Classical.not_forall.mp hc
      obtain ⟨hl, hc⟩ := Classical.not_imp.mp hc
      cases hs : Constants.getStr (T.kind u) with
      | some s =>
          have hne := Constants.getStr_ne_empty hs
          have hnone := h.getStr_none hs
          refine ⟨_, ?_, h.not_mutuallyInverse_string hnone (db.strIDToInt.size % 2 ^ 32)⟩
          rw [ValToStrDB.exec, saveAndGetIntID_of_ok hne (saveAndGetID_of_getStr hl hs),
            saveAndGetIntIDOfString_of_none hne hnone]
          rfl
      | none =>
          obtain ⟨hu, hfits⟩ := Classical.not_imp.mp fun hfits => hc ⟨hs, hfits⟩
          obtain ⟨hnone, hno⟩ := h.not_mutuallyInverse_inserted hfits
          obtain ⟨s, id, db₁, hsave, hint, _⟩ := h.saveAndGetIntID_stored hl hu
          rw [h.saveAndGetID_of_none hl hu hnone] at hsave
          cases hsave
          exact ⟨_, by rw [ValToStrDB.exec, hint]; rfl, hno⟩
  | saveAndGetIntIDOfString s =>
      obtain ⟨hne, hmem⟩ := not_or.mp hc
      have hnone : db.strIDToInt[s]? = none := Std.TreeMap.getElem?_eq_none hmem
      refine ⟨_, ?_, h.not_mutuallyInverse_string hnone (db.strIDToInt.size % 2 ^ 32)⟩
      rw [ValToStrDB.exec, saveAndGetIntIDOfString_of_none hne hnone]
      rfl

end Steps

/-! ### All calls -/

section Runs

variable {T : ValueTable} {calls : List Call}

theorem run_concat (T : ValueTable) (done : List Call) (c : Call) :
    run T (done ++ [c]) = run T done >>= fun db => exec T db c := by
  simp only [run, List.foldlM_append, List.foldlM_cons, List.foldlM_nil, bind_pure]

/-- If a call that keeps the maps inverse is regular, then every database that is reached is plain. -/
theorem run_plain (hreg : ∀ done c rest db, calls = done ++ c :: rest → run T done = .ok db → Plain T db →
    Regular T db c) {done : List Call} {db : ValToStrDB} (hdone : done <+: calls) (h : run T done = .ok db) :
    Plain T db := by
  induction done using List.reverseRecOn generalizing db with
  | nil =>
      cases h
      exact plain_empty T
  | append_singleton done c ih =>
      obtain ⟨rest, hcalls⟩ := hdone
      rw [List.append_assoc, List.singleton_append] at hcalls
      rw [run_concat] at h
      obtain ⟨db₀, h₀, hstep⟩ := bind_eq_ok.mp h
      have hplain := ih ⟨c :: rest, hcalls⟩ h₀
      rcases hplain.exec (hreg done c rest db₀ hcalls.symm h₀ hplain) with ⟨db', hok, hdb'⟩ | ⟨e, herr, _⟩
      · obtain rfl := Except.ok.inj (hok.symm.trans hstep)
        exact hdb'
      · rw [herr] at hstep
        cases hstep

/-- **The four maps stay mutually inverse exactly when all calls are regular**: no plain string and no
constant is given an integer, no constant expression is stored, and the integers suffice. -/
theorem staysInverse_iff (T : ValueTable) (calls : List Call) : StaysInverse T calls ↔
    ∀ done c rest db, calls = done ++ c :: rest → run T done = .ok db → Regular T db c := by
  constructor
  · intro h
    have hreg : ∀ done c rest db, calls = done ++ c :: rest → run T done = .ok db → Plain T db →
        Regular T db c := by
      intro done c rest db hcalls hdone hplain
      by_contra hc
      obtain ⟨db', hstep, hno⟩ := hplain.exec_irregular hc
      refine hno (h.1 (done ++ [c]) db' ⟨rest, ?_⟩ ?_)
      · rw [hcalls, List.append_assoc, List.singleton_append]
      · rw [run_concat, hdone]
        exact hstep
    intro done c rest db hcalls hdone
    exact hreg done c rest db hcalls hdone (run_plain hreg ⟨c :: rest, hcalls.symm⟩ hdone)
  · intro hreg
    have hplain : ∀ done db, done <+: calls → run T done = .ok db → Plain T db := fun done db hdone h =>
      run_plain (fun done c rest db hcalls h _ => hreg done c rest db hcalls h) hdone h
    refine ⟨fun done db hdone h => (hplain done db hdone h).mutuallyInverse, fun e he => ?_⟩
    obtain ⟨done, c, rest, db, hcalls, hdone, hstep⟩ := Fallible.foldlM_eq_error.mp he
    rcases (hplain done db ⟨c :: rest, hcalls.symm⟩ hdone).exec (hreg done c rest db hcalls hdone) with
      ⟨db', hok, _⟩ | ⟨e', herr, he'⟩
    · rw [hok] at hstep
      cases hstep
    · obtain rfl := Except.error.inj (herr.symm.trans hstep)
      exact he'

end Runs

namespace PlainString

/-- Two instructions and the constant `5`. -/
def values : ValueTable where
  kind v := if v = 2 then .constantInt ⟨32, 5⟩ else .instruction
  pointers _ := 0
  use_ne v asI h := by
    split_ifs at h

/-- **A string and a constant that enter one map only.**  The string may be the identifier of a value that
comes later. -/
theorem not_staysInverse :
    run values [.saveAndGetIntIDOfString "0", .saveAndGetID 0] = .error (.abort "f == StrIDToInt.end()") ∧
      ¬ StaysInverse values [.saveAndGetIntIDOfString "0", .saveAndGetID 0] ∧
      (run values [.saveAndGetIntID 2]).toOption.map
        (fun db => (db.strIDToInt["5CONST_INT"]?, db.revStrIDToInt[0]?)) = some (some 0, none) ∧
      ¬ StaysInverse values [.saveAndGetIntID 2] := by
  have hassert : run values [.saveAndGetIntIDOfString "0", .saveAndGetID 0] =
      .error (.abort "f == StrIDToInt.end()") := by rfl
  have hconst : (run values [.saveAndGetIntID 2]).toOption.map
      (fun db => (db.strIDToInt["5CONST_INT"]?, db.revStrIDToInt[0]?)) = some (some 0, none) := by
    decide
  refine ⟨hassert, fun h => h.2 _ hassert (.inr (.inr rfl)), hconst, fun h => ?_⟩
  obtain ⟨db, hdb, hmaps⟩ := Fallible.exists_ok_of_toOption hconst
  have hback := ((h.1 _ db (List.prefix_refl _) hdb).ints "5CONST_INT" 0).mp (congrArg Prod.fst hmaps)
  have hnone : db.revStrIDToInt[0]? = none := congrArg Prod.snd hmaps
  dsimp only at hback
  rw [hnone] at hback
  cases hback

end PlainString

end ValToStrDB

end Watts
