import Mathlib.Data.List.Basic
import Mathlib.Tactic.Common

/-! Hexadecimal numerals of a fixed width, and the numbers that they stand for. -/

namespace Hexadecimal

/-- The digits of a number after as many zeros as fill the width. -/
def pad (width n : Nat) : List Char :=
  List.replicate (width - (Nat.toDigits 16 n).length) '0' ++ Nat.toDigits 16 n

def digitValue (c : Char) : Nat :=
  if c.isDigit then c.toNat - '0'.toNat else c.toNat - 'a'.toNat + 10

/-- The number that some digits continue. -/
def valueFrom (acc : Nat) (cs : List Char) : Nat :=
  cs.foldl (fun acc c => 16 * acc + digitValue c) acc

def value (cs : List Char) : Nat :=
  valueFrom 0 cs

theorem digitValue_digitChar {d : Nat} (h : d < 16) : digitValue d.digitChar = d := by
  revert d
  decide

theorem valueFrom_append (acc : Nat) (cs ds : List Char) :
    valueFrom acc (cs ++ ds) = valueFrom (valueFrom acc cs) ds := by
  exact List.foldl_append

/-- The digits of a number stand for it. -/
theorem value_toDigits (n : Nat) : value (Nat.toDigits 16 n) = n := by
  induction n using Nat.strongRecOn with
  | ind n ih =>
      by_cases hn : n < 16
      · rw [Nat.toDigits_of_lt_base hn]
        simp [value, valueFrom, digitValue_digitChar hn]
      · rw [Nat.toDigits_of_base_le (by decide) (Nat.le_of_not_lt hn), value, valueFrom_append]
        change valueFrom (value (Nat.toDigits 16 (n / 16))) [(n % 16).digitChar] = n
        rw [ih (n / 16) (by omega)]
        simp only [valueFrom, List.foldl_cons, List.foldl_nil, digitValue_digitChar (Nat.mod_lt n (by decide))]
        omega

/-- **Leading zeros** do not change the number. -/
theorem value_pad (width n : Nat) : value (pad width n) = n := by
  have hzeros : ∀ k, valueFrom 0 (List.replicate k '0') = 0 := by
    intro k
    induction k with
    | zero => rfl
    | succ k ih =>
        rw [List.replicate_succ', valueFrom_append, ih]
        rfl
  calc value (pad width n) = valueFrom (valueFrom 0 (List.replicate _ '0')) (Nat.toDigits 16 n) :=
        valueFrom_append 0 _ _
    _ = value (Nat.toDigits 16 n) := by rw [hzeros, value]
    _ = n := value_toDigits n

theorem pad_injective {width m n : Nat} (h : pad width m = pad width n) : m = n := by
  rw [← value_pad width m, h, value_pad]

end Hexadecimal
