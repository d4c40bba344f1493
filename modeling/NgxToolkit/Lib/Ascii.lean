import Mathlib.Data.FinEnum
import Mathlib.Data.UInt
import Mathlib.Tactic.Common

/-! Texts of bytes: the letters in lower case, and numbers in decimal. -/

namespace Lib

def colon : UInt8 := ':'.toUInt8

/-- A letter in lower case. -/
def tolower (c : UInt8) : UInt8 := if 65 ≤ c ∧ c ≤ 90 then c ||| 32 else c

theorem tolower_tolower (c : UInt8) : tolower (tolower c) = tolower c := by
  have hall : ∀ n : Nat, n < 256 → tolower (tolower (UInt8.ofNat n)) = tolower (UInt8.ofNat n) := by
    decide +kernel
  have hc := hall c.toNat c.toNat_lt
  rwa [UInt8.ofNat_toNat] at hc

/-- The number a text of decimal digits stands for. -/
def decimal (s : List UInt8) : Option Nat :=
  if s ≠ [] ∧ ∀ c ∈ s, 48 ≤ c ∧ c ≤ 57 then
    some (s.foldl (fun (n : Nat) (c : UInt8) => 10 * n + (c.toNat - 48)) 0)
  else none

end Lib
