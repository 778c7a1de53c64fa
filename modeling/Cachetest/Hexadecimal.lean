import Mathlib.Data.List.TakeWhile
import Mathlib.Order.Basic

/-!
# Hexadecimal numbers

Strings of hexadecimal digits and the numbers they stand for. The digits of a number stand for the
number.
-/

namespace Hexadecimal

/-! ## Digits -/

def isHexDigit (c : Char) : Bool :=
  c.isDigit || ('a' ≤ c && c ≤ 'f') || ('A' ≤ c && c ≤ 'F')

/-- The value of a digit. -/
def digitValue (c : Char) : Nat :=
  if c.isDigit then c.toNat - 48 else if 'a' ≤ c then c.toNat - 87 else c.toNat - 55

/-- The number that digits stand for. -/
def hexValue (digits : List Char) : Nat := digits.foldl (fun v c => 16 * v + digitValue c) 0

theorem isHexDigit_digitChar {d : Nat} (h : d < 16) : isHexDigit d.digitChar = true := by
  revert d
  decide

theorem digitValue_digitChar {d : Nat} (h : d < 16) : digitValue d.digitChar = d := by
  revert d
  decide

theorem hexValue_concat (digits : List Char) (c : Char) :
    hexValue (digits ++ [c]) = 16 * hexValue digits + digitValue c := by
  rw [hexValue, List.foldl_append]
  rfl

theorem isHexDigit_of_mem_toDigits {n : Nat} :
    ∀ c ∈ Nat.toDigits 16 n, isHexDigit c = true := by
  induction n using Nat.strongRecOn with
  | ind n ih =>
    intro c hc
    by_cases hn : n < 16
    · rw [Nat.toDigits_of_lt_base hn, List.mem_singleton] at hc
      exact hc ▸ isHexDigit_digitChar hn
    · -- The last digit is the remainder, the others are the digits of the quotient.
      rw [Nat.toDigits_of_base_le (by decide) (not_lt.mp hn)] at hc
      rcases List.mem_append.mp hc with hc | hc
      · exact ih (n / 16) (by omega) c hc
      · rw [List.mem_singleton.mp hc]
        exact isHexDigit_digitChar (Nat.mod_lt n (by decide))

theorem hexValue_toDigits (n : Nat) : hexValue (Nat.toDigits 16 n) = n := by
  induction n using Nat.strongRecOn with
  | ind n ih =>
    by_cases hn : n < 16
    · rw [Nat.toDigits_of_lt_base hn]
      simp [hexValue, digitValue_digitChar hn]
    · rw [Nat.toDigits_of_base_le (by decide) (not_lt.mp hn), hexValue_concat,
        ih (n / 16) (by omega), digitValue_digitChar (Nat.mod_lt n (by decide))]
      omega

/-! ## Numbers as they are written -/

/-- A number as it is written: one digit or more. -/
structure Literal where
  digits : List Char
  digits_ne_nil : digits ≠ []
  isHexDigit : ∀ c ∈ digits, isHexDigit c = true

namespace Literal

def value (l : Literal) : Nat := hexValue l.digits

/-- A number in lower case, without leading zeros. -/
def ofNat (n : Nat) : Literal where
  digits := Nat.toDigits 16 n
  digits_ne_nil := Nat.toDigits_ne_nil
  isHexDigit := isHexDigit_of_mem_toDigits

theorem value_ofNat (n : Nat) : (ofNat n).value = n := hexValue_toDigits n

theorem takeWhile_digits (l : Literal) : l.digits.takeWhile Hexadecimal.isHexDigit = l.digits :=
  List.takeWhile_eq_self_iff.mpr l.isHexDigit

theorem not_mem_digits (l : Literal) {c : Char} (hc : Hexadecimal.isHexDigit c = false) :
    c ∉ l.digits := by
  intro h
  rw [l.isHexDigit c h] at hc
  cases hc

theorem exists_digits (l : Literal) :
    ∃ c rest, l.digits = c :: rest ∧ Hexadecimal.isHexDigit c = true := by
  obtain ⟨c, rest, hdigits⟩ := List.exists_cons_of_ne_nil l.digits_ne_nil
  exact ⟨c, rest, hdigits, l.isHexDigit c (hdigits ▸ List.mem_cons_self)⟩

end Literal

end Hexadecimal
