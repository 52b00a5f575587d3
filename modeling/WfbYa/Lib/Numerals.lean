/-
  WfbYa.Lib.Numerals — numbers in a text, and reading them.

  - `readNat_padded`: leading zeros do not matter.
  - `readInt_nonneg` / `readInt_neg`: a number, and one with a sign in front.
-/

import Mathlib.Data.List.Basic

namespace WfbYa.Lib.Numerals

def readNat (cs : List Char) : Option Nat :=
  if cs ≠ [] ∧ cs.all Char.isDigit = true then some (Nat.ofDigitChars 10 cs 0) else none

def readInt : List Char → Option Int
  | '-' :: cs => (readNat cs).map Int.negOfNat
  | cs => (readNat cs).map Int.ofNat

variable {n : Nat} {c : Char}

theorem not_mem_digits (h : c.isDigit = false) : c ∉ Nat.toDigits 10 n := by
  intro hc
  have hdigit := Nat.isDigit_of_mem_toDigits (by decide) (by decide) hc
  rw [h] at hdigit
  cases hdigit

theorem readNat_padded (k n : Nat) : readNat (List.replicate k '0' ++ Nat.toDigits 10 n) = some n := by
  have hall : (List.replicate k '0' ++ Nat.toDigits 10 n).all Char.isDigit = true := by
    rw [List.all_eq_true]
    intro c hc
    rcases List.mem_append.mp hc with hc | hc
    · rw [List.eq_of_mem_replicate hc]
      rfl
    · exact Nat.isDigit_of_mem_toDigits (by decide) (by decide) hc
  have hne : List.replicate k '0' ++ Nat.toDigits 10 n ≠ [] := by simp [Nat.toDigits_ne_nil]
  unfold readNat
  rw [if_pos ⟨hne, hall⟩, Nat.ofDigitChars_append, Nat.ofDigitChars_replicate_zero, Nat.mul_zero, Nat.ofDigitChars_ten_toDigits]

@[simp] theorem readNat_digits (n : Nat) : readNat (Nat.toDigits 10 n) = some n := readNat_padded 0 n

theorem readInt_nonneg {i : Int} {cs : List Char} (hi : ¬i < 0) (h : readNat cs = some i.natAbs) : readInt cs = some i := by
  have hsign : ∀ cs', cs ≠ '-' :: cs' := by
    rintro cs' rfl
    simp [readNat] at h
  unfold readInt
  split
  · next cs' => exact absurd rfl (hsign cs')
  · rw [h]
    exact congrArg some (Int.natAbs_of_nonneg (Int.not_lt.mp hi))

theorem readInt_neg {i : Int} {cs : List Char} (hi : i < 0) (h : readNat cs = some i.natAbs) : readInt ('-' :: cs) = some i := by
  have habs : Int.negOfNat i.natAbs = i := by
    rw [Int.negOfNat_eq, Int.ofNat_eq_natCast]
    omega
  simp [readInt, h, habs]

/-! ## Base 16 -/

def hexValue (c : Char) : Option Nat :=
  if c.isDigit then some (c.toNat - 48) else if 97 ≤ c.toNat ∧ c.toNat ≤ 102 then some (c.toNat - 87) else none

def hexNext (n : Nat) (c : Char) : Option Nat := (hexValue c).map fun d => 16 * n + d

def readHex (cs : List Char) : Option Nat := if cs = [] then none else cs.foldlM hexNext 0

theorem hexValue_digit {d : Nat} (h : d < 16) : hexValue d.digitChar = some d := by
  revert d
  decide

/-- Along the digits, from the last one on. -/
theorem hex_digits (n : Nat) : (Nat.toDigits 16 n).foldlM hexNext 0 = some n ∧ ∀ c ∈ Nat.toDigits 16 n, hexValue c ≠ none := by
  induction n using Nat.strongRecOn with
  | ind n ih =>
    by_cases hn : n < 16
    · rw [Nat.toDigits_of_lt_base hn]
      simp [hexNext, hexValue_digit hn]
    · obtain ⟨hfold, hmem⟩ := ih (n / 16) (by omega)
      have hlast : hexValue (n % 16).digitChar = some (n % 16) := hexValue_digit (by omega)
      rw [Nat.toDigits_of_base_le (by decide) (by omega)]
      constructor
      · simp [List.foldlM_append, hfold, hexNext, hlast]
        omega
      · intro c hc
        rcases List.mem_append.mp hc with hc | hc
        · exact hmem c hc
        · simp [List.mem_singleton.mp hc, hlast]

@[simp] theorem readHex_digits (n : Nat) : readHex (Nat.toDigits 16 n) = some n := by
  unfold readHex
  rw [if_neg Nat.toDigits_ne_nil, (hex_digits n).1]

theorem not_mem_hexDigits (h : hexValue c = none) : c ∉ Nat.toDigits 16 n := fun hc => (hex_digits n).2 c hc h

end WfbYa.Lib.Numerals
