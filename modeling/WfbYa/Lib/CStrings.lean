/-
  WfbYa.Lib.CStrings — the C library's text, as bytes without the NUL.

  - `sameText`: what `strcasecmp` finds equal, in the C locale.
  - `snprintf`: as much of a text as there is room for, and a NUL.
  - `strtol`: the number at the front of a text, and what is behind it.
-/

import Mathlib.Data.List.Basic

namespace WfbYa.Lib.CStrings

def tolower (c : UInt8) : UInt8 := if 65 ≤ c ∧ c ≤ 90 then c + 32 else c

/-- `strcasecmp(s, t) == 0`. -/
def sameText (s t : List UInt8) : Bool := s.map tolower == t.map tolower

/-- What `snprintf` stores in `size` bytes. -/
def snprintf (size : Nat) (text : List UInt8) : List UInt8 := text.take (size - 1) ++ [0]

/-- The string in front of the first NUL. -/
def cText (bs : List UInt8) : List UInt8 := bs.takeWhile fun c => decide (c ≠ 0)

def isspace (c : UInt8) : Bool := c = 32 || (9 ≤ c && c ≤ 13)

def isdigit (c : UInt8) : Bool := 48 ≤ c && c ≤ 57

def digitsValue (ds : List UInt8) : Nat := ds.foldl (fun n c => 10 * n + (c.toNat - 48)) 0

/-- `LONG_MAX`, for a `long` of 64 bits. -/
def longMax : Nat := 9223372036854775807

/-- The number, or the end of the range that is nearest. -/
def toLong (neg : Bool) (n : Nat) : Int :=
  if neg then Int.negOfNat (if n ≤ longMax then n else longMax + 1) else Int.ofNat (if n ≤ longMax then n else longMax)

/-- `strtol(s, &endptr, 10)`: the value, and the text at `endptr`. -/
def strtol (s : List UInt8) : Int × List UInt8 :=
  let t := s.dropWhile isspace
  let neg := decide (t.head? = some 45)
  let t := if neg || t.head? = some 43 then t.tail else t
  if t.takeWhile isdigit = [] then (0, s) else (toLong neg (digitsValue (t.takeWhile isdigit)), t.dropWhile isdigit)

variable {s t u : List UInt8}

theorem sameText_iff : sameText s t = true ↔ s.map tolower = t.map tolower := beq_iff_eq

/-- A text that is one word is not another. -/
theorem sameText_ne (h : sameText s t = true) (h' : sameText t u = false) : sameText s u = false := by
  by_contra hu
  rw [Bool.not_eq_false] at hu
  have ht : sameText t u = true := sameText_iff.mpr ((sameText_iff.mp h).symm.trans (sameText_iff.mp hu))
  rw [ht] at h'
  cases h'

theorem cText_nul (h : (0 : UInt8) ∉ s) (rest : List UInt8) : cText (s ++ 0 :: rest) = s := by
  have hne : ∀ c ∈ s, decide (c ≠ 0) = true := fun c hc => decide_eq_true fun h0 => h (h0 ▸ hc)
  unfold cText
  rw [List.takeWhile_append_of_pos hne]
  simp

/-- A text that fits is stored whole. -/
theorem cText_snprintf {size : Nat} (hfit : s.length < size) (h : (0 : UInt8) ∉ s) (rest : List UInt8) :
    cText (snprintf size s ++ rest) = s := by
  unfold snprintf
  rw [List.take_of_length_le (Nat.le_sub_one_of_lt hfit), List.append_assoc]
  exact cText_nul h rest

end WfbYa.Lib.CStrings
