/-
  WfbYa.Lib.Erasure — systematic erasure codes over words of different lengths.

  A block is `k` words, padded to one length with `z`, and `n - k` parities an encoder
  makes of them. A decoder is given any `k` of the `n`, each primary in its own place, and
  returns the missing primaries in order.

  - `Decodes`: what it is for a decoder to be right about an encoder.
  - `take_pad` / `pad_prefix`: what a reader who knows only one of the two lengths sees.
-/

import Mathlib.Data.List.Nodup
import Mathlib.Data.List.Range
import Mathlib.Order.Lattice

namespace WfbYa.Lib.Erasure

variable {α : Type*}

/-- A word filled up to `len` letters. -/
def pad (z : α) (len : Nat) (w : List α) : List α := w ++ List.replicate (len - w.length) z

theorem pad_length {z : α} {len : Nat} {w : List α} (h : w.length ≤ len) : (pad z len w).length = len := by
  simp only [pad, List.length_append, List.length_replicate]
  omega

/-- The start of a word padded further than needed. -/
theorem take_pad {z : α} {len more : Nat} {w : List α} (hw : w.length ≤ len) (hl : len ≤ more) :
    (pad z more w).take len = pad z len w := by
  unfold pad
  rw [List.take_append, List.take_of_length_le hw, List.take_replicate]
  congr 2
  omega

/-- Padding and more behind it keep the word at the start. -/
theorem pad_prefix (z : α) (len : Nat) (w rest : List α) : ∃ tail, pad z len w ++ rest = w ++ tail :=
  ⟨List.replicate (len - w.length) z ++ rest, by rw [pad, List.append_assoc]⟩

/-- The longest of the first `k` words. -/
def longest (word : Nat → List α) : Nat → Nat
  | 0 => 0
  | k + 1 => max (longest word k) (word k).length

theorem le_longest {word : Nat → List α} {k i : Nat} (h : i < k) : (word i).length ≤ longest word k := by
  induction k with
  | zero => omega
  | succ k ih =>
    unfold longest
    rcases Nat.lt_succ_iff_lt_or_eq.mp h with h | rfl
    · exact le_trans (ih h) (le_max_left _ _)
    · exact le_max_right _ _

/-- Fragment `i` of a block: a primary, or the parity the encoder makes for it. -/
def fragment (enc : List (List α) → Nat → List α) (k : Nat) (word : Nat → List α) (i : Nat) : List α :=
  if i < k then word i else enc ((List.range k).map word) i

/-- The decoder `dec` gets the missing primaries back from any `k` of the `n` fragments of
    a block of words of one length. -/
def Decodes (enc : List (List α) → Nat → List α) (dec : List (List α) → List Nat → Nat → List (List α)) (k n : Nat) : Prop :=
  ∀ (word : Nat → List α) (len : Nat) (index : List Nat), 0 < len → (∀ i < k, (word i).length = len) →
    index.length = k → index.Nodup → (∀ c ∈ index, c < n) → (∀ i c, index[i]? = some c → c < k → c = i) →
      dec (index.map (fragment enc k word)) index len = ((List.range k).filter (· ∉ index)).map word

end WfbYa.Lib.Erasure
