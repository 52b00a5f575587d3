/-
  WfbYa.Lib.Rotation — an array that is written round and round.

  `unrolled l i` is the array from the slot written next on: oldest first.

  - `unrolled_push`: writing that slot drops the oldest value and puts the new one behind all.
-/

import Mathlib.Tactic.Common

namespace WfbYa.Lib.Rotation

/-- The slot behind `i` on a circle of `n`. -/
def next (n i : Nat) : Nat := if n ≤ i + 1 then 0 else i + 1

theorem next_lt {n i : Nat} (h : 0 < n) : next n i < n := by
  unfold next
  split <;> omega

variable {α : Type} {l : List α} {i : Nat}

def unrolled (l : List α) (i : Nat) : List α := l.drop i ++ l.take i

theorem unrolled_length (l : List α) (i : Nat) : (unrolled l i).length = l.length := by
  unfold unrolled
  rw [List.length_append, List.length_drop, List.length_take]
  omega

/-- All but the oldest. -/
def newer (l : List α) (i : Nat) : List α := l.drop (i + 1) ++ l.take i

theorem unrolled_eq (h : i < l.length) : unrolled l i = l[i] :: newer l i := by
  unfold unrolled newer
  rw [List.drop_eq_getElem_cons h, List.cons_append]

theorem unrolled_next (h : i < l.length) : unrolled l (next l.length i) = newer l i ++ [l[i]] := by
  unfold next
  split
  · rename_i hend
    have hlen : i + 1 = l.length := by omega
    unfold unrolled newer
    rw [List.drop_zero, List.take_zero, List.append_nil, hlen, List.drop_length, List.nil_append, List.take_append_getElem, hlen,
      List.take_length]
  · unfold unrolled newer
    rw [List.append_assoc, List.take_append_getElem]

theorem newer_set (v : α) : newer (l.set i v) i = newer l i := by
  unfold newer
  rw [List.drop_set_of_lt (Nat.lt_succ_self i), List.take_set_of_le (Nat.le_refl i)]

theorem unrolled_push (h : i < l.length) (v : α) : unrolled (l.set i v) (next l.length i) = newer l i ++ [v] := by
  have h' : i < (l.set i v).length := by rwa [List.length_set]
  have hnext := unrolled_next h'
  rwa [List.length_set, newer_set, List.getElem_set_self] at hnext

end WfbYa.Lib.Rotation
