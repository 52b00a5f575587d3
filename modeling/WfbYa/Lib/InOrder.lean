/-
  WfbYa.Lib.InOrder — output in the order of its keys.

  A machine with a cursor puts out keys at or after the cursor and moves it past them, so
  a run's keys increase however its steps are cut up.

  - `Emits lo ks hi`: the keys `ks` come out in order while the cursor goes from `lo` to
    `hi`.
  - `Emits.append`: two such pieces, one after the other.
-/

import Mathlib.Data.List.Basic
import Mathlib.Order.Basic

namespace WfbYa.Lib.InOrder

variable {α : Type*} [Preorder α] {a b c : α} {ks ls : List α}

structure Emits (lo : α) (ks : List α) (hi : α) : Prop where
  le : lo ≤ hi
  sorted : ks.Pairwise (· < ·)
  mem : ∀ k ∈ ks, lo ≤ k ∧ k < hi

theorem Emits.nil (h : a ≤ b) : Emits a [] b := ⟨h, .nil, fun _ hk => (nomatch hk)⟩

theorem Emits.append (h : Emits a ks b) (h' : Emits b ls c) : Emits a (ks ++ ls) c := by
  refine ⟨le_trans h.le h'.le, List.pairwise_append.mpr ⟨h.sorted, h'.sorted, fun k hk l hl => ?_⟩, fun k hk => ?_⟩
  · exact lt_of_lt_of_le (h.mem k hk).2 (h'.mem l hl).1
  · rcases List.mem_append.mp hk with hk | hk
    · exact ⟨(h.mem k hk).1, lt_of_lt_of_le (h.mem k hk).2 h'.le⟩
    · exact ⟨le_trans h.le (h'.mem k hk).1, (h'.mem k hk).2⟩

/-- Nothing comes out while the cursor is moved further. -/
theorem Emits.until (h : Emits a ks b) (hbc : b ≤ c) : Emits a ks c :=
  ⟨le_trans h.le hbc, h.sorted, fun k hk => ⟨(h.mem k hk).1, lt_of_lt_of_le (h.mem k hk).2 hbc⟩⟩

end WfbYa.Lib.InOrder
