/-
  WfbYa.Lib.Fibers — counting a list key by key.

  - `sum_countP`: over keys without repetition that cover what is counted, the counts under
    the keys sum up to the whole count.
  - `sum_ite`: where a key counts for one or for nothing, the sum is a count of keys.
  - `countP_eq`: two lists of keys in which the same keys are counted.
-/

import Mathlib.Algebra.BigOperators.Group.List.Basic
import Mathlib.Algebra.GroupWithZero.Nat
import Mathlib.Data.List.Nodup
import Mathlib.Data.List.Perm.Basic

namespace WfbYa.Lib.Fibers

variable {κ β : Type}

theorem sum_ite (p : κ → Bool) (ks : List κ) : (ks.map fun k => if p k then 1 else 0).sum = ks.countP p := by
  induction ks with
  | nil => rfl
  | cons k ks ih =>
    rw [List.map_cons, List.sum_cons, ih, List.countP_cons, Nat.add_comm]

/-- What is counted once more is counted under its own key alone. -/
theorem sum_countP [DecidableEq κ] (key : β → κ) {p : β → Bool} {ks : List κ} (hks : ks.Nodup) {l : List β}
    (hkey : ∀ b ∈ l, p b = true → key b ∈ ks) :
    (ks.map fun k => l.countP fun b => decide (key b = k) && p b).sum = l.countP p := by
  induction l with
  | nil => simp
  | cons b l ih =>
    have hrest := ih fun b' hb' => hkey b' (List.mem_cons_of_mem b hb')
    simp only [List.countP_cons, List.sum_map_add]
    rw [hrest, sum_ite]
    congr 1
    by_cases hp : p b = true
    · have hone : ks.count (key b) = 1 := List.count_eq_one_of_mem hks (hkey b List.mem_cons_self hp)
      rw [if_pos hp, ← hone, List.count]
      apply List.countP_congr
      intro k _
      rw [hp, Bool.and_true, decide_eq_true_iff, beq_iff_eq]
      exact eq_comm
    · rw [if_neg hp, List.countP_eq_zero]
      intro k _
      simp [hp]

theorem countP_eq {p p' : κ → Bool} {ks ks' : List κ} (hks : ks.Nodup) (hks' : ks'.Nodup)
    (h : ∀ k, k ∈ ks ∧ p k = true ↔ k ∈ ks' ∧ p' k = true) : ks.countP p = ks'.countP p' := by
  rw [List.countP_eq_length_filter, List.countP_eq_length_filter]
  apply List.Perm.length_eq
  rw [List.perm_ext_iff_of_nodup (hks.filter p) (hks'.filter p')]
  intro k
  rw [List.mem_filter, List.mem_filter]
  exact h k

end WfbYa.Lib.Fibers
