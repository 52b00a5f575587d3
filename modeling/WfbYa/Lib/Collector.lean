/-
  WfbYa.Lib.Collector — blocks of coded pieces, as a receiver with one block at hand
  collects them.

  Pieces `(block, index)` arrive in any order, some twice, some never. A piece counts if
  its block is the newest begun; a later block's piece closes the one before. Of a closed
  block the first `k` pieces come out: all of them if any `k` pieces are there and they can
  be decoded, otherwise those that are there.

  - `collect`: one more piece.
  - `released`: what comes out of a block.
  - `output`: what comes out of all blocks, oldest first.
-/

import Mathlib.Data.Finset.Card
import Mathlib.Data.List.Lex

namespace WfbYa.Lib.Collector

/-- The blocks begun, the newest first, and the pieces collected of each. -/
abbrev Begun := List (Nat × Finset Nat)

def collect (bs : Begun) (w : Nat × Nat) : Begun :=
  match bs with
  | [] => [(w.1, {w.2})]
  | (b, D) :: rest =>
    if w.1 < b then bs
    else if w.1 = b then (b, insert w.2 D) :: rest
    else (w.1, {w.2}) :: bs

/-- What comes out of a block of which the pieces `D` are there. -/
def released (coded : Bool) (k : Nat) (D : Finset Nat) : List Nat :=
  if coded = true ∧ k ≤ D.card then List.range k else (List.range k).filter (· ∈ D)

/-- What comes out of the blocks, by block and index. -/
def output (coded : Bool) (k : Nat) (bs : Begun) : List (Nat × Nat) :=
  bs.reverse.flatMap fun p => (released coded k p.2).map (Prod.mk p.1)

variable {coded : Bool} {k b f : Nat} {D : Finset Nat} {bs rest : Begun}

/-! ## One more piece -/

theorem collect_nil : collect [] (b, f) = [(b, {f})] := rfl

theorem collect_old {c : Nat} (h : c < b) : collect ((b, D) :: rest) (c, f) = (b, D) :: rest := if_pos h

theorem collect_same : collect ((b, D) :: rest) (b, f) = (b, insert f D) :: rest := by simp [collect]

theorem collect_newer {c : Nat} (h : b < c) : collect ((b, D) :: rest) (c, f) = (c, {f}) :: (b, D) :: rest := by
  simp only [collect]
  rw [if_neg (Nat.lt_asymm h), if_neg (ne_of_gt h)]

/-! ## What comes out -/

theorem output_cons (p : Nat × Finset Nat) (bs : Begun) :
    output coded k (p :: bs) = output coded k bs ++ (released coded k p.2).map (Prod.mk p.1) := by
  simp [output]

theorem lt_of_mem_released {i : Nat} (h : i ∈ released coded k D) : i < k := by
  unfold released at h
  split at h
  · exact List.mem_range.mp h
  · exact List.mem_range.mp (List.mem_filter.mp h).1

theorem lt_of_mem_output {w : Nat × Nat} (h : w ∈ output coded k bs) : w.2 < k := by
  obtain ⟨p, -, hp⟩ := List.mem_flatMap.mp h
  obtain ⟨i, hi, rfl⟩ := List.mem_map.mp hp
  exact lt_of_mem_released hi

/-- With all of the first `k` there, they all come out. -/
theorem released_all (h : ∀ i < k, i ∈ D) : released coded k D = List.range k := by
  unfold released
  split
  · rfl
  · apply List.filter_eq_self.mpr
    intro i hi
    exact decide_eq_true (h i (List.mem_range.mp hi))

theorem released_decoded (hc : coded = true) (h : k ≤ D.card) : released coded k D = List.range k := if_pos ⟨hc, h⟩

/-- What has come out in full stays so. -/
theorem released_insert (h : released coded k D = List.range k) : released coded k (insert f D) = List.range k := by
  by_cases hd : coded = true ∧ k ≤ D.card
  · exact released_decoded hd.1 (le_trans hd.2 (Finset.card_le_card (Finset.subset_insert f D)))
  · apply released_all
    intro i hi
    unfold released at h
    rw [if_neg hd] at h
    have := List.filter_eq_self.mp h i (List.mem_range.mpr hi)
    exact Finset.mem_insert_of_mem (of_decide_eq_true this)

/-- Of a block that cannot be decoded come first the ones up to `t`, if they are there,
    and then what else is there. -/
theorem released_split {t : Nat} (hn : ¬ (coded = true ∧ k ≤ D.card)) (ht : t ≤ k) (h : ∀ i < t, i ∈ D) :
    released coded k D = List.range t ++ (List.range' t (k - t)).filter (· ∈ D) := by
  have hk : List.range k = List.range t ++ List.range' t (k - t) := by
    have happ := @List.range'_append_1 0 t (k - t)
    rw [Nat.zero_add, Nat.add_sub_cancel' ht] at happ
    rw [List.range_eq_range', List.range_eq_range', happ]
  have hall : (List.range t).filter (· ∈ D) = List.range t := by
    apply List.filter_eq_self.mpr
    intro i hi
    exact decide_eq_true (h i (List.mem_range.mp hi))
  unfold released
  rw [if_neg hn, hk, List.filter_append, hall]

end WfbYa.Lib.Collector
