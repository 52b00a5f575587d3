/-
  WfbYa.Lib.Words — the maximal runs of a list without a separator.

  - `runs_word`: the first run, and those behind it.
  - `runs_eq_nil_iff`: a list of separators.
  - `take_runs_length`: the runs, with a separator behind each, are no longer than the list.
-/

import Mathlib.Tactic.Common

namespace WfbYa.Lib.Words

variable {α : Type} [DecidableEq α] {sep : α} {l w : List α}

/-- The runs without `sep`, in their order. -/
def runs (sep : α) (l : List α) : List (List α) := (l.splitOn sep).filter fun w => decide (w ≠ [])

@[simp] theorem runs_nil : runs sep ([] : List α) = [] := by simp [runs]

theorem runs_sep (l : List α) : runs sep (sep :: l) = runs sep l := by
  unfold runs
  rw [List.splitOn_cons_eq_if_modifyHead, if_pos (beq_self_eq_true sep)]
  rfl

theorem runs_lead {lead : List α} (h : ∀ c ∈ lead, c = sep) (l : List α) : runs sep (lead ++ l) = runs sep l := by
  induction lead with
  | nil => rfl
  | cons c lead ih =>
    rw [h c List.mem_cons_self, List.cons_append, runs_sep]
    exact ih fun c' hc' => h c' (List.mem_cons_of_mem c hc')

theorem runs_word (hw : w ≠ []) (hsep : sep ∉ w) (l : List α) : runs sep (w ++ sep :: l) = w :: runs sep l := by
  unfold runs
  rw [List.splitOn_append_cons_of_beq w l (beq_self_eq_true sep), List.splitOn_eq_singleton hsep]
  simp [hw]

theorem runs_last (hw : w ≠ []) (hsep : sep ∉ w) : runs sep w = [w] := by
  unfold runs
  rw [List.splitOn_eq_singleton hsep]
  simp [hw]

/-- Up to the first separator, if there is one. -/
theorem first_word (sep : α) (l : List α) : ∃ w rest, l = w ++ rest ∧ sep ∉ w ∧ (rest = [] ∨ ∃ rest', rest = sep :: rest') := by
  induction l with
  | nil => exact ⟨[], [], rfl, List.not_mem_nil, .inl rfl⟩
  | cons c l ih =>
    by_cases hc : c = sep
    · exact ⟨[], c :: l, rfl, List.not_mem_nil, .inr ⟨l, by rw [hc]⟩⟩
    · obtain ⟨w, rest, rfl, hsep, hrest⟩ := ih
      refine ⟨c :: w, rest, rfl, ?_, hrest⟩
      intro hmem
      rcases List.mem_cons.mp hmem with heq | hmem
      · exact hc heq.symm
      · exact hsep hmem

/-- A list is all separators, or has a first run. -/
theorem first_run (sep : α) (l : List α) :
    (∀ c ∈ l, c = sep) ∨ ∃ lead w rest, l = lead ++ (w ++ rest) ∧ (∀ c ∈ lead, c = sep) ∧ w ≠ [] ∧ sep ∉ w ∧
      (rest = [] ∨ ∃ rest', rest = sep :: rest') := by
  induction l with
  | nil => exact .inl fun c hc => absurd hc List.not_mem_nil
  | cons c l ih =>
    by_cases hc : c = sep
    · rcases ih with hall | ⟨lead, w, rest, rfl, hlead, hrest⟩
      · left
        intro c' hc'
        rcases List.mem_cons.mp hc' with rfl | hc'
        · exact hc
        · exact hall c' hc'
      · right
        refine ⟨c :: lead, w, rest, rfl, ?_, hrest⟩
        intro c' hc'
        rcases List.mem_cons.mp hc' with rfl | hc'
        · exact hc
        · exact hlead c' hc'
    · right
      obtain ⟨w, rest, rfl, hsep, hrest⟩ := first_word sep l
      refine ⟨[], c :: w, rest, rfl, fun c' hc' => absurd hc' List.not_mem_nil, by simp, ?_, hrest⟩
      intro hmem
      rcases List.mem_cons.mp hmem with heq | hmem
      · exact hc heq.symm
      · exact hsep hmem

theorem runs_eq_nil_iff : runs sep l = [] ↔ ∀ c ∈ l, c = sep := by
  constructor
  · intro h
    rcases first_run sep l with hall | ⟨lead, w, rest, rfl, hlead, hw, hsep, hrest⟩
    · exact hall
    · rw [runs_lead hlead] at h
      rcases hrest with rfl | ⟨rest', rfl⟩
      · rw [List.append_nil, runs_last hw hsep] at h
        cases h
      · rw [runs_word hw hsep] at h
        cases h
  · intro h
    rw [← List.append_nil l, runs_lead h, runs_nil]

theorem take_runs_length (n : Nat) (l : List α) :
    ((runs sep l).take n).flatten.length + ((runs sep l).take n).length ≤ l.length + 1 := by
  induction n generalizing l with
  | zero => simp
  | succ n ih =>
    rcases first_run sep l with hall | ⟨lead, w, rest, rfl, hlead, hw, hsep, hrest⟩
    · simp [runs_eq_nil_iff.mpr hall]
    · rw [runs_lead hlead]
      rcases hrest with rfl | ⟨rest, rfl⟩
      · rw [List.append_nil, runs_last hw hsep]
        simp
      · rw [runs_word hw hsep]
        have hle := ih rest
        simp only [List.take_succ_cons, List.flatten_cons, List.length_cons, List.length_append]
        omega

end WfbYa.Lib.Words
