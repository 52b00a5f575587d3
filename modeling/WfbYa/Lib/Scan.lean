/-
  WfbYa.Lib.Scan — what a loop over indices keeps: the first index of a kind, the greatest
  value, and where it was first.

  The loop goes from `lo` on and has come to `i`. 0 is the mark for "not found".

  - `FirstAt.step` / `MaxAt.step` / `ArgMaxAt.step`: one more index.
-/

import Mathlib.Tactic.Common

namespace WfbYa.Lib.Scan

variable {p : Nat → Prop} {f : Nat → Nat} {lo i m best arg : Nat}

/-- The first index with `p`, or the mark. -/
structure FirstAt (p : Nat → Prop) (lo i m : Nat) : Prop where
  before : ∀ j, lo ≤ j → j < i → (m = 0 ∨ j < m) → ¬ p j
  hit : m ≠ 0 → lo ≤ m ∧ m < i ∧ p m

theorem FirstAt.start : FirstAt p lo lo 0 :=
  ⟨fun _ h h' => absurd h (Nat.not_le.mpr h'), fun h => absurd rfl h⟩

theorem FirstAt.step [Decidable (p i)] (h : FirstAt p lo i m) (hlo : lo ≤ i) (hpos : 0 < i) :
    FirstAt p lo (i + 1) (if m = 0 ∧ p i then i else m) := by
  by_cases hm : m = 0
  · subst hm
    by_cases hp : p i
    · rw [if_pos ⟨rfl, hp⟩]
      refine ⟨?_, fun _ => ⟨hlo, Nat.lt_succ_self i, hp⟩⟩
      intro j hj _ hbefore
      by_cases hi : j < i
      · exact h.before j hj hi (.inl rfl)
      · omega
    · rw [if_neg fun hh => hp hh.2]
      refine ⟨?_, fun hh => absurd rfl hh⟩
      intro j hj hlt _
      by_cases hi : j < i
      · exact h.before j hj hi (.inl rfl)
      · rwa [show j = i by omega]
  · rw [if_neg fun hh => hm hh.1]
    obtain ⟨h1, h2, h3⟩ := h.hit hm
    refine ⟨?_, fun _ => ⟨h1, by omega, h3⟩⟩
    intro j hj _ hbefore
    have hjm : j < m := hbefore.resolve_left hm
    exact h.before j hj (by omega) (.inr hjm)

/-- The greatest value. -/
structure MaxAt (f : Nat → Nat) (lo i best : Nat) : Prop where
  le : ∀ j, lo ≤ j → j < i → f j ≤ best
  hit : best ≠ 0 → ∃ j, lo ≤ j ∧ j < i ∧ f j = best

theorem MaxAt.start : MaxAt f lo lo 0 :=
  ⟨fun _ h h' => absurd h (Nat.not_le.mpr h'), fun h => absurd rfl h⟩

theorem MaxAt.step (h : MaxAt f lo i best) (hlo : lo ≤ i) : MaxAt f lo (i + 1) (if best < f i then f i else best) := by
  by_cases hb : best < f i
  · rw [if_pos hb]
    refine ⟨?_, fun _ => ⟨i, hlo, Nat.lt_succ_self i, rfl⟩⟩
    intro j hj hlt
    by_cases hi : j < i
    · exact Nat.le_of_lt (Nat.lt_of_le_of_lt (h.le j hj hi) hb)
    · obtain rfl : j = i := by omega
      exact Nat.le_refl _
  · rw [if_neg hb]
    refine ⟨?_, ?_⟩
    · intro j hj hlt
      by_cases hi : j < i
      · exact h.le j hj hi
      · rw [show j = i by omega]
        exact Nat.not_lt.mp hb
    · intro hne
      obtain ⟨j, h1, h2, h3⟩ := h.hit hne
      exact ⟨j, h1, by omega, h3⟩

/-- The greatest value, and the first index that has it. -/
structure ArgMaxAt (f : Nat → Nat) (lo i best arg : Nat) : Prop where
  greatest : MaxAt f lo i best
  first : best ≠ 0 → lo ≤ arg ∧ arg < i ∧ f arg = best ∧ ∀ j, lo ≤ j → j < arg → f j < best

theorem ArgMaxAt.start : ArgMaxAt f lo lo 0 arg := ⟨.start, fun h => absurd rfl h⟩

theorem ArgMaxAt.step (h : ArgMaxAt f lo i best arg) (hlo : lo ≤ i) :
    ArgMaxAt f lo (i + 1) (if best < f i then f i else best) (if best < f i then i else arg) := by
  refine ⟨h.greatest.step hlo, ?_⟩
  by_cases hb : best < f i
  · rw [if_pos hb, if_pos hb]
    intro _
    refine ⟨hlo, Nat.lt_succ_self i, rfl, ?_⟩
    intro j hj hlt
    exact Nat.lt_of_le_of_lt (h.greatest.le j hj hlt) hb
  · rw [if_neg hb, if_neg hb]
    intro hne
    obtain ⟨h1, h2, h3, h4⟩ := h.first hne
    exact ⟨h1, by omega, h3, h4⟩

end WfbYa.Lib.Scan
