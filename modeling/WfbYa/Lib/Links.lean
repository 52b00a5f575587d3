/-
  WfbYa.Lib.Links — lists of indices that are followed and taken apart by links.

  A list is what a chain of links leads through: the links of an element are its neighbours.
  An element of several lists is taken out of each on its own.

  - `after_append`: the next element, as long as no element comes twice.
  - `withKey`: the indices with a key, which the lists are made of.
  - `Preceded`: in a trace, no event without another one before it.
-/

import Mathlib.Data.List.Infix
import Mathlib.Data.List.Nodup
import Mathlib.Data.List.Range

namespace WfbYa.Lib.Links

/-! ## Neighbours -/

section Neighbours

variable {α : Type*} [DecidableEq α] {l l' : List α} {a b : α}

def before (l : List α) (a : α) : Option α := (l.takeWhile fun b => b ≠ a).getLast?
def after (l : List α) (a : α) : Option α := (l.dropWhile fun b => b ≠ a).tail.head?

theorem before_append (h : a ∉ l) (l' : List α) : before (l ++ a :: l') a = l.getLast? := by
  have hne : ∀ b ∈ l, decide (b ≠ a) = true := fun b hb => decide_eq_true fun e => h (e ▸ hb)
  unfold before
  rw [List.takeWhile_append_of_pos hne, List.takeWhile_cons_of_neg (by simp), List.append_nil]

theorem after_append (h : a ∉ l) (l' : List α) : after (l ++ a :: l') a = l'.head? := by
  have hne : ∀ b ∈ l, decide (b ≠ a) = true := fun b hb => decide_eq_true fun e => h (e ▸ hb)
  unfold after
  rw [List.dropWhile_append_of_pos hne, List.dropWhile_cons_of_neg (by simp), List.tail_cons]

theorem mem_of_before (h : before l a = some b) : b ∈ l := (List.takeWhile_sublist _).subset (List.mem_of_getLast? h)

theorem mem_of_after (h : after l a = some b) : b ∈ l :=
  (List.dropWhile_sublist _).subset (List.tail_subset _ (List.mem_of_head? h))

/-- Nothing is in front of the head. -/
theorem before_head (a : α) (l : List α) : before (a :: l) a = none := before_append List.not_mem_nil l

end Neighbours

/-! ## Indices with a key -/

section Keys

variable {κ : Type*} [DecidableEq κ] {n v : Nat} {key : Nat → κ} {k : κ}

def withKey (n : Nat) (key : Nat → κ) (k : κ) : List Nat := (List.range n).filter fun v => key v = k

theorem mem_withKey : v ∈ withKey n key k ↔ v < n ∧ key v = k := by
  unfold withKey
  rw [List.mem_filter, List.mem_range, decide_eq_true_eq]

theorem withKey_sorted (n : Nat) (key : Nat → κ) (k : κ) : (withKey n key k).Pairwise (· < ·) :=
  List.pairwise_lt_range.filter _

theorem withKey_nodup (n : Nat) (key : Nat → κ) (k : κ) : (withKey n key k).Nodup := List.nodup_range.filter _

end Keys

/-! ## Order in a trace -/

section Order

variable {ε : Type*} {a b : ε} {l l' : List ε}

/-- No `b` without an `a` before it. -/
def Preceded (a b : ε) (l : List ε) : Prop := ∀ pre post, l = pre ++ b :: post → a ∈ pre

theorem preceded_of_not_mem (h : b ∉ l) : Preceded a b l := by
  intro pre post he
  rw [he] at h
  exact absurd (List.mem_append_right _ List.mem_cons_self) h

theorem preceded_cons (hne : a ≠ b) (l : List ε) : Preceded a b (a :: l) := by
  intro pre post he
  cases pre with
  | nil => exact absurd (List.cons.inj he).1 hne
  | cons c pre =>
    rw [(List.cons.inj he).1]
    exact List.mem_cons_self

/-- A trace goes on: the new events are preceded by the old ones, or among themselves. -/
theorem Preceded.append (h : Preceded a b l) (h' : a ∈ l ∨ Preceded a b l') : Preceded a b (l ++ l') := by
  intro pre post he
  rcases List.append_eq_append_iff.mp he with ⟨m, hpre, hl'⟩ | ⟨m, hl, hm⟩
  · -- `b` is in the second half
    rw [hpre, List.mem_append]
    rcases h' with h' | h'
    · exact .inl h'
    · exact .inr (h' m post hl')
  · cases m with
    | nil =>
      rw [List.append_nil] at hl
      rcases h' with h' | h'
      · rwa [← hl]
      · exact absurd (h' [] post (by rw [List.nil_append]; exact hm.symm)) List.not_mem_nil
    | cons c m =>
      rw [List.cons_append] at hm
      obtain ⟨rfl, hpost⟩ := List.cons.inj hm
      exact h pre m hl

end Order

end WfbYa.Lib.Links
