/-
  WfbYa.Lib.SlidingWindow — what a sliding window over an increasing index is for.

  A window of size `R` serves the indices that were taken and not given back, as far as
  they are less than `R` behind the newest. An index ahead of the newest is new: taking
  it takes every index up to it. Nothing else is served.

  - `take_behind`: an index that is not ahead changes nothing.
  - `take_last`: one that is ahead becomes the newest.
-/

import Mathlib.Order.Interval.Set.Basic

namespace WfbYa.Lib.SlidingWindow

structure Window where
  last : Option Nat
  held : Set Nat

def empty : Window := ⟨none, ∅⟩

/-- `b` is ahead of everything taken so far. -/
def Window.Ahead (w : Window) (b : Nat) : Prop := ∀ l, w.last = some l → l < b

/-- `b` was taken, not given back, and is less than `R` behind the newest index. -/
def Window.Served (w : Window) (R b : Nat) : Prop := b ∈ w.held ∧ ∃ l, w.last = some l ∧ l - b < R

/-- The indices that taking `b` takes. -/
def Window.fresh (w : Window) (b : Nat) : Set Nat :=
  match w.last with
  | none => {b}
  | some l => Set.Ioc l b

/-- Ask for `b`. -/
def Window.take (w : Window) (b : Nat) : Window where
  last := match w.last with
    | none => some b
    | some l => some (max l b)
  held := w.held ∪ w.fresh b

/-- Give `b` back. -/
def Window.give (w : Window) (b : Nat) : Window := { w with held := w.held \ {b} }

/-- Asking for an index that is not ahead changes nothing. -/
theorem take_behind {w : Window} {b l : Nat} (hl : w.last = some l) (hb : b ≤ l) : w.take b = w := by
  obtain ⟨last, held⟩ := w
  cases hl
  simp [Window.take, Window.fresh, hb]

theorem take_last {w : Window} {b : Nat} (h : w.Ahead b) : (w.take b).last = some b := by
  unfold Window.take
  cases hl : w.last with
  | none => rfl
  | some l =>
    have := h l hl
    show some (max l b) = some b
    rw [max_eq_right (by omega)]

end WfbYa.Lib.SlidingWindow
