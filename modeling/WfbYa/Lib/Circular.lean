/-
  WfbYa.Lib.Circular — keyed windows on a circle of `R` slots.

  `pos R f i` is the slot `i` places after `f`. A window is the `a` slots from `f` on;
  `key s` is the key slot `s` holds, if any. `Window` says that a window covers every
  slot that holds a key, that its first slot holds one, and that the keys increase along
  it; holes are allowed behind the first slot.

  - `Window.advance`: after slots were emptied, the window may start at its first slot
    that still holds a key; `Window.drained`: with none left, any start will do.
  - `Window.push`: a key above all others goes into the slot after the window.
-/

import Mathlib.Data.Nat.ModEq
import Mathlib.Logic.Function.Basic

namespace WfbYa.Lib.Circular

/-- The slot `i` places after `f` on a circle of `R` slots. -/
def pos (R f i : Nat) : Nat := (f + i) % R

theorem pos_lt {R : Nat} (hR : 0 < R) (f i : Nat) : pos R f i < R := Nat.mod_lt _ hR

theorem pos_zero {R f : Nat} (hf : f < R) : pos R f 0 = f := Nat.mod_eq_of_lt hf

theorem pos_pos (R f i j : Nat) : pos R (pos R f i) j = pos R f (i + j) := by
  simp [pos, Nat.add_assoc]

theorem pos_size (R f : Nat) (hf : f < R) : pos R f R = f := by
  simp [pos, Nat.mod_eq_of_lt hf]

theorem pos_inj {R f i j : Nat} (hi : i < R) (hj : j < R) (h : pos R f i = pos R f j) : i = j := by
  have := Nat.ModEq.add_left_cancel' f (show f + i ≡ f + j [MOD R] from h)
  exact Nat.ModEq.eq_of_lt_of_lt this hi hj

/-- The window of `a` slots from `f` on covers the keys `key`, which increase along it. -/
structure Window (R : Nat) (key : Nat → Option Nat) (f a : Nat) : Prop where
  le : a ≤ R
  front : 0 < a → (key f).isSome
  inside : ∀ s < R, (key s).isSome → ∃ i < a, s = pos R f i
  mono : ∀ i j x y, i < j → j < a → key (pos R f i) = some x → key (pos R f j) = some y → x < y

variable {R : Nat} {key key' : Nat → Option Nat} {f a : Nat}

/-- Emptying slots keeps a window, except that its first slot may now be empty. Its first
    `k` slots being empty and the next one not, it may start there. -/
theorem Window.advance (h : Window R key f a) (hle : ∀ s x, key' s = some x → key s = some x)
    {k : Nat} (hk : k < a) (hempty : ∀ i < k, key' (pos R f i) = none) (hlive : (key' (pos R f k)).isSome) :
    Window R key' (pos R f k) (a - k) := by
  have hsome : ∀ s, (key' s).isSome → (key s).isSome := fun s hs => by
    obtain ⟨x, hx⟩ := Option.isSome_iff_exists.mp hs
    rw [hle s x hx]; rfl
  refine ⟨by have := h.le; omega, fun _ => hlive, fun s hs hsl => ?_, fun i j x y hij hj hx hy => ?_⟩
  · obtain ⟨i, hi, rfl⟩ := h.inside s hs (hsome s hsl)
    have hki : k ≤ i := by
      by_contra hlt
      rw [hempty i (by omega)] at hsl
      simp at hsl
    exact ⟨i - k, by omega, by rw [pos_pos]; congr 1; omega⟩
  · rw [pos_pos] at hx hy
    exact h.mono (k + i) (k + j) x y (by omega) (by omega) (hle _ _ hx) (hle _ _ hy)

/-- All its slots emptied, a window closes, and may start anywhere. -/
theorem Window.drained (h : Window R key f a) (hle : ∀ s x, key' s = some x → key s = some x)
    (hempty : ∀ i < a, key' (pos R f i) = none) (g : Nat) : Window R key' g 0 := by
  refine ⟨Nat.zero_le _, fun h0 => absurd h0 (by omega), fun s hs hsl => ?_, fun i j x y _ hj => absurd hj (by omega)⟩
  obtain ⟨x, hx⟩ := Option.isSome_iff_exists.mp hsl
  obtain ⟨i, hi, rfl⟩ := h.inside s hs (by rw [hle s x hx]; rfl)
  rw [hempty i hi] at hx
  cases hx

/-- A key above every other one, put into the slot behind the window. -/
theorem Window.push (h : Window R key f a) (hf : f < R) (ha : a < R) {b : Nat}
    (hb : ∀ i x, i < a → key (pos R f i) = some x → x < b) :
    Window R (Function.update key (pos R f a) (some b)) f (a + 1) := by
  have hne : ∀ i, i < a → pos R f i ≠ pos R f a := fun i hi e => by
    have := pos_inj (by omega) ha e
    omega
  have hold : ∀ i, i < a → Function.update key (pos R f a) (some b) (pos R f i) = key (pos R f i) := fun i hi =>
    Function.update_of_ne (hne i hi) _ _
  refine ⟨ha, fun _ => ?_, fun s hs hsl => ?_, fun i j x y hij hj hx hy => ?_⟩
  · by_cases h0 : a = 0
    · subst h0; simp [pos_zero hf]
    · have := hold 0 (by omega)
      rw [pos_zero hf] at this
      rw [this]; exact h.front (by omega)
  · by_cases e : s = pos R f a
    · exact ⟨a, by omega, e⟩
    · rw [Function.update_of_ne e] at hsl
      obtain ⟨i, hi, rfl⟩ := h.inside s hs hsl
      exact ⟨i, by omega, rfl⟩
  · rw [hold i (by omega)] at hx
    rcases Nat.lt_succ_iff_lt_or_eq.mp hj with hj | rfl
    · rw [hold j hj] at hy
      exact h.mono i j x y hij hj hx hy
    · rw [Function.update_self] at hy
      cases hy
      exact hb i x hij hx

/-- In a window two slots never hold one key. -/
theorem Window.key_inj (h : Window R key f a) {s t x : Nat} (hs : s < R) (ht : t < R) (hx : key s = some x)
    (hy : key t = some x) : s = t := by
  obtain ⟨i, hi, rfl⟩ := h.inside s hs (by rw [hx]; rfl)
  obtain ⟨j, hj, rfl⟩ := h.inside t ht (by rw [hy]; rfl)
  rcases Nat.lt_trichotomy i j with hij | rfl | hij
  · exact absurd (h.mono i j x x hij hj hx hy) (by omega)
  · rfl
  · exact absurd (h.mono j i x x hij hi hy hx) (by omega)

end WfbYa.Lib.Circular
