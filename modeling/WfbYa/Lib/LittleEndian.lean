/-
  WfbYa.Lib.LittleEndian — unsigned little-endian numbers (see `WfbYa.Lib.BigEndian`).

  - `ofLe_le`: writing a number in enough bytes and reading it back gives it.
-/

import WfbYa.Lib.BigEndian
import Mathlib.Data.List.Induction

namespace WfbYa.Lib.LittleEndian

open WfbYa.Lib.BigEndian

/-- The number whose little-endian bytes these are. -/
def ofLe (bs : List UInt8) : Nat := ofBe bs.reverse

/-- The low `n` bytes of `v`, little-endian. -/
def le (n v : Nat) : List UInt8 := (be n v).reverse

@[simp] theorem le_length (n v : Nat) : (le n v).length = n := by simp [le]

theorem ofLe_le {n v : Nat} (h : v < 256 ^ n) : ofLe (le n v) = v := by
  unfold ofLe le
  rw [List.reverse_reverse, ofBe_be h]

/-- The low bytes come first. -/
theorem le_take {m n : Nat} (h : m ≤ n) (v : Nat) : (le n v).take m = le m v := by
  induction m generalizing n v with
  | zero => simp [le, be]
  | succ m ih =>
    cases n with
    | zero => exact absurd h (Nat.not_succ_le_zero m)
    | succ n =>
      have hcons : ∀ n, le (n + 1) v = UInt8.ofNat (v % 256) :: le n (v / 256) := fun n => by simp [le, be]
      rw [hcons, hcons, List.take_succ_cons, ih (Nat.le_of_succ_le_succ h)]

theorem ofBe_lt (bs : List UInt8) : ofBe bs < 256 ^ bs.length := by
  induction bs using List.reverseRecOn with
  | nil => simp [ofBe]
  | append_singleton bs b ih =>
    have hb := b.toNat_lt
    rw [ofBe_append, List.length_append, List.length_singleton, Nat.pow_succ]
    omega

theorem ofLe_lt (bs : List UInt8) : ofLe bs < 256 ^ bs.length := by
  have := ofBe_lt bs.reverse
  rwa [List.length_reverse] at this

end WfbYa.Lib.LittleEndian
