/-
  WfbYa.Lib.BigEndian — byte strings, unsigned big-endian numbers, and memory read past
  the end of what is known of it.

  - `ofBe_be`: writing a number in enough bytes and reading it back gives it.
-/

import Mathlib.Algebra.Ring.Nat
import Mathlib.Tactic.Common

namespace WfbYa.Lib.BigEndian

/-- The number whose big-endian bytes these are. -/
def ofBe (bs : List UInt8) : Nat := bs.foldl (fun v b => v * 256 + b.toNat) 0

/-- The low `n` bytes of `v`, big-endian. -/
def be : Nat → Nat → List UInt8
  | 0, _ => []
  | n + 1, v => be n (v / 256) ++ [UInt8.ofNat (v % 256)]

/-- `len` bytes at `off`. -/
def slice (mem : List UInt8) (off len : Nat) : List UInt8 := (List.range len).map fun i => mem.getD (off + i) 0

@[simp] theorem slice_length (mem : List UInt8) (off len : Nat) : (slice mem off len).length = len := by
  simp [slice]

@[simp] theorem be_length (n v : Nat) : (be n v).length = n := by
  induction n generalizing v with
  | zero => rfl
  | succ n ih => simp [be, ih]

/-- The bytes between two others. -/
theorem slice_middle {a b rest : List UInt8} {off len : Nat} (ha : a.length = off) (hb : b.length = len) :
    slice (a ++ (b ++ rest)) off len = b := by
  subst ha hb
  refine List.ext_getElem (by simp) fun i _ hi => ?_
  simp only [slice, List.getElem_map, List.getElem_range]
  rw [List.getD_eq_getElem?_getD, List.getElem?_append_right (by omega), Nat.add_sub_cancel_left,
    List.getElem?_append_left hi, List.getElem?_eq_getElem hi]
  rfl

/-- What lies behind a list is read from there on. -/
theorem slice_skip {a rest : List UInt8} {off len : Nat} (h : a.length ≤ off) :
    slice (a ++ rest) off len = slice rest (off - a.length) len := by
  apply List.map_congr_left
  intro i _
  have hi : a.length ≤ off + i := Nat.le_trans h (Nat.le_add_right off i)
  rw [List.getD_eq_getElem?_getD, List.getElem?_append_right hi, List.getD_eq_getElem?_getD, Nat.sub_add_comm h]

theorem slice_front {a rest : List UInt8} {len : Nat} (h : a.length = len) : slice (a ++ rest) 0 len = a :=
  @slice_middle [] a rest 0 len rfl h

theorem ofBe_append (bs : List UInt8) (b : UInt8) : ofBe (bs ++ [b]) = ofBe bs * 256 + b.toNat := by
  simp [ofBe]

theorem ofBe_be {n v : Nat} (h : v < 256 ^ n) : ofBe (be n v) = v := by
  induction n generalizing v with
  | zero =>
    have : v = 0 := by simpa using h
    subst this
    rfl
  | succ n ih =>
    have hq : v / 256 < 256 ^ n := by
      rw [Nat.pow_succ] at h
      omega
    have hb : (UInt8.ofNat (v % 256)).toNat = v % 256 := by
      rw [UInt8.toNat_ofNat']
      omega
    rw [be, ofBe_append, ih hq, hb]
    omega

end WfbYa.Lib.BigEndian
