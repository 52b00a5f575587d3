/-
  WfbYa.Lib.Alignment — items laid one behind the other, with and without padding.

  - `place`: each item at the next multiple of its alignment, up to a limit.
  - `packed`: each item where the last one ends.
  - `place_packed`: the two agree if each packed offset is a multiple of its alignment.
  - `place_tight`: within the packed length there is room for no padding.
-/

import WfbYa.Lib.BigEndian

namespace WfbYa.Lib.Alignment

open WfbYa.Lib.BigEndian

def alignUp (a x : Nat) : Nat := (x + a - 1) / a * a

theorem le_alignUp {a : Nat} (ha : 0 < a) (x : Nat) : x ≤ alignUp a x := by
  have hdiv := Nat.div_add_mod (x + a - 1) a
  have hmod := Nat.mod_lt (x + a - 1) ha
  unfold alignUp
  rw [Nat.mul_comm]
  omega

theorem dvd_alignUp (a x : Nat) : a ∣ alignUp a x := Nat.dvd_mul_left a _

theorem alignUp_of_dvd {a x : Nat} (ha : 0 < a) (h : a ∣ x) : alignUp a x = x := by
  obtain ⟨k, rfl⟩ := h
  have hlt : a - 1 < a := Nat.sub_lt ha Nat.one_pos
  unfold alignUp
  rw [Nat.add_sub_assoc ha, Nat.mul_add_div ha, Nat.div_eq_of_lt hlt, Nat.add_zero, Nat.mul_comm]

section Layout

variable {ι : Type} (align size : ι → Nat)

/-- Every item's packed offset is a multiple of its alignment. -/
def Fits : List ι → Nat → Prop
  | [], _ => True
  | i :: l, off => align i ∣ off ∧ Fits l (off + size i)

instance decidableFits : (l : List ι) → (off : Nat) → Decidable (Fits align size l off)
  | [], _ => inferInstanceAs (Decidable True)
  | _ :: l, _ => @instDecidableAnd _ _ _ (decidableFits l _)

/-- The items with their packed offsets. -/
def packed : List ι → Nat → List (ι × Nat)
  | [], _ => []
  | i :: l, off => (i, off) :: packed l (off + size i)

/-- The items with their aligned offsets, up to the first that ends behind `limit`; and
    whether there is none. -/
def place (limit : Nat) : List ι → Nat → List (ι × Nat) × Bool
  | [], _ => ([], true)
  | i :: l, off =>
    if limit < alignUp (align i) off + size i then ([], false)
    else
      let r := place limit l (alignUp (align i) off + size i)
      ((i, alignUp (align i) off) :: r.1, r.2)

variable {align size} {limit off : Nat} {l : List ι}

theorem packed_map_fst (l : List ι) (off : Nat) : (packed size l off).map Prod.fst = l := by
  induction l generalizing off with
  | nil => rfl
  | cons i l ih => simp [packed, ih]

theorem place_packed (hpos : ∀ i ∈ l, 0 < align i) (hfit : Fits align size l off) (hend : off + (l.map size).sum ≤ limit) :
    place align size limit l off = (packed size l off, true) := by
  induction l generalizing off with
  | nil => rfl
  | cons i l ih =>
    rw [List.map_cons, List.sum_cons, ← Nat.add_assoc] at hend
    unfold place
    rw [alignUp_of_dvd (hpos i List.mem_cons_self) hfit.1, if_neg (by omega),
      ih (fun j hj => hpos j (List.mem_cons_of_mem i hj)) hfit.2 hend]
    rfl

theorem place_end (hpos : ∀ i ∈ l, 0 < align i) (hall : (place align size limit l off).2 = true) (h : off ≤ limit) :
    off + (l.map size).sum ≤ limit := by
  induction l generalizing off with
  | nil => simpa using h
  | cons i l ih =>
    unfold place at hall
    by_cases hover : limit < alignUp (align i) off + size i
    · rw [if_pos hover] at hall
      cases hall
    · rw [if_neg hover] at hall
      have hrest := ih (fun j hj => hpos j (List.mem_cons_of_mem i hj)) hall (by omega)
      have hup := le_alignUp (hpos i List.mem_cons_self) off
      rw [List.map_cons, List.sum_cons]
      omega

/-- No padding fits if the packed items fill what there is. -/
theorem place_tight (hpos : ∀ i ∈ l, 0 < align i) (hall : (place align size limit l off).2 = true)
    (hend : off + (l.map size).sum = limit) : Fits align size l off := by
  induction l generalizing off with
  | nil => trivial
  | cons i l ih =>
    have hpos' : ∀ j ∈ l, 0 < align j := fun j hj => hpos j (List.mem_cons_of_mem i hj)
    rw [List.map_cons, List.sum_cons] at hend
    unfold place at hall
    by_cases hover : limit < alignUp (align i) off + size i
    · rw [if_pos hover] at hall
      cases hall
    · rw [if_neg hover] at hall
      have hrest := place_end hpos' hall (by omega)
      have hup := le_alignUp (hpos i List.mem_cons_self) off
      have heq : alignUp (align i) off = off := by omega
      dsimp only at hall
      rw [heq] at hall
      refine ⟨?_, ih hpos' hall (by omega)⟩
      rw [← heq]
      exact dvd_alignUp ..

end Layout

/-- Packed byte strings are read back at the offsets of their keys. -/
theorem packed_slice {ι κ : Type} {key : ι → κ} {size : κ → Nat} {bytes : ι → List UInt8} {l : List ι} {front rest : List UInt8}
    {p : κ × Nat} (hsize : ∀ i ∈ l, (bytes i).length = size (key i)) (h : p ∈ packed size (l.map key) front.length) :
    ∃ i ∈ l, key i = p.1 ∧ slice (front ++ ((l.map bytes).flatten ++ rest)) p.2 (size p.1) = bytes i := by
  induction l generalizing front with
  | nil => cases h
  | cons i l ih =>
    rw [List.map_cons, List.flatten_cons, List.append_assoc]
    rcases List.mem_cons.mp h with rfl | h
    · exact ⟨i, List.mem_cons_self, rfl, slice_middle rfl (hsize i List.mem_cons_self)⟩
    · rw [← hsize i List.mem_cons_self, ← List.length_append] at h
      rw [← List.append_assoc]
      obtain ⟨j, hj, hkey, hbytes⟩ := ih (fun j hj => hsize j (List.mem_cons_of_mem i hj)) h
      exact ⟨j, List.mem_cons_of_mem i hj, hkey, hbytes⟩

end WfbYa.Lib.Alignment
