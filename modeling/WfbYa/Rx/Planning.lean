/-
  WfbYa.Rx.Planning — what `data_recovery` puts together (see `WfbYa.Rx.Data`).

  For each primary `data_recovery` takes the primary itself or, if it is missing, the next
  parity the slot holds.

  - `planLoop_spec`: the fragments taken are distinct ones the slot holds, the primaries
    each in its own place, and the fragments written are the missing primaries.
  - `planLoop_ok`: with at least as many parities as missing primaries, the scan for
    parities stays inside the block.
-/

import WfbYa.Rx.Data
import WfbYa.Lib.Machine
import Mathlib.Tactic.Common
import Mathlib.Data.List.Count

namespace WfbYa.Rx

open WfbYa.Frame WfbYa.Ring WfbYa.Lib

variable {blk : RbufBlock} {nof : Nat}

theorem nextParity_some {j j' : Nat} (h : nextParity blk nof j = some j') :
    j ≤ j' ∧ j' < nof ∧ blk.fragmentLen j' ≠ 0 ∧ ∀ m, j ≤ m → m < j' → blk.fragmentLen m = 0 := by
  obtain ⟨hp, hm, hlt⟩ := List.find?_range'_eq_some.mp h
  rw [List.mem_range'_1] at hm
  exact ⟨hm.1, by omega, by simpa using hp, fun m h1 h2 => by simpa using hlt m h1 h2⟩

theorem nextParity_none {j : Nat} (h : nextParity blk nof j = none) :
    ∀ m, j ≤ m → m < nof → blk.fragmentLen m = 0 := by
  intro m h1 h2
  have := List.find?_range'_eq_none.mp h m h1 (by omega)
  simpa using this

theorem fecCount_missing {ctx : RxContext} {blk : RbufBlock} (h : fecCount ctx blk ≠ 0) :
    ∃ i, blk.fragmentToSend ≤ i ∧ i < ctx.fecK ∧ blk.fragmentLen i = 0 := by
  have := List.countP_pos_iff.mp (Nat.pos_of_ne_zero h)
  obtain ⟨i, hi, hl⟩ := this
  rw [List.mem_range'_1] at hi
  exact ⟨i, hi.1, by omega, by simpa using hl⟩

/-- What the loop makes of the `n` primaries from `i` on, with parities from `j` on and
    `sz` the block size so far. -/
structure Planned (blk : RbufBlock) (nof n i j sz : Nat) (p : Plan) : Prop where
  length : p.index.length = n
  own : ∀ m < n, blk.fragmentLen (i + m) ≠ 0 → p.index[m]? = some (i + m)
  parity : ∀ m < n, blk.fragmentLen (i + m) = 0 → ∃ c, p.index[m]? = some c ∧ j ≤ c
  held : ∀ c ∈ p.index, blk.fragmentLen c ≠ 0 ∧ (i ≤ c ∧ c < i + n ∨ j ≤ c ∧ c < nof)
  nodup : i + n ≤ j → p.index.Nodup
  out : p.out = (List.range' i n).filter fun m => blk.fragmentLen m = 0
  sz_le : sz ≤ p.pktsiz
  sz_max : i + n ≤ j → ∀ c ∈ p.index, j ≤ c → blk.fragmentLen c ≤ p.pktsiz
  sz_of : p.pktsiz = sz ∨ ∃ c ∈ p.index, j ≤ c ∧ p.pktsiz = blk.fragmentLen c
  sz_pos : p.out ≠ [] → 0 < p.pktsiz

theorem planLoop_spec {n i j sz : Nat} {p : Plan} (h : planLoop blk nof n i j sz = .ok p) :
    Planned blk nof n i j sz p := by
  induction n generalizing i j sz p with
  | zero =>
    cases h
    exact ⟨rfl, fun m hm => absurd hm (Nat.not_lt_zero m), fun m hm => absurd hm (Nat.not_lt_zero m), fun c hc => (nomatch hc),
      fun _ => .nil, rfl, Nat.le_refl _, fun _ c hc => (nomatch hc), .inl rfl, fun h => absurd rfl h⟩
  | succ n ih =>
    unfold planLoop at h
    split at h
    · -- the primary itself
      rename_i hlen
      obtain ⟨q, hq, hp⟩ := Machine.bind_ok_iff.mp h
      cases hp
      have hi := ih hq
      refine ⟨by simp [hi.length], fun m hm hm' => ?_, fun m hm hm' => ?_, fun c hc => ?_, fun hj => ?_, ?_, hi.sz_le,
        fun hj c hc hjc => ?_, ?_, hi.sz_pos⟩
      · cases m with
        | zero => rfl
        | succ m =>
          rw [show i + (m + 1) = i + 1 + m by omega] at hm' ⊢
          exact hi.own m (by omega) hm'
      · cases m with
        | zero => exact absurd hm' hlen
        | succ m =>
          rw [show i + (m + 1) = i + 1 + m by omega] at hm'
          exact hi.parity m (by omega) hm'
      · rcases List.mem_cons.mp hc with rfl | hc
        · exact ⟨hlen, .inl ⟨Nat.le_refl _, by omega⟩⟩
        · obtain ⟨h1, h2⟩ := hi.held c hc
          exact ⟨h1, by omega⟩
      · refine List.nodup_cons.mpr ⟨fun hc => ?_, hi.nodup (by omega)⟩
        have := (hi.held i hc).2
        omega
      · rw [List.range'_succ, List.filter_cons_of_neg (by simpa using hlen)]
        exact hi.out
      · rcases List.mem_cons.mp hc with rfl | hc
        · omega
        · exact hi.sz_max (by omega) c hc hjc
      · rcases hi.sz_of with h1 | ⟨c, hc, h1⟩
        · exact .inl h1
        · exact .inr ⟨c, List.mem_cons_of_mem _ hc, h1⟩
    · rename_i hlen
      rw [not_not] at hlen
      split at h
      · cases h
      · -- a parity in its place
        rename_i j' hj'
        obtain ⟨hjj, hnof, hheld, -⟩ := nextParity_some hj'
        obtain ⟨q, hq, hp⟩ := Machine.bind_ok_iff.mp h
        cases hp
        have hi := ih hq
        have hsz := hi.sz_le
        refine ⟨by simp [hi.length], fun m hm hm' => ?_, fun m hm hm' => ?_, fun c hc => ?_, fun hj => ?_, ?_,
          by show sz ≤ q.pktsiz; omega, fun hj c hc hjc => ?_, ?_, fun _ => by show 0 < q.pktsiz; omega⟩
        · cases m with
          | zero => exact absurd hlen hm'
          | succ m =>
            rw [show i + (m + 1) = i + 1 + m by omega] at hm' ⊢
            exact hi.own m (by omega) hm'
        · cases m with
          | zero => exact ⟨j', rfl, hjj⟩
          | succ m =>
            rw [show i + (m + 1) = i + 1 + m by omega] at hm'
            obtain ⟨c, hc, hle⟩ := hi.parity m (by omega) hm'
            exact ⟨c, hc, by omega⟩
        · rcases List.mem_cons.mp hc with rfl | hc
          · exact ⟨hheld, .inr ⟨hjj, hnof⟩⟩
          · obtain ⟨h1, h2⟩ := hi.held c hc
            exact ⟨h1, by omega⟩
        · refine List.nodup_cons.mpr ⟨fun hc => ?_, hi.nodup (by omega)⟩
          have := (hi.held j' hc).2
          omega
        · rw [List.range'_succ, List.filter_cons_of_pos (by simpa using hlen)]
          exact congrArg _ hi.out
        · rcases List.mem_cons.mp hc with rfl | hc
          · show blk.fragmentLen _ ≤ q.pktsiz
            omega
          · have := (hi.held c hc).2
            exact hi.sz_max (by omega) c hc (by omega)
        · rcases hi.sz_of with h1 | ⟨c, hc, hle, h1⟩
          · rcases Nat.le_total (blk.fragmentLen j') sz with hle | hle
            · exact .inl (by show q.pktsiz = sz; omega)
            · exact .inr ⟨j', List.mem_cons_self, hjj, by show q.pktsiz = _; omega⟩
          · exact .inr ⟨c, List.mem_cons_of_mem _ hc, by omega, h1⟩

theorem mem_received {blk : RbufBlock} {n c : Nat} : c ∈ received blk n ↔ c < n ∧ blk.fragmentLen c ≠ 0 := by
  simp [received]

/-! ## The scan for parities -/

/-- How many of the `n` fragments from `i` on the slot holds. -/
def held (blk : RbufBlock) (i n : Nat) : Nat := (List.range' i n).countP fun m => blk.fragmentLen m ≠ 0

theorem held_succ (blk : RbufBlock) (i n : Nat) :
    held blk i (n + 1) = (if blk.fragmentLen i ≠ 0 then 1 else 0) + held blk (i + 1) n := by
  unfold held
  rw [List.range'_succ, List.countP_cons, Nat.add_comm]
  simp

theorem held_add (blk : RbufBlock) (i m n : Nat) : held blk i (m + n) = held blk i m + held blk (i + m) n := by
  unfold held
  rw [← List.range'_append_1, List.countP_append]

theorem held_none {i n : Nat} (h : ∀ m, i ≤ m → m < i + n → blk.fragmentLen m = 0) : held blk i n = 0 := by
  unfold held
  rw [List.countP_eq_zero]
  intro m hm
  rw [List.mem_range'_1] at hm
  simpa using h m hm.1 hm.2

theorem held_le (blk : RbufBlock) (i n : Nat) : held blk i n ≤ n := by
  have := List.countP_le_length (p := fun m => decide (blk.fragmentLen m ≠ 0)) (l := List.range' i n)
  rwa [List.length_range'] at this

/-- The parities behind the one a scan finds. -/
theorem held_nextParity {j j' : Nat} (h : nextParity blk nof j = some j') :
    held blk j (nof - j) = 1 + held blk (j' + 1) (nof - (j' + 1)) := by
  obtain ⟨hjj, hnof, hheld, hgap⟩ := nextParity_some h
  have hsplit : nof - j = (j' - j) + ((nof - (j' + 1)) + 1) := by omega
  rw [hsplit, held_add, held_none fun m h1 h2 => hgap m h1 (by omega), Nat.add_sub_cancel' hjj, held_succ,
    if_pos hheld, Nat.zero_add]

/-- With a parity for every missing primary, the scan never leaves the block. -/
theorem planLoop_ok {n i j sz : Nat} (h : n ≤ held blk i n + held blk j (nof - j)) :
    ∃ p, planLoop blk nof n i j sz = .ok p := by
  induction n generalizing i j sz with
  | zero => exact ⟨_, rfl⟩
  | succ n ih =>
    rw [held_succ] at h
    unfold planLoop
    by_cases hlen : blk.fragmentLen i ≠ 0
    · rw [if_pos hlen] at h
      obtain ⟨p, hp⟩ := @ih (i + 1) j sz (by omega)
      rw [if_pos hlen, hp]
      exact ⟨_, rfl⟩
    · rw [if_neg hlen] at h
      rw [if_neg hlen]
      cases hj : nextParity blk nof j with
      | none =>
        have := @held_none blk j (nof - j) fun m h1 h2 => nextParity_none hj m h1 (by omega)
        have := held_le blk (i + 1) n
        omega
      | some j' =>
        have := held_nextParity hj
        obtain ⟨p, hp⟩ := @ih (i + 1) (j' + 1) (max sz (blk.fragmentLen j')) (by omega)
        simp only [hp]
        exact ⟨_, rfl⟩

end WfbYa.Rx
