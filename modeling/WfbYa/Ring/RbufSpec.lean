/-
  WfbYa.Ring.RbufSpec — what the ring's operations do (see `WfbYa.Ring.Rbuf`).

  - `freeLoop_spec`: the loop of `rbuf_free_block` stops at the first slot that holds a
    block, or with `ring_alloc` at 0 on the last slot of the window.
  - `rbufFreeBlock_window`: on a ring whose window covers its blocks, `rbuf_free_block`
    keeps it so, and its loop runs at most `ring_alloc` times.
  - `search_some` / `search_none`: what the search over the window finds.
  - `rbufGetBlock_hit` / `rbufGetBlock_stale` / `rbufGetBlock_new`: the three ways
    `rbuf_get_block` returns.
-/

import WfbYa.Ring.Rbuf
import WfbYa.Lib.Circular
import Mathlib.Tactic.Common

namespace WfbYa.Ring

open WfbYa.Lib.Circular

/-! ## Slots and their keys -/

/-- The block a slot holds. -/
def RbufBlock.key (blk : RbufBlock) : Option Nat := if blk.inval then none else some blk.index

def Rbuf.key (r : Rbuf) (s : Nat) : Option Nat := (r.blocks s).key

/-- A slot holds a block. -/
def Rbuf.live (r : Rbuf) (s : Nat) : Prop := (r.blocks s).index ≠ blockInval

instance (r : Rbuf) (s : Nat) : Decidable (r.live s) := inferInstanceAs (Decidable (_ ≠ _))

@[simp] theorem inval_iff (blk : RbufBlock) : blk.inval = true ↔ blk.index = blockInval := by
  simp [RbufBlock.inval]

theorem block_key_some {blk : RbufBlock} {x : Nat} : blk.key = some x ↔ blk.index = x ∧ x ≠ blockInval := by
  unfold RbufBlock.key
  by_cases h : blk.index = blockInval
  · rw [if_pos ((inval_iff blk).mpr h)]
    exact ⟨(nomatch ·), fun ⟨e, hx⟩ => absurd (e ▸ h) hx⟩
  · rw [if_neg (fun e => h ((inval_iff blk).mp e)), Option.some.injEq]
    exact ⟨fun e => ⟨e, e ▸ h⟩, fun e => e.1⟩

theorem block_key_none {blk : RbufBlock} : blk.key = none ↔ blk.inval = true := by
  unfold RbufBlock.key
  split <;> simp_all

theorem key_some {r : Rbuf} {s x : Nat} : r.key s = some x ↔ (r.blocks s).index = x ∧ x ≠ blockInval :=
  block_key_some

theorem key_isSome {r : Rbuf} {s : Nat} : (r.key s).isSome ↔ r.live s := by
  rw [Option.isSome_iff_exists]
  constructor
  · rintro ⟨x, hx⟩
    obtain ⟨rfl, h⟩ := key_some.mp hx
    exact h
  · exact fun h => ⟨_, key_some.mpr ⟨rfl, h⟩⟩

@[simp] theorem setBlock_key (r : Rbuf) (s : Nat) (blk : RbufBlock) :
    (r.setBlock s blk).key = Function.update r.key s blk.key := by
  funext t
  by_cases e : t = s
  · subst e; simp [Rbuf.key, Rbuf.setBlock]
  · simp [Rbuf.key, Rbuf.setBlock, e]

@[simp] theorem setBlock_same (r : Rbuf) (s : Nat) (blk : RbufBlock) : (r.setBlock s blk).blocks s = blk := by
  simp [Rbuf.setBlock]

theorem setBlock_ne (r : Rbuf) {s t : Nat} (blk : RbufBlock) (h : t ≠ s) :
    (r.setBlock s blk).blocks t = r.blocks t := by
  simp [Rbuf.setBlock, h]

@[simp] theorem setBlock_ringSize (r : Rbuf) (s : Nat) (blk : RbufBlock) : (r.setBlock s blk).ringSize = r.ringSize := rfl
@[simp] theorem setBlock_ringFront (r : Rbuf) (s : Nat) (blk : RbufBlock) : (r.setBlock s blk).ringFront = r.ringFront := rfl
@[simp] theorem setBlock_ringAlloc (r : Rbuf) (s : Nat) (blk : RbufBlock) : (r.setBlock s blk).ringAlloc = r.ringAlloc := rfl
@[simp] theorem setBlock_lastBlock (r : Rbuf) (s : Nat) (blk : RbufBlock) : (r.setBlock s blk).lastBlock = r.lastBlock := rfl

@[simp] theorem renew_index (blk : RbufBlock) (b : Nat) : (blk.renew b).index = b := rfl

theorem renew_key (blk : RbufBlock) {b : Nat} (hb : b ≠ blockInval) : (blk.renew b).key = some b :=
  block_key_some.mpr ⟨rfl, hb⟩

/-! ## rbuf_alloc -/

theorem rbufAlloc_some {ok : Bool} {mem : Heap} {R fs n : Nat} {r : Rbuf} (h : rbufAlloc ok mem R fs n = .ok (some r)) :
    ∃ hpos hint, r = newRing mem R fs n hpos hint := by
  unfold rbufAlloc at h
  split at h
  · cases h
  · split at h
    · rename_i hpos
      split at h
      · rename_i hint
        cases h
        exact ⟨hpos, hint.1, rfl⟩
      · cases h
    · cases h

@[simp] theorem newRing_key (mem : Heap) (R fs n : Nat) (hpos : 0 < R) (hint : R ≤ intMax) (s : Nat) :
    (newRing mem R fs n hpos hint).key s = none := block_key_none.mpr rfl

/-! ## rbuf_free_block -/

@[simp] theorem free_ringSize (r : Rbuf) (s : Nat) : (rbufFreeBlock r s).ringSize = r.ringSize := rfl
@[simp] theorem free_lastBlock (r : Rbuf) (s : Nat) : (rbufFreeBlock r s).lastBlock = r.lastBlock := rfl

theorem free_same (r : Rbuf) (s : Nat) :
    (rbufFreeBlock r s).blocks s = { r.blocks s with index := blockInval } := by
  simp [rbufFreeBlock, Rbuf.setBlock]

theorem free_ne (r : Rbuf) {s t : Nat} (h : t ≠ s) : (rbufFreeBlock r s).blocks t = r.blocks t := by
  simp [rbufFreeBlock, Rbuf.setBlock, h]

@[simp] theorem free_key (r : Rbuf) (s : Nat) : (rbufFreeBlock r s).key = Function.update r.key s none :=
  setBlock_key r s _

/-- The loop stops with `ring_alloc` at 0 on the last of `n` empty slots, or on the first
    of them that holds a block. -/
theorem freeLoop_spec {blocks : Nat → RbufBlock} {R n f : Nat} (hf : f < R) (hn : 0 < n) :
    (freeLoop blocks R n f = (0, pos R f (n - 1)) ∧ ∀ i < n, (blocks (pos R f i)).inval = true) ∨
      ∃ k < n, freeLoop blocks R n f = (n - k, pos R f k) ∧ (∀ i < k, (blocks (pos R f i)).inval = true) ∧
        (blocks (pos R f k)).inval = false := by
  induction n generalizing f with
  | zero => omega
  | succ n ih =>
    by_cases hi : (blocks f).inval = true
    · by_cases h0 : n = 0
      · subst h0
        left
        refine ⟨by simp [freeLoop, hi, pos_zero hf], fun i hi' => ?_⟩
        obtain rfl : i = 0 := by omega
        rwa [pos_zero hf]
      · have hstep : freeLoop blocks R (n + 1) f = freeLoop blocks R n (pos R f 1) := by
          simp [freeLoop, hi, h0, pos]
        have hall : ∀ k, (∀ i < k, (blocks (pos R (pos R f 1) i)).inval = true) →
            ∀ i < k + 1, (blocks (pos R f i)).inval = true := fun k h i hik => by
          cases i with
          | zero => rwa [pos_zero hf]
          | succ i =>
            have := h i (by omega)
            rwa [pos_pos, Nat.add_comm 1 i] at this
        rw [hstep]
        rcases ih (pos_lt (by omega) f 1) (by omega) with ⟨he, hemp⟩ | ⟨k, hk, he, hemp, hlive⟩
        · left
          refine ⟨?_, hall n hemp⟩
          rw [he, pos_pos]
          congr 2
          omega
        · right
          rw [pos_pos, Nat.add_comm 1 k] at he hlive
          exact ⟨k + 1, by omega, by rw [he]; congr 1; omega, hall k hemp, hlive⟩
    · right
      refine ⟨0, by omega, by simp [freeLoop, hi, pos_zero hf], fun i hi' => absurd hi' (by omega), ?_⟩
      rw [pos_zero hf]
      exact Bool.eq_false_iff.mpr hi

theorem countdown_pos {a : Nat} (h : 0 < a) : countdown a = a := if_neg (by omega)

/-- On a ring whose window covers its blocks, freeing a slot keeps it so: the window
    loses the empty slots it started with, and the loop never takes `ring_alloc` below 0. -/
theorem rbufFreeBlock_window {r : Rbuf} (hw : Window r.ringSize r.key r.ringFront r.ringAlloc)
    (ha : 0 < r.ringAlloc) (s : Nat) :
    Window r.ringSize (rbufFreeBlock r s).key (rbufFreeBlock r s).ringFront (rbufFreeBlock r s).ringAlloc ∧
      ∃ k ≤ r.ringAlloc, (rbufFreeBlock r s).ringAlloc = r.ringAlloc - k ∧
        countdown r.ringAlloc - (freeRun r s).1 = k ∧
        (k < r.ringAlloc → (rbufFreeBlock r s).ringFront = pos r.ringSize r.ringFront k) ∧
        ∀ i < k, (rbufFreeBlock r s).key (pos r.ringSize r.ringFront i) = none := by
  have hkey : ∀ t x, (rbufFreeBlock r s).key t = some x → r.key t = some x := fun t x h => by
    rw [free_key] at h
    by_cases e : t = s
    · subst e; simp at h
    · rwa [Function.update_of_ne e] at h
  have hlt : r.ringAlloc < 2 ^ 64 := by
    have := hw.le
    have := r.size_int
    unfold intMax at this
    omega
  have halloc : (rbufFreeBlock r s).ringAlloc = (freeRun r s).1 % 2 ^ 64 := rfl
  have hfront : (rbufFreeBlock r s).ringFront = (freeRun r s).2 := rfl
  have hnone : ∀ t, ((rbufFreeBlock r s).blocks t).inval = true → (rbufFreeBlock r s).key t = none :=
    fun t ht => block_key_none.mpr ht
  have hrun : freeRun r s = freeLoop (rbufFreeBlock r s).blocks r.ringSize r.ringAlloc r.ringFront := by
    unfold freeRun
    rw [countdown_pos ha]
    rfl
  rw [countdown_pos ha]
  rcases @freeLoop_spec (rbufFreeBlock r s).blocks _ _ _ r.front_lt ha with
    ⟨he, hemp⟩ | ⟨k, hk, he, hemp, hlive⟩
  · rw [← hrun] at he
    have h0 : (rbufFreeBlock r s).ringAlloc = 0 := by rw [halloc, he]; rfl
    refine ⟨?_, r.ringAlloc, le_refl _, by omega, by rw [he]; omega, fun h => absurd h (by omega),
      fun i hi => hnone _ (hemp i hi)⟩
    rw [h0]
    exact hw.drained hkey (fun i hi => hnone _ (hemp i hi)) _
  · rw [← hrun] at he
    have hk' : (rbufFreeBlock r s).ringAlloc = r.ringAlloc - k := by
      rw [halloc, he]
      exact Nat.mod_eq_of_lt (by omega)
    have hf' : (rbufFreeBlock r s).ringFront = pos r.ringSize r.ringFront k := by rw [hfront, he]
    refine ⟨?_, k, by omega, hk', by rw [he]; omega, fun _ => hf', fun i hi => hnone _ (hemp i hi)⟩
    rw [hk', hf']
    refine hw.advance hkey hk (fun i hi => hnone _ (hemp i hi)) ?_
    rw [key_isSome]
    intro e
    rw [(inval_iff _).mpr e] at hlive
    cases hlive

/-! ## rbuf_get_block -/

theorem search_some {r : Rbuf} {b n i idx s : Nat} (h : (search r b n i idx).1 = some s) :
    (r.blocks s).index = b ∧ ∃ j < n, s = pos r.ringSize r.ringFront (i + j) := by
  induction n generalizing i idx with
  | zero => cases h
  | succ n ih =>
    simp only [search] at h
    split at h
    · rename_i hb
      cases h
      exact ⟨hb, 0, by omega, rfl⟩
    · obtain ⟨hs, j, hj, rfl⟩ := ih h
      exact ⟨hs, j + 1, by omega, by congr 1; omega⟩

theorem search_none {r : Rbuf} {b n i idx : Nat} (h : (search r b n i idx).1 = none) :
    ∀ j < n, (r.blocks (pos r.ringSize r.ringFront (i + j))).index ≠ b := by
  induction n generalizing i idx with
  | zero => intro j hj; omega
  | succ n ih =>
    simp only [search] at h
    split at h
    · cases h
    · rename_i hb
      intro j hj
      cases j with
      | zero => exact hb
      | succ j =>
        have := ih h j (by omega)
        rwa [Nat.add_assoc, Nat.add_comm 1 j] at this

/-- The slots a search over the window looks at. -/
def span (r : Rbuf) : Nat := min r.ringAlloc (intMax + 1)

theorem rbufGetBlock_hit {r : Rbuf} {b s : Nat} (h : (search r b (span r) 0 0).1 = some s) :
    rbufGetBlock r b = .ok (r, some s, []) := by
  unfold rbufGetBlock
  rcases hs : search r b (span r) 0 0 with ⟨_ | t, idx⟩
  · rw [hs] at h; cases h
  · rw [hs] at h; cases h
    simp only [span] at hs
    rw [hs]

/-- A search that would pass `INT_MAX` is the one way `rbuf_get_block` does not return. -/
theorem rbufGetBlock_overflow {r : Rbuf} {b : Nat} (h : (search r b (span r) 0 0).1 = none)
    (ha : intMax < r.ringAlloc) : rbufGetBlock r b = .error .signedOverflow := by
  unfold rbufGetBlock
  rcases hs : search r b (span r) 0 0 with ⟨_ | t, idx⟩
  · simp only [span] at hs
    simp only [hs, ha, if_true]
  · rw [hs] at h; cases h

theorem rbufGetBlock_stale {r : Rbuf} {b : Nat} (h : (search r b (span r) 0 0).1 = none)
    (ha : r.ringAlloc ≤ intMax) (hl : r.lastBlock ≠ blockInval) (hb : b ≤ r.lastBlock) :
    rbufGetBlock r b = .ok (r, none, []) := by
  unfold rbufGetBlock
  rcases hs : search r b (span r) 0 0 with ⟨_ | t, idx⟩
  · simp only [span] at hs
    have ha' : ¬ intMax < r.ringAlloc := by omega
    simp only [hs, ha', if_false, if_pos (And.intro hl hb)]
  · rw [hs] at h; cases h

/-- The passes that allocate a new block, from a slot `idx` the search left behind. -/
def allocBlocks (r : Rbuf) (b idx : Nat) : Rbuf × Nat × List RingEv :=
  allocLoop (u64 (b + 2 ^ 64 - newBlocks r b + 1)) (newBlocks r b) 0 idx r

theorem rbufGetBlock_new {r : Rbuf} {b : Nat} (h : (search r b (span r) 0 0).1 = none)
    (ha : r.ringAlloc ≤ intMax) (hb : r.lastBlock = blockInval ∨ r.lastBlock < b) :
    rbufGetBlock r b = .ok
      ({ (allocBlocks r b (search r b (span r) 0 0).2).1 with lastBlock := b },
        some (allocBlocks r b (search r b (span r) 0 0).2).2.1,
        (allocBlocks r b (search r b (span r) 0 0).2).2.2) := by
  unfold rbufGetBlock
  rcases hs : search r b (span r) 0 0 with ⟨_ | t, idx⟩
  · simp only [span] at hs
    have ha' : ¬ intMax < r.ringAlloc := by omega
    have hb' : ¬ (r.lastBlock ≠ blockInval ∧ b ≤ r.lastBlock) := fun ⟨h1, h2⟩ => by
      rcases hb with hb | hb
      · exact h1 hb
      · omega
    simp only [hs, ha', if_false, if_neg hb', allocBlocks]
  · rw [hs] at h; cases h

theorem allocSlot_eq {r : Rbuf} (ha : r.ringAlloc ≤ r.ringSize) : allocSlot r 0 = pos r.ringSize r.ringFront r.ringAlloc := by
  have h1 := r.front_lt
  have h2 := r.size_int
  unfold intMax at h2
  unfold allocSlot u64 pos
  rw [Nat.add_zero, Nat.mod_eq_of_lt (show r.ringFront + r.ringAlloc < 2 ^ 64 by omega)]

/-! ## How many blocks a gap allocates -/

theorem maxBlockIdx_ne {b : Nat} (h : b ≤ maxBlockIdx) : b ≠ blockInval := by
  unfold maxBlockIdx at h
  unfold blockInval
  omega

theorem intOfU64_small {d v : Nat} (h : d % 2 ^ 32 = v) (hv : v ≤ intMax) : intOfU64 d = v := by
  unfold intMax at hv
  unfold intOfU64
  rw [Int.bmod_def]
  split <;> omega

theorem sizeOfInt_small {v : Nat} (hv : v ≤ intMax) : sizeOfInt (v : Int) = v := by
  unfold intMax at hv
  unfold sizeOfInt
  omega

theorem newBlocks_first {r : Rbuf} {b : Nat} (h : r.lastBlock = blockInval) : newBlocks r b = 1 := by
  have hR := r.size_pos
  have h1 : sizeOfInt 1 = 1 := sizeOfInt_small (v := 1) (by decide)
  simp only [newBlocks, h, if_true, h1]
  rw [if_neg (by omega)]
  rfl

theorem newBlocks_gap {r : Rbuf} {b : Nat} (hl : r.lastBlock ≠ blockInval) : newBlocks r b =
    if r.ringSize < sizeOfInt (intOfU64 (b - r.lastBlock)) then r.ringSize else (intOfU64 (b - r.lastBlock)).toNat := by
  simp [newBlocks, hl]

theorem newBlocks_one {r : Rbuf} {b : Nat} (hl : r.lastBlock ≠ blockInval)
    (h : (b - r.lastBlock) % 2 ^ 32 = 1) : newBlocks r b = 1 := by
  have hR := r.size_pos
  rw [newBlocks_gap hl, intOfU64_small h (by decide), sizeOfInt_small (by decide), if_neg (by omega)]
  rfl

theorem newBlocks_zero {r : Rbuf} {b : Nat} (hl : r.lastBlock ≠ blockInval)
    (h : (b - r.lastBlock) % 2 ^ 32 = 0) : newBlocks r b = 0 := by
  rw [newBlocks_gap hl, intOfU64_small h (by decide), sizeOfInt_small (by decide), if_neg (by omega)]
  rfl

/-- A ring of one slot never allocates more than one block. -/
theorem newBlocks_size_one {r : Rbuf} {b : Nat} (hl : r.lastBlock ≠ blockInval) (hR : r.ringSize = 1)
    (h : (b - r.lastBlock) % 2 ^ 32 ≠ 0) : newBlocks r b = 1 := by
  rw [newBlocks_gap hl]
  generalize b - r.lastBlock = d at h
  unfold intOfU64 sizeOfInt
  rw [Int.bmod_def]
  split <;> split <;> omega

theorem allocBlocks_one {r : Rbuf} {b idx : Nat} (hn : newBlocks r b = 1) (hb : b < 2 ^ 64) :
    allocBlocks r b idx = ((allocOne r b 0).1, allocSlot r 0, (allocOne r b 0).2) := by
  have hstart : u64 (u64 (b + 2 ^ 64 - 1 + 1) + 0) = b := by
    unfold u64
    omega
  simp only [allocBlocks, hn, allocLoop, hstart, List.append_nil]

theorem allocBlocks_zero {r : Rbuf} {b idx : Nat} (hn : newBlocks r b = 0) :
    allocBlocks r b idx = (r, idx, []) := by
  simp [allocBlocks, hn, allocLoop]

end WfbYa.Ring
