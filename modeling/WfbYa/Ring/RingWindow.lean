/-
  WfbYa.Ring.RingWindow — the ring's window over whole runs of `rbuf_get_block` and
  `rbuf_free_block` (see `WfbYa.Ring.Rbuf`).

  A run takes a ring from `rbuf_alloc` through calls of `rbuf_get_block` with any index
  up to `MAX_BLOCK_IDX` and of `rbuf_free_block` on any slot that holds a block.

  - `ring_window`: the window covers exactly the live slots and orders them, in every run
    in which each call of `rbuf_get_block` that allocates allocates one block (`OneBlock`)
    without dropping the ring's only one (`Fits`).
  - `gap_breaks_ring_window`: the allocation loop adds its counter to a `ring_alloc` it
    has already advanced, so a gap of one block puts the new block outside the window;
    and `rbuf_free_block` leaves the front on the last slot of a window it empties, so
    dropping the only block of a full window does too.
-/

import WfbYa.Ring.RbufSpec
import WfbYa.Lib.Machine

namespace WfbYa.Ring

open WfbYa.Lib WfbYa.Lib.Circular

/-! ## Runs of a ring -/

inductive RingOp where
  | getBlock (blockIdx : Nat)
  | freeBlock (slot : Nat)

def ringStep (r : Rbuf) : RingOp → Except Fault (Rbuf × List RingEv)
  | .getBlock b => do
    let (r1, _, evs) ← rbufGetBlock r b
    return (r1, evs)
  | .freeBlock s => .ok (rbufFreeBlock r s, [freeEv r s])

/-- The calls a user of the ring may make. -/
def Legal (r : Rbuf) : RingOp → Prop
  | .getBlock b => b ≤ maxBlockIdx
  | .freeBlock s => s < r.ringSize ∧ r.live s

/-- At most one block is allocated for `b`. -/
def OneBlock (r : Rbuf) (b : Nat) : Prop :=
  r.lastBlock = blockInval ∨ b ≤ r.lastBlock ∨ (b - r.lastBlock) % 2 ^ 32 ≤ 1 ∨ r.ringSize = 1

/-- There is a slot behind the window, or the front's block is not the only one to drop. -/
def Fits (r : Rbuf) : Prop :=
  r.ringAlloc < r.ringSize ∨ r.ringSize = 1 ∨ ∃ s < r.ringSize, s ≠ r.ringFront ∧ r.live s

/-- No block is allocated for `b`, or it fits. -/
def FitsFor (r : Rbuf) (b : Nat) : Prop :=
  (r.lastBlock ≠ blockInval ∧ (b ≤ r.lastBlock ∨ (b - r.lastBlock) % 2 ^ 32 = 0)) ∨ Fits r

def Careful (r : Rbuf) (op : RingOp) : Prop :=
  Legal r op ∧ ∀ b, op = .getBlock b → OneBlock r b ∧ FitsFor r b

instance (r : Rbuf) (op : RingOp) : Decidable (Legal r op) := by
  cases op <;> unfold Legal <;> infer_instance

instance (r : Rbuf) (b : Nat) : Decidable (OneBlock r b) := by unfold OneBlock; infer_instance

instance (r : Rbuf) : Decidable (Fits r) := by unfold Fits; infer_instance

instance (r : Rbuf) (b : Nat) : Decidable (FitsFor r b) := by unfold FitsFor; infer_instance

instance (r : Rbuf) (op : RingOp) : Decidable (Careful r op) :=
  match op with
  | .getBlock b => decidable_of_iff (Legal r (.getBlock b) ∧ OneBlock r b ∧ FitsFor r b)
      ⟨fun h => ⟨h.1, fun _ e => by cases e; exact h.2⟩, fun h => ⟨h.1, h.2 b rfl⟩⟩
  | .freeBlock s => decidable_of_iff (Legal r (.freeBlock s)) ⟨fun h => ⟨h, fun _ e => by cases e⟩, fun h => h.1⟩

/-! ## The window -/

/-- The live slots are the window's, in increasing order of their blocks. -/
structure RingWindow (r : Rbuf) : Prop where
  alloc_le : r.ringAlloc ≤ r.ringSize
  front_live : 0 < r.ringAlloc → r.live r.ringFront
  inside : ∀ s < r.ringSize, r.live s → ∃ i < r.ringAlloc, s = (r.ringFront + i) % r.ringSize
  increasing : ∀ i j, i < j → j < r.ringAlloc →
    r.live ((r.ringFront + i) % r.ringSize) → r.live ((r.ringFront + j) % r.ringSize) →
      (r.blocks ((r.ringFront + i) % r.ringSize)).index < (r.blocks ((r.ringFront + j) % r.ringSize)).index
  distinct : ∀ s < r.ringSize, ∀ t < r.ringSize, r.live s → r.live t → (r.blocks s).index = (r.blocks t).index → s = t
  le_last : ∀ s < r.ringSize, r.live s → (r.blocks s).index ≤ r.lastBlock

/-- What a careful run keeps: the window, and that a ring nothing was allocated in is empty. -/
structure RingInv (r : Rbuf) : Prop where
  window : Window r.ringSize r.key r.ringFront r.ringAlloc
  le_last : ∀ s < r.ringSize, ∀ x, r.key s = some x → x ≤ r.lastBlock
  fresh : r.lastBlock = blockInval → r.ringAlloc = 0
  last_le : r.lastBlock ≠ blockInval → r.lastBlock ≤ maxBlockIdx

theorem key_of_live {r : Rbuf} {s : Nat} (h : r.live s) : r.key s = some (r.blocks s).index :=
  key_some.mpr ⟨rfl, h⟩

theorem RingInv.ringWindow {r : Rbuf} (h : RingInv r) : RingWindow r where
  alloc_le := h.window.le
  front_live := fun ha => key_isSome.mp (h.window.front ha)
  inside := fun s hs hl => h.window.inside s hs (key_isSome.mpr hl)
  increasing := fun i j hij hj hi hj' => h.window.mono i j _ _ hij hj (key_of_live hi) (key_of_live hj')
  distinct := fun _ hs _ ht hl hl' he => h.window.key_inj hs ht (key_of_live hl) (he ▸ key_of_live hl')
  le_last := fun s hs hl => h.le_last s hs _ (key_of_live hl)

theorem RingInv.alloc_int {r : Rbuf} (h : RingInv r) : r.ringAlloc ≤ intMax := le_trans h.window.le r.size_int

theorem newRing_inv (mem : Heap) (R fs n : Nat) (hpos : 0 < R) (hint : R ≤ intMax) :
    RingInv (newRing mem R fs n hpos hint) where
  window := ⟨Nat.zero_le _, fun h0 => absurd h0 (Nat.lt_irrefl 0), fun s _ hs => by simp at hs,
    fun i j x y _ hj => absurd hj (Nat.not_lt_zero j)⟩
  le_last := fun s _ x hx => by simp at hx
  fresh := fun _ => rfl
  last_le := fun h0 => absurd rfl h0

/-! ## One step -/

theorem free_inv {r : Rbuf} (h : RingInv r) {s : Nat} (hs : s < r.ringSize) (hl : r.live s) :
    RingInv (rbufFreeBlock r s) := by
  obtain ⟨i, hi, -⟩ := h.window.inside s hs (key_isSome.mpr hl)
  obtain ⟨hw, k, hk, ha, -⟩ := rbufFreeBlock_window h.window (by omega) s
  refine ⟨hw, fun t ht x hx => ?_, fun h0 => ?_, h.last_le⟩
  · rw [free_key] at hx
    by_cases e : t = s
    · subst e; simp at hx
    · rw [Function.update_of_ne e] at hx
      exact h.le_last t ht x hx
  · rw [ha, h.fresh h0]
    simp

@[simp] theorem dropped_size (r : Rbuf) (s : Nat) : (dropped r s).ringSize = r.ringSize := by
  unfold dropped
  split <;> rfl

@[simp] theorem alloc_size (r : Rbuf) (b i : Nat) : (allocOne r b i).1.ringSize = r.ringSize :=
  dropped_size r (allocSlot r i)

/-- If a block fits, the pass first makes room: the slot it takes is the one behind a
    window that covers all other blocks. -/
theorem dropped_window {r : Rbuf} (hw : Window r.ringSize r.key r.ringFront r.ringAlloc) (hfit : Fits r) :
    Window r.ringSize (dropped r (allocSlot r 0)).key (dropped r (allocSlot r 0)).ringFront
        (dropped r (allocSlot r 0)).ringAlloc ∧
      (dropped r (allocSlot r 0)).ringAlloc < r.ringSize ∧
      allocSlot r 0 = pos r.ringSize (dropped r (allocSlot r 0)).ringFront (dropped r (allocSlot r 0)).ringAlloc ∧
      (dropped r (allocSlot r 0)).key = Function.update r.key (allocSlot r 0) none := by
  have hidx := allocSlot_eq hw.le
  by_cases hfull : r.ringAlloc < r.ringSize
  · -- the slot behind the window is empty
    have hinv : (r.blocks (allocSlot r 0)).inval = true := by
      by_contra hne
      have hs : (r.key (allocSlot r 0)).isSome := key_isSome.mpr fun e => hne ((inval_iff _).mpr e)
      obtain ⟨i, hi, he⟩ := hw.inside _ (by rw [hidx]; exact pos_lt r.size_pos _ _) hs
      rw [hidx] at he
      have := pos_inj (by omega) hfull he.symm
      omega
    have hd : dropped r (allocSlot r 0) = r := by simp only [dropped, hinv, if_true]
    rw [hd]
    refine ⟨hw, hfull, hidx, (Function.update_eq_self_iff.mpr ?_).symm⟩
    exact (block_key_none.mpr hinv).symm
  · -- the window is the whole ring: the pass drops its front
    have hR : r.ringAlloc = r.ringSize := by have := hw.le; omega
    have hpos := r.size_pos
    have hf : allocSlot r 0 = r.ringFront := by rw [hidx, hR, pos_size _ _ r.front_lt]
    have hlive : r.live r.ringFront := key_isSome.mp (hw.front (by omega))
    have hd : dropped r (allocSlot r 0) = rbufFreeBlock r r.ringFront := by
      rw [hf]
      exact if_neg fun e => hlive ((inval_iff _).mp e)
    obtain ⟨hw', k, hk, ha', -, hfr, hemp⟩ := rbufFreeBlock_window hw (by omega) r.ringFront
    have hfk : (rbufFreeBlock r r.ringFront).key r.ringFront = none := by simp
    have hk0 : 0 < k := by
      by_contra h0
      obtain rfl : k = 0 := by omega
      have hfl := hw'.front (by omega)
      rw [hfr (by omega), pos_zero r.front_lt, hfk] at hfl
      cases hfl
    rw [hd]
    refine ⟨hw', by omega, ?_, by rw [hf, free_key]⟩
    rw [hf]
    rcases hfit with h | h | ⟨s, hs, hne, hls⟩
    · omega
    · have h1 := (rbufFreeBlock r r.ringFront).front_lt
      have h2 := r.front_lt
      rw [free_ringSize] at h1
      have h3 : pos r.ringSize (rbufFreeBlock r r.ringFront).ringFront (rbufFreeBlock r r.ringFront).ringAlloc < r.ringSize :=
        pos_lt hpos _ _
      omega
    · -- another block is left, so the front moved on to it
      have hks : ((rbufFreeBlock r r.ringFront).key s).isSome := by
        rw [free_key, Function.update_of_ne hne]
        exact key_isSome.mpr hls
      obtain ⟨i, hi, -⟩ := hw'.inside s hs hks
      rw [ha', hfr (by omega), pos_pos, hR, Nat.add_sub_cancel' (by omega), pos_size _ _ r.front_lt]

/-- Allocating a block above all others, where it fits. -/
theorem allocOne_window {r : Rbuf} (hw : Window r.ringSize r.key r.ringFront r.ringAlloc) (hfit : Fits r) {b : Nat}
    (hb : b ≠ blockInval) (hlt : ∀ s < r.ringSize, ∀ x, r.key s = some x → x < b) :
    Window r.ringSize (allocOne r b 0).1.key (allocOne r b 0).1.ringFront (allocOne r b 0).1.ringAlloc ∧
      (allocOne r b 0).1.key = Function.update r.key (allocSlot r 0) (some b) ∧
      (allocOne r b 0).1.ringFront = (dropped r (allocSlot r 0)).ringFront ∧
      (allocOne r b 0).1.ringAlloc = (dropped r (allocSlot r 0)).ringAlloc + 1 := by
  obtain ⟨hw', hlt', hidx, hkey⟩ := dropped_window hw hfit
  have hsize := r.size_int
  unfold intMax at hsize
  have halloc : (allocOne r b 0).1.ringAlloc = (dropped r (allocSlot r 0)).ringAlloc + 1 :=
    Nat.mod_eq_of_lt (by omega)
  have hfront : (allocOne r b 0).1.ringFront = (dropped r (allocSlot r 0)).ringFront := rfl
  have h1 : (allocOne r b 0).1.key = Function.update (dropped r (allocSlot r 0)).key (allocSlot r 0) (some b) := by
    rw [← renew_key ((dropped r (allocSlot r 0)).blocks (allocSlot r 0)) hb]
    exact setBlock_key _ _ _
  refine ⟨?_, by rw [h1, hkey, Function.update_idem], hfront, halloc⟩
  rw [h1, hfront, halloc]
  nth_rewrite 2 [hidx]
  refine hw'.push ?_ hlt' fun i x hi hx => ?_
  · have := (dropped r (allocSlot r 0)).front_lt
    rwa [dropped_size] at this
  · rw [hkey] at hx
    by_cases e : pos r.ringSize (dropped r (allocSlot r 0)).ringFront i = allocSlot r 0
    · rw [e] at hx; simp at hx
    · rw [Function.update_of_ne e] at hx
      exact hlt _ (pos_lt r.size_pos _ _) x hx

/-- A search of a ring whose window covers its blocks finds a block if it is there. -/
theorem search_window {r : Rbuf} (hw : Window r.ringSize r.key r.ringFront r.ringAlloc) {b s : Nat}
    (hs : s < r.ringSize) (hk : r.key s = some b) : (search r b (span r) 0 0).1 = some s := by
  have hb := key_some.mp hk
  have hsp : span r = r.ringAlloc := by
    have h1 := hw.le
    have h2 := r.size_int
    unfold span
    omega
  cases h : (search r b (span r) 0 0).1 with
  | some t =>
    obtain ⟨ht, j, -, rfl⟩ := search_some h
    have := hw.key_inj hs (pos_lt r.size_pos _ _) hk (key_some.mpr ⟨ht, hb.2⟩)
    rw [this]
  | none =>
    obtain ⟨i, hi, rfl⟩ := hw.inside s hs (by rw [hk]; rfl)
    have := search_none h i (by rw [hsp]; exact hi)
    rw [Nat.zero_add] at this
    exact absurd hb.1 this

theorem search_key {r : Rbuf} {b s : Nat} (hb : b ≠ blockInval) (h : (search r b (span r) 0 0).1 = some s) :
    s < r.ringSize ∧ r.key s = some b := by
  obtain ⟨hs, j, -, rfl⟩ := search_some h
  exact ⟨pos_lt r.size_pos _ _, key_some.mpr ⟨hs, hb⟩⟩

/-- The four ways `rbuf_get_block` returns when it allocates at most one block: the block
    is live; it is not ahead of the last one; the difference vanishes in the `int`; one
    block is allocated. -/
theorem getBlock_cases {r : Rbuf} (h : RingInv r) {b : Nat} (hb : b ≤ maxBlockIdx) (h1 : OneBlock r b) :
    (∃ s < r.ringSize, r.key s = some b ∧ rbufGetBlock r b = .ok (r, some s, [])) ∨
    ((∀ s < r.ringSize, r.key s ≠ some b) ∧
      ((r.lastBlock ≠ blockInval ∧ b ≤ r.lastBlock ∧ rbufGetBlock r b = .ok (r, none, [])) ∨
       (r.lastBlock ≠ blockInval ∧ r.lastBlock < b ∧ (b - r.lastBlock) % 2 ^ 32 = 0 ∧
          ∃ idx, rbufGetBlock r b = .ok ({ r with lastBlock := b }, some idx, [])) ∨
       ((r.lastBlock = blockInval ∨ r.lastBlock < b ∧ (b - r.lastBlock) % 2 ^ 32 ≠ 0) ∧
          rbufGetBlock r b = .ok ({ (allocOne r b 0).1 with lastBlock := b }, some (allocSlot r 0), (allocOne r b 0).2)))) := by
  have hbi := maxBlockIdx_ne hb
  have hb64 : b < 2 ^ 64 := by unfold maxBlockIdx at hb; omega
  cases hs : (search r b (span r) 0 0).1 with
  | some s => exact .inl ⟨s, (search_key hbi hs).1, (search_key hbi hs).2, rbufGetBlock_hit hs⟩
  | none =>
    refine .inr ⟨fun s hlt hk => ?_, ?_⟩
    · rw [search_window h.window hlt hk] at hs
      cases hs
    by_cases hl : r.lastBlock = blockInval
    · right; right
      refine ⟨.inl hl, ?_⟩
      rw [rbufGetBlock_new hs h.alloc_int (.inl hl), allocBlocks_one (newBlocks_first hl) hb64]
    · by_cases hle : b ≤ r.lastBlock
      · exact .inl ⟨hl, hle, rbufGetBlock_stale hs h.alloc_int hl hle⟩
      · by_cases h0 : (b - r.lastBlock) % 2 ^ 32 = 0
        · right; left
          refine ⟨hl, by omega, h0, (search r b (span r) 0 0).2, ?_⟩
          rw [rbufGetBlock_new hs h.alloc_int (.inr (by omega)), allocBlocks_zero (newBlocks_zero hl h0)]
        · right; right
          have hn : newBlocks r b = 1 := by
            rcases h1 with h1 | h1 | h1 | h1
            · exact absurd h1 hl
            · exact absurd h1 hle
            · exact newBlocks_one hl (by omega)
            · exact newBlocks_size_one hl h1 h0
          refine ⟨.inr ⟨by omega, h0⟩, ?_⟩
          rw [rbufGetBlock_new hs h.alloc_int (.inr (by omega)), allocBlocks_one hn hb64]

theorem getBlock_inv {r r' : Rbuf} (h : RingInv r) {b : Nat} (hb : b ≤ maxBlockIdx) (h1 : OneBlock r b)
    (hfit : FitsFor r b) {blk : Option Nat} {evs : List RingEv} (hg : rbufGetBlock r b = .ok (r', blk, evs)) :
    RingInv r' := by
  have hbi := maxBlockIdx_ne hb
  rcases getBlock_cases h hb h1 with ⟨s, -, -, he⟩ | ⟨-, ⟨-, -, he⟩ | ⟨hl, hlt, -, idx, he⟩ | ⟨hl, he⟩⟩
  · rw [he] at hg; cases hg; exact h
  · rw [he] at hg; cases hg; exact h
  · rw [he] at hg; cases hg
    exact ⟨h.window, fun s hs x hx => by have := h.le_last s hs x hx; show x ≤ b; omega,
      fun h0 => absurd h0 hbi, fun _ => hb⟩
  · have hfit' : Fits r := by
      rcases hfit with ⟨hl', h' | h'⟩ | h'
      · rcases hl with hl | hl
        · exact absurd hl hl'
        · omega
      · rcases hl with hl | hl
        · exact absurd hl hl'
        · exact absurd h' hl.2
      · exact h'
    have hbelow : ∀ s < r.ringSize, ∀ x, r.key s = some x → x < b := fun s hs x hx => by
      rcases hl with hl | hl
      · obtain ⟨i, hi, -⟩ := h.window.inside s hs (by rw [hx]; rfl)
        rw [h.fresh hl] at hi
        omega
      · have := h.le_last s hs x hx
        omega
    obtain ⟨hw, hk, -, -⟩ := allocOne_window h.window hfit' hbi hbelow
    rw [he] at hg; cases hg
    refine ⟨?_, fun s hs x hx => ?_, fun h0 => absurd h0 hbi, fun _ => hb⟩
    · show Window (allocOne r b 0).1.ringSize (allocOne r b 0).1.key _ _
      rw [alloc_size]
      exact hw
    · change (allocOne r b 0).1.key s = some x at hx
      change s < (allocOne r b 0).1.ringSize at hs
      rw [alloc_size] at hs
      rw [hk] at hx
      show x ≤ b
      by_cases e : s = allocSlot r 0
      · subst e
        rw [Function.update_self] at hx
        cases hx
        exact le_refl _
      · rw [Function.update_of_ne e] at hx
        exact le_of_lt (hbelow s hs x hx)

theorem step_inv {r r' : Rbuf} {op : RingOp} {evs : List RingEv} (h : RingInv r) (hc : Careful r op)
    (hs : ringStep r op = .ok (r', evs)) : RingInv r' := by
  cases op with
  | getBlock b =>
    obtain ⟨⟨r1, blk, e1⟩, hg, hret⟩ := Machine.bind_ok_iff.mp hs
    cases hret
    obtain ⟨hb, hcare⟩ := hc
    exact getBlock_inv h hb (hcare b rfl).1 (hcare b rfl).2 hg
  | freeBlock s =>
    cases hs
    exact free_inv h hc.1.1 hc.1.2

/-! ## Whole runs -/

theorem run_inv {mem : Heap} {R fs n : Nat} {r0 r : Rbuf} {ops : List RingOp} {tr : List RingEv}
    (h0 : rbufAlloc true mem R fs n = .ok (some r0)) (h : Machine.Run ringStep Careful r0 ops r tr) : RingInv r := by
  obtain ⟨hpos, hint, rfl⟩ := rbufAlloc_some h0
  exact h.inv (fun _ r _ => RingInv r) (newRing_inv mem R fs n hpos hint) fun _ _ _ _ _ _ hi hc hs => step_inv hi hc hs

/-- In every careful run from `rbuf_alloc`, the live slots are the window's, in order. -/
theorem ring_window {mem : Heap} {R fs n : Nat} {r0 r : Rbuf} (h0 : rbufAlloc true mem R fs n = .ok (some r0))
    {ops : List RingOp} {tr : List RingEv} (h : Machine.Run ringStep Careful r0 ops r tr) : RingWindow r :=
  (run_inv h0 h).ringWindow

/-- A heap of zeros. -/
def zeroHeap : Heap := ⟨fun _ _ _ => 0, 0⟩

/-- Consecutive blocks, the second freed before the first, then one far enough ahead that
    the difference truncates to 1. -/
theorem ring_window_run : ∃ r tr, Machine.Run ringStep Careful (newRing zeroHeap 3 16 1 (by decide) (by decide))
    [.getBlock 7, .getBlock 8, .freeBlock 1, .getBlock 9, .getBlock (2 ^ 32 + 10)] r tr ∧ RingWindow r := by
  obtain ⟨r, tr, hrun, -⟩ := Machine.exists_run ringStep Careful
    (newRing zeroHeap 3 16 1 (by decide) (by decide))
    [.getBlock 7, .getBlock 8, .freeBlock 1, .getBlock 9, .getBlock (2 ^ 32 + 10)]
    (fun _ => true) (by decide +kernel)
  exact ⟨r, tr, hrun, ring_window (show rbufAlloc true zeroHeap 3 16 1 = .ok (some _) from rfl) hrun⟩

/-- After blocks 0 and 2, block 2 is in slot 3 and the window is slots 0 to 2. -/
theorem gap_breaks_ring_window : ¬ ∀ (mem : Heap) (R fs n : Nat) (r0 r : Rbuf) (ops : List RingOp) (tr : List RingEv),
    1 ≤ R → 1 ≤ n → rbufAlloc true mem R fs n = .ok (some r0) → Machine.Run ringStep Legal r0 ops r tr →
      RingWindow r := by
  intro hclaim
  obtain ⟨r, tr, hrun, hq⟩ := Machine.exists_run ringStep Legal
    (newRing zeroHeap rxRingSize maxFecPayload 1 (by decide) (by decide))
    [.getBlock 0, .getBlock 2]
    (fun p => p.1.ringSize == 40 && p.1.ringFront == 0 && p.1.ringAlloc == 3 && decide (p.1.live 3)) (by decide +kernel)
  simp only [Bool.and_eq_true, beq_iff_eq, decide_eq_true_eq] at hq
  obtain ⟨⟨⟨hR, hf⟩, ha⟩, hl⟩ := hq
  have hw := hclaim zeroHeap rxRingSize maxFecPayload 1 _ r _ tr (by decide) (by decide) rfl hrun
  obtain ⟨i, hi, he⟩ := hw.inside 3 (by omega) hl
  rw [hf, hR] at he
  omega

/-- Nor does a run of consecutive blocks keep the window when a full window's only block
    is dropped: the front stays on its last slot. -/
theorem drop_breaks_ring_window : ∃ r tr, Machine.Run ringStep Legal (newRing zeroHeap 2 16 1 (by decide) (by decide))
    [.getBlock 0, .getBlock 1, .freeBlock 1, .getBlock 2] r tr ∧ ¬ RingWindow r := by
  obtain ⟨r, tr, hrun, hq⟩ := Machine.exists_run ringStep Legal
    (newRing zeroHeap 2 16 1 (by decide) (by decide))
    [.getBlock 0, .getBlock 1, .freeBlock 1, .getBlock 2]
    (fun p => p.1.ringSize == 2 && p.1.ringFront == 1 && p.1.ringAlloc == 1 && decide (p.1.live 0)) (by decide +kernel)
  simp only [Bool.and_eq_true, beq_iff_eq, decide_eq_true_eq] at hq
  obtain ⟨⟨⟨hR, hf⟩, ha⟩, hl⟩ := hq
  refine ⟨r, tr, hrun, fun hw => ?_⟩
  obtain ⟨i, hi, he⟩ := hw.inside 0 (by omega) hl
  rw [hf, hR] at he
  omega

end WfbYa.Ring
