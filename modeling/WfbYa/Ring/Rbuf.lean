/-
  WfbYa.Ring.Rbuf — the block ring (`util_rbuf.c`, `util_rbuf.h`).

  A ring is `ring_size` slots, each with room for `fragment_nof` fragments; a slot holds
  a block while its `index` is not `BLOCK_INVAL`. The window is the `ring_alloc` slots
  that start at `ring_front`. A block pointer is its slot number; `blk->rbuf` is always
  the ring the slot is in.

  - `rbufGetBlock` finds a block in the window, refuses one at or below `last_block`, and
    else allocates: as many blocks as `block_idx` is ahead of `last_block` (the difference
    goes through an `int`), at most `ring_size`, dropping what is in their slots.
  - `rbufFreeBlock` empties a slot, then moves `ring_front` past empty slots until the
    window is empty. `ring_alloc` is a `size_t`: decremented at 0 it wraps.

  Each call also reports its `RingEv`s, for statements about what happened in it.
-/

import WfbYa.Params
import Mathlib.Logic.Function.Basic

namespace WfbYa.Ring

def blockInval : Nat := 2 ^ 64 - 1

structure RbufBlock where
  index : Nat
  fragmentUsed : Nat
  fragmentToSend : Nat
  fragment : Nat → Bytes
  rssi : Nat → Int
  fragmentLen : Nat → Nat

/-- A ring has at least one slot, no more than an `int` counts, and its front is one of them. -/
structure Rbuf where
  ringSize : Nat
  ringFront : Nat
  ringAlloc : Nat
  fragmentNof : Nat
  fragmentSize : Nat
  lastBlock : Nat
  lastSeq : Nat
  blocks : Nat → RbufBlock
  size_pos : 0 < ringSize
  size_int : ringSize ≤ intMax
  front_lt : ringFront < ringSize

/-- What an allocation finds in memory: `malloc` does not clear it. -/
structure Heap where
  byte : Nat → Nat → Nat → UInt8
  seq : Nat

inductive RingEv where
  /-- `rbuf_free_block` on a slot holding `index`, entered with `alloc` as `ring_alloc`;
      its loop ran `iters` times. -/
  | free (slot index alloc iters : Nat)
  /-- A slot is cleared for block `index`. -/
  | alloc (slot index : Nat)
  deriving DecidableEq, Repr

/-! ## rbuf_alloc -/

def emptyBlock (mem : Heap) (fragSize slot : Nat) : RbufBlock where
  index := blockInval
  fragmentUsed := 0
  fragmentToSend := 0
  fragment := fun j => (List.range fragSize).map (mem.byte slot j)
  rssi := fun _ => -128
  fragmentLen := fun _ => 0

def newRing (mem : Heap) (ringSize fragSize nfrag : Nat) (hpos : 0 < ringSize) (hint : ringSize ≤ intMax) : Rbuf where
  ringSize := ringSize
  ringFront := 0
  ringAlloc := 0
  fragmentNof := nfrag
  fragmentSize := fragSize
  lastBlock := blockInval
  lastSeq := mem.seq
  blocks := emptyBlock mem fragSize
  size_pos := hpos
  size_int := hint
  front_lt := hpos

/-- `rbuf_alloc`, `ok` telling whether every allocation in it succeeds. Its loops count
    slots and fragments with an `int`; a ring without slots has no block to return. -/
def rbufAlloc (ok : Bool) (mem : Heap) (ringSize fragSize nfrag : Nat) : Except Fault (Option Rbuf) :=
  if ok = false then .ok none
  else if h : 0 < ringSize then
    if h' : ringSize ≤ intMax ∧ nfrag ≤ intMax then .ok (some (newRing mem ringSize fragSize nfrag h h'.1))
    else .error .signedOverflow
  else .error .outOfBounds

/-! ## rbuf_free_block -/

def RbufBlock.inval (blk : RbufBlock) : Bool := blk.index == blockInval

/-- The loop of `rbuf_free_block`, `n` decrements away from `ring_alloc = 0`, with
    `ring_front` at `f`: the decrements left when it stops, and the front. -/
def freeLoop (blocks : Nat → RbufBlock) (ringSize : Nat) : Nat → Nat → Nat × Nat
  | 0, f => (0, f)
  | n + 1, f =>
    if (blocks f).inval then
      if n = 0 then (0, f) else freeLoop blocks ringSize n ((f + 1) % ringSize)
    else (n + 1, f)

theorem freeLoop_lt {blocks : Nat → RbufBlock} {R : Nat} (hR : 0 < R) {n f : Nat} (hf : f < R) :
    (freeLoop blocks R n f).2 < R := by
  induction n generalizing f with
  | zero => exact hf
  | succ n ih =>
    simp only [freeLoop]
    split
    · split
      · exact hf
      · exact ih (Nat.mod_lt _ hR)
    · exact hf

/-- How many decrements `ring_alloc` is away from 0: from 0 itself, a whole wrap. -/
def countdown (ringAlloc : Nat) : Nat := if ringAlloc = 0 then 2 ^ 64 else ringAlloc

def Rbuf.setBlock (r : Rbuf) (slot : Nat) (blk : RbufBlock) : Rbuf :=
  { r with blocks := Function.update r.blocks slot blk }

def freeRun (r : Rbuf) (slot : Nat) : Nat × Nat :=
  freeLoop (r.setBlock slot { r.blocks slot with index := blockInval }).blocks r.ringSize
    (countdown r.ringAlloc) r.ringFront

def rbufFreeBlock (r : Rbuf) (slot : Nat) : Rbuf :=
  { r.setBlock slot { r.blocks slot with index := blockInval } with
    ringAlloc := (freeRun r slot).1 % 2 ^ 64
    ringFront := (freeRun r slot).2
    front_lt := freeLoop_lt r.size_pos r.front_lt }

def freeEv (r : Rbuf) (slot : Nat) : RingEv :=
  .free slot (r.blocks slot).index r.ringAlloc (countdown r.ringAlloc - (freeRun r slot).1)

/-! ## rbuf_get_block -/

/-- The search over the window, `n` slots left from place `i`: the slot found, and the
    last slot looked at (`idx`, which the loop leaves behind). -/
def search (r : Rbuf) (blockIdx : Nat) : Nat → Nat → Nat → Option Nat × Nat
  | 0, _, idx => (none, idx)
  | n + 1, i, _ =>
    let idx := (r.ringFront + i) % r.ringSize
    if (r.blocks idx).index = blockIdx then (some idx, idx) else search r blockIdx n (i + 1) idx

/-- How many blocks are allocated for a new `block_idx`. -/
def newBlocks (r : Rbuf) (blockIdx : Nat) : Nat :=
  let newBlocks : Int := if r.lastBlock = blockInval then 1 else intOfU64 (blockIdx - r.lastBlock)
  if r.ringSize < sizeOfInt newBlocks then r.ringSize else newBlocks.toNat

/-- A slot cleared for a new block; the fragment buffers keep their bytes. -/
def RbufBlock.renew (blk : RbufBlock) (index : Nat) : RbufBlock :=
  { blk with index := index, fragmentUsed := 0, fragmentToSend := 0, fragmentLen := fun _ => 0,
             rssi := fun _ => -128 }

/-- The slot that pass `i` of the allocation loop takes. -/
def allocSlot (r : Rbuf) (i : Nat) : Nat := u64 (r.ringFront + r.ringAlloc + i) % r.ringSize

/-- The ring once slot `idx` has been dropped, if it holds a block. -/
def dropped (r : Rbuf) (idx : Nat) : Rbuf := if (r.blocks idx).inval then r else rbufFreeBlock r idx

def dropEvs (r : Rbuf) (idx : Nat) : List RingEv := if (r.blocks idx).inval then [] else [freeEv r idx]

/-- One pass of the allocation loop: drop what is in the slot, then clear it. -/
def allocOne (r : Rbuf) (index i : Nat) : Rbuf × List RingEv :=
  let idx := allocSlot r i
  let r1 := dropped r idx
  ({ r1.setBlock idx ((r1.blocks idx).renew index) with ringAlloc := u64 (r1.ringAlloc + 1) },
    dropEvs r idx ++ [.alloc idx index])

/-- The allocation loop, `n` passes left from pass `i`: the ring, and the last slot taken. -/
def allocLoop (allocateStart : Nat) : Nat → Nat → Nat → Rbuf → Rbuf × Nat × List RingEv
  | 0, _, idx, r => (r, idx, [])
  | n + 1, i, _, r =>
    let (r1, e1) := allocOne r (u64 (allocateStart + i)) i
    let (r2, idx, e2) := allocLoop allocateStart n (i + 1) (allocSlot r i) r1
    (r2, idx, e1 ++ e2)

def rbufGetBlock (r : Rbuf) (blockIdx : Nat) : Except Fault (Rbuf × Option Nat × List RingEv) :=
  -- `i` runs to `INT_MAX` at most: a longer search overflows it
  match search r blockIdx (min r.ringAlloc (intMax + 1)) 0 0 with
  | (some idx, _) => .ok (r, some idx, [])
  | (none, idx) =>
    if intMax < r.ringAlloc then .error .signedOverflow
    else if r.lastBlock ≠ blockInval ∧ blockIdx ≤ r.lastBlock then .ok (r, none, [])
    else
      let n := newBlocks r blockIdx
      let (r1, idx, evs) := allocLoop (u64 (blockIdx + 2 ^ 64 - n + 1)) n 0 idx r
      .ok ({ r1 with lastBlock := blockIdx }, some idx, evs)

end WfbYa.Ring
