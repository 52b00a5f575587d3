/-
  WfbYa.Ring.SlidingRing — `rbuf_get_block` as a sliding window of the last `ring_size`
  block indices (see `WfbYa.Ring.Rbuf`, `WfbYa.Lib.SlidingWindow`).

  Beside the ring a run keeps the window of what the caller has asked for and freed.
  - `getBlock_refines`: in every run in which a new block is the next one after
    `last_block` (`Next`), or the ring has a single slot, `rbuf_get_block` answers as
    that window does: the slot of a block it serves, untouched; a cleared slot for a
    block ahead; nothing otherwise. Asking again returns the same slot.
  - `gap_breaks_refinement`: after a gap of one block the new block is not found again.
-/

import WfbYa.Ring.RingWindow
import WfbYa.Lib.SlidingWindow

namespace WfbYa.Ring

open WfbYa.Lib WfbYa.Lib.Circular

/-! ## The ring and its history -/

structure Tracked where
  ring : Rbuf
  past : SlidingWindow.Window

def trackedStep (t : Tracked) (op : RingOp) : Except Fault (Tracked × List RingEv) := do
  let (r, evs) ← ringStep t.ring op
  return (⟨r, match op with
    | .getBlock b => t.past.take b
    | .freeBlock s => t.past.give (t.ring.blocks s).index⟩, evs)

/-- A new block follows the last one (in a ring of one slot it may be further ahead). -/
def Next (r : Rbuf) (b : Nat) : Prop :=
  r.lastBlock = blockInval ∨ b ≤ r.lastBlock ∨ b = r.lastBlock + 1 ∨
    (r.ringSize = 1 ∧ (b - r.lastBlock) % 2 ^ 32 ≠ 0)

/-- Every call that allocates allocates the next block, and it fits. -/
def Stepwise (t : Tracked) (op : RingOp) : Prop :=
  Legal t.ring op ∧ ∀ b, op = .getBlock b → Next t.ring b ∧ FitsFor t.ring b

instance (r : Rbuf) (b : Nat) : Decidable (Next r b) := by unfold Next; infer_instance

instance (t : Tracked) (op : RingOp) : Decidable (Stepwise t op) :=
  match op with
  | .getBlock b => decidable_of_iff (Legal t.ring (.getBlock b) ∧ Next t.ring b ∧ FitsFor t.ring b)
      ⟨fun h => ⟨h.1, fun _ e => by cases e; exact h.2⟩, fun h => ⟨h.1, h.2 b rfl⟩⟩
  | .freeBlock s => decidable_of_iff (Legal t.ring (.freeBlock s)) ⟨fun h => ⟨h, fun _ e => by cases e⟩, fun h => h.1⟩

theorem Next.oneBlock {r : Rbuf} {b : Nat} (h : Next r b) : OneBlock r b := by
  rcases h with h | h | h | h
  · exact .inl h
  · exact .inr (.inl h)
  · exact .inr (.inr (.inl (by omega)))
  · exact .inr (.inr (.inr h.1))

/-! ## The refinement -/

/-- A cleared slot for block `b`. -/
structure Cleared (blk : RbufBlock) (b : Nat) : Prop where
  index : blk.index = b
  used : blk.fragmentUsed = 0
  toSend : blk.fragmentToSend = 0
  len : ∀ j, blk.fragmentLen j = 0

/-- `rbuf_get_block` answers as the window `w` does. -/
structure Answers (r : Rbuf) (w : SlidingWindow.Window) (b : Nat) : Prop where
  served : w.Served r.ringSize b →
    ∃ s < r.ringSize, (r.blocks s).index = b ∧ rbufGetBlock r b = .ok (r, some s, [])
  ahead : w.Ahead b → ∃ r' evs, ∃ s < r.ringSize, rbufGetBlock r b = .ok (r', some s, evs) ∧
    Cleared (r'.blocks s) b ∧ r'.lastBlock = b
  refused : ¬ w.Served r.ringSize b → ¬ w.Ahead b → rbufGetBlock r b = .ok (r, none, [])
  again : ∀ r' s evs, rbufGetBlock r b = .ok (r', some s, evs) → rbufGetBlock r' b = .ok (r', some s, [])

/-- What a stepwise run keeps. Each place of the window belongs to one index, counted back
    from `last_block`; the history's window is the ring's. -/
structure TrackInv (t : Tracked) : Prop where
  ring : RingInv t.ring
  place : ∀ i < t.ring.ringAlloc, ∀ x, t.ring.key (pos t.ring.ringSize t.ring.ringFront i) = some x →
    x + (t.ring.ringAlloc - 1 - i) = t.ring.lastBlock
  last : t.past.last = if t.ring.lastBlock = blockInval then none else some t.ring.lastBlock
  held : ∀ x ∈ t.past.held, t.ring.lastBlock ≠ blockInval ∧
    ((∃ s < t.ring.ringSize, t.ring.key s = some x) ∨ x + t.ring.ringSize ≤ t.ring.lastBlock)
  live : ∀ s < t.ring.ringSize, ∀ x, t.ring.key s = some x → x ∈ t.past.held

theorem TrackInv.near {t : Tracked} (h : TrackInv t) {s x : Nat} (hs : s < t.ring.ringSize) (hx : t.ring.key s = some x) :
    t.ring.lastBlock < x + t.ring.ringSize ∧ t.ring.lastBlock ≠ blockInval := by
  obtain ⟨i, hi, rfl⟩ := h.ring.window.inside s hs (by rw [hx]; rfl)
  have := h.place i hi x hx
  have := h.ring.window.le
  refine ⟨by omega, fun h0 => ?_⟩
  rw [h.ring.fresh h0] at hi
  omega

theorem TrackInv.served_iff {t : Tracked} (h : TrackInv t) {b : Nat} :
    t.past.Served t.ring.ringSize b ↔ ∃ s < t.ring.ringSize, t.ring.key s = some b := by
  constructor
  · rintro ⟨hb, l, hl, hlt⟩
    obtain ⟨hv, hb | hb⟩ := h.held b hb
    · exact hb
    · rw [h.last, if_neg hv, Option.some.injEq] at hl
      omega
  · rintro ⟨s, hs, hk⟩
    obtain ⟨hn, hv⟩ := h.near hs hk
    have := t.ring.size_pos
    exact ⟨h.live s hs b hk, t.ring.lastBlock, by rw [h.last, if_neg hv], by omega⟩

theorem TrackInv.ahead_iff {t : Tracked} (h : TrackInv t) {b : Nat} :
    t.past.Ahead b ↔ t.ring.lastBlock = blockInval ∨ t.ring.lastBlock < b := by
  unfold SlidingWindow.Window.Ahead
  rw [h.last]
  by_cases hv : t.ring.lastBlock = blockInval <;> simp [hv]

/-- A new block's slot is found again. -/
theorem new_again {r r' : Rbuf} (h : RingInv r) {b s : Nat} {evs : List RingEv} (hb : b ≤ maxBlockIdx)
    (h1 : OneBlock r b) (hfit : FitsFor r b) (hg : rbufGetBlock r b = .ok (r', some s, evs))
    (hs : s < r.ringSize) (hR : r'.ringSize = r.ringSize) (hk : (r'.blocks s).index = b) :
    rbufGetBlock r' b = .ok (r', some s, []) := by
  have hi := getBlock_inv h hb h1 hfit hg
  exact rbufGetBlock_hit (search_window hi.window (by omega) (key_some.mpr ⟨hk, maxBlockIdx_ne hb⟩))

theorem TrackInv.answers {t : Tracked} (h : TrackInv t) {b : Nat} (hb : b ≤ maxBlockIdx) (hn : Next t.ring b)
    (hfit : FitsFor t.ring b) : Answers t.ring t.past b := by
  have hcases := getBlock_cases h.ring hb hn.oneBlock
  have hnz : t.ring.lastBlock ≠ blockInval → t.ring.lastBlock < b → (b - t.ring.lastBlock) % 2 ^ 32 ≠ 0 := fun hv hlt => by
    rcases hn with hn | hn | hn | hn
    · exact absurd hn hv
    · omega
    · omega
    · exact hn.2
  have hcl : Cleared ((allocOne t.ring b 0).1.blocks (allocSlot t.ring 0)) b := by
    have : (allocOne t.ring b 0).1.blocks (allocSlot t.ring 0) =
        ((dropped t.ring (allocSlot t.ring 0)).blocks (allocSlot t.ring 0)).renew b := setBlock_same _ _ _
    rw [this]
    exact ⟨rfl, rfl, rfl, fun _ => rfl⟩
  have hslot : allocSlot t.ring 0 < t.ring.ringSize := Nat.mod_lt _ t.ring.size_pos
  refine ⟨fun hsv => ?_, fun ha => ?_, fun hsv ha => ?_, fun r' s evs hg => ?_⟩
  · obtain ⟨s, hs, hk⟩ := h.served_iff.mp hsv
    exact ⟨s, hs, (key_some.mp hk).1, rbufGetBlock_hit (search_window h.ring.window hs hk)⟩
  · have hl := h.ahead_iff.mp ha
    rcases hcases with ⟨s, hs, hk, -⟩ | ⟨-, ⟨hv, hle, -⟩ | ⟨hv, hlt, h0, -⟩ | ⟨-, he⟩⟩
    · obtain ⟨-, hv⟩ := h.near hs hk
      have := h.ring.le_last s hs b hk
      rcases hl with hl | hl
      · exact absurd hl hv
      · omega
    · rcases hl with hl | hl
      · exact absurd hl hv
      · omega
    · exact absurd h0 (hnz hv hlt)
    · exact ⟨_, _, _, hslot, he, hcl, rfl⟩
  · have hl : ¬ (t.ring.lastBlock = blockInval ∨ t.ring.lastBlock < b) := fun e => ha (h.ahead_iff.mpr e)
    rcases hcases with ⟨s, hs, hk, -⟩ | ⟨-, ⟨-, -, he⟩ | ⟨-, hlt, -⟩ | ⟨hlt, -⟩⟩
    · exact absurd (h.served_iff.mpr ⟨s, hs, hk⟩) hsv
    · exact he
    · exact absurd (.inr hlt) hl
    · exact absurd (hlt.imp id (·.1)) hl
  · rcases hcases with ⟨s', hs, hk, he⟩ | ⟨-, ⟨-, -, he⟩ | ⟨hv, hlt, h0, -⟩ | ⟨-, he⟩⟩
    · rw [he] at hg; cases hg; exact he
    · rw [he] at hg; cases hg
    · exact absurd h0 (hnz hv hlt)
    · have hg' := hg
      rw [he] at hg
      simp only [Except.ok.injEq, Prod.mk.injEq, Option.some.injEq] at hg
      obtain ⟨rfl, rfl, -⟩ := hg
      exact new_again h.ring hb hn.oneBlock hfit hg' hslot (alloc_size t.ring b 0) hcl.index

/-! ## One step -/

theorem free_track {t : Tracked} (h : TrackInv t) {s : Nat} (hs : s < t.ring.ringSize) (hl : t.ring.live s) :
    TrackInv ⟨rbufFreeBlock t.ring s, t.past.give (t.ring.blocks s).index⟩ := by
  obtain ⟨i, hi, -⟩ := h.ring.window.inside s hs (key_isSome.mpr hl)
  obtain ⟨-, k, hk, ha, -, hf, -⟩ := rbufFreeBlock_window h.ring.window (by omega) s
  have hks := key_of_live hl
  refine ⟨free_inv h.ring hs hl, fun j hj x hx => ?_, h.last, fun x hx => ?_, fun u hu x hx => ?_⟩
  · change j < (rbufFreeBlock t.ring s).ringAlloc at hj
    change (rbufFreeBlock t.ring s).key (pos t.ring.ringSize (rbufFreeBlock t.ring s).ringFront j) = some x at hx
    show x + ((rbufFreeBlock t.ring s).ringAlloc - 1 - j) = t.ring.lastBlock
    rw [ha] at hj ⊢
    rw [hf (by omega), pos_pos, free_key] at hx
    by_cases e : pos t.ring.ringSize t.ring.ringFront (k + j) = s
    · rw [e] at hx; simp at hx
    · rw [Function.update_of_ne e] at hx
      have := h.place (k + j) (by omega) x hx
      omega
  · obtain ⟨hv, ⟨u, hu, hk'⟩ | hfar⟩ := h.held x hx.1
    · refine ⟨hv, .inl ⟨u, hu, ?_⟩⟩
      show (rbufFreeBlock t.ring s).key u = some x
      rw [free_key, Function.update_of_ne, hk']
      rintro rfl
      rw [hks, Option.some.injEq] at hk'
      exact hx.2 hk'.symm
    · exact ⟨hv, .inr hfar⟩
  · change (rbufFreeBlock t.ring s).key u = some x at hx
    rw [free_key] at hx
    by_cases e : u = s
    · subst e; simp at hx
    · rw [Function.update_of_ne e] at hx
      refine ⟨h.live u hu x hx, fun e' => e ?_⟩
      rw [Set.mem_singleton_iff] at e'
      exact h.ring.window.key_inj hu hs (e' ▸ hx) hks

/-- Dropping what is in the slot to be taken keeps each block at its place. -/
theorem dropped_place {t : Tracked} (h : TrackInv t) (s : Nat) (hs : s < t.ring.ringSize) :
    ∀ i < (dropped t.ring s).ringAlloc, ∀ x,
      (dropped t.ring s).key (pos t.ring.ringSize (dropped t.ring s).ringFront i) = some x →
        x + ((dropped t.ring s).ringAlloc - 1 - i) = t.ring.lastBlock := by
  unfold dropped
  split
  · exact h.place
  · rename_i hinv
    have := free_track h hs fun e => hinv ((inval_iff _).mpr e)
    exact this.place

theorem alloc_track {t : Tracked} (h : TrackInv t) {b : Nat} (hb : b ≤ maxBlockIdx) (hn : Next t.ring b)
    (hfit : Fits t.ring) (hl : t.ring.lastBlock = blockInval ∨ t.ring.lastBlock < b)
    (hi : RingInv { (allocOne t.ring b 0).1 with lastBlock := b }) :
    TrackInv ⟨{ (allocOne t.ring b 0).1 with lastBlock := b }, t.past.take b⟩ := by
  have hbi := maxBlockIdx_ne hb
  have hslot : allocSlot t.ring 0 < t.ring.ringSize := Nat.mod_lt _ t.ring.size_pos
  have hpos := t.ring.size_pos
  have hbelow : ∀ s < t.ring.ringSize, ∀ x, t.ring.key s = some x → x < b := fun s hs x hx => by
    have := h.ring.le_last s hs x hx
    rcases hl with hl | hl
    · exact absurd hl (h.near hs hx).2
    · omega
  obtain ⟨-, hk, hf, ha⟩ := allocOne_window h.ring.window hfit hbi hbelow
  obtain ⟨-, hlt, hidx, hdk⟩ := dropped_window h.ring.window hfit
  have hah : t.past.Ahead b := h.ahead_iff.mpr hl
  have hplace := dropped_place h (allocSlot t.ring 0) hslot
  refine ⟨hi, fun i hi' x hx => ?_, ?_, fun x hx => ⟨hbi, ?_⟩, fun s hs x hx => ?_⟩
  · change i < (allocOne t.ring b 0).1.ringAlloc at hi'
    change (allocOne t.ring b 0).1.key (pos (allocOne t.ring b 0).1.ringSize (allocOne t.ring b 0).1.ringFront i) = some x at hx
    show x + ((allocOne t.ring b 0).1.ringAlloc - 1 - i) = b
    rw [ha] at hi' ⊢
    rw [alloc_size, hf, hk] at hx
    by_cases e : pos t.ring.ringSize (dropped t.ring (allocSlot t.ring 0)).ringFront i = allocSlot t.ring 0
    · -- the new block, at the end of the window
      rw [e, Function.update_self, Option.some.injEq] at hx
      have := pos_inj (by omega) hlt (e.trans hidx)
      omega
    · rw [Function.update_of_ne e] at hx
      have hi2 : i < (dropped t.ring (allocSlot t.ring 0)).ringAlloc := by
        rcases Nat.lt_succ_iff_lt_or_eq.mp hi' with hi2 | rfl
        · exact hi2
        · exact absurd hidx.symm e
      have hxd : (dropped t.ring (allocSlot t.ring 0)).key
          (pos t.ring.ringSize (dropped t.ring (allocSlot t.ring 0)).ringFront i) = some x := by
        rw [hdk, Function.update_of_ne e]; exact hx
      have hp := hplace i hi2 x hxd
      obtain ⟨hnear, hv⟩ := h.near (pos_lt hpos _ _) hx
      rcases hn with hn | hn | hn | hn
      · exact absurd hn hv
      · rcases hl with hl | hl
        · exact absurd hl hv
        · omega
      · omega
      · omega
  · show (t.past.take b).last = if b = blockInval then none else some b
    rw [SlidingWindow.take_last hah, if_neg hbi]
  · -- taken before, or taken with `b`
    change (∃ s < (allocOne t.ring b 0).1.ringSize, (allocOne t.ring b 0).1.key s = some x) ∨
      x + (allocOne t.ring b 0).1.ringSize ≤ b
    rw [alloc_size, hk]
    have hnew : x = b → (∃ s < t.ring.ringSize, Function.update t.ring.key (allocSlot t.ring 0) (some b) s = some x) ∨
        x + t.ring.ringSize ≤ b := fun e => .inl ⟨_, hslot, by rw [Function.update_self, e]⟩
    rcases hx with hx | hx
    · obtain ⟨hv, ⟨s, hs, hks⟩ | hfar⟩ := h.held x hx
      · by_cases e : s = allocSlot t.ring 0
        · -- dropped: the window was full, so `b` is `ring_size` ahead of it
          right
          have hnear := h.near hs hks
          have hlast := h.ring.le_last s hs x hks
          have hfull : t.ring.ringAlloc = t.ring.ringSize := by
            by_contra hne
            have hle := h.ring.window.le
            obtain ⟨i, hi', he⟩ := h.ring.window.inside s hs (by rw [hks]; rfl)
            rw [e, allocSlot_eq hle] at he
            have := pos_inj (by omega) (by omega) he
            omega
          have hfr : s = pos t.ring.ringSize t.ring.ringFront 0 := by
            rw [e, allocSlot_eq h.ring.window.le, hfull, pos_size _ _ t.ring.front_lt, pos_zero t.ring.front_lt]
          rw [hfr] at hks
          have := h.place 0 (by omega) x hks
          rcases hl with hl | hl
          · exact absurd hl hv
          · omega
        · exact .inl ⟨s, hs, by rw [Function.update_of_ne e]; exact hks⟩
      · right
        rcases hl with hl | hl
        · exact absurd hl hv
        · omega
    · unfold SlidingWindow.Window.fresh at hx
      rw [h.last] at hx
      by_cases hv : t.ring.lastBlock = blockInval
      · simp only [hv, if_true] at hx
        exact hnew hx
      · simp only [hv, if_false, Set.mem_Ioc] at hx
        by_cases e : x = b
        · exact hnew e
        · rcases hn with hn | hn | hn | hn
          · exact absurd hn hv
          · omega
          · omega
          · right; omega
  · change (allocOne t.ring b 0).1.key s = some x at hx
    change s < (allocOne t.ring b 0).1.ringSize at hs
    rw [alloc_size] at hs
    rw [hk] at hx
    show x ∈ t.past.held ∪ t.past.fresh b
    by_cases e : s = allocSlot t.ring 0
    · rw [e, Function.update_self, Option.some.injEq] at hx
      subst hx
      right
      unfold SlidingWindow.Window.fresh
      cases hpl : t.past.last with
      | none => rfl
      | some l => exact ⟨hah l hpl, le_refl _⟩
    · rw [Function.update_of_ne e] at hx
      exact .inl (h.live s hs x hx)

theorem track_step {t t' : Tracked} {op : RingOp} {evs : List RingEv} (h : TrackInv t) (hc : Stepwise t op)
    (hs : trackedStep t op = .ok (t', evs)) : TrackInv t' := by
  obtain ⟨⟨r, e⟩, hr, hret⟩ := Machine.bind_ok_iff.mp hs
  cases op with
  | freeBlock s =>
    cases hr; cases hret
    exact free_track h hc.1.1 hc.1.2
  | getBlock b =>
    obtain ⟨hn, hfit⟩ := hc.2 b rfl
    have hb : b ≤ maxBlockIdx := hc.1
    obtain ⟨⟨r1, blk, e1⟩, hg, hr⟩ := Machine.bind_ok_iff.mp hr
    cases hr; cases hret
    have hi := getBlock_inv h.ring hb hn.oneBlock hfit hg
    have hsame : ∀ l, t.past.last = some l → b ≤ l → TrackInv ⟨t.ring, t.past.take b⟩ := fun l hl hbl => by
      rw [SlidingWindow.take_behind hl hbl]; exact h
    rcases getBlock_cases h.ring hb hn.oneBlock with ⟨s, hlt, hk, he⟩ | ⟨-, ⟨hv, hle, he⟩ | ⟨hv, hlt, h0, -⟩ | ⟨hl, he⟩⟩
    · rw [he] at hg; cases hg
      exact hsame _ (by rw [h.last, if_neg (h.near hlt hk).2]) (h.ring.le_last s hlt b hk)
    · rw [he] at hg; cases hg
      exact hsame _ (by rw [h.last, if_neg hv]) hle
    · rcases hn with hn | hn | hn | hn
      · exact absurd hn hv
      · omega
      · omega
      · exact absurd h0 hn.2
    · rw [he] at hg; cases hg
      have hfit' : Fits t.ring := by
        rcases hfit with ⟨hv, hle | h0⟩ | hfit
        · rcases hl with hl | hl
          · exact absurd hl hv
          · omega
        · rcases hl with hl | hl
          · exact absurd hl hv
          · exact absurd h0 hl.2
        · exact hfit
      exact alloc_track h hb hn hfit' (hl.imp id (·.1)) hi

/-! ## Whole runs -/

theorem track_run {mem : Heap} {R fs n : Nat} {r0 : Rbuf} (h0 : rbufAlloc true mem R fs n = .ok (some r0))
    {ops : List RingOp} {t : Tracked} {tr : List RingEv}
    (h : Machine.Run trackedStep Stepwise ⟨r0, SlidingWindow.empty⟩ ops t tr) : TrackInv t := by
  obtain ⟨hpos, hint, rfl⟩ := rbufAlloc_some h0
  refine h.inv (fun _ t _ => TrackInv t) ?_ fun _ _ _ _ _ _ hi hc hs => track_step hi hc hs
  exact ⟨newRing_inv mem R fs n hpos hint, fun i hi => absurd hi (Nat.not_lt_zero i), rfl,
    fun x hx => absurd hx (Set.notMem_empty x), fun s _ x hx => by simp at hx⟩

/-- In every stepwise run, `rbuf_get_block` answers the next stepwise call as the sliding
    window of its history does. -/
theorem getBlock_refines {mem : Heap} {R fs n : Nat} {r0 : Rbuf} (h0 : rbufAlloc true mem R fs n = .ok (some r0))
    {ops : List RingOp} {t : Tracked} {tr : List RingEv}
    (h : Machine.Run trackedStep Stepwise ⟨r0, SlidingWindow.empty⟩ ops t tr) {b : Nat}
    (hb : Stepwise t (.getBlock b)) : Answers t.ring t.past b :=
  (track_run h0 h).answers hb.1 (hb.2 b rfl).1 (hb.2 b rfl).2

theorem getBlock_refines_run : ∃ t tr, Machine.Run trackedStep Stepwise
    ⟨newRing zeroHeap 3 16 1 (by decide) (by decide), SlidingWindow.empty⟩
    [.getBlock 7, .getBlock 8, .freeBlock 1, .getBlock 9] t tr ∧ Answers t.ring t.past 10 := by
  obtain ⟨t, tr, hrun, hq⟩ := Machine.exists_run trackedStep Stepwise
    ⟨newRing zeroHeap 3 16 1 (by decide) (by decide), SlidingWindow.empty⟩
    [.getBlock 7, .getBlock 8, .freeBlock 1, .getBlock 9]
    (fun p => decide (Stepwise p.1 (.getBlock 10))) (by decide +kernel)
  exact ⟨t, tr, hrun, getBlock_refines (show rbufAlloc true zeroHeap 3 16 1 = .ok (some _) from rfl) hrun (of_decide_eq_true hq)⟩

/-- After block 0, asking for block 2 takes a slot outside the window: asking again finds
    nothing. -/
theorem gap_breaks_refinement : ¬ ∀ (mem : Heap) (R fs n : Nat) (r0 : Rbuf) (ops : List RingOp) (t : Tracked)
    (tr : List RingEv) (b : Nat), 1 ≤ R → 1 ≤ n → rbufAlloc true mem R fs n = .ok (some r0) →
      Machine.Run trackedStep (fun t op => Legal t.ring op) ⟨r0, SlidingWindow.empty⟩ ops t tr → b ≤ maxBlockIdx →
        Answers t.ring t.past b := by
  intro hclaim
  obtain ⟨t, tr, hrun, hq⟩ := Machine.exists_run trackedStep (fun t op => Legal t.ring op)
    ⟨newRing zeroHeap rxRingSize maxFecPayload 1 (by decide) (by decide), SlidingWindow.empty⟩
    [.getBlock 0]
    (fun p => (rbufGetBlock p.1.ring 2).toOption.any fun q =>
      q.2.1.isSome && (rbufGetBlock q.1 2).toOption.any fun q' => q'.2.1.isNone) (by decide +kernel)
  have ha := hclaim zeroHeap rxRingSize maxFecPayload 1 _ _ t tr 2 (by decide) (by decide) rfl hrun (by decide)
  cases hg : rbufGetBlock t.ring 2 with
  | error e =>
    rw [hg] at hq
    cases hq
  | ok q =>
    obtain ⟨r', o, evs⟩ := q
    rw [hg] at hq
    cases o with
    | none => cases hq
    | some s =>
      have hnone : ((rbufGetBlock r' 2).toOption.any fun q' => q'.2.1.isNone) = true := hq
      rw [ha.again r' s evs hg] at hnone
      cases hnone

/-- A block `2 ^ 32` ahead is answered with the slot of the old one. -/
theorem truncated_gap : ∃ r tr, Machine.Run ringStep Legal (newRing zeroHeap rxRingSize 16 1 (by decide) (by decide))
    [.getBlock 5] r tr ∧ ∃ r' s evs, rbufGetBlock r (2 ^ 32 + 5) = .ok (r', some s, evs) ∧ (r'.blocks s).index = 5 := by
  obtain ⟨r, tr, hrun, hq⟩ := Machine.exists_run ringStep Legal
    (newRing zeroHeap rxRingSize 16 1 (by decide) (by decide))
    [.getBlock 5]
    (fun p => (rbufGetBlock p.1 (2 ^ 32 + 5)).toOption.any fun q => q.2.1.any fun s => (q.1.blocks s).index == 5)
    (by decide +kernel)
  refine ⟨r, tr, hrun, ?_⟩
  cases hg : rbufGetBlock r (2 ^ 32 + 5) with
  | error e =>
    rw [hg] at hq
    cases hq
  | ok q =>
    obtain ⟨r', o, evs⟩ := q
    rw [hg] at hq
    cases o with
    | none => cases hq
    | some s =>
      have hidx : ((r'.blocks s).index == 5) = true := hq
      exact ⟨r', s, evs, rfl, beq_iff_eq.mp hidx⟩

end WfbYa.Ring
