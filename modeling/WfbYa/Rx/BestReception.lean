/-
  WfbYa.Rx.BestReception — the signal strength handed on with a fragment.

  `rx_data` raises a fragment's rssi before it looks whether the fragment is there already,
  so that the copies of other receivers count. A slot taken for another block begins at
  `INT8_MIN`.

  - `Tuned`: the rssi values of a live block are the strongest receptions of its fragments.
  - `best_reception`: in a session in which no block is a multiple of `2 ^ 32` ahead of the
    last one, a decode handler is given the strongest reception of its fragment so far.
  - `wrap_raises_other`: such a block raises the rssi of another one.
-/

import WfbYa.Frame.FrameUdp
import WfbYa.Frame.FrameRadiotap
import WfbYa.Rx.Fidelity
import WfbYa.Rx.SendCalls
import WfbYa.Rx.Copies
import WfbYa.Rx.Toggling

namespace WfbYa.Rx

open WfbYa.Frame WfbYa.Ring WfbYa.Lib

/-! ## Receptions -/

/-- A fragment that came while its block was live, and how strong it was. -/
structure Reception where
  block : Nat
  fragment : Nat
  dbm : Int

/-- The reception an input is: a DATA frame `rbuf_get_block` has a block for. -/
def reception? (ctx : RxContext) : Input → Option Reception
  | .fecToggle => none
  | .frame f =>
    match dataHdr? (.frame f), asked? ctx (.frame f) with
    | some w, some (r, b) =>
      match rbufGetBlock r b with
      | .ok (_, some _, _) => some ⟨w.blockIdx, w.fragmentIdx, f.dbm⟩
      | _ => none
    | _, _ => none

/-- A step, and the receptions so far. -/
def listen (x : Externals) (p : RxContext × List Reception) (i : Input) : RxContext × List Reception :=
  match rxStep x p.1 i with
  | .error _ => p
  | .ok q => (q.1, p.2 ++ (reception? p.1 i).toList)

/-- The receptions of some inputs, from a context on. -/
def receptions (x : Externals) (ctx : RxContext) (is : List Input) : List Reception := (is.foldl (listen x) (ctx, [])).2

/-- The strongest of a fragment's valid receptions, `INT8_MIN` if there is none. -/
def strongest (H : List Reception) (b f : Nat) : Int :=
  ((H.filter fun p => p.block = b ∧ p.fragment = f ∧ p.dbm ≠ dbmInval).map Reception.dbm).foldl max dbmMin

/-- A signal strength the receiver can be given: that of a radiotap header `rx_frame_pcap`
    goes on with, or of a relayed datagram. -/
inductive Measured (lib : RadiotapLib) : Int → Prop
  | pcap {data : Bytes} {size : Nat} {ctx : RadiotapContext} {n : Int} :
      (radiotapFrameParse lib data size).out = .ok (ctx, n) → 0 ≤ n → Measured lib ctx.dbm
  | udp (data : Bytes) : Measured lib (udpFrameParse data).dbm

/-- An input of the session, its frame measured. -/
structure Audible (x : Externals) (lib : RadiotapLib) (ctx : RxContext) (i : Input) : Prop where
  within : Within x ctx i
  measured : ∀ f, i = .frame f → Measured lib f.dbm

/-- It does not take another block's slot either. -/
structure Tunable (x : Externals) (lib : RadiotapLib) (ctx : RxContext) (i : Input) : Prop extends Audible x lib ctx i where
  noWrap : NoWrap ctx i

/-! ## Signal strengths -/

theorem signal_carried (dbm : Int) : Signal (dbmCarried dbm) := by
  rw [dbmCarried_eq]
  split
  · rename_i h
    exact .inl h
  · exact .inr rfl

theorem signal_int8At (data : Bytes) (off : Nat) : Signal (int8At data off) := by
  have h1 := @Int.le_bmod ((data.getD off 0).toNat : Int) (2 ^ 8) (by decide)
  have h2 := @Int.bmod_lt ((data.getD off 0).toNat : Int) (2 ^ 8) (by decide)
  left
  unfold int8At dbmMin dbmMax
  omega

/-- Both sources keep within a signed byte. -/
theorem Measured.signal {lib : RadiotapLib} {dbm : Int} (h : Measured lib dbm) : Signal dbm := by
  cases h with
  | @pcap data size ctx n hout hn =>
    have hcall := radiotapFrameParse_cases lib data size
    rw [hout] at hcall
    generalize (radiotapFrameParse lib data size).evs = evs at hcall
    cases hcall with
    | short _ _ => exact .inl (by decide)
    | refused _ _ _ => exact absurd hn (by decide)
    | @parsed it p _ _ _ _ _ _ =>
      show Signal (it.context data p).dbm
      unfold RadiotapIterator.context
      dsimp only
      split
      · exact signal_int8At data _
      · exact .inr rfl
  | udp data =>
    unfold udpFrameParse
    dsimp only
    generalize int16OfU16 _ = dbm
    exact signal_carried dbm

/-- Every signed byte can be measured. -/
theorem measured_of_fits (lib : RadiotapLib) {dbm : Int} (h1 : dbmMin ≤ dbm) (h2 : dbm ≤ dbmMax) : Measured lib dbm := by
  have h32 : (0 : Nat) < 2 ^ 32 := by decide
  have h16 : (0 : Nat) < 2 ^ 16 := by decide
  have h := (udpFrameParse_build { UdpContext.zero with dbm := dbm } [] h32 h16).2.2
  have hself : dbmCarried dbm = dbm := by rw [dbmCarried_eq, if_pos ⟨h1, h2⟩]
  rw [← hself, ← h]
  exact .udp _

theorem strongest_snoc (H : List Reception) (p : Reception) (b f : Nat) : strongest (H ++ [p]) b f =
    if p.block = b ∧ p.fragment = f ∧ p.dbm ≠ dbmInval then max (strongest H b f) p.dbm else strongest H b f := by
  unfold strongest
  rw [List.filter_append, List.map_append, List.foldl_append]
  by_cases h : p.block = b ∧ p.fragment = f ∧ p.dbm ≠ dbmInval
  · rw [if_pos h, List.filter_cons, if_pos (decide_eq_true h)]
    rfl
  · rw [if_neg h, List.filter_cons, if_neg (by rw [decide_eq_true_eq]; exact h)]
    rfl

theorem dbmMin_le_strongest (H : List Reception) (b f : Nat) : dbmMin ≤ strongest H b f := by
  induction H using List.reverseRecOn with
  | nil => exact le_refl _
  | append_singleton H p ih =>
    rw [strongest_snoc]
    split
    · exact le_max_of_le_left ih
    · exact ih

theorem strongest_none {H : List Reception} {b : Nat} (h : ∀ p ∈ H, p.block ≠ b) (f : Nat) : strongest H b f = dbmMin := by
  have hnil : (H.filter fun p => p.block = b ∧ p.fragment = f ∧ p.dbm ≠ dbmInval) = [] := by
    apply List.filter_eq_nil_iff.mpr
    intro p hp
    rw [decide_eq_true_eq]
    exact fun hc => h p hp hc.1
  unfold strongest
  rw [hnil]
  rfl

/-- Raising an rssi value takes the stronger one. -/
theorem raiseRssi_rssi {blk : RbufBlock} {dbm : Int} (hs : Signal dbm) (f : Nat) {g : Nat} (hmin : dbmMin ≤ blk.rssi g) :
    (raiseRssi blk f dbm).rssi g = if f = g ∧ dbm ≠ dbmInval then max (blk.rssi g) dbm else blk.rssi g := by
  by_cases e : f = g
  · subst e
    rcases hs with ⟨h1, h2⟩ | rfl
    · have hvalid : dbm ≠ dbmInval := by
        unfold dbmMin at h1
        unfold dbmInval
        omega
      rw [if_pos ⟨rfl, hvalid⟩]
      unfold raiseRssi
      split
      · rename_i hlt
        show Function.update blk.rssi f (int8OfInt16 dbm) f = _
        rw [Function.update_self, int8OfInt16_eq h1 h2, max_eq_right hlt.le]
      · rename_i hge
        rw [max_eq_left (not_lt.mp hge)]
    · -- the sentinel is below every rssi value
      have hge : ¬ blk.rssi f < dbmInval := by
        unfold dbmMin at hmin
        unfold dbmInval
        omega
      rw [if_neg fun h => h.2 rfl]
      unfold raiseRssi
      rw [if_neg hge]
  · rw [if_neg fun h => e h.1]
    unfold raiseRssi
    split
    · exact Function.update_of_ne (Ne.symm e) ..
    · rfl

/-! ## The ring -/

/-- Live blocks are of different indices, none behind `last_block`, and their rssi values
    are the strongest receptions. -/
structure Tuned (H : List Reception) (r : Rbuf) : Prop where
  distinct : ∀ s t, r.live s → r.live t → (r.blocks s).index = (r.blocks t).index → s = t
  last : ∀ s, r.live s → r.lastBlock ≠ blockInval ∧ (r.blocks s).index ≤ r.lastBlock
  past : ∀ p ∈ H, r.lastBlock ≠ blockInval ∧ p.block ≤ r.lastBlock
  rssi : ∀ s, r.live s → ∀ f, (r.blocks s).rssi f = strongest H (r.blocks s).index f

/-- Blocks that stay live keep their index and rssi values. -/
theorem Tuned.congr {H : List Reception} {r r' : Rbuf} (h : Tuned H r) (hl : r'.lastBlock = r.lastBlock)
    (hs : ∀ s, r'.live s → (r'.blocks s).index = (r.blocks s).index ∧ (r'.blocks s).rssi = (r.blocks s).rssi) : Tuned H r' := by
  have hlive : ∀ s, r'.live s → r.live s := by
    intro s hl'
    show (r.blocks s).index ≠ blockInval
    rw [← (hs s hl').1]
    exact hl'
  refine ⟨?_, ?_, ?_, ?_⟩
  · intro s t h1 h2 he
    rw [(hs s h1).1, (hs t h2).1] at he
    exact h.distinct s t (hlive s h1) (hlive t h2) he
  · intro s h1
    rw [hl, (hs s h1).1]
    exact h.last s (hlive s h1)
  · rw [hl]
    exact h.past
  · intro s h1 f
    rw [(hs s h1).1, (hs s h1).2]
    exact h.rssi s (hlive s h1) f

/-- The slots once the blocks up to `b` are allocated: as they were, or cleared for a block
    behind all others, each for its own. -/
theorem allocBlocks_renews {r : Rbuf} {b : Nat} (hb : b ≤ maxBlockIdx) (hl : r.lastBlock = blockInval ∨ r.lastBlock < b)
    (hv : ¬ Vanishes r b) (idx : Nat) : ∃ slot : Nat → Nat, ∀ s, (allocBlocks r b idx).1.blocks s = r.blocks s ∨
      ∃ c, slot c = s ∧ c ≤ b ∧ (r.lastBlock ≠ blockInval → r.lastBlock < c) ∧
        (allocBlocks r b idx).1.blocks s = (r.blocks s).renew c := by
  obtain ⟨hpos, hle⟩ := newBlocks_pos hb hl hv
  have hfar : r.lastBlock ≠ blockInval → r.lastBlock < b ∧ newBlocks r b ≤ b - r.lastBlock := fun h0 =>
    have hlt := hl.resolve_left h0
    ⟨hlt, newBlocks_le h0 hlt hv⟩
  unfold allocBlocks
  obtain ⟨slot, hslot⟩ := allocLoop_renews (u64 (b + 2 ^ 64 - newBlocks r b + 1)) (newBlocks r b) 0 idx r
  -- pass `j` takes block `b - n + 1 + j`
  have hc : ∀ j < newBlocks r b, u64 (u64 (b + 2 ^ 64 - newBlocks r b + 1) + j) + newBlocks r b = b + 1 + j := by
    unfold maxBlockIdx at hb
    intro j hj
    unfold u64
    omega
  refine ⟨fun c => slot (c + newBlocks r b - (b + 1)), fun s => ?_⟩
  rcases hslot s with h | ⟨j, -, hj, hs, h⟩
  · exact .inl h
  · have hcj := hc j (by omega)
    generalize u64 (u64 (b + 2 ^ 64 - newBlocks r b + 1) + j) = c at h hcj
    refine .inr ⟨c, ?_, by omega, fun h0 => ?_, h⟩
    · show slot (c + newBlocks r b - (b + 1)) = s
      rw [hcj, Nat.add_sub_cancel_left]
      exact hs
    · have := hfar h0
      omega

/-- A new block has had no receptions. -/
theorem Tuned.alloc {H : List Reception} {r : Rbuf} {b : Nat} (h : Tuned H r) (hb : b ≤ maxBlockIdx)
    (hl : r.lastBlock = blockInval ∨ r.lastBlock < b) (hv : ¬ Vanishes r b) (idx : Nat) :
    Tuned H { (allocBlocks r b idx).1 with lastBlock := b } := by
  obtain ⟨slot, hslot⟩ := allocBlocks_renews hb hl hv idx
  have hbinv : b ≠ blockInval := maxBlockIdx_ne hb
  have hold : ∀ s, r.live s → r.lastBlock ≠ blockInval ∧ (r.blocks s).index ≤ r.lastBlock := h.last
  refine ⟨?_, ?_, ?_, ?_⟩
  · intro s t h1 h2 he
    change ((allocBlocks r b idx).1.blocks s).index ≠ blockInval at h1
    change ((allocBlocks r b idx).1.blocks t).index ≠ blockInval at h2
    change ((allocBlocks r b idx).1.blocks s).index = ((allocBlocks r b idx).1.blocks t).index at he
    rcases hslot s with e1 | ⟨c, hc, -, hlt, e1⟩
    · rw [e1] at h1 he
      rcases hslot t with e2 | ⟨d, -, -, hlt, e2⟩
      · rw [e2] at h2 he
        exact h.distinct s t h1 h2 he
      · rw [e2] at he
        obtain ⟨h0, hle⟩ := hold s h1
        rw [he] at hle
        exact absurd (hlt h0) (Nat.not_lt.mpr hle)
    · rw [e1] at he
      rcases hslot t with e2 | ⟨d, hd, -, -, e2⟩
      · rw [e2] at h2 he
        obtain ⟨h0, hle⟩ := hold t h2
        rw [← he] at hle
        exact absurd (hlt h0) (Nat.not_lt.mpr hle)
      · rw [e2] at he
        have hcd : c = d := he
        rw [← hc, ← hd, hcd]
  · intro s h1
    change ((allocBlocks r b idx).1.blocks s).index ≠ blockInval at h1
    refine ⟨hbinv, ?_⟩
    show ((allocBlocks r b idx).1.blocks s).index ≤ b
    rcases hslot s with e | ⟨c, -, hle, -, e⟩
    · rw [e] at h1 ⊢
      obtain ⟨h0, hle⟩ := hold s h1
      have := hl.resolve_left h0
      omega
    · rw [e]
      exact hle
  · intro p hp
    obtain ⟨h0, hle⟩ := h.past p hp
    have := hl.resolve_left h0
    exact ⟨hbinv, by show p.block ≤ b; omega⟩
  · intro s h1 f
    change ((allocBlocks r b idx).1.blocks s).index ≠ blockInval at h1
    show ((allocBlocks r b idx).1.blocks s).rssi f = strongest H ((allocBlocks r b idx).1.blocks s).index f
    rcases hslot s with e | ⟨c, -, -, hlt, e⟩
    · rw [e] at h1 ⊢
      exact h.rssi s h1 f
    · rw [e]
      have hnone : ∀ p ∈ H, p.block ≠ c := by
        intro p hp hpc
        obtain ⟨h0, hle⟩ := h.past p hp
        exact absurd (hlt h0) (Nat.not_lt.mpr (hpc ▸ hle))
      rw [show ((r.blocks s).renew c).index = c from rfl, strongest_none hnone]
      rfl

theorem Tuned.getBlock {H : List Reception} {r r1 : Rbuf} {b : Nat} {blk : Option Nat} {evs : List RingEv} (h : Tuned H r)
    (hb : b ≤ maxBlockIdx) (hv : ¬ Vanishes r b) (hg : rbufGetBlock r b = .ok (r1, blk, evs)) : Tuned H r1 := by
  cases hs : (search r b (span r) 0 0).1 with
  | some t =>
    rw [rbufGetBlock_hit hs] at hg
    cases hg
    exact h
  | none =>
    by_cases ha : intMax < r.ringAlloc
    · rw [rbufGetBlock_overflow hs ha] at hg
      cases hg
    by_cases hl : r.lastBlock ≠ blockInval ∧ b ≤ r.lastBlock
    · rw [rbufGetBlock_stale hs (Nat.not_lt.mp ha) hl.1 hl.2] at hg
      cases hg
      exact h
    · have hl' : r.lastBlock = blockInval ∨ r.lastBlock < b := by
        by_cases e : r.lastBlock = blockInval
        · exact .inl e
        · exact .inr (Nat.lt_of_not_le fun hle => hl ⟨e, hle⟩)
      rw [rbufGetBlock_new hs (Nat.not_lt.mp ha) hl'] at hg
      cases hg
      exact h.alloc hb hl' hv _

/-- A reception of a live block raises that block's rssi, and no other's. -/
theorem Tuned.raise {H : List Reception} {r : Rbuf} {s : Nat} {dbm : Int} (h : Tuned H r)
    (hs : Signal dbm) (hl : r.live s) (f : Nat) :
    Tuned (H ++ [⟨(r.blocks s).index, f, dbm⟩]) (r.setBlock s (raiseRssi (r.blocks s) f dbm)) := by
  have hidx : ∀ t, ((r.setBlock s (raiseRssi (r.blocks s) f dbm)).blocks t).index = (r.blocks t).index := by
    intro t
    by_cases e : t = s
    · rw [e, setBlock_same, raiseRssi_index]
    · rw [setBlock_ne r _ e]
  have hlive : ∀ t, (r.setBlock s (raiseRssi (r.blocks s) f dbm)).live t → r.live t := by
    intro t ht
    show (r.blocks t).index ≠ blockInval
    rw [← hidx]
    exact ht
  refine ⟨?_, ?_, ?_, ?_⟩
  · intro t u h1 h2 he
    rw [hidx, hidx] at he
    exact h.distinct t u (hlive t h1) (hlive u h2) he
  · intro t h1
    rw [hidx]
    exact h.last t (hlive t h1)
  · intro p hp
    rcases List.mem_append.mp hp with hp | hp
    · exact h.past p hp
    · rw [List.mem_singleton.mp hp]
      exact h.last s hl
  · intro t h1 g
    have hold := h.rssi t (hlive t h1) g
    rw [hidx, strongest_snoc]
    by_cases e : t = s
    · subst e
      have hmin : dbmMin ≤ (r.blocks t).rssi g := by
        rw [hold]
        exact dbmMin_le_strongest ..
      rw [setBlock_same, raiseRssi_rssi hs f hmin, hold]
      by_cases hc : f = g ∧ dbm ≠ dbmInval
      · rw [if_pos hc, if_pos ⟨rfl, hc⟩]
      · rw [if_neg hc, if_neg fun h => hc h.2]
    · rw [setBlock_ne r _ e, hold, if_neg]
      intro hc
      exact e (h.distinct s t hl (hlive t h1) hc.1).symm

/-- A change of other fields of a slot. -/
theorem Tuned.rewrite {H : List Reception} {r : Rbuf} {s : Nat} {blk blk' : RbufBlock} (h : Tuned H (r.setBlock s blk))
    (hi : blk'.index = blk.index) (hr : blk'.rssi = blk.rssi) : Tuned H (r.setBlock s blk') := by
  have hlast : (r.setBlock s blk').lastBlock = (r.setBlock s blk).lastBlock := rfl
  apply h.congr hlast
  intro t _
  by_cases e : t = s
  · rw [e, setBlock_same, setBlock_same]
    exact ⟨hi, hr⟩
  · rw [setBlock_ne r _ e, setBlock_ne r _ e]
    exact ⟨rfl, rfl⟩

variable {x : Externals} {ctx : RxContext}

theorem Tuned.add {H : List Reception} {r r' : Rbuf} {s : Nat} {evs : List Ev} (h : Tuned H r)
    (hd : dataAdd x ctx r s = .ok (r', evs)) : Tuned H r' := by
  obtain ⟨hslot, hothers, -⟩ := dataAdd_slot hd
  apply h.congr (dataAdd_lastBlock hd)
  intro t hl
  by_cases e : t = s
  · subst e
    cases hslot with
    | waits _ _ hb _ =>
      rw [hb]
      exact ⟨rfl, rfl⟩
    | done _ hdead _ => exact absurd hdead hl
  · rcases hothers t e with he | hdead
    · rw [he]
      exact ⟨rfl, rfl⟩
    · exact absurd hdead hl

/-- The ring once `rbuf_get_block` has a slot and the rssi there is raised. -/
theorem Tuned.heard {H : List Reception} {r r1 : Rbuf} {s : Nat} {evs : List RingEv} (h : Tuned H r) (ha : Admitted ctx r)
    (hv : ¬ Vanishes r ctx.wfb.blockIdx) (hs : Signal ctx.dbm) (hg : rbufGetBlock r ctx.wfb.blockIdx = .ok (r1, some s, evs)) :
    Tuned (H ++ [⟨ctx.wfb.blockIdx, ctx.wfb.fragmentIdx, ctx.dbm⟩])
      (r1.setBlock s (raiseRssi (r1.blocks s) ctx.wfb.fragmentIdx ctx.dbm)) := by
  have hidx := getBlock_index ha.blockIdx hv hg
  have hlive : r1.live s := by
    show (r1.blocks s).index ≠ blockInval
    rw [hidx]
    exact maxBlockIdx_ne ha.blockIdx
  rw [← hidx]
  exact (h.getBlock ha.blockIdx hv hg).raise hs hlive _

/-! ## What is handed over -/

theorem deliver_decode {blk : RbufBlock} {hd b f : Nat} {rssi : Int} {data : Bytes}
    (h : .decode hd b f rssi data ∈ deliver ctx blk) :
    b = blk.index ∧ f = blk.fragmentToSend ∧ rssi = blk.rssi blk.fragmentToSend := by
  unfold deliver at h
  dsimp only at h
  split at h
  · cases h
  · split at h
    · cases List.mem_singleton.mp h
    · rcases List.mem_append.mp h with h | h
      · split at h
        · cases List.mem_singleton.mp h
        · obtain ⟨a, -, he⟩ := List.mem_map.mp h
          cases he
          exact ⟨rfl, rfl, rfl⟩
      · cases List.mem_singleton.mp h

/-- What is sent is a block of the ring, or of a slot that is freed. -/
def SendCall.Of (r : Rbuf) (c : SendCall) : Prop :=
  c.blk.index = blockInval ∨ ∃ s, c.blk.index = (r.blocks s).index ∧ c.blk.rssi = (r.blocks s).rssi

theorem anyCalls_of {r : Rbuf} {s : Nat} {blk : RbufBlock} {stale recovered : Bool} {pktsiz : Option Nat}
    (hi : blk.index = (r.blocks s).index) (hr : blk.rssi = (r.blocks s).rssi) :
    ∀ c ∈ anyCalls ctx blk stale recovered pktsiz, c.Of r := by
  intro c hc
  obtain ⟨i, -, rfl⟩ := List.mem_map.mp hc
  exact .inr ⟨s, hi, hr⟩

theorem purgeCalls_of {slot n : Nat} {r : Rbuf} : ∀ c ∈ purgeCalls ctx slot n r, c.Of r := by
  induction n generalizing r with
  | zero => exact fun c hc => absurd hc List.not_mem_nil
  | succ n ih =>
    intro c hc
    unfold purgeCalls at hc
    split at hc
    · exact absurd hc List.not_mem_nil
    · rename_i hne
      obtain ⟨hsame, hothers⟩ := @flush_others ctx r slot r.ringFront hne
      rcases List.mem_append.mp hc with hc | hc
      · exact anyCalls_of rfl rfl c hc
      · rcases ih c hc with h | ⟨s, hi, hr⟩
        · exact .inl h
        · by_cases e : s = slot
          · rw [e, hsame] at hi hr
            exact .inr ⟨slot, hi, hr⟩
          · rcases hothers s e with h | h
            · rw [h] at hi hr
              exact .inr ⟨s, hi, hr⟩
            · exact .inl (hi.trans h)

theorem fecCalls_of {r r0 : Rbuf} {slot : Nat} (hi : (r.blocks slot).index = (r0.blocks slot).index)
    (hr : (r.blocks slot).rssi = (r0.blocks slot).rssi) : ∀ c ∈ fecCalls x ctx r slot, c.Of r0 := by
  intro c hc
  unfold fecCalls at hc
  split at hc
  · split at hc
    · exact absurd hc List.not_mem_nil
    · rename_i p hp
      obtain ⟨blk, hrecov, hset⟩ := recoverMissing_cases hp
      obtain ⟨hki, -, -, -, hkr⟩ := hrecov.keeps
      rw [hset, setBlock_same] at hc
      exact anyCalls_of (hki.trans hi) (hkr.trans hr) c hc
  · exact absurd hc List.not_mem_nil

theorem addCalls_of {r : Rbuf} {slot : Nat} : ∀ c ∈ addCalls x ctx r slot, c.Of r := by
  intro c hc
  unfold addCalls at hc
  split at hc
  · rcases List.mem_append.mp hc with hc | hc
    · exact anyCalls_of rfl rfl c hc
    · obtain ⟨⟨q, hq⟩, -⟩ := sendDataAny_eq ctx r slot false false
      change (sendDataSeq ctx r slot).1 = _ at hq
      rw [hq] at hc
      apply fecCalls_of _ _ c hc
      · rw [sentTo_same]
      · rw [sentTo_same]
  · split at hc
    · exact absurd hc List.not_mem_nil
    · rename_i p hp
      rcases List.mem_append.mp hc with hc | hc
      · exact purgeCalls_of c hc
      · obtain ⟨p', hl, he⟩ := Machine.bind_ok_iff.mp hp
        cases he
        have hsame := (purgeLoop_others hl).1
        apply fecCalls_of _ _ c hc
        · rw [hsame]
        · rw [hsame]

/-! ## Freed slots -/

/-- A freed slot has nothing left to send. -/
structure Spent (k : Nat) (blk : RbufBlock) : Prop where
  toSend : blk.fragmentToSend ≤ k
  freed : blk.index = blockInval → blk.fragmentToSend = k ∨ ∀ f, blk.fragmentLen f = 0

def Addressed : Ev → Prop
  | .decode _ b _ _ _ => b ≠ blockInval
  | _ => True

theorem handOver_addressed {blk : RbufBlock} (h : blk.index ≠ blockInval) (i : Nat) : ∀ e ∈ handOver ctx blk i, Addressed e := by
  intro e he
  cases e with
  | decode hd b f rssi data =>
    unfold handOver at he
    rcases List.mem_cons.mp he with he | he
    · cases he
    · obtain ⟨hm, -⟩ := mem_effects.mp he
      show b ≠ blockInval
      rw [(deliver_decode hm).1]
      exact h
  | _ => trivial

theorem addressed_other (e : Ev) (ho : e.isOutput = false) : Addressed e := by
  cases e with
  | decode _ _ _ _ _ => cases ho
  | _ => trivial

theorem spentRules (x : Externals) (ctx : RxContext) (nof : Nat) : SlotRules x ctx nof (Spent ctx.fecK) Addressed where
  toSend := fun _ h => h.toSend
  send := by
    intro blk h
    have hb := (sendPlan_spec blk.fragmentLen false false (ctx.fecK - blk.fragmentToSend) blk.fragmentToSend).bounds
    have ht := h.toSend
    constructor
    · show (sendPlan _ _ _ _ _).2 ≤ _
      omega
    · intro hi
      rcases h.freed hi with h1 | h1
      · left
        show (sendPlan _ _ _ _ _).2 = _
        omega
      · exact .inr h1
  handed := by
    intro blk i h hle hi hl
    apply handOver_addressed
    intro hinv
    rcases h.freed hinv with h1 | h1
    · omega
    · exact absurd (h1 i) (Nat.ne_of_gt hl)
  flush := fun _ _ => ⟨le_refl _, fun _ => .inl rfl⟩
  recovered := by
    intro blk blk' evs h hready hrec
    refine ⟨⟨le_refl _, fun _ => .inl rfl⟩, ?_, fun i _ _ => ?_⟩
    · intro e he
      cases hrec with
      | complete _ => cases he
      | decoded _ _ _ =>
        rw [effects_msg, effects_cons rfl, effects_nil, List.mem_singleton] at he
        rw [he]
        trivial
    · apply handOver_addressed
      rw [hrec.keeps.1]
      intro hinv
      rcases h.freed hinv with h1 | h1
      · exact absurd hready.1 (by omega)
      · exact hrec.not_empty hready h1
  renew := fun _ _ _ => ⟨Nat.zero_le _, fun _ => .inr fun _ => rfl⟩
  rssi := by
    intro blk f dbm h
    exact ⟨by rw [raiseRssi_toSend]; exact h.toSend, by rw [raiseRssi_index, raiseRssi_toSend, raiseRssi_len]; exact h.freed⟩
  leftover := fun _ _ _ h _ => ⟨h.toSend, h.freed⟩
  other := fun e ho _ => addressed_other e ho

/-! ## Steps -/

theorem reception?_none {i : Input} (h : ∀ p, p ∉ asked? ctx i) : reception? ctx i = none := by
  have hnone : asked? ctx i = none := Option.eq_none_iff_forall_not_mem.mpr h
  cases i with
  | fecToggle => rfl
  | frame f =>
    simp [reception?, hnone]

theorem reception?_found {f : RxFrame} {w : WfbContext} {r r1 : Rbuf} {blk : Option Nat} {evs : List RingEv}
    (hp : wfbFrameParse f.data f.size = .ok w) (ht : w.packetType = wfbPacketData) (ha : Admitted (withFrame ctx f w) r)
    (hg : rbufGetBlock r w.blockIdx = .ok (r1, blk, evs)) :
    reception? ctx (.frame f) = blk.map fun _ => ⟨w.blockIdx, w.fragmentIdx, f.dbm⟩ := by
  simp only [reception?, dataHdr?_some hp ht, asked?_data hp ht ha, hg]
  cases blk <;> rfl

/-- The session's invariant, after the receptions `H`. -/
structure TunedInv (H : List Reception) (ctx : RxContext) : Prop where
  session : SessionInv ctx
  ring : ∀ r, ctx.rxRing = some r → Tuned H r
  slots : ∀ r, ctx.rxRing = some r → ∀ s, Spent ctx.fecK (r.blocks s)

theorem TunedInv.idle {H : List Reception} (h : TunedInv H ctx) (w : WfbContext) (freq : Nat) (dbm : Int) (noFec : Bool) :
    TunedInv H { ctx with wfb := w, freq := freq, dbm := dbm, noFec := noFec } :=
    ⟨h.session.idle w freq dbm noFec, h.ring, h.slots⟩

theorem Opened.tuned (h : Opened x ctx) : TunedInv [] ctx := by
  obtain ⟨ctx0, plain, r, -, hc, hst⟩ := h
  have hinv := hst.inv hc
  obtain ⟨rfl, heap, hpos, hint, rfl⟩ := hst
  refine ⟨hinv, ?_, ?_⟩
  · intro r' hr'
    cases hr'
    -- no slot holds a block
    exact ⟨fun s _ hl => absurd rfl hl, fun s hl => absurd rfl hl, fun p hp => absurd hp List.not_mem_nil,
      fun s hl => absurd rfl hl⟩
  · intro r' hr' s
    cases hr'
    exact ⟨Nat.zero_le _, fun _ => .inr fun _ => rfl⟩

/-- A DATA frame and its reception. -/
theorem TunedInv.data {H : List Reception} {f : RxFrame} {w : WfbContext} {q : Ret} (h : TunedInv H ctx)
    (hp : wfbFrameParse f.data f.size = .ok w) (ht : w.packetType = wfbPacketData) (hs : Signal f.dbm)
    (hv : NoWrap ctx (.frame f)) (hd : DataCall x (withFrame ctx f w) q) :
    TunedInv (H ++ (reception? ctx (.frame f)).toList) q.ctx ∧ ∀ e ∈ q.evs, Addressed e := by
  have hi : TunedInv H (withFrame ctx f w) := h.idle w f.freq f.dbm ctx.noFec
  obtain ⟨r, hr, -⟩ := hi.session.ok.ring
  obtain ⟨r', hr', hgood, -⟩ := hd.slots hr (spentRules x _ _) (hi.slots r hr) fun ha => by
    refine ⟨trivial, fun r1 slot evs plain hg h1 _ _ _ => ⟨⟨h1.toSend, fun hinv => ?_⟩, trivial⟩⟩
    have hidx := getBlock_index ha.blockIdx (hv _ (asked?_data hp ht ha)) hg
    change (raiseRssi (r1.blocks slot) w.fragmentIdx f.dbm).index = blockInval at hinv
    rw [raiseRssi_index, hidx] at hinv
    exact absurd hinv (maxBlockIdx_ne ha.blockIdx)
  have hsession := (hd.inv hi.session).1
  have hslots : ∀ r, q.ctx.rxRing = some r → ∀ s, Spent q.ctx.fecK (r.blocks s) := by
    intro r2 hr2 s
    obtain ⟨ring, key, he, -⟩ := hd.ctx_eq
    cases hr'.symm.trans hr2
    rw [he]
    exact hgood.1 s
  refine ⟨⟨hsession, ?_, hslots⟩, hgood.2⟩
  clear hsession hslots hgood hr'
  cases hd with
  | refused hno _ =>
    rw [reception?_none fun p hpm => ?_]
    · intro r2 hr2
      rw [Option.toList_none, List.append_nil]
      exact hi.ring r2 hr2
    · obtain ⟨f', w', hf, hp', -, -, ha⟩ := asked?_some hpm
      cases hf
      cases hp.symm.trans hp'
      exact hno _ ha
  | outside ha hg =>
    rw [reception?_found hp ht ha hg, Option.map_none, Option.toList_none, List.append_nil]
    intro r2 hr2
    cases hr2
    exact (hi.ring _ ha.ring).getBlock ha.blockIdx (hv _ (asked?_data hp ht ha)) hg
  | @filed r0 r1 slot _ _ ha hg hf =>
    rw [reception?_found hp ht ha hg]
    have hheard := (hi.ring _ ha.ring).heard ha (hv _ (asked?_data hp ht ha)) hs hg
    intro r2 hr2
    cases hf with
    | duplicate _ =>
      cases hr2
      exact hheard
    | forged _ _ =>
      cases hr2
      exact hheard.rewrite rfl rfl
    | @stored plain _ _ _ _ _ hadd =>
      cases hr2
      have hfiled : Tuned _ (r1.setBlock slot (filedBlock (withFrame ctx f w) r1 slot plain)) := hheard.rewrite rfl rfl
      exact hfiled.add hadd

/-- What a decode handler is told of a fragment. -/
theorem TunedInv.decoded {H : List Reception} {i : Input} {ctx' : RxContext} {evs : List Ev} (h : TunedInv H ctx)
    (hs : ∀ f, i = .frame f → Signal f.dbm) (hv : NoWrap ctx i) (hst : rxStep x ctx i = .ok (ctx', evs))
    {hd b f : Nat} {rssi : Int}
    {data : Bytes} (hm : .decode hd b f rssi data ∈ evs) (hb : b ≠ blockInval) :
    rssi = strongest (H ++ (reception? ctx i).toList) b f := by
  have hdel : Ev.decode hd b f rssi data ∈ deliveries evs := List.mem_filter.mpr ⟨hm, rfl⟩
  rw [rxStep_deliveries hst] at hdel
  obtain ⟨c, hc, hmc⟩ := List.mem_flatMap.mp hdel
  obtain ⟨hmc, -⟩ := List.mem_filter.mp hmc
  obtain ⟨rfl, rfl, rfl⟩ := deliver_decode hmc
  unfold stepCalls at hc
  split at hc
  · exact absurd hc List.not_mem_nil
  · rename_i q hq
    obtain ⟨fr, w, r, revs, rfl, hp, ht, ha, hctx, hg, -, -, -⟩ := filed?_some hq
    have hheard : Tuned (H ++ (reception? ctx (.frame fr)).toList) (q.ring.setBlock q.slot q.block) := by
      rw [reception?_found hp ht ha hg]
      have hring : ctx.rxRing = some r := ha.ring
      have hraised := (h.ring r hring).heard ha (hv _ (asked?_data hp ht ha)) (hs fr rfl) hg
      unfold Filed.block filedBlock
      rw [hctx]
      exact hraised.rewrite rfl rfl
    rcases addCalls_of c hc with hinv | ⟨s, hi, hr⟩
    · exact absurd hinv hb
    · rw [hr, hi]
      apply hheard.rssi
      show _ ≠ blockInval
      rw [← hi]
      exact hb

variable {lib : RadiotapLib}

theorem Audible.signal {i : Input} (h : Audible x lib ctx i) (f : RxFrame) (hf : i = .frame f) : Signal f.dbm :=
  (h.measured f hf).signal

theorem quiet_addressed {evs : List Ev} (h : Quiet evs) : ∀ e ∈ evs, Addressed e := by
  intro e he
  exact addressed_other e (quiet_msg h he).1

/-- An input of the session keeps the rssi values right, or ends the session. -/
theorem TunedInv.step {H : List Reception} {i : Input} {ctx' : RxContext} {evs : List Ev} (h : TunedInv H ctx)
    (hg : Tunable x lib ctx i) (hs : rxStep x ctx i = .ok (ctx', evs)) :
    TunedInv (H ++ (reception? ctx i).toList) ctx' ∧ ∀ e ∈ evs, Addressed e := by
  have hunasked : (∀ f w, i = .frame f → wfbFrameParse f.data f.size = .ok w → w.packetType ≠ wfbPacketData) →
      H ++ (reception? ctx i).toList = H := by
    intro hno
    rw [reception?_none fun p hpm => ?_, Option.toList_none, List.append_nil]
    obtain ⟨f, w, hf, hp, ht, -⟩ := asked?_some hpm
    exact hno f w hf hp ht
  cases rxStep_cases hs with
  | toggle hq =>
    rw [hunasked fun _ _ hf => nomatch hf]
    exact ⟨h.idle ctx.wfb ctx.freq ctx.dbm _, quiet_addressed hq⟩
  | @unparsed f _ _ hp hq =>
    rw [hunasked fun f' w hf hp' => ?_]
    · exact ⟨h.idle ctx.wfb f.freq f.dbm ctx.noFec, quiet_addressed hq⟩
    · cases hf
      rw [hp] at hp'
      cases hp'
  | @session f w q hp ht hx =>
    obtain ⟨he, hq⟩ := rxSession_keeps hp ht hg.within hx
    rw [he, hunasked fun f' w' hf hp' => ?_]
    · exact ⟨h.idle w f.freq f.dbm ctx.noFec, quiet_addressed hq⟩
    · cases hf
      cases hp.symm.trans hp'
      rw [ht]
      decide
  | @data f w q hp ht hd => exact h.data hp ht (hg.signal f rfl) hg.noWrap hd

/-! ## Runs -/

variable {ctx0 : RxContext} {G : RxContext → Input → Prop} {is : List Input} {tr : List Ev}

theorem listen_run (h : Machine.Run (rxStep x) G ctx0 is ctx tr) :
    is.foldl (listen x) (ctx0, []) = (ctx, receptions x ctx0 is) := by
  induction h with
  | nil => rfl
  | snoc _ _ hst ih =>
    unfold receptions
    simp only [List.foldl_append, List.foldl_cons, List.foldl_nil, ih, listen, hst]

theorem receptions_snoc (h : Machine.Run (rxStep x) G ctx0 is ctx tr) {i : Input} {ctx' : RxContext} {evs : List Ev}
    (hs : rxStep x ctx i = .ok (ctx', evs)) :
    receptions x ctx0 (is ++ [i]) = receptions x ctx0 is ++ (reception? ctx i).toList := by
  have hlast : receptions x ctx0 (is ++ [i]) = (listen x (is.foldl (listen x) (ctx0, [])) i).2 := by
    unfold receptions
    rw [List.foldl_append]
    rfl
  rw [hlast, listen_run h]
  simp only [listen, hs]

theorem tuned_run (h0 : Opened x ctx0) (h : Machine.Run (rxStep x) (Tunable x lib) ctx0 is ctx tr) :
    TunedInv (receptions x ctx0 is) ctx := by
  induction h with
  | nil => exact h0.tuned
  | snoc hr hg hst ih =>
    rw [receptions_snoc hr hst]
    exact (ih.step hg hst).1

theorem reception?_signal {i : Input} (hg : Audible x lib ctx i) : ∀ p ∈ reception? ctx i, Signal p.dbm := by
  intro p hp
  cases i with
  | fecToggle => cases hp
  | frame f =>
    unfold reception? at hp
    dsimp only at hp
    split at hp
    · split at hp
      · cases hp
        exact hg.signal f rfl
      · cases hp
    · cases hp

theorem receptions_signal (h : Machine.Run (rxStep x) (Audible x lib) ctx0 is ctx tr) :
    ∀ p ∈ receptions x ctx0 is, Signal p.dbm := by
  induction h with
  | nil => exact fun p hp => absurd hp List.not_mem_nil
  | snoc hr hg hst ih =>
    rw [receptions_snoc hr hst]
    intro p hp
    rcases List.mem_append.mp hp with hp | hp
    · exact ih p hp
    · exact reception?_signal hg p (Option.mem_toList.mp hp)

/-- What a decode handler is told is the strongest reception of exactly that fragment, the
    frame at hand included, and all of them fit a signed byte or are invalid. -/
theorem best_reception (h0 : Opened x ctx0) (h : Machine.Run (rxStep x) (Tunable x lib) ctx0 is ctx tr) {i : Input}
    (hg : Tunable x lib ctx i) {ctx' : RxContext} {evs : List Ev} (hs : rxStep x ctx i = .ok (ctx', evs)) :
    (∀ p ∈ receptions x ctx0 (is ++ [i]), Signal p.dbm) ∧ ∀ hd b f rssi data, .decode hd b f rssi data ∈ evs →
      rssi = strongest (receptions x ctx0 (is ++ [i])) b f := by
  have hinv := tuned_run h0 h
  constructor
  · have hrun : Machine.Run (rxStep x) (Tunable x lib) ctx0 (is ++ [i]) ctx' (tr ++ evs) := .snoc h hg hs
    exact receptions_signal (hrun.mono fun _ _ hg => hg.toAudible)
  · intro hd b f rssi data hm
    rw [receptions_snoc h hs]
    exact hinv.decoded hg.signal hg.noWrap hs hm ((hinv.step hg hs).2 _ hm)

/-- The input a sender's fragment makes, at a given strength. -/
def Sender.inputAt (S : Sender) (b f : Nat) (dbm : Int) : Input := .frame (dataFrame b f (S.plain someKey b f) dbm)

/-- A strength a header can say. -/
def Input.fits : Input → Bool
  | .fecToggle => true
  | .frame f => decide (dbmMin ≤ f.dbm ∧ f.dbm ≤ dbmMax)

theorem audible_of_fits {i : Input} (hw : Within x ctx i) (hf : i.fits = true) : Audible x lib ctx i := by
  refine ⟨hw, fun f he => ?_⟩
  subst he
  obtain ⟨h1, h2⟩ := of_decide_eq_true hf
  exact measured_of_fits lib h1 h2

/-- Fragment 1 of block 0 at -60 dBm and, from another receiver, at -40 dBm. -/
theorem best_reception_run : ∃ ctx0 ctx tr ctx' evs, Opened (numbered 2 2).externals ctx0 ∧
    Machine.Run (rxStep (numbered 2 2).externals) (Tunable (numbered 2 2).externals basicIterator) ctx0
      [(numbered 2 2).inputAt 0 1 (-60), (numbered 2 2).inputAt 0 1 (-40)] ctx tr ∧
    rxStep (numbered 2 2).externals ctx ((numbered 2 2).inputAt 0 0 (-50)) = .ok (ctx', evs) ∧
      .decode 0 0 1 (-40) (number 2 0 1) ∈ evs ∧
      ((∀ p ∈ receptions (numbered 2 2).externals ctx0 ([(numbered 2 2).inputAt 0 1 (-60), (numbered 2 2).inputAt 0 1 (-40)] ++
          [(numbered 2 2).inputAt 0 0 (-50)]), Signal p.dbm) ∧
        ∀ hd b f rssi data, .decode hd b f rssi data ∈ evs → rssi = strongest (receptions (numbered 2 2).externals ctx0
          ([(numbered 2 2).inputAt 0 1 (-60), (numbered 2 2).inputAt 0 1 (-40)] ++ [(numbered 2 2).inputAt 0 0 (-50)])) b f) := by
  obtain ⟨ctx0, ctx, tr, h0, hrun, hq⟩ := (numbered 2 2).exists_session
    (fun ctx i => (Within (numbered 2 2).externals ctx i ∧ i.fits = true) ∧ NoWrap ctx i)
    [(numbered 2 2).inputAt 0 1 (-60), (numbered 2 2).inputAt 0 1 (-40)]
    (fun _ p => decide ((Within (numbered 2 2).externals p.1 ((numbered 2 2).inputAt 0 0 (-50)) ∧
        ((numbered 2 2).inputAt 0 0 (-50)).fits = true) ∧ NoWrap p.1 ((numbered 2 2).inputAt 0 0 (-50))) &&
      Machine.returns (rxStep (numbered 2 2).externals p.1 ((numbered 2 2).inputAt 0 0 (-50))) fun q =>
        decide (Ev.decode 0 0 1 (-40) (number 2 0 1) ∈ q.2)) (by decide +kernel)
  rw [Bool.and_eq_true, decide_eq_true_eq, Machine.returns_iff] at hq
  obtain ⟨⟨⟨hw, hf⟩, hv⟩, p, hs, hm⟩ := hq
  have hrun' := hrun.mono fun ctx i hg => (⟨audible_of_fits hg.1.1 hg.1.2, hg.2⟩ : Tunable _ basicIterator ctx i)
  exact ⟨ctx0, ctx, tr, p.1, p.2, h0, hrun', hs, of_decide_eq_true hm,
    best_reception h0 hrun' ⟨audible_of_fits hw hf, hv⟩ hs⟩

/-- Fragment 1 of block `2 ^ 32` at -40 dBm finds the slot of block 0, and raises the rssi of
    that block's fragment 1, which came at -60 dBm. -/
theorem wrap_raises_other : ¬ ∀ (x : Externals) (lib : RadiotapLib) (ctx0 ctx : RxContext) (is : List Input) (tr : List Ev)
    (i : Input) (ctx' : RxContext) (evs : List Ev), Opened x ctx0 → Machine.Run (rxStep x) (Audible x lib) ctx0 is ctx tr →
      Audible x lib ctx i → rxStep x ctx i = .ok (ctx', evs) → ∀ hd b f rssi data, .decode hd b f rssi data ∈ evs →
        rssi = strongest (receptions x ctx0 (is ++ [i])) b f := by
  intro hclaim
  obtain ⟨ctx0, ctx, tr, h0, hrun, hq⟩ := (numbered 2 2).exists_session
    (fun ctx i => Within (numbered 2 2).externals ctx i ∧ i.fits = true)
    [(numbered 2 2).inputAt 0 1 (-60), (numbered 2 2).inputAt (2 ^ 32) 1 (-40)]
    (fun ctx0 p => decide (Within (numbered 2 2).externals p.1 ((numbered 2 2).inputAt 0 0 (-50)) ∧
        ((numbered 2 2).inputAt 0 0 (-50)).fits = true ∧ strongest (receptions (numbered 2 2).externals ctx0
          ([(numbered 2 2).inputAt 0 1 (-60), (numbered 2 2).inputAt (2 ^ 32) 1 (-40)] ++
            [(numbered 2 2).inputAt 0 0 (-50)])) 0 1 = -60) &&
      Machine.returns (rxStep (numbered 2 2).externals p.1 ((numbered 2 2).inputAt 0 0 (-50))) fun q =>
        decide (Ev.decode 0 0 1 (-40) (number 2 0 1) ∈ q.2)) (by decide +kernel)
  rw [Bool.and_eq_true, decide_eq_true_eq, Machine.returns_iff] at hq
  obtain ⟨⟨hw, hf, hbest⟩, p, hs, hm⟩ := hq
  have hrun' := hrun.mono fun ctx i hg => (audible_of_fits hg.1 hg.2 : Audible _ basicIterator ctx i)
  have := hclaim _ _ _ _ _ _ _ _ _ h0 hrun' (audible_of_fits hw hf) hs 0 0 1 (-40) _ (of_decide_eq_true hm)
  rw [hbest] at this
  exact absurd this (by decide)

end WfbYa.Rx
