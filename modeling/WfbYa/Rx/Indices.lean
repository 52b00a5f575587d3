/-
  WfbYa.Rx.Indices — the block indices in the ring, and those the log is given.

  A frame a multiple of `2 ^ 32` blocks ahead of the last one gets a slot of another block,
  or one without a block. Whatever slot it gets, no slot holds an index out of range.

  - `getBlock_blocksOk`: `rbuf_get_block` keeps it so, for any gap between blocks.
  - `rxStep_logged`: the indices a step of the receiver gives to the log.
-/

import WfbYa.Rx.Fidelity
import WfbYa.Rx.Storing

namespace WfbYa.Rx

open WfbYa.Frame WfbYa.Ring WfbYa.Lib

/-! ## The indices in a ring -/

/-- A block a frame may be of, or no block. -/
def BlockIdxOk (b : Nat) : Prop := b ≤ maxBlockIdx ∨ b = blockInval

def RingBlocksOk (r : Rbuf) : Prop := ∀ s, BlockIdxOk (r.blocks s).index

/-- A pass of the loop numbers its slot from the start on. -/
theorem allocLoop_index (st n i idx : Nat) (r : Rbuf) (s : Nat) :
    ((allocLoop st n i idx r).1.blocks s).index = (r.blocks s).index ∨
      ∃ j, i ≤ j ∧ j < i + n ∧ ((allocLoop st n i idx r).1.blocks s).index = u64 (st + j) := by
  obtain ⟨slot, hslot⟩ := allocLoop_renews st n i idx r
  rcases hslot s with h | ⟨j, h1, h2, -, h⟩
  · exact .inl (by rw [h])
  · exact .inr ⟨j, h1, h2, by rw [h]; rfl⟩

theorem getBlock_blocksOk {r r' : Rbuf} {b : Nat} {blk : Option Nat} {evs : List RingEv}
    (hr : RingBlocksOk r) (hb : b ≤ maxBlockIdx)
    (h : rbufGetBlock r b = .ok (r', blk, evs)) : RingBlocksOk r' := by
  cases hs : (search r b (span r) 0 0).1 with
  | some t =>
    rw [rbufGetBlock_hit hs] at h
    cases h
    exact hr
  | none =>
    by_cases ha : intMax < r.ringAlloc
    · rw [rbufGetBlock_overflow hs ha] at h
      cases h
    by_cases hl : r.lastBlock ≠ blockInval ∧ b ≤ r.lastBlock
    · rw [rbufGetBlock_stale hs (Nat.not_lt.mp ha) hl.1 hl.2] at h
      cases h
      exact hr
    have hl' : r.lastBlock = blockInval ∨ r.lastBlock < b := by
      by_cases e : r.lastBlock = blockInval
      · exact .inl e
      · exact .inr (Nat.lt_of_not_le fun hle => hl ⟨e, hle⟩)
    rw [rbufGetBlock_new hs (Nat.not_lt.mp ha) hl'] at h
    cases h
    intro s
    show BlockIdxOk ((allocBlocks r b _).1.blocks s).index
    by_cases hv : Vanishes r b
    · -- nothing is allocated
      rw [allocBlocks_zero (newBlocks_zero hv.1 hv.2.2)]
      exact hr s
    · obtain ⟨hpos, hle⟩ := newBlocks_pos hb hl' hv
      unfold allocBlocks
      rcases allocLoop_index (u64 (b + 2 ^ 64 - newBlocks r b + 1)) (newBlocks r b) 0 (search r b (span r) 0 0).2 r s
        with h | ⟨j, -, hj, h⟩
      · rw [h]
        exact hr s
      · rw [h]
        left
        unfold maxBlockIdx at hb ⊢
        unfold u64
        omega

theorem RingBlocksOk.set {r : Rbuf} (h : RingBlocksOk r) {slot : Nat} {blk : RbufBlock} (hb : blk.index = (r.blocks slot).index) :
    RingBlocksOk (r.setBlock slot blk) := by
  intro s
  by_cases e : s = slot
  · rw [e, setBlock_same, hb]
    exact h slot
  · rw [setBlock_ne r blk e]
    exact h s

variable {x : Externals} {ctx : RxContext}

theorem dataAdd_blocksOk {r r' : Rbuf} {slot : Nat} {evs : List Ev} (hr : RingBlocksOk r)
    (h : dataAdd x ctx r slot = .ok (r', evs)) : RingBlocksOk r' := by
  obtain ⟨hslot, hothers, -⟩ := dataAdd_slot h
  intro s
  by_cases e : s = slot
  · rw [e]
    cases hslot with
    | waits _ _ hblk _ =>
      rw [hblk]
      exact hr slot
    | done _ hdead _ => exact .inr hdead
  · rcases hothers s e with hs | hs
    · rw [hs]
      exact hr s
    · exact .inr hs

/-- A DATA frame keeps the indices in range. -/
theorem DataCall.blocksOk {q : Ret} (h : DataCall x ctx q) (hr : ∀ r, ctx.rxRing = some r → RingBlocksOk r) :
    ∀ r, q.ctx.rxRing = some r → RingBlocksOk r := by
  intro r' hr'
  cases h with
  | refused _ _ => exact hr r' hr'
  | outside ha hg =>
    cases hr'
    exact getBlock_blocksOk (hr _ ha.ring) ha.blockIdx hg
  | @filed _ r1 slot _ _ ha hg hf =>
    have hfound := getBlock_blocksOk (hr _ ha.ring) ha.blockIdx hg
    cases hf with
    | duplicate _ =>
      cases hr'
      exact hfound.set (raiseRssi_index _ _ _)
    | forged _ _ =>
      cases hr'
      exact hfound.set (raiseRssi_index _ _ _)
    | @stored plain _ _ _ _ _ hadd =>
      cases hr'
      have hfiled : RingBlocksOk (r1.setBlock slot (filedBlock ctx r1 slot plain)) :=
        hfound.set (filedBlock_index ctx r1 slot plain)
      exact dataAdd_blocksOk hfiled hadd

/-! ## What the log is given -/

/-- The indices of a frame are in range, and those of a payload, which is of a fragment's size. -/
def Logged (fecK fecN : Nat) : Ev → Prop
  | .logFrame b f _ => b ≤ maxBlockIdx ∧ f < fecN
  | .logDecode b f data => BlockIdxOk b ∧ f < fecK ∧ data.length ≤ maxPayloadSize
  | _ => True

theorem logged_other {fecK fecN : Nat} (e : Ev) (ho : e.isOutput = false) (hf : e.fragment? = none) : Logged fecK fecN e := by
  cases e with
  | logFrame _ _ _ => cases hf
  | logDecode _ _ _ => cases ho
  | _ => trivial

theorem handOver_logged {blk : RbufBlock} {i : Nat} (hb : BlockIdxOk blk.index) (hi : i < ctx.fecK) :
    ∀ e ∈ handOver ctx blk i, Logged ctx.fecK ctx.fecN e := by
  intro e he
  rcases List.mem_cons.mp he with rfl | he
  · trivial
  · obtain ⟨hm, -⟩ := mem_effects.mp he
    unfold deliver at hm
    dsimp only at hm
    split at hm
    · cases hm
    · split at hm
      · rw [List.mem_singleton.mp hm]
        trivial
      · rename_i hsize
        rcases List.mem_append.mp hm with hm | hm
        · split at hm
          · rw [List.mem_singleton.mp hm]
            trivial
          · obtain ⟨a, -, rfl⟩ := List.mem_map.mp hm
            trivial
        · rw [List.mem_singleton.mp hm]
          refine ⟨hb, hi, ?_⟩
          apply le_trans (List.length_take_le _ _)
          exact Nat.not_lt.mp hsize

/-- The cursor is within the primaries, and what is not empty has an index in range. -/
def Numbered (ctx : RxContext) (blk : RbufBlock) : Prop :=
  blk.fragmentToSend ≤ ctx.fecK ∧ ((∀ f, blk.fragmentLen f = 0) ∨ BlockIdxOk blk.index)

theorem loggedRules (x : Externals) (nof : Nat) (hk : ctx.fecK ≤ ctx.fecN) :
    SlotRules x ctx nof (Numbered ctx) (Logged ctx.fecK ctx.fecN) where
  toSend := fun _ h => h.1
  send := fun blk h => ⟨(cursorRules x nof hk).send blk h.1, h.2⟩
  handed := by
    intro blk i h _ hi hlen
    apply handOver_logged (h.2.resolve_left _) hi
    intro hzero
    exact absurd (hzero i) (Nat.ne_of_gt hlen)
  flush := fun _ _ => ⟨le_refl _, .inr (.inr rfl)⟩
  recovered := by
    intro blk blk' evs h hready hrec
    have hrange : BlockIdxOk blk'.index := by
      rw [hrec.keeps.1]
      exact h.2.resolve_left fun hzero => hrec.not_empty hready hzero
    refine ⟨⟨le_refl _, .inr (.inr rfl)⟩, ?_, fun i _ hi => handOver_logged hrange hi⟩
    intro e he
    cases hrec with
    | complete _ => cases he
    | decoded _ _ _ =>
      rw [effects_msg, effects_cons rfl, effects_nil, List.mem_singleton] at he
      rw [he]
      trivial
  renew := fun _ _ _ => ⟨Nat.zero_le _, .inl fun _ => rfl⟩
  rssi := by
    intro blk f dbm h
    unfold Numbered
    rw [raiseRssi_toSend, raiseRssi_len, raiseRssi_index]
    exact h
  leftover := fun _ _ _ h _ => h
  other := logged_other

/-- The session's invariant, with the indices in range. -/
structure IndexInv (ctx : RxContext) : Prop where
  session : SessionInv ctx
  ring : ∀ r, ctx.rxRing = some r → RingBlocksOk r

theorem IndexInv.idle (h : IndexInv ctx) (w : WfbContext) (freq : Nat) (dbm : Int) (noFec : Bool) :
    IndexInv { ctx with wfb := w, freq := freq, dbm := dbm, noFec := noFec } := ⟨h.session.idle w freq dbm noFec, h.ring⟩

/-- A new ring has no blocks. -/
theorem Starts.indexInv {ctx' : RxContext} {hdr : WfbSessionHdr} {r : Rbuf} (hc : Checked ctx hdr) (h : Starts ctx ctx' hdr r) :
    IndexInv ctx' := by
  refine ⟨h.inv hc, ?_⟩
  obtain ⟨rfl, heap, hpos, hint, rfl⟩ := h
  intro r' hr'
  cases hr'
  exact fun _ => .inr rfl

theorem DataCall.logged {q : Ret} (h : DataCall x ctx q) (hi : IndexInv ctx) : ∀ e ∈ q.evs, Logged ctx.fecK ctx.fecN e := by
  obtain ⟨r, hr, -⟩ := hi.session.ok.ring
  have hslots : ∀ s, Numbered ctx (r.blocks s) := fun s => ⟨hi.session.cursor r hr s, .inr (hi.ring r hr s)⟩
  obtain ⟨r', -, hgood, -⟩ := h.slots hr (loggedRules x _ hi.session.ok.fecK.2) hslots fun ha => by
    refine ⟨⟨ha.blockIdx, ha.fragmentIdx⟩, ?_⟩
    intro r1 slot evs plain hg h1 _ _ _
    refine ⟨⟨h1.1, .inr ?_⟩, trivial⟩
    show BlockIdxOk (raiseRssi (r1.blocks slot) ctx.wfb.fragmentIdx ctx.dbm).index
    rw [raiseRssi_index]
    exact getBlock_blocksOk (hi.ring r hr) ha.blockIdx hg slot
  exact hgood.2

/-! ## Steps -/

theorem indexRules (x : Externals) :
    SessionRules x (fun _ _ => True) IndexInv (fun ctx => Logged ctx.fecK ctx.fecN) where
  idle := fun _ w freq dbm noFec h => h.idle w freq dbm noFec
  start := fun _ _ _ _ _ hc hst => hst.indexInv hc
  data := fun _ _ _ _ _ _ _ h hd => ⟨⟨(hd.inv h.session).1, hd.blocksOk h.ring⟩, hd.logged h⟩
  other := fun _ => logged_other

/-- A step keeps the indices in range, and gives the log no others. -/
theorem rxStep_logged {ctx' : RxContext} {i : Input} {evs : List Ev} (h : ctx.hasSessionKey = true → IndexInv ctx)
    (hs : rxStep x ctx i = .ok (ctx', evs)) :
    (ctx'.hasSessionKey = true → IndexInv ctx') ∧ ∀ e ∈ evs, Logged ctx.fecK ctx.fecN e :=
  (indexRules x).step h trivial hs

end WfbYa.Rx
