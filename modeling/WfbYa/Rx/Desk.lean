/-
  WfbYa.Rx.Desk — the receiver as a machine that works on one block at a time.

  As long as no block is skipped, at most one block is live between frames: the newest one
  that was begun. `Desk` is that machine: the front, the newest block, and the block on the
  desk if there is one. A newer block flushes it; an older one is refused.

  - `Desked`: a ring shows a desk.
  - `getBlock_desk`: how `rbuf_get_block` answers such a ring.
  - `dataFec_desk` / `dataAdd_desk` / `purge_desk`: what is done to the block at hand.
  - `DataCall.desk`: a DATA frame is a step of the desk, or is refused, or ends the session.
-/

import WfbYa.Rx.SessionInv

namespace WfbYa.Rx

open WfbYa.Frame WfbYa.Ring WfbYa.Lib WfbYa.Lib.Circular

/-! ## The machine -/

structure Desk where
  front : Nat
  last : Nat
  cur : Option RbufBlock

/-- The slot after the front. -/
def beyond (front : Nat) : Nat := pos rxRingSize front 1

/-- The slot a new block gets. -/
def Desk.slot (d : Desk) : Nat := if d.cur.isSome then beyond d.front else d.front

/-- What cutting through hands over. -/
def cut (ctx : RxContext) (blk : RbufBlock) : List Ev := (sendRun ctx blk false false).1.flatMap (handOver ctx blk)

/-- What flushing a stale block hands over. -/
def flush (ctx : RxContext) (blk : RbufBlock) : List Ev := (sendRun ctx blk true false).1.flatMap (handOver ctx blk)

/-- What is handed over of a recovered block. -/
def rest (ctx : RxContext) (blk : RbufBlock) : List Ev := (sendRun ctx blk false true).1.flatMap (handOver ctx blk)

/-- `data_add` from its assertion on, for the block at slot `s`: the block left, if any. -/
inductive FecBlock (x : Externals) (ctx : RxContext) (s : Nat) (blk : RbufBlock) : Option RbufBlock → List Ev → Prop
  | waits : ¬ Ready ctx blk → FecBlock x ctx s blk (some blk) []
  | done {blk' : RbufBlock} {e : List Ev} : Ready ctx blk → Recovery x ctx ctx.fecN blk blk' e →
      FecBlock x ctx s blk none (effects e ++ rest ctx blk' ++ [.ring (.free s blk.index 1 1)])

/-- `data_add` for the block at the front. -/
inductive AddBlock (x : Externals) (ctx : RxContext) (s : Nat) (blk : RbufBlock) : Option RbufBlock → List Ev → Prop
  | complete : (sendRun ctx blk false false).2 = ctx.fecK →
      AddBlock x ctx s blk none (cut ctx blk ++ [.ring (.free s blk.index 1 1)])
  | partly {o : Option RbufBlock} {e : List Ev} : (sendRun ctx blk false false).2 ≠ ctx.fecK →
      FecBlock x ctx s { blk with fragmentToSend := (sendRun ctx blk false false).2 } o e →
      AddBlock x ctx s blk o (cut ctx blk ++ e)

/-- The block with the fragment at hand filed. -/
def withFragment (ctx : RxContext) (blk : RbufBlock) (plain : Bytes) : RbufBlock :=
  storeFragment (raiseRssi blk ctx.wfb.fragmentIdx ctx.dbm) ctx.wfb.fragmentIdx maxFecPayload plain

theorem withFragment_index (ctx : RxContext) (blk : RbufBlock) (plain : Bytes) :
    (withFragment ctx blk plain).index = blk.index := raiseRssi_index ..

theorem withFragment_toSend (ctx : RxContext) (blk : RbufBlock) (plain : Bytes) :
    (withFragment ctx blk plain).fragmentToSend = blk.fragmentToSend := raiseRssi_toSend ..

theorem withFragment_len (ctx : RxContext) (blk : RbufBlock) (plain : Bytes) :
    (withFragment ctx blk plain).fragmentLen = Function.update blk.fragmentLen ctx.wfb.fragmentIdx plain.length := by
  show Function.update (raiseRssi blk _ _).fragmentLen _ _ = _
  rw [raiseRssi_len]

def logged (ctx : RxContext) : Ev := .logFrame ctx.wfb.blockIdx ctx.wfb.fragmentIdx ctx.wfb.pktlen

def storedEv (ctx : RxContext) (s : Nat) (plain : Bytes) : Ev :=
  .store s ctx.wfb.blockIdx ctx.wfb.fragmentIdx plain.length

/-- Block `b` is ahead of everything begun so far. -/
def Desk.Newer (d : Desk) (b : Nat) : Prop := b ≠ blockInval ∧ (d.last = blockInval ∨ d.last < b)

inductive DeskStep (x : Externals) (ctx : RxContext) (d : Desk) : Desk → List Ev → Prop
  | old : d.last ≠ blockInval → ctx.wfb.blockIdx ≤ d.last → (d.cur.isSome → ctx.wfb.blockIdx ≠ d.last) →
      DeskStep x ctx d d [logged ctx]
  | duplicate {blk : RbufBlock} : d.cur = some blk → ctx.wfb.blockIdx = d.last →
      blk.fragmentLen ctx.wfb.fragmentIdx ≠ 0 →
      DeskStep x ctx d ⟨d.front, d.last, some (raiseRssi blk ctx.wfb.fragmentIdx ctx.dbm)⟩ [logged ctx]
  | again {blk : RbufBlock} {plain : Bytes} {o : Option RbufBlock} {e : List Ev} : d.cur = some blk →
      ctx.wfb.blockIdx = d.last → blk.fragmentLen ctx.wfb.fragmentIdx = 0 → decrypted x ctx.crypto ctx.wfb = .ok (.ok plain) →
      plain.length ≤ maxFecPayload → AddBlock x ctx d.front (withFragment ctx blk plain) o e →
      DeskStep x ctx d ⟨d.front, d.last, o⟩ (logged ctx :: storedEv ctx d.front plain :: e)
  | first {old : RbufBlock} {plain : Bytes} {o : Option RbufBlock} {e : List Ev} : d.cur = none →
      d.Newer ctx.wfb.blockIdx → decrypted x ctx.crypto ctx.wfb = .ok (.ok plain) → plain.length ≤ maxFecPayload →
      AddBlock x ctx d.front (withFragment ctx (old.renew ctx.wfb.blockIdx) plain) o e →
      DeskStep x ctx d ⟨d.front, ctx.wfb.blockIdx, o⟩
        (logged ctx :: .ring (.alloc d.front ctx.wfb.blockIdx) :: storedEv ctx d.front plain :: e)
  | next {blk old : RbufBlock} {plain : Bytes} {o : Option RbufBlock} {e : List Ev} : d.cur = some blk →
      d.Newer ctx.wfb.blockIdx → decrypted x ctx.crypto ctx.wfb = .ok (.ok plain) → plain.length ≤ maxFecPayload →
      FecBlock x ctx (beyond d.front) (withFragment ctx (old.renew ctx.wfb.blockIdx) plain) o e →
      DeskStep x ctx d ⟨beyond d.front, ctx.wfb.blockIdx, o⟩
        (logged ctx :: .ring (.alloc (beyond d.front) ctx.wfb.blockIdx) :: storedEv ctx (beyond d.front) plain ::
          flush ctx blk ++ .ring (.free d.front blk.index 2 1) :: .purged (beyond d.front) 2 [blk.index] :: e)

/-- A frame that does not decrypt ends the session. -/
inductive DeskLost (x : Externals) (ctx : RxContext) (d : Desk) : List Ev → Prop
  | again {blk : RbufBlock} {err : Bytes × Option String} : d.cur = some blk → ctx.wfb.blockIdx = d.last →
      blk.fragmentLen ctx.wfb.fragmentIdx = 0 → decrypted x ctx.crypto ctx.wfb = .ok (.error err) →
      DeskLost x ctx d [logged ctx, .contextDump]
  | opened {err : Bytes × Option String} : d.Newer ctx.wfb.blockIdx → decrypted x ctx.crypto ctx.wfb = .ok (.error err) →
      DeskLost x ctx d [logged ctx, .ring (.alloc d.slot ctx.wfb.blockIdx), .contextDump]

theorem DeskLost.forged {x : Externals} {ctx : RxContext} {d : Desk} {e : List Ev} (h : DeskLost x ctx d e) :
    ∃ err, decrypted x ctx.crypto ctx.wfb = .ok (.error err) := by
  cases h with
  | again _ _ _ hd => exact ⟨_, hd⟩
  | opened _ hd => exact ⟨_, hd⟩

/-! ## Rings that show a desk -/

structure Desked (r : Rbuf) (d : Desk) : Prop where
  size : r.ringSize = rxRingSize
  front : r.ringFront = d.front
  last : r.lastBlock = d.last
  alloc : r.ringAlloc = if d.cur.isSome then 1 else 0
  cur : ∀ blk, d.cur = some blk → r.blocks d.front = blk ∧ blk.index = d.last ∧ d.last ≠ blockInval
  only : ∀ t < r.ringSize, r.live t → t = d.front ∧ d.cur.isSome

theorem newRing_desked (mem : Heap) (fs n : Nat) (hpos : 0 < rxRingSize) (hint : rxRingSize ≤ intMax) :
    Desked (newRing mem rxRingSize fs n hpos hint) ⟨0, blockInval, none⟩ :=
  ⟨rfl, rfl, rfl, rfl, fun _ h => (nomatch h), fun _ _ hl => absurd rfl hl⟩

variable {r : Rbuf} {d : Desk}

theorem Desked.front_lt (h : Desked r d) : d.front < rxRingSize := by
  have := r.front_lt
  rw [h.front, h.size] at this
  exact this

theorem beyond_ne (f : Nat) : beyond f ≠ f := by
  unfold beyond pos rxRingSize
  omega

theorem Desked.empty (h : Desked r d) (hc : d.cur = none) {t : Nat} (ht : t < r.ringSize) : ¬ r.live t := fun hl => by
  have := (h.only t ht hl).2
  rw [hc] at this
  cases this

/-- Changing the block on the desk. -/
theorem Desked.setBlock {f l : Nat} {blk : RbufBlock} (h : Desked r ⟨f, l, some blk⟩) {blk' : RbufBlock}
    (hi : blk'.index = blk.index) : Desked (r.setBlock f blk') ⟨f, l, some blk'⟩ := by
  obtain ⟨-, hidx, hinv⟩ := h.cur blk rfl
  refine ⟨h.size, h.front, h.last, h.alloc, fun b hb => ?_, fun t ht hl => ⟨?_, rfl⟩⟩
  · cases hb
    exact ⟨setBlock_same .., by rw [hi]; exact hidx, hinv⟩
  · by_contra hne
    have hl' : r.live t := by
      change ((r.setBlock f blk').blocks t).index ≠ blockInval at hl
      rwa [setBlock_ne r blk' hne] at hl
    exact hne (h.only t ht hl').1

theorem Desked.lastSeq {q : Nat} (h : Desked r d) : Desked { r with lastSeq := q } d :=
  ⟨h.size, h.front, h.last, h.alloc, h.cur, h.only⟩

theorem Desked.sentTo {f l t q : Nat} {blk : RbufBlock} (h : Desked r ⟨f, l, some blk⟩) :
    Desked (sentTo r f t q) ⟨f, l, some { blk with fragmentToSend := t }⟩ := by
  have hb := (h.cur blk rfl).1
  have := (h.setBlock (show ({ blk with fragmentToSend := t } : RbufBlock).index = blk.index from rfl)).lastSeq (q := q)
  unfold WfbYa.Rx.sentTo
  rw [show r.blocks f = blk from hb]
  exact this

/-- Freeing the block on the desk clears it. -/
theorem Desked.free {f l : Nat} {blk : RbufBlock} (h : Desked r ⟨f, l, some blk⟩) :
    Desked (rbufFreeBlock r f) ⟨f, l, none⟩ ∧ freeEv r f = .free f blk.index 1 1 := by
  obtain ⟨hb, -, -⟩ := h.cur blk rfl
  have halloc : r.ringAlloc = 1 := h.alloc
  have hfront : r.ringFront = f := h.front
  have hrun : freeRun r f = (0, f) := by
    unfold freeRun
    rw [halloc, hfront]
    show freeLoop (r.setBlock f _).blocks r.ringSize 1 f = _
    unfold freeLoop
    rw [if_pos (by rw [setBlock_same]; rfl), if_pos rfl]
  refine ⟨⟨h.size, ?_, h.last, ?_, by simp, fun t ht hl => ?_⟩, ?_⟩
  · show (freeRun r f).2 = f
    rw [hrun]
  · show (freeRun r f).1 % 2 ^ 64 = 0
    rw [hrun]
    rfl
  · by_cases e : t = f
    · subst e
      exact absurd (by rw [free_same]) hl
    · have hl' : r.live t := by
        change ((rbufFreeBlock r f).blocks t).index ≠ blockInval at hl
        rwa [free_ne r e] at hl
      exact absurd (h.only t ht hl').1 e
  · unfold freeEv
    rw [hrun, halloc, show r.blocks f = blk from hb]
    rfl

/-! ## rbuf_get_block -/

/-- No block is skipped: the one asked for is begun already, or is the next one. -/
def Next (r : Rbuf) (b : Nat) : Prop :=
  r.lastBlock = blockInval ∨ b ≤ r.lastBlock ∨ (b - r.lastBlock) % 2 ^ 32 = 1

instance (r : Rbuf) (b : Nat) : Decidable (Next r b) := by unfold Next; infer_instance

theorem Desked.search (h : Desked r d) (b : Nat) :
    (search r b (span r) 0 0).1 = if d.cur.isSome ∧ d.last = b then some d.front else none := by
  have hspan : span r = r.ringAlloc := by
    have := h.alloc
    unfold span intMax
    split at this <;> omega
  rw [hspan, h.alloc]
  cases hc : d.cur with
  | none => rfl
  | some blk =>
    obtain ⟨hb, hi, -⟩ := h.cur blk hc
    have hpos : (r.ringFront + 0) % r.ringSize = d.front := by
      rw [Nat.add_zero, Nat.mod_eq_of_lt r.front_lt, h.front]
    simp only [Option.isSome_some, if_true, WfbYa.Ring.search, hpos, hb, hi, true_and]
    split <;> rfl

/-- The ring with a new block begun in the slot behind the window. -/
def begun (r : Rbuf) (s b : Nat) : Rbuf :=
  { r.setBlock s ((r.blocks s).renew b) with ringAlloc := r.ringAlloc + 1, lastBlock := b }

theorem Desked.slot_eq (h : Desked r d) : allocSlot r 0 = d.slot := by
  have hle : r.ringAlloc ≤ r.ringSize := by
    have := h.alloc
    rw [h.size]
    unfold rxRingSize
    split at this <;> omega
  rw [allocSlot_eq hle, h.front, h.alloc, h.size]
  unfold Desk.slot
  split
  · rfl
  · exact pos_zero h.front_lt

theorem Desked.slot_empty (h : Desked r d) : ¬ r.live d.slot := by
  intro hl
  have hlt : d.slot < r.ringSize := by
    rw [← h.slot_eq]
    exact Nat.mod_lt _ r.size_pos
  obtain ⟨he, hs⟩ := h.only _ hlt hl
  unfold Desk.slot at he
  rw [if_pos hs] at he
  exact beyond_ne _ he

/-- `rbuf_get_block` on a ring that shows a desk: the block is on the desk, or is behind,
    or is begun. -/
theorem getBlock_desk (h : Desked r d) {b : Nat} (hb : b ≤ maxBlockIdx) (hn : Next r b) :
    (d.cur.isSome ∧ b = d.last ∧ rbufGetBlock r b = .ok (r, some d.front, [])) ∨
    (d.last ≠ blockInval ∧ b ≤ d.last ∧ (d.cur.isSome → b ≠ d.last) ∧ rbufGetBlock r b = .ok (r, none, [])) ∨
    (d.Newer b ∧ rbufGetBlock r b = .ok (begun r d.slot b, some d.slot, [.alloc d.slot b])) := by
  have hs := h.search b
  have ha : r.ringAlloc ≤ intMax := by
    have := h.alloc
    unfold intMax
    split at this <;> omega
  by_cases hc : d.cur.isSome ∧ d.last = b
  · rw [if_pos hc] at hs
    exact .inl ⟨hc.1, hc.2.symm, rbufGetBlock_hit hs⟩
  · rw [if_neg hc] at hs
    right
    by_cases hl : d.last ≠ blockInval ∧ b ≤ d.last
    · exact .inl ⟨hl.1, hl.2, fun h1 h2 => hc ⟨h1, h2.symm⟩,
        rbufGetBlock_stale hs ha (by rw [h.last]; exact hl.1) (by rw [h.last]; exact hl.2)⟩
    · right
      have hnew : d.Newer b := by
        refine ⟨maxBlockIdx_ne hb, ?_⟩
        by_contra hne
        push Not at hne
        exact hl hne
      refine ⟨hnew, ?_⟩
      have hone : newBlocks r b = 1 := by
        rcases hn with h1 | h1 | h1
        · exact newBlocks_first h1
        · rcases hnew.2 with h2 | h2
          · exact newBlocks_first (by rw [h.last]; exact h2)
          · rw [h.last] at h1; omega
        · by_cases h0 : r.lastBlock = blockInval
          · exact newBlocks_first h0
          · exact newBlocks_one h0 h1
      have hinv : (r.blocks d.slot).inval = true := by
        rw [inval_iff]
        exact not_not.mp h.slot_empty
      rw [rbufGetBlock_new hs ha (by rw [h.last]; exact hnew.2), allocBlocks_one hone (by unfold maxBlockIdx at hb; omega)]
      have hu : u64 (r.ringAlloc + 1) = r.ringAlloc + 1 := Nat.mod_eq_of_lt (by unfold intMax at ha; omega)
      simp only [allocOne, h.slot_eq, dropped, dropEvs, hinv, if_true, List.nil_append, hu]
      rfl

/-! ## data_add -/

variable {x : Externals} {ctx : RxContext}

theorem dataFec_desk {f l : Nat} {blk : RbufBlock} {r' : Rbuf} {evs : List Ev} (hn : r.fragmentNof = ctx.fecN)
    (h : Desked r ⟨f, l, some blk⟩) (hd : dataFec x ctx r f = .ok (r', evs)) :
    ∃ o, FecBlock x ctx f blk o (effects evs) ∧ Desked r' ⟨f, l, o⟩ ∧ shape r' = shape r := by
  have hb : r.blocks f = blk := (h.cur blk rfl).1
  obtain ⟨-, ⟨hw, rfl, rfl⟩ | ⟨hready, blk', e, hrec, rfl, rfl⟩⟩ := dataFec_cases hd
  · exact ⟨some blk, .waits (hb ▸ hw), h, rfl⟩
  · obtain ⟨q, hq, he⟩ := finish_eq hready hrec
    rw [hb] at hready hrec
    rw [hn] at hrec
    have hset := (h.setBlock hrec.keeps.1).sentTo (t := ctx.fecK) (q := q)
    obtain ⟨hfree, hev⟩ := hset.free
    refine ⟨none, ?_, by rw [hq]; exact hfree, by rw [hq]; rfl⟩
    rw [effects_append, he, hev, ← List.append_assoc]
    show FecBlock x ctx f blk none (_ ++ rest ctx blk' ++ [.ring (.free f blk'.index 1 1)])
    rw [hrec.keeps.1]
    exact .done hready hrec

theorem dataAdd_desk {f l : Nat} {blk : RbufBlock} {r' : Rbuf} {evs : List Ev} (hn : r.fragmentNof = ctx.fecN)
    (h : Desked r ⟨f, l, some blk⟩) (hd : dataAdd x ctx r f = .ok (r', evs)) :
    ∃ o, AddBlock x ctx f blk o (effects evs) ∧ Desked r' ⟨f, l, o⟩ ∧ shape r' = shape r := by
  have hb : r.blocks f = blk := (h.cur blk rfl).1
  obtain ⟨⟨q, hq⟩, he⟩ := sendDataAny_eq ctx r f false false
  change (sendDataSeq ctx r f).1 = _ at hq
  change effects (sendDataSeq ctx r f).2 = _ at he
  rw [hb] at hq he
  have hsent := h.sentTo (t := (sendRun ctx blk false false).2) (q := q)
  have hto : ((sendDataSeq ctx r f).1.blocks f).fragmentToSend = (sendRun ctx blk false false).2 := by
    rw [hq, sentTo_same]
  rcases dataAdd_cases hd with ⟨-, ⟨hk, rfl, rfl⟩ | ⟨hk, e, hfec, rfl⟩⟩ | ⟨hf, -⟩
  · obtain ⟨hfree, hev⟩ := hsent.free
    rw [hto] at hk
    refine ⟨none, ?_, by rw [hq]; exact hfree, by rw [hq]; rfl⟩
    rw [hq, hev, effects_append, he]
    exact .complete hk
  · rw [hto] at hk
    rw [hq] at hfec
    obtain ⟨o, hblk, hdesk, hsh⟩ := dataFec_desk (r := sentTo r f _ q) hn hsent hfec
    refine ⟨o, ?_, hdesk, hsh⟩
    rw [effects_append, he]
    exact .partly hk hblk
  · exact absurd h.front hf

/-- A ring with an old block at the front and a newer one behind it. -/
structure Paired (r : Rbuf) (f l : Nat) (old blk : RbufBlock) : Prop where
  size : r.ringSize = rxRingSize
  front : r.ringFront = f
  last : r.lastBlock = l
  alloc : r.ringAlloc = 2
  old : r.blocks f = old
  cur : r.blocks (beyond f) = blk ∧ blk.index = l ∧ l ≠ blockInval
  only : ∀ t < r.ringSize, r.live t → t = f ∨ t = beyond f

theorem freed_effects (evs : List Ev) : freed (effects evs) = freed evs := filterMap_effects (fun _ _ => rfl) evs

theorem freed_handOver (ctx : RxContext) (blk : RbufBlock) (is : List Nat) : freed (is.flatMap (handOver ctx blk)) = [] := by
  unfold freed
  rw [List.filterMap_eq_nil_iff]
  intro e he
  obtain ⟨i, -, hm⟩ := List.mem_flatMap.mp he
  have hf := handOver_fragment hm
  cases e with
  | ring a => cases hf
  | _ => rfl

/-- Purging flushes and frees the old block and leaves the newer one on the desk. -/
theorem purge_desk {f l n : Nat} {old blk : RbufBlock} (h : Paired r f l old blk) (hx : x.maxIter = n + 1) :
    ∃ r' evs, purgeStale x ctx r (beyond f) = .ok (r', evs) ∧ Desked r' ⟨beyond f, l, some blk⟩ ∧ shape r' = shape r ∧
      effects evs = flush ctx old ++ [.ring (.free f old.index 2 1), .purged (beyond f) 2 [old.index]] := by
  obtain ⟨⟨q, hq⟩, he⟩ := sendDataAny_eq ctx r f true false
  change (sendDataStale ctx r f).1 = _ at hq
  change effects (sendDataStale ctx r f).2 = _ at he
  obtain ⟨hcur, hidx, hinv⟩ := h.cur
  have hne := beyond_ne f
  rw [h.old] at hq he
  -- the loop of `rbuf_free_block` passes the old block and stops at the newer one
  have hrun : freeRun (sentTo r f (sendRun ctx old true false).2 q) f = (1, beyond f) := by
    unfold freeRun
    rw [sentTo_ringAlloc, sentTo_ringFront, sentTo_ringSize, h.alloc, h.front, h.size]
    show freeLoop _ rxRingSize (1 + 1) f = _
    unfold freeLoop
    rw [if_pos (by rw [setBlock_same]; rfl), if_neg (by decide)]
    unfold freeLoop
    rw [if_neg]
    · rfl
    · rw [inval_iff]
      change ((Rbuf.setBlock _ f _).blocks (beyond f)).index ≠ _
      rw [setBlock_ne _ _ hne, sentTo_ne _ _ _ hne, hcur, hidx]
      exact hinv
  have hfront : (rbufFreeBlock (sentTo r f (sendRun ctx old true false).2 q) f).ringFront = beyond f := by
    show (freeRun _ f).2 = _
    rw [hrun]
  have hev : freeEv (sentTo r f (sendRun ctx old true false).2 q) f = .free f old.index 2 1 := by
    unfold freeEv
    rw [hrun, sentTo_same, sentTo_ringAlloc, h.alloc, h.old]
    rfl
  have hloop : purgeLoop ctx (beyond f) x.maxIter r =
      .ok (rbufFreeBlock (sentTo r f (sendRun ctx old true false).2 q) f,
        (sendDataStale ctx r f).2 ++ [.ring (.free f old.index 2 1)]) := by
    rw [hx]
    unfold purgeLoop
    rw [if_neg (by rw [h.front]; exact hne.symm)]
    simp only [h.front, hq, hev]
    have hstop : purgeLoop ctx (beyond f) n (rbufFreeBlock (sentTo r f (sendRun ctx old true false).2 q) f) =
        .ok (rbufFreeBlock (sentTo r f (sendRun ctx old true false).2 q) f, []) := by
      cases n <;> · unfold purgeLoop; rw [if_pos hfront]
    rw [hstop]
    rfl
  have hpurge : purgeStale x ctx r (beyond f) =
      .ok (rbufFreeBlock (sentTo r f (sendRun ctx old true false).2 q) f,
        (sendDataStale ctx r f).2 ++ [.ring (.free f old.index 2 1)] ++ [.purged (beyond f) r.ringAlloc
          (freed ((sendDataStale ctx r f).2 ++ [.ring (.free f old.index 2 1)]))]) := by
    unfold purgeStale
    rw [hloop]
    rfl
  refine ⟨_, _, hpurge, ⟨h.size, hfront, h.last, ?_, fun b hb => ?_, fun t ht hl => ?_⟩, rfl, ?_⟩
  · show (freeRun _ f).1 % 2 ^ 64 = 1
    rw [hrun]
    rfl
  · cases hb
    refine ⟨?_, hidx, hinv⟩
    rw [free_ne _ hne, sentTo_ne _ _ _ hne]
    exact hcur
  · refine ⟨?_, rfl⟩
    by_cases e : t = f
    · subst e
      exact absurd (by rw [free_same]) hl
    · change ((rbufFreeBlock _ f).blocks t).index ≠ blockInval at hl
      rw [free_ne _ e, sentTo_ne _ _ _ e] at hl
      exact (h.only t ht hl).resolve_left e
  · have hfr : freed ((sendDataStale ctx r f).2 ++ [Ev.ring (.free f old.index 2 1)]) = [old.index] := by
      unfold freed
      rw [List.filterMap_append]
      change freed (sendDataStale ctx r f).2 ++ _ = _
      rw [← freed_effects, he, freed_handOver]
      rfl
    rw [effects_append, effects_append, he, hfr, h.alloc, List.append_assoc]
    rfl

/-! ## A DATA frame -/

theorem Paired.setBlock {f l : Nat} {old blk : RbufBlock} (h : Paired r f l old blk) {blk' : RbufBlock}
    (hi : blk'.index = blk.index) : Paired (r.setBlock (beyond f) blk') f l old blk' := by
  obtain ⟨-, hidx, hinv⟩ := h.cur
  refine ⟨h.size, h.front, h.last, h.alloc, ?_, ⟨setBlock_same .., hi.trans hidx, hinv⟩, fun t ht hl => ?_⟩
  · rw [setBlock_ne r blk' (beyond_ne f).symm]
    exact h.old
  · by_cases e : t = beyond f
    · exact .inr e
    · change ((r.setBlock (beyond f) blk').blocks t).index ≠ blockInval at hl
      rw [setBlock_ne r blk' e] at hl
      exact h.only t ht hl

/-- Beginning a block on an empty desk. -/
theorem Desked.begun_first {f l b : Nat} (h : Desked r ⟨f, l, none⟩) (hb : b ≠ blockInval) :
    Desked (begun r f b) ⟨f, b, some ((r.blocks f).renew b)⟩ := by
  have ha : r.ringAlloc = 0 := h.alloc
  refine ⟨h.size, h.front, rfl, by show r.ringAlloc + 1 = 1; omega, fun blk hblk => ?_, fun t ht hl => ⟨?_, rfl⟩⟩
  · cases hblk
    exact ⟨setBlock_same .., rfl, hb⟩
  · by_contra e
    change ((r.setBlock f ((r.blocks f).renew b)).blocks t).index ≠ blockInval at hl
    rw [setBlock_ne r _ e] at hl
    exact h.empty rfl ht hl

/-- Beginning a block behind the one on the desk. -/
theorem Desked.begun_next {f l b : Nat} {blk : RbufBlock} (h : Desked r ⟨f, l, some blk⟩) (hb : b ≠ blockInval) :
    Paired (begun r (beyond f) b) f b blk ((r.blocks (beyond f)).renew b) := by
  have ha : r.ringAlloc = 1 := h.alloc
  refine ⟨h.size, h.front, rfl, by show r.ringAlloc + 1 = 2; omega, ?_, ⟨setBlock_same .., rfl, hb⟩, fun t ht hl => ?_⟩
  · show (r.setBlock (beyond f) _).blocks f = blk
    rw [setBlock_ne r _ (beyond_ne f).symm]
    exact (h.cur blk rfl).1
  · by_cases e : t = beyond f
    · exact .inr e
    · change ((r.setBlock (beyond f) ((r.blocks (beyond f)).renew b)).blocks t).index ≠ blockInval at hl
      rw [setBlock_ne r _ e] at hl
      exact .inl (h.only t ht hl).1

theorem effects_forged (fmt : Option String) : effects (errEvs fmt ++ [Ev.contextDump]) = [Ev.contextDump] := by
  cases fmt <;> rfl

/-- A newer block's first fragment, filed and added. -/
theorem begun_add {q : Rbuf} {e : List Ev} {plain : Bytes} (h : Desked r d) (hn : r.fragmentNof = ctx.fecN)
    (hnew : d.Newer ctx.wfb.blockIdx)
    (hd : decrypted x ctx.crypto ctx.wfb = .ok (.ok plain)) (hle : plain.length ≤ maxFecPayload)
    (ha : dataAdd x ctx ((begun r d.slot ctx.wfb.blockIdx).setBlock d.slot
      (withFragment ctx ((r.blocks d.slot).renew ctx.wfb.blockIdx) plain)) d.slot = .ok (q, e)) :
    ∃ d', DeskStep x ctx d d' (logged ctx :: .ring (.alloc d.slot ctx.wfb.blockIdx) :: storedEv ctx d.slot plain :: effects e) ∧
      Desked q d' ∧ shape q = shape r := by
  have hfi : ∀ blk : RbufBlock, (withFragment ctx blk plain).index = blk.index := fun blk => raiseRssi_index ..
  obtain ⟨f, l, cur⟩ := d
  cases cur with
  | none =>
    change dataAdd x ctx ((begun r f _).setBlock f (withFragment ctx ((r.blocks f).renew _) plain)) f = _ at ha
    obtain ⟨o, hadd, hdesk, hsh⟩ := dataAdd_desk (r := (begun r f _).setBlock f _) hn ((h.begun_first hnew.1).setBlock (hfi _)) ha
    exact ⟨_, .first rfl hnew hd hle hadd, hdesk, hsh⟩
  | some blk =>
    change dataAdd x ctx ((begun r (beyond f) _).setBlock (beyond f) (withFragment ctx ((r.blocks (beyond f)).renew _) plain))
      (beyond f) = _ at ha
    have hpair := (h.begun_next hnew.1).setBlock (hfi ((r.blocks (beyond f)).renew ctx.wfb.blockIdx))
    rcases dataAdd_cases ha with ⟨hf, -⟩ | ⟨-, r1, e1, e2, hp, hfec, rfl⟩
    · rw [hpair.front] at hf
      exact absurd hf.symm (beyond_ne f)
    · cases hm : x.maxIter with
      | zero =>
        unfold purgeStale purgeLoop at hp
        rw [hm, if_neg (by rw [hpair.front]; exact (beyond_ne f).symm)] at hp
        cases hp
      | succ n =>
        obtain ⟨r2, e3, hp', hdesk, hsh, he⟩ := @purge_desk _ x ctx _ _ _ _ _ hpair hm
        cases hp.symm.trans hp'
        have hn' : r1.fragmentNof = ctx.fecN := (congrArg (·.2.1) hsh : r1.fragmentNof = r.fragmentNof).trans hn
        obtain ⟨o, hblk, hdesk', hsh'⟩ := dataFec_desk hn' hdesk hfec
        refine ⟨_, ?_, hdesk', hsh'.trans hsh⟩
        rw [effects_append, he, List.append_assoc]
        exact .next rfl hnew hd hle hblk

/-- A DATA frame is refused, or ends the session, or is a step of the desk. -/
theorem DataCall.desk {q : Ret} (h : DataCall x ctx q) (hok : SessionOk ctx) (hr : ctx.rxRing = some r) (hd : Desked r d)
    (hn : ∀ r, Admitted ctx r → Next r ctx.wfb.blockIdx) :
    ((∀ r, ¬ Admitted ctx r) ∧ q.ctx = ctx ∧ Quiet q.evs) ∨ (q.ctx.hasSessionKey = false ∧ DeskLost x ctx d (effects q.evs)) ∨
      (∃ r' d', q.ctx = { ctx with rxRing := some r' } ∧ shape r' = shape r ∧ Desked r' d' ∧
        DeskStep x ctx d d' (effects q.evs)) := by
  have hshape := hok.shape_eq hr
  simp only [shape, Prod.mk.injEq] at hshape
  obtain ⟨hsize, hnof, hfs⟩ := hshape
  cases h with
  | refused ha hq => exact .inl ⟨ha, rfl, hq⟩
  | outside ha hg =>
    cases hr.symm.trans ha.ring
    rcases getBlock_desk hd ha.blockIdx (hn r ha) with ⟨-, -, he⟩ | ⟨h1, h2, h3, he⟩ | ⟨-, he⟩
    · rw [he] at hg; cases hg
    · rw [he] at hg; cases hg
      exact .inr (.inr ⟨r, d, rfl, rfl, hd, .old h1 h2 h3⟩)
    · rw [he] at hg; cases hg
  | filed ha hg hf =>
    cases hr.symm.trans ha.ring
    rcases getBlock_desk hd ha.blockIdx (hn r ha) with ⟨h1, h2, he⟩ | ⟨-, -, -, he⟩ | ⟨hnew, he⟩
    · rw [he] at hg; cases hg
      obtain ⟨f, l, cur⟩ := d
      obtain ⟨blk, rfl⟩ := Option.isSome_iff_exists.mp h1
      have hcur : r.blocks f = blk := (hd.cur blk rfl).1
      have hidx : blk.index = ctx.wfb.blockIdx := (hd.cur blk rfl).2.1.trans h2.symm
      cases hf with
      | duplicate hl =>
        change (r.blocks f).fragmentLen _ ≠ 0 at hl
        rw [hcur] at hl
        refine .inr (.inr ⟨_, _, rfl, rfl, ?_, .duplicate rfl h2 hl⟩)
        show Desked (r.setBlock f (raiseRssi (r.blocks f) _ _)) _
        rw [hcur]
        exact hd.setBlock (raiseRssi_index ..)
      | @forged left fmt hl hdec =>
        change (r.blocks f).fragmentLen _ = 0 at hl
        rw [hcur] at hl
        refine .inr (.inl ⟨rfl, ?_⟩)
        show DeskLost x ctx _ (effects (logged ctx :: (errEvs fmt ++ [Ev.contextDump])))
        rw [effects_cons rfl, effects_forged]
        exact .again rfl h2 hl hdec
      | @stored plain r' e hl hdec hle hadd =>
        change (r.blocks f).fragmentLen _ = 0 at hl
        change dataAdd x ctx (r.setBlock f (storeFragment (raiseRssi (r.blocks f) _ _) _ _ _)) f = _ at hadd
        rw [hfs] at hle hadd
        rw [hcur] at hl hadd
        obtain ⟨o, ho, hdesk, hsh⟩ := dataAdd_desk (r := r.setBlock f (withFragment ctx blk plain)) hnof
          (hd.setBlock (raiseRssi_index ..)) hadd
        refine .inr (.inr ⟨_, _, rfl, hsh, hdesk, ?_⟩)
        show DeskStep x ctx _ _ (effects (logged ctx :: .store f (r.blocks f).index ctx.wfb.fragmentIdx plain.length :: e))
        rw [effects_cons rfl, effects_cons rfl, hcur, hidx]
        exact .again rfl h2 hl hdec hle ho
    · rw [he] at hg; cases hg
    · rw [he] at hg; cases hg
      have hblk : (begun r d.slot ctx.wfb.blockIdx).blocks d.slot = (r.blocks d.slot).renew ctx.wfb.blockIdx := setBlock_same ..
      cases hf with
      | duplicate hl =>
        rw [hblk] at hl
        exact absurd rfl hl
      | @forged left fmt _ hdec =>
        refine .inr (.inl ⟨rfl, ?_⟩)
        show DeskLost x ctx d (effects (logged ctx :: .ring _ :: (errEvs fmt ++ [Ev.contextDump])))
        rw [effects_cons rfl, effects_cons rfl, effects_forged]
        exact .opened hnew hdec
      | @stored plain r' e _ hdec hle hadd =>
        have hfs' : (begun r d.slot ctx.wfb.blockIdx).fragmentSize = maxFecPayload := hfs
        rw [hfs'] at hle
        rw [hblk, hfs'] at hadd
        obtain ⟨d', hstep, hdesk, hsh⟩ := begun_add hd hnof hnew hdec hle hadd
        refine .inr (.inr ⟨_, d', rfl, hsh, hdesk, ?_⟩)
        show DeskStep x ctx d d' (effects (logged ctx :: .ring _ :: .store d.slot _ ctx.wfb.fragmentIdx plain.length :: e))
        rw [effects_cons rfl, effects_cons rfl, effects_cons rfl, hblk]
        exact hstep

end WfbYa.Rx
