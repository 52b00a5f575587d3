/-
  WfbYa.Rx.Slots — invariants of single blocks, over any ring and any gap between blocks.

  - `getBlock_slots`: `rbuf_get_block` leaves a slot as it is or clears it for a new block.
  - `getBlock_index`: the slot it returns holds the block asked for, unless the difference
    to `last_block` vanishes in the `int`.
  - `SlotRules` / `dataAdd_slots` / `rxData_slots`: what the block-level steps keep of a
    block and emit from it holds of every slot and every event of `rx_data`.
-/

import WfbYa.Rx.Steps

namespace WfbYa.Rx

open WfbYa.Frame WfbYa.Ring WfbYa.Lib

/-! ## The shape of a ring -/

/-- What no operation changes. -/
def shape (r : Rbuf) : Nat × Nat × Nat := (r.ringSize, r.fragmentNof, r.fragmentSize)

@[simp] theorem shape_free (r : Rbuf) (s : Nat) : shape (rbufFreeBlock r s) = shape r := rfl
@[simp] theorem shape_sentTo (r : Rbuf) (s t q : Nat) : shape (sentTo r s t q) = shape r := rfl

@[simp] theorem shape_allocOne (r : Rbuf) (b i : Nat) : shape (allocOne r b i).1 = shape r := by
  show shape (dropped r (allocSlot r i)) = shape r
  unfold dropped
  split <;> rfl

@[simp] theorem shape_sendDataAny (ctx : RxContext) (r : Rbuf) (s : Nat) (stale recovered : Bool) :
    shape (sendDataAny ctx r s stale recovered).1 = shape r := by
  obtain ⟨⟨q, hq⟩, -⟩ := sendDataAny_eq ctx r s stale recovered
  rw [hq, shape_sentTo]

theorem shape_allocLoop (st n i idx : Nat) (r : Rbuf) : shape (allocLoop st n i idx r).1 = shape r := by
  induction n generalizing i idx r with
  | zero => rfl
  | succ n ih =>
    simp only [allocLoop]
    rw [ih, shape_allocOne]

/-! ## rbuf_get_block -/

theorem allocOne_blocks (r : Rbuf) (b i s : Nat) :
    (allocOne r b i).1.blocks s = if s = allocSlot r i then (r.blocks s).renew b else r.blocks s := by
  have hd : ∀ u, u ≠ allocSlot r i → (dropped r (allocSlot r i)).blocks u = r.blocks u := fun u hu => by
    unfold dropped
    split
    · rfl
    · exact free_ne r hu
  have hi : ((dropped r (allocSlot r i)).blocks (allocSlot r i)).renew b = (r.blocks (allocSlot r i)).renew b := by
    unfold dropped
    split
    · rfl
    · rw [free_same]; rfl
  have hb : (allocOne r b i).1.blocks =
      Function.update (dropped r (allocSlot r i)).blocks (allocSlot r i)
        (((dropped r (allocSlot r i)).blocks (allocSlot r i)).renew b) := rfl
  rw [hb]
  by_cases e : s = allocSlot r i
  · rw [if_pos e, e, Function.update_self, hi]
  · rw [if_neg e, Function.update_of_ne e, hd s e]

/-- A slot after the loop: as it was, or cleared by the last pass that took it. No pass
    takes two slots. -/
theorem allocLoop_renews (st n i idx : Nat) (r : Rbuf) : ∃ slot : Nat → Nat, ∀ s,
    (allocLoop st n i idx r).1.blocks s = r.blocks s ∨
      ∃ j, i ≤ j ∧ j < i + n ∧ slot j = s ∧ (allocLoop st n i idx r).1.blocks s = (r.blocks s).renew (u64 (st + j)) := by
  induction n generalizing i idx r with
  | zero => exact ⟨id, fun _ => .inl rfl⟩
  | succ n ih =>
    obtain ⟨slot, hslot⟩ := ih (i + 1) (allocSlot r i) (allocOne r (u64 (st + i)) i).1
    refine ⟨Function.update slot i (allocSlot r i), fun s => ?_⟩
    simp only [allocLoop]
    have hfirst := allocOne_blocks r (u64 (st + i)) i s
    rcases hslot s with h | ⟨j, h1, h2, hj, h⟩
    · rw [h, hfirst]
      split
      · rename_i e
        exact .inr ⟨i, le_refl i, by omega, by rw [Function.update_self, e], rfl⟩
      · exact .inl rfl
    · right
      refine ⟨j, by omega, by omega, ?_, ?_⟩
      · rw [Function.update_of_ne (by omega), hj]
      · rw [h, hfirst]
        split <;> rfl

/-- A slot after the loop: as it was, or cleared. -/
theorem allocLoop_slots (st n i idx : Nat) (r : Rbuf) (s : Nat) :
    (allocLoop st n i idx r).1.blocks s = r.blocks s ∨
      ∃ c, (allocLoop st n i idx r).1.blocks s = (r.blocks s).renew c := by
  obtain ⟨slot, hslot⟩ := allocLoop_renews st n i idx r
  rcases hslot s with h | ⟨j, -, -, -, h⟩
  · exact .inl h
  · exact .inr ⟨_, h⟩

/-- The last pass leaves its slot with the last block of the loop. -/
theorem allocLoop_last (st n i idx : Nat) (r : Rbuf) :
    ((allocLoop st (n + 1) i idx r).1.blocks (allocLoop st (n + 1) i idx r).2.1).index = u64 (st + i + n) := by
  induction n generalizing i idx r with
  | zero =>
    show ((allocOne r (u64 (st + i)) i).1.blocks (allocSlot r i)).index = _
    rw [allocOne_blocks, if_pos rfl]
    rfl
  | succ n ih =>
    have h := ih (i + 1) (allocSlot r i) (allocOne r (u64 (st + i)) i).1
    rw [show st + (i + 1) + n = st + i + (n + 1) by omega] at h
    exact h

theorem getBlock_shape {r r' : Rbuf} {b : Nat} {blk : Option Nat} {evs : List RingEv}
    (h : rbufGetBlock r b = .ok (r', blk, evs)) : shape r' = shape r := by
  unfold rbufGetBlock at h
  split at h
  · cases h; rfl
  · split at h
    · cases h
    · split at h
      · cases h; rfl
      · dsimp only at h
        cases h
        exact shape_allocLoop _ _ _ _ r

theorem getBlock_slots {r r' : Rbuf} {b : Nat} {blk : Option Nat} {evs : List RingEv}
    (h : rbufGetBlock r b = .ok (r', blk, evs)) (s : Nat) :
    r'.blocks s = r.blocks s ∨ ∃ c, r'.blocks s = (r.blocks s).renew c := by
  unfold rbufGetBlock at h
  split at h
  · cases h; exact .inl rfl
  · split at h
    · cases h
    · split at h
      · cases h; exact .inl rfl
      · dsimp only at h
        cases h
        exact allocLoop_slots _ _ _ _ r s

/-- The difference to `last_block` is a multiple of `2 ^ 32`, so no block is allocated. -/
def Vanishes (r : Rbuf) (b : Nat) : Prop :=
  r.lastBlock ≠ blockInval ∧ r.lastBlock < b ∧ (b - r.lastBlock) % 2 ^ 32 = 0

instance (r : Rbuf) (b : Nat) : Decidable (Vanishes r b) := by unfold Vanishes; infer_instance

theorem newBlocks_pos {r : Rbuf} {b : Nat} (hb : b ≤ maxBlockIdx) (hl : r.lastBlock = blockInval ∨ r.lastBlock < b)
    (hv : ¬ Vanishes r b) : 0 < newBlocks r b ∧ newBlocks r b ≤ b + 1 := by
  by_cases h0 : r.lastBlock = blockInval
  · rw [newBlocks_first h0]
    omega
  · have hlt : r.lastBlock < b := by rcases hl with h | h; · exact absurd h h0
                                     · exact h
    have hne : (b - r.lastBlock) % 2 ^ 32 ≠ 0 := fun e => hv ⟨h0, hlt, e⟩
    have hR := r.size_pos
    have hR' := r.size_int
    unfold intMax at hR'
    unfold maxBlockIdx at hb
    rw [newBlocks_gap h0]
    have hd : b - r.lastBlock ≤ b := Nat.sub_le _ _
    generalize b - r.lastBlock = d at hne hd
    unfold intOfU64 sizeOfInt
    rw [Int.bmod_def]
    split <;> split <;> omega

/-- No more blocks are allocated than the frame's block is ahead. -/
theorem newBlocks_le {r : Rbuf} {b : Nat} (hl : r.lastBlock ≠ blockInval) (hlt : r.lastBlock < b) (hv : ¬ Vanishes r b) :
    newBlocks r b ≤ b - r.lastBlock := by
  have hne : (b - r.lastBlock) % 2 ^ 32 ≠ 0 := fun e => hv ⟨hl, hlt, e⟩
  have hR := r.size_int
  unfold intMax at hR
  rw [newBlocks_gap hl]
  generalize b - r.lastBlock = d at hne
  unfold intOfU64 sizeOfInt
  rw [Int.bmod_def]
  split <;> split <;> omega

/-- The slot `rbuf_get_block` returns holds the block asked for. -/
theorem getBlock_index {r r' : Rbuf} {b s : Nat} {evs : List RingEv} (hb : b ≤ maxBlockIdx) (hv : ¬ Vanishes r b)
    (h : rbufGetBlock r b = .ok (r', some s, evs)) : (r'.blocks s).index = b := by
  cases hs : (search r b (span r) 0 0).1 with
  | some t =>
    rw [rbufGetBlock_hit hs] at h
    cases h
    exact (search_some hs).1
  | none =>
    by_cases ha : intMax < r.ringAlloc
    · rw [rbufGetBlock_overflow hs ha] at h
      cases h
    by_cases hl : r.lastBlock ≠ blockInval ∧ b ≤ r.lastBlock
    · rw [rbufGetBlock_stale hs (Nat.not_lt.mp ha) hl.1 hl.2] at h
      cases h
    · have hl' : r.lastBlock = blockInval ∨ r.lastBlock < b := by
        by_cases e : r.lastBlock = blockInval
        · exact .inl e
        · exact .inr (Nat.lt_of_not_le fun hle => hl ⟨e, hle⟩)
      obtain ⟨hpos, hle⟩ := newBlocks_pos hb hl' hv
      rw [rbufGetBlock_new hs (Nat.not_lt.mp ha) hl'] at h
      cases h
      obtain ⟨n, hn⟩ : ∃ n, newBlocks r b = n + 1 := ⟨newBlocks r b - 1, by omega⟩
      show ((allocBlocks r b _).1.blocks (allocBlocks r b _).2.1).index = b
      unfold allocBlocks
      rw [hn, allocLoop_last]
      unfold maxBlockIdx at hb
      unfold u64
      omega

/-! ## Rules for an invariant of every slot -/

theorem sendRun_stale {ctx : RxContext} {blk : RbufBlock} (h : blk.fragmentToSend ≤ ctx.fecK) :
    (sendRun ctx blk true false).2 = ctx.fecK := by
  have hs := sendPlan_spec blk.fragmentLen true false (ctx.fecK - blk.fragmentToSend) blk.fragmentToSend
  have hb := hs.bounds
  show (sendPlan _ _ _ _ _).2 = _
  by_contra hne
  have := (hs.stop (by omega)).2.1
  cases this

theorem sendRun_recovered {ctx : RxContext} {blk : RbufBlock} (h : blk.fragmentToSend ≤ ctx.fecK) :
    (sendRun ctx blk false true).2 = ctx.fecK := by
  have hs := sendPlan_spec blk.fragmentLen false true (ctx.fecK - blk.fragmentToSend) blk.fragmentToSend
  have hb := hs.bounds
  show (sendPlan _ _ _ _ _).2 = _
  by_contra hne
  have := (hs.stop (by omega)).2.2
  cases this

/-- What is sent lies from the cursor on, and below `fec_k`. -/
theorem sendRun_mem {ctx : RxContext} {blk : RbufBlock} {stale recovered : Bool} {i : Nat}
    (h : i ∈ (sendRun ctx blk stale recovered).1) :
    blk.fragmentToSend ≤ i ∧ i < ctx.fecK ∧ (0 < blk.fragmentLen i ∨ recovered = true) := by
  have hs := sendPlan_spec blk.fragmentLen stale recovered (ctx.fecK - blk.fragmentToSend) blk.fragmentToSend
  have hb := hs.bounds
  obtain ⟨h1, h2⟩ := (hs.mem i).mp h
  exact ⟨h1.1, by omega, h2⟩

/-- The events that carry fragments out, or show how they were recovered. -/
def Ev.isOutput : Ev → Bool
  | .send .. => true
  | .decode .. => true
  | .logDecode .. => true
  | .recover .. => true
  | _ => false

/-- The fragment an event is about. -/
def Ev.fragment? : Ev → Option Nat
  | .logFrame _ f _ => some f
  | .store _ _ f _ => some f
  | .send _ f _ _ => some f
  | .decode _ _ f _ _ => some f
  | .logDecode _ f _ => some f
  | _ => none

/-- `I` is kept by what happens to a block, and what is then reported satisfies `Q`. -/
structure SlotRules (x : Externals) (ctx : RxContext) (nof : Nat) (I : RbufBlock → Prop) (Q : Ev → Prop) : Prop where
  toSend : ∀ blk, I blk → blk.fragmentToSend ≤ ctx.fecK
  send : ∀ blk, I blk → I { blk with fragmentToSend := (sendRun ctx blk false false).2 }
  handed : ∀ blk i, I blk → blk.fragmentToSend ≤ i → i < ctx.fecK → 0 < blk.fragmentLen i → ∀ e ∈ handOver ctx blk i, Q e
  flush : ∀ blk, I blk → I { blk with fragmentToSend := ctx.fecK, index := blockInval }
  recovered : ∀ blk blk' evs, I blk → Ready ctx blk → Recovery x ctx nof blk blk' evs →
    I { blk' with fragmentToSend := ctx.fecK, index := blockInval } ∧ (∀ e ∈ effects evs, Q e) ∧
      ∀ i, blk.fragmentToSend ≤ i → i < ctx.fecK → ∀ e ∈ handOver ctx blk' i, Q e
  renew : ∀ blk c, I blk → I (blk.renew c)
  rssi : ∀ blk f dbm, I blk → I (raiseRssi blk f dbm)
  leftover : ∀ blk f left, I blk → blk.fragmentLen f = 0 → I (putFragment blk f left)
  other : ∀ e : Ev, e.isOutput = false → e.fragment? = none → Q e

variable {x : Externals} {ctx : RxContext} {I : RbufBlock → Prop} {Q : Ev → Prop}

/-- Every slot is good, and so is everything reported. -/
def Good (I : RbufBlock → Prop) (Q : Ev → Prop) (r : Rbuf) (evs : List Ev) : Prop :=
  (∀ s, I (r.blocks s)) ∧ ∀ e ∈ evs, Q e

/-- It is enough to look at the events that are not texts. -/
theorem good_of_effects {nof : Nat} (hr : SlotRules x ctx nof I Q) {r : Rbuf} {evs : List Ev} (h : ∀ s, I (r.blocks s))
    (he : ∀ e ∈ effects evs, Q e) : Good I Q r evs := by
  refine ⟨h, fun e hm => ?_⟩
  by_cases hmsg : e.isMsg = false
  · exact he e (mem_effects.mpr ⟨hm, hmsg⟩)
  · cases e with
    | msg t fmt => exact hr.other _ rfl rfl
    | _ => exact absurd rfl hmsg

theorem good_nil {r : Rbuf} (h : ∀ s, I (r.blocks s)) : Good I Q r [] := ⟨h, fun _ he => absurd he List.not_mem_nil⟩

theorem good_cons {r : Rbuf} {e : Ev} {evs : List Ev} (h : Good I Q r evs) (he : Q e) : Good I Q r (e :: evs) := by
  refine ⟨h.1, fun e' hm => ?_⟩
  rcases List.mem_cons.mp hm with rfl | hm
  · exact he
  · exact h.2 e' hm

theorem good_append {r r' : Rbuf} {a b : List Ev} (h : Good I Q r a) (h' : Good I Q r' b) : Good I Q r' (a ++ b) := by
  refine ⟨h'.1, fun e hm => ?_⟩
  rcases List.mem_append.mp hm with hm | hm
  · exact h.2 e hm
  · exact h'.2 e hm

theorem slots_setBlock {r : Rbuf} (h : ∀ s, I (r.blocks s)) {slot : Nat} {blk : RbufBlock} (hb : I blk) :
    ∀ s, I ((r.setBlock slot blk).blocks s) := by
  intro s
  by_cases e : s = slot
  · subst e; rwa [setBlock_same]
  · rw [setBlock_ne r blk e]; exact h s

/-- What a call of `send_data_any` reports. -/
theorem sent_good {nof : Nat} (hr : SlotRules x ctx nof I Q) {r : Rbuf} {slot : Nat} (h : I (r.blocks slot)) (stale : Bool) :
    ∀ e ∈ effects (sendDataAny ctx r slot stale false).2, Q e := by
  intro e hm
  rw [(sendDataAny_eq ctx r slot stale false).2, List.mem_flatMap] at hm
  obtain ⟨i, hi, hmem⟩ := hm
  obtain ⟨h1, h2, h3⟩ := sendRun_mem hi
  exact hr.handed _ i h h1 h2 (by simpa using h3) e hmem

theorem slots_send {nof : Nat} (hr : SlotRules x ctx nof I Q) {r : Rbuf} (h : ∀ s, I (r.blocks s)) (slot : Nat) :
    Good I Q (sendDataSeq ctx r slot).1 (sendDataSeq ctx r slot).2 := by
  obtain ⟨⟨q, hq⟩, -⟩ := sendDataAny_eq ctx r slot false false
  change (sendDataSeq ctx r slot).1 = _ at hq
  refine good_of_effects hr (fun s => ?_) (sent_good hr (h slot) false)
  rw [hq]
  by_cases e : s = slot
  · subst e
    rw [sentTo_same]
    exact hr.send _ (h s)
  · rw [sentTo_ne r _ q e]; exact h s

/-- Freeing a slot whose cursor is at its end. -/
theorem slots_free {nof : Nat} (hr : SlotRules x ctx nof I Q) {r : Rbuf} {slot : Nat} (h : ∀ s, s ≠ slot → I (r.blocks s))
    {blk : RbufBlock} (hb : I blk) (hk : r.blocks slot = { blk with fragmentToSend := ctx.fecK }) :
    ∀ s, I ((rbufFreeBlock r slot).blocks s) := by
  intro s
  by_cases e : s = slot
  · subst e
    rw [free_same, hk]
    exact hr.flush blk hb
  · rw [free_ne r e]; exact h s e

theorem slots_flush {nof : Nat} (hr : SlotRules x ctx nof I Q) {r : Rbuf} (h : ∀ s, I (r.blocks s)) (slot : Nat) :
    Good I Q (rbufFreeBlock (sendDataStale ctx r slot).1 slot) (sendDataStale ctx r slot).2 := by
  obtain ⟨⟨q, hq⟩, -⟩ := sendDataAny_eq ctx r slot true false
  change (sendDataStale ctx r slot).1 = _ at hq
  rw [sendRun_stale (hr.toSend _ (h slot))] at hq
  refine good_of_effects hr ?_ (sent_good hr (h slot) true)
  rw [hq]
  exact slots_free hr (fun s e => by rw [sentTo_ne r _ q e]; exact h s) (h slot) (sentTo_same ..)

theorem purgeLoop_slots {nof : Nat} (hr : SlotRules x ctx nof I Q) {slot n : Nat} {r r' : Rbuf} {evs : List Ev}
    (h : ∀ s, I (r.blocks s)) (hp : purgeLoop ctx slot n r = .ok (r', evs)) : Good I Q r' evs ∧ shape r' = shape r := by
  induction n generalizing r r' evs with
  | zero =>
    unfold purgeLoop at hp
    split at hp
    · cases hp
      exact ⟨good_nil h, rfl⟩
    · cases hp
  | succ n ih =>
    unfold purgeLoop at hp
    split at hp
    · cases hp
      exact ⟨good_nil h, rfl⟩
    · obtain ⟨⟨r1, e1⟩, h1, h2⟩ := Machine.bind_ok_iff.mp hp
      cases h2
      have hs := slots_flush hr h r.ringFront
      obtain ⟨hg, hsh⟩ := ih hs.1 h1
      refine ⟨good_append hs (good_cons hg (hr.other _ rfl rfl)), ?_⟩
      rw [hsh, shape_free]
      exact shape_sendDataAny ctx r _ true false

theorem purgeStale_slots {nof : Nat} (hr : SlotRules x ctx nof I Q) {slot : Nat} {r r' : Rbuf} {evs : List Ev}
    (h : ∀ s, I (r.blocks s)) (hp : purgeStale x ctx r slot = .ok (r', evs)) : Good I Q r' evs ∧ shape r' = shape r := by
  obtain ⟨⟨r1, e1⟩, h1, h2⟩ := Machine.bind_ok_iff.mp hp
  cases h2
  obtain ⟨hg, hsh⟩ := purgeLoop_slots hr h h1
  exact ⟨good_append hg (good_cons (good_nil hg.1) (hr.other _ rfl rfl)), hsh⟩

theorem putAll_keeps (blk : RbufBlock) (ps : List (Nat × Bytes)) :
    (putAll blk ps).index = blk.index ∧ (putAll blk ps).fragmentUsed = blk.fragmentUsed ∧
      (putAll blk ps).fragmentToSend = blk.fragmentToSend ∧ (putAll blk ps).fragmentLen = blk.fragmentLen ∧
      (putAll blk ps).rssi = blk.rssi := by
  induction ps generalizing blk with
  | nil => exact ⟨rfl, rfl, rfl, rfl, rfl⟩
  | cons p ps ih => exact ih (putFragment blk p.1 p.2)

/-- Recovery changes fragment buffers only. -/
theorem Recovery.keeps {nof : Nat} {blk blk' : RbufBlock} {evs : List Ev} (h : Recovery x ctx nof blk blk' evs) :
    blk'.index = blk.index ∧ blk'.fragmentUsed = blk.fragmentUsed ∧ blk'.fragmentToSend = blk.fragmentToSend ∧
      blk'.fragmentLen = blk.fragmentLen ∧ blk'.rssi = blk.rssi := by
  cases h with
  | complete _ => exact ⟨rfl, rfl, rfl, rfl, rfl⟩
  | decoded _ _ _ => exact putAll_keeps _ _

/-- A recovered block is handed over to its end, and freed. -/
theorem finish_eq {nof : Nat} {r : Rbuf} {slot : Nat} {blk : RbufBlock} {evs : List Ev}
    (hready : Ready ctx (r.blocks slot)) (hrec : Recovery x ctx nof (r.blocks slot) blk evs) :
    ∃ q, (finish ctx r slot blk).1 = rbufFreeBlock (sentTo (r.setBlock slot blk) slot ctx.fecK q) slot ∧
      effects (finish ctx r slot blk).2 = (sendRun ctx blk false true).1.flatMap (handOver ctx blk) ++
        [.ring (freeEv (sentTo (r.setBlock slot blk) slot ctx.fecK q) slot)] := by
  obtain ⟨⟨q, hq⟩, he⟩ := sendDataAny_eq ctx (r.setBlock slot blk) slot false true
  have hend : (sendRun ctx blk false true).2 = ctx.fecK := by
    refine sendRun_recovered ?_
    rw [hrec.keeps.2.2.1]
    exact Nat.le_of_lt hready.1
  rw [setBlock_same] at hq he
  rw [hend] at hq
  refine ⟨q, congrArg (rbufFreeBlock · slot) hq, ?_⟩
  rw [← he, ← hq]
  exact effects_append _ _

theorem dataFec_slots {r r' : Rbuf} {slot : Nat} {evs : List Ev} (hr : SlotRules x ctx r.fragmentNof I Q)
    (h : ∀ s, I (r.blocks s)) (hd : dataFec x ctx r slot = .ok (r', evs)) : Good I Q r' evs ∧ shape r' = shape r := by
  obtain ⟨-, ⟨-, rfl, rfl⟩ | ⟨hready, blk, e1, hrec, rfl, rfl⟩⟩ := dataFec_cases hd
  · exact ⟨good_nil h, rfl⟩
  · obtain ⟨hI, hev, hout⟩ := hr.recovered _ _ _ (h slot) hready hrec
    obtain ⟨q, hq, he⟩ := finish_eq hready hrec
    rw [hq]
    refine ⟨good_of_effects hr (fun s => ?_) fun e hm => ?_, rfl⟩
    · by_cases e : s = slot
      · subst e
        rw [free_same, sentTo_same, setBlock_same]
        exact hI
      · rw [free_ne _ e, sentTo_ne _ _ _ e, setBlock_ne _ _ e]
        exact h s
    · rw [effects_append, he, List.mem_append, List.mem_append, List.mem_flatMap] at hm
      rcases hm with hm | ⟨i, hi, hm⟩ | hm
      · exact hev e hm
      · obtain ⟨h1, h2, -⟩ := sendRun_mem hi
        rw [hrec.keeps.2.2.1] at h1
        exact hout i h1 h2 e hm
      · rw [List.mem_singleton] at hm
        subst hm
        exact hr.other _ rfl rfl

theorem dataAdd_slots {r r' : Rbuf} {slot : Nat} {evs : List Ev} (hr : SlotRules x ctx r.fragmentNof I Q)
    (h : ∀ s, I (r.blocks s)) (hd : dataAdd x ctx r slot = .ok (r', evs)) : Good I Q r' evs ∧ shape r' = shape r := by
  have hsend := slots_send hr h slot
  have hshape : shape (sendDataSeq ctx r slot).1 = shape r := shape_sendDataAny ctx r slot false false
  rcases dataAdd_cases hd with ⟨-, ⟨hk, rfl, rfl⟩ | ⟨-, e, hfec, rfl⟩⟩ | ⟨-, r1, e1, e, hp, hfec, rfl⟩
  · have hfree := slots_free hr (fun s (_ : s ≠ slot) => hsend.1 s) (hsend.1 slot) (by rw [← hk])
    exact ⟨good_append hsend (good_cons (good_nil hfree) (hr.other _ rfl rfl)), hshape⟩
  · have hnof : (sendDataSeq ctx r slot).1.fragmentNof = r.fragmentNof := congrArg (·.2.1) hshape
    obtain ⟨hg, hsh⟩ := dataFec_slots (hnof ▸ hr) hsend.1 hfec
    exact ⟨good_append hsend hg, hsh.trans hshape⟩
  · obtain ⟨hg1, hsh1⟩ := purgeStale_slots hr h hp
    have hnof : r1.fragmentNof = r.fragmentNof := congrArg (·.2.1) hsh1
    obtain ⟨hg, hsh⟩ := dataFec_slots (hnof ▸ hr) hg1.1 hfec
    exact ⟨good_append hg1 hg, hsh.trans hsh1⟩

/-! ## rx_data -/

/-- What a DATA frame leaves alone. -/
theorem DataCall.ctx_eq {q : Ret} (h : DataCall x ctx q) :
    ∃ ring key, q.ctx = { ctx with rxRing := ring, hasSessionKey := key } ∧ (key = true → ctx.hasSessionKey = true) := by
  cases h with
  | refused _ _ => exact ⟨ctx.rxRing, ctx.hasSessionKey, rfl, id⟩
  | outside _ _ => exact ⟨_, ctx.hasSessionKey, rfl, id⟩
  | filed _ _ hf =>
    cases hf with
    | duplicate _ => exact ⟨_, ctx.hasSessionKey, rfl, id⟩
    | forged _ _ => exact ⟨_, false, rfl, fun h => by cases h⟩
    | stored _ _ _ _ => exact ⟨_, ctx.hasSessionKey, rfl, id⟩

/-- `I` is kept by filing the fragment at hand, and `Q` holds of what is reported of it. -/
structure StoreRules (x : Externals) (ctx : RxContext) (r : Rbuf) (I : RbufBlock → Prop) (Q : Ev → Prop) : Prop where
  frame : Q (.logFrame ctx.wfb.blockIdx ctx.wfb.fragmentIdx ctx.wfb.pktlen)
  store : ∀ r1 slot evs plain, rbufGetBlock r ctx.wfb.blockIdx = .ok (r1, some slot, evs) →
    I (raiseRssi (r1.blocks slot) ctx.wfb.fragmentIdx ctx.dbm) → (r1.blocks slot).fragmentLen ctx.wfb.fragmentIdx = 0 →
    decrypted x ctx.crypto ctx.wfb = .ok (.ok plain) → plain.length ≤ r1.fragmentSize →
    I (storeFragment (raiseRssi (r1.blocks slot) ctx.wfb.fragmentIdx ctx.dbm) ctx.wfb.fragmentIdx r1.fragmentSize plain) ∧
      Q (.store slot (r1.blocks slot).index ctx.wfb.fragmentIdx plain.length)

/-- A DATA frame keeps `I` of every slot, if filing its fragment does. -/
theorem DataCall.slots {q : Ret} (h : DataCall x ctx q) {r : Rbuf} (hr : ctx.rxRing = some r)
    (hrules : SlotRules x ctx r.fragmentNof I Q) (hI : ∀ s, I (r.blocks s))
    (hfile : Admitted ctx r → StoreRules x ctx r I Q) :
    ∃ r', q.ctx.rxRing = some r' ∧ Good I Q r' q.evs ∧ shape r' = shape r := by
  have hget : ∀ {r1 : Rbuf} {blk : Option Nat} {evs : List RingEv}, rbufGetBlock r ctx.wfb.blockIdx = .ok (r1, blk, evs) →
      ∀ s, I (r1.blocks s) := fun {r1 blk evs} hg s => by
    rcases getBlock_slots hg s with e | ⟨c, e⟩
    · rw [e]; exact hI s
    · rw [e]; exact hrules.renew _ c (hI s)
  have hlog : Admitted ctx r → ∀ {evs : List RingEv} {r1 : Rbuf}, (∀ s, I (r1.blocks s)) → Good I Q r1
      (.logFrame ctx.wfb.blockIdx ctx.wfb.fragmentIdx ctx.wfb.pktlen :: evs.map Ev.ring) := fun ha {evs r1} h1 => by
    refine good_cons ⟨h1, fun e hm => ?_⟩ (hfile ha).frame
    obtain ⟨a, -, rfl⟩ := List.mem_map.mp hm
    exact hrules.other _ rfl rfl
  cases h with
  | refused _ hq =>
    refine ⟨r, hr, good_of_effects hrules hI fun e hm => ?_, rfl⟩
    rw [show effects _ = [] from hq] at hm
    cases hm
  | outside ha hg =>
    cases hr.symm.trans ha.ring
    exact ⟨_, rfl, hlog ha (hget hg), getBlock_shape hg⟩
  | @filed _ r1 slot evs _ ha hg hf =>
    cases hr.symm.trans ha.ring
    have h1 := hget hg
    have hsh := getBlock_shape hg
    have hrssi := hrules.rssi _ ctx.wfb.fragmentIdx ctx.dbm (h1 slot)
    cases hf with
    | duplicate _ =>
      refine ⟨_, rfl, ?_, hsh⟩
      rw [List.append_nil]
      exact hlog ha (slots_setBlock h1 hrssi)
    | @forged left fmt hl _ =>
      have hput := hrules.leftover _ ctx.wfb.fragmentIdx left hrssi (by rw [raiseRssi_len]; exact hl)
      refine ⟨_, rfl, good_append (hlog ha h1) (good_of_effects hrules (slots_setBlock h1 hput) fun e hm => ?_), hsh⟩
      have he : effects (errEvs fmt ++ [Ev.contextDump]) = [Ev.contextDump] := by cases fmt <;> rfl
      rw [he, List.mem_singleton] at hm
      subst hm
      exact hrules.other _ rfl rfl
    | stored hl hd hle hadd =>
      obtain ⟨hst, hQ⟩ := (hfile ha).store r1 slot evs _ hg hrssi hl hd hle
      have hnof : r1.fragmentNof = r.fragmentNof := congrArg (·.2.1) hsh
      obtain ⟨hgood, hsh'⟩ := dataAdd_slots (hnof ▸ hrules) (slots_setBlock h1 hst) hadd
      exact ⟨_, rfl, good_append (hlog ha h1) (good_cons hgood hQ), hsh'.trans hsh⟩

end WfbYa.Rx
