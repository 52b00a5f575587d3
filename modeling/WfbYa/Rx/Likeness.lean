/-
  WfbYa.Rx.Likeness — signal strengths decide nothing.

  `Like ctx ctx'`: the two receivers differ in the frame at hand and in the rssi values of
  their slots, nowhere else. Whatever one does with a frame the other does as well, and
  they stay alike.

  - `rbufGetBlock_like` / `dataAdd_like` / `rxData_like`: level by level.
  - `rxStep_like`: a DATA frame makes two receivers that are alike deliver the same.
-/

import WfbYa.Rx.Rejection

namespace WfbYa.Rx

open WfbYa.Frame WfbYa.Ring WfbYa.Lib

/-! ## The ring -/

def withRssi (blk : RbufBlock) (q : Nat → Int) : RbufBlock := { blk with rssi := q }

/-- The ring with other rssi values. -/
def rssiRing (r : Rbuf) (ρ : Nat → Nat → Int) : Rbuf := { r with blocks := fun s => withRssi (r.blocks s) (ρ s) }

variable {r : Rbuf} {ρ : Nat → Nat → Int}

theorem rssiRing_setBlock (r : Rbuf) (ρ : Nat → Nat → Int) (s : Nat) (blk : RbufBlock) (q : Nat → Int) :
    (rssiRing r ρ).setBlock s (withRssi blk q) = rssiRing (r.setBlock s blk) (Function.update ρ s q) := by
  have hb : Function.update (rssiRing r ρ).blocks s (withRssi blk q) =
      (rssiRing (r.setBlock s blk) (Function.update ρ s q)).blocks := by
    funext t
    by_cases e : t = s
    · subst e
      simp [rssiRing, Rbuf.setBlock]
    · simp [rssiRing, Rbuf.setBlock, Function.update_of_ne e]
  show ({ rssiRing r ρ with blocks := _ } : Rbuf) = _
  rw [hb]
  rfl

/-- Changing a slot and leaving its rssi values. -/
theorem rssiRing_setBlock_same (r : Rbuf) (ρ : Nat → Nat → Int) (s : Nat) (blk : RbufBlock) :
    (rssiRing r ρ).setBlock s (withRssi blk (ρ s)) = rssiRing (r.setBlock s blk) ρ := by
  rw [rssiRing_setBlock, Function.update_eq_self]

theorem freeLoop_congr {a b : Nat → RbufBlock} (h : ∀ s, (a s).index = (b s).index) (R n f : Nat) :
    freeLoop a R n f = freeLoop b R n f := by
  induction n generalizing f with
  | zero => rfl
  | succ n ih =>
    have hi : (a f).inval = (b f).inval := by
      unfold RbufBlock.inval
      rw [h f]
    simp only [freeLoop, hi, ih]

theorem freeRun_like (r : Rbuf) (ρ : Nat → Nat → Int) (s : Nat) : freeRun (rssiRing r ρ) s = freeRun r s := by
  refine freeLoop_congr (fun t => ?_) _ _ _
  by_cases e : t = s
  · subst e
    simp [Rbuf.setBlock]
  · simp [Rbuf.setBlock, Function.update_of_ne e, rssiRing, withRssi]

theorem free_like (r : Rbuf) (ρ : Nat → Nat → Int) (s : Nat) :
    rbufFreeBlock (rssiRing r ρ) s = rssiRing (rbufFreeBlock r s) ρ := by
  have hb := congrArg Rbuf.blocks (rssiRing_setBlock_same r ρ s { r.blocks s with index := blockInval })
  change ((rssiRing r ρ).setBlock s { (rssiRing r ρ).blocks s with index := blockInval }).blocks = _ at hb
  unfold rbufFreeBlock
  simp only [freeRun_like, hb]
  rfl

theorem freeEv_like (r : Rbuf) (ρ : Nat → Nat → Int) (s : Nat) : freeEv (rssiRing r ρ) s = freeEv r s := by
  unfold freeEv
  rw [freeRun_like]
  rfl

theorem search_like (r : Rbuf) (ρ : Nat → Nat → Int) (b n i idx : Nat) :
    search (rssiRing r ρ) b n i idx = search r b n i idx := by
  induction n generalizing i idx with
  | zero => rfl
  | succ n ih =>
    simp only [search, ih]
    rfl

theorem dropped_like (r : Rbuf) (ρ : Nat → Nat → Int) (s : Nat) :
    dropped (rssiRing r ρ) s = rssiRing (dropped r s) ρ ∧ dropEvs (rssiRing r ρ) s = dropEvs r s := by
  have hi : ((rssiRing r ρ).blocks s).inval = (r.blocks s).inval := rfl
  unfold dropped dropEvs
  rw [hi, free_like, freeEv_like]
  split <;> exact ⟨rfl, rfl⟩

theorem allocOne_like (r : Rbuf) (ρ : Nat → Nat → Int) (b i : Nat) :
    ∃ ρ', allocOne (rssiRing r ρ) b i = (rssiRing (allocOne r b i).1 ρ', (allocOne r b i).2) := by
  obtain ⟨hd, he⟩ := dropped_like r ρ (allocSlot r i)
  have hs : allocSlot (rssiRing r ρ) i = allocSlot r i := rfl
  refine ⟨Function.update ρ (allocSlot r i) (fun _ => -128), ?_⟩
  have hblk : (rssiRing (dropped r (allocSlot r i)) ρ).setBlock (allocSlot r i)
      (((rssiRing (dropped r (allocSlot r i)) ρ).blocks (allocSlot r i)).renew b) =
      rssiRing ((dropped r (allocSlot r i)).setBlock (allocSlot r i)
        (((dropped r (allocSlot r i)).blocks (allocSlot r i)).renew b))
        (Function.update ρ (allocSlot r i) (fun _ => -128)) :=
    rssiRing_setBlock (dropped r (allocSlot r i)) ρ _ (((dropped r (allocSlot r i)).blocks (allocSlot r i)).renew b) _
  unfold allocOne
  simp only [hs, hd, he, hblk]
  rfl

theorem allocLoop_like (st n i idx : Nat) (r : Rbuf) (ρ : Nat → Nat → Int) :
    ∃ ρ', allocLoop st n i idx (rssiRing r ρ) =
      (rssiRing (allocLoop st n i idx r).1 ρ', (allocLoop st n i idx r).2.1, (allocLoop st n i idx r).2.2) := by
  induction n generalizing i idx r ρ with
  | zero => exact ⟨ρ, rfl⟩
  | succ n ih =>
    obtain ⟨ρ1, h1⟩ := allocOne_like r ρ (u64 (st + i)) i
    obtain ⟨ρ2, h2⟩ := ih (i + 1) (allocSlot r i) (allocOne r (u64 (st + i)) i).1 ρ1
    refine ⟨ρ2, ?_⟩
    simp only [allocLoop, h1]
    rw [show allocSlot (rssiRing r ρ) i = allocSlot r i from rfl, h2]

theorem rbufGetBlock_like {b : Nat} {r' : Rbuf} {s : Option Nat} {evs : List RingEv} (ρ : Nat → Nat → Int)
    (h : rbufGetBlock r b = .ok (r', s, evs)) : ∃ ρ', rbufGetBlock (rssiRing r ρ) b = .ok (rssiRing r' ρ', s, evs) := by
  have hsearch : search (rssiRing r ρ) b (span (rssiRing r ρ)) 0 0 = search r b (span r) 0 0 := search_like ..
  cases hs : (search r b (span r) 0 0).1 with
  | some t =>
    rw [rbufGetBlock_hit hs] at h
    cases h
    exact ⟨ρ, rbufGetBlock_hit (by rw [hsearch]; exact hs)⟩
  | none =>
    have hs' : (search (rssiRing r ρ) b (span (rssiRing r ρ)) 0 0).1 = none := by rw [hsearch]; exact hs
    by_cases ha : intMax < r.ringAlloc
    · rw [rbufGetBlock_overflow hs ha] at h
      cases h
    · rw [Nat.not_lt] at ha
      by_cases hl : r.lastBlock ≠ blockInval ∧ b ≤ r.lastBlock
      · rw [rbufGetBlock_stale hs ha hl.1 hl.2] at h
        cases h
        exact ⟨ρ, rbufGetBlock_stale hs' ha hl.1 hl.2⟩
      · have hnew : r.lastBlock = blockInval ∨ r.lastBlock < b := by
          by_contra hne
          push Not at hne
          exact hl hne
        rw [rbufGetBlock_new hs ha hnew] at h
        cases h
        obtain ⟨ρ', he⟩ := allocLoop_like (u64 (b + 2 ^ 64 - newBlocks r b + 1)) (newBlocks r b) 0 (search r b (span r) 0 0).2 r ρ
        refine ⟨ρ', (rbufGetBlock_new hs' ha hnew).trans ?_⟩
        rw [hsearch]
        change allocBlocks (rssiRing r ρ) b _ = _ at he
        rw [he]
        rfl

/-! ## Handing over -/

/-- What the decode handlers were handed: handler, block, fragment, payload. -/
def delivered (evs : List Ev) : List (Nat × Nat × Nat × Bytes) :=
  evs.filterMap fun e => match e with
    | .decode h b f _ data => some (h, b, f, data)
    | _ => none

@[simp] theorem delivered_append (a b : List Ev) : delivered (a ++ b) = delivered a ++ delivered b := List.filterMap_append ..

theorem delivered_effects (evs : List Ev) : delivered (effects evs) = delivered evs := filterMap_effects (fun _ _ => rfl) evs

theorem delivered_quiet {evs : List Ev} (h : Quiet evs) : delivered evs = [] := by
  rw [← delivered_effects, show effects evs = [] from h]
  rfl

/-- The receiver with another ring. -/
def onRing (ctx : RxContext) (o : Option Rbuf) : RxContext := { ctx with rxRing := o }

variable {x : Externals} {ctx : RxContext} {o : Option Rbuf}

theorem deliver_like (ctx : RxContext) (o : Option Rbuf) (blk : RbufBlock) (q : Nat → Int) :
    delivered (deliver (onRing ctx o) (withRssi blk q)) = delivered (deliver ctx blk) := by
  have hmap : ∀ rssi : Int, delivered (ctx.decodeHandler.map fun h => Ev.decode h blk.index blk.fragmentToSend rssi
      (packetData (blk.fragment blk.fragmentToSend))) = ctx.decodeHandler.map fun h =>
        (h, blk.index, blk.fragmentToSend, packetData (blk.fragment blk.fragmentToSend)) := fun rssi => by
    unfold delivered
    rw [List.filterMap_map, ← List.filterMap_eq_map]
    rfl
  have hq := hmap (q blk.fragmentToSend)
  have hr := hmap (blk.rssi blk.fragmentToSend)
  unfold deliver onRing withRssi
  dsimp only
  split
  · rfl
  · split
    · rfl
    · rw [delivered_append, delivered_append]
      split
      · rfl
      · rw [hq, hr]

theorem sendDataOne_like (ctx : RxContext) (o : Option Rbuf) (r : Rbuf) (ρ : Nat → Nat → Int) (slot : Nat) :
    (sendDataOne (onRing ctx o) (rssiRing r ρ) slot).1 = rssiRing (sendDataOne ctx r slot).1 ρ ∧
      delivered (sendDataOne (onRing ctx o) (rssiRing r ρ) slot).2 = delivered (sendDataOne ctx r slot).2 := by
  have hd := deliver_like ctx o (r.blocks slot) (ρ slot)
  refine ⟨rfl, ?_⟩
  unfold sendDataOne
  dsimp only
  rw [List.cons_append, List.cons_append]
  show delivered ((if 0 < r.lastSeq ∧ u64 (r.lastSeq + 1) < blkGetSeq ctx (r.blocks slot) then _ else []) ++ _) =
    delivered ((if 0 < r.lastSeq ∧ u64 (r.lastSeq + 1) < blkGetSeq ctx (r.blocks slot) then _ else []) ++ _)
  rw [delivered_append, delivered_append]
  exact congrArg _ hd

theorem advance_like (r : Rbuf) (ρ : Nat → Nat → Int) (slot : Nat) : advance (rssiRing r ρ) slot = rssiRing (advance r slot) ρ :=
  rssiRing_setBlock_same r ρ slot { r.blocks slot with fragmentToSend := (r.blocks slot).fragmentToSend + 1 }

theorem sendLoop_like (ctx : RxContext) (o : Option Rbuf) (slot : Nat) (stale recovered : Bool) (n : Nat) (r : Rbuf)
    (ρ : Nat → Nat → Int) :
    (sendLoop (onRing ctx o) slot stale recovered n (rssiRing r ρ)).1 = rssiRing (sendLoop ctx slot stale recovered n r).1 ρ ∧
      delivered (sendLoop (onRing ctx o) slot stale recovered n (rssiRing r ρ)).2 =
        delivered (sendLoop ctx slot stale recovered n r).2 := by
  induction n generalizing r with
  | zero => exact ⟨rfl, rfl⟩
  | succ n ih =>
    simp only [sendLoop]
    by_cases hc : 0 < (r.blocks slot).fragmentLen (r.blocks slot).fragmentToSend ∨ recovered = true
    · have hc' : 0 < ((rssiRing r ρ).blocks slot).fragmentLen ((rssiRing r ρ).blocks slot).fragmentToSend ∨ recovered = true := hc
      rw [if_pos hc, if_pos hc']
      obtain ⟨h1, h2⟩ := sendDataOne_like ctx o r ρ slot
      obtain ⟨h3, h4⟩ := ih (advance (sendDataOne ctx r slot).1 slot)
      rw [← advance_like, ← h1] at h3 h4
      exact ⟨h3, by rw [delivered_append, delivered_append, h2, h4]⟩
    · have hc' : ¬ (0 < ((rssiRing r ρ).blocks slot).fragmentLen ((rssiRing r ρ).blocks slot).fragmentToSend ∨
        recovered = true) := hc
      rw [if_neg hc, if_neg hc']
      split
      · have h := ih (advance r slot)
        rw [← advance_like] at h
        exact h
      · exact ⟨rfl, rfl⟩

theorem sendDataAny_like (ctx : RxContext) (o : Option Rbuf) (r : Rbuf) (ρ : Nat → Nat → Int)
    (slot : Nat) (stale recovered : Bool) :
    (sendDataAny (onRing ctx o) (rssiRing r ρ) slot stale recovered).1 = rssiRing (sendDataAny ctx r slot stale recovered).1 ρ ∧
      delivered (sendDataAny (onRing ctx o) (rssiRing r ρ) slot stale recovered).2 =
        delivered (sendDataAny ctx r slot stale recovered).2 := sendLoop_like ..

/-! ## purge_stale, data_recovery, data_add -/

theorem purgeLoop_like {slot n : Nat} {r' : Rbuf} {evs : List Ev} (h : purgeLoop ctx slot n r = .ok (r', evs)) :
    ∃ evs', purgeLoop (onRing ctx o) slot n (rssiRing r ρ) = .ok (rssiRing r' ρ, evs') ∧ delivered evs' = delivered evs := by
  induction n generalizing r r' evs with
  | zero =>
    unfold purgeLoop at h ⊢
    split at h
    · rename_i hf
      cases h
      exact ⟨[], if_pos hf, rfl⟩
    · cases h
  | succ n ih =>
    unfold purgeLoop at h ⊢
    split at h
    · rename_i hf
      cases h
      exact ⟨[], if_pos hf, rfl⟩
    · rename_i hf
      obtain ⟨⟨r1, e1⟩, h1, h2⟩ := Machine.bind_ok_iff.mp h
      cases h2
      obtain ⟨hr, he⟩ := sendDataAny_like ctx o r ρ r.ringFront true false
      change (sendDataStale (onRing ctx o) (rssiRing r ρ) r.ringFront).1 = rssiRing (sendDataStale ctx r r.ringFront).1 ρ at hr
      change delivered (sendDataStale (onRing ctx o) (rssiRing r ρ) r.ringFront).2 = delivered
        (sendDataStale ctx r r.ringFront).2 at he
      obtain ⟨e', hl, hd⟩ := ih h1
      have hf' : ¬ (rssiRing r ρ).ringFront = slot := hf
      refine ⟨(sendDataStale (onRing ctx o) (rssiRing r ρ) r.ringFront).2 ++
        .ring (freeEv (sendDataStale ctx r r.ringFront).1 r.ringFront) :: e', ?_, ?_⟩
      · rw [if_neg hf']
        simp only [show (rssiRing r ρ).ringFront = r.ringFront from rfl, hr, free_like, freeEv_like, hl]
        rfl
      · rw [delivered_append, delivered_append, he]
        exact congrArg _ hd

theorem purgeStale_like {slot : Nat} {r' : Rbuf} {evs : List Ev} (h : purgeStale x ctx r slot = .ok (r', evs)) :
    ∃ evs', purgeStale x (onRing ctx o) (rssiRing r ρ) slot = .ok (rssiRing r' ρ, evs') ∧ delivered evs' = delivered evs := by
  obtain ⟨⟨r1, e1⟩, h1, h2⟩ := Machine.bind_ok_iff.mp h
  cases h2
  obtain ⟨e', hl, hd⟩ := purgeLoop_like (o := o) (ρ := ρ) h1
  refine ⟨e' ++ [.purged slot r.ringAlloc (freed e')], Machine.bind_ok_iff.mpr ⟨_, hl, rfl⟩, ?_⟩
  rw [delivered_append, delivered_append, hd]
  rfl

theorem planLoop_like (blk : RbufBlock) (q : Nat → Int) (nof n i j sz : Nat) :
    planLoop (withRssi blk q) nof n i j sz = planLoop blk nof n i j sz := by
  induction n generalizing i j sz with
  | zero => rfl
  | succ n ih =>
    have hn : nextParity (withRssi blk q) nof j = nextParity blk nof j := rfl
    simp only [planLoop, ih, hn]
    rfl

theorem putAll_like (blk : RbufBlock) (q : Nat → Int) (ps : List (Nat × Bytes)) :
    putAll (withRssi blk q) ps = withRssi (putAll blk ps) q := by
  induction ps generalizing blk with
  | nil => rfl
  | cons p ps ih => exact ih (putFragment blk p.1 p.2)

theorem recoverMissing_like {slot : Nat} {r' : Rbuf} {evs : List Ev} (h : recoverMissing x ctx r slot = .ok (r', evs)) :
    ∃ evs', recoverMissing x (onRing ctx o) (rssiRing r ρ) slot = .ok (rssiRing r' ρ, evs') ∧ delivered evs' = delivered evs := by
  unfold recoverMissing at h ⊢
  have hc : fecCount (onRing ctx o) ((rssiRing r ρ).blocks slot) = fecCount ctx (r.blocks slot) := rfl
  rw [hc]
  split at h
  · rename_i hne
    obtain ⟨⟨r1, e1⟩, h1, h2⟩ := Machine.bind_ok_iff.mp h
    cases h2
    obtain ⟨p, hp, h3⟩ := Machine.bind_ok_iff.mp h1
    obtain ⟨outpkts, ho, h4⟩ := Machine.bind_ok_iff.mp h3
    cases h4
    refine ⟨[.msg .debug "Recover %d frames using FEC\n",
      .recover (received (r.blocks slot) r.fragmentNof) p.index p.out p.pktsiz],
      ?_, rfl⟩
    have hrec : dataRecovery x (onRing ctx o) (rssiRing r ρ) slot =
        .ok (rssiRing (r.setBlock slot (putAll (r.blocks slot) (p.out.zip outpkts))) ρ,
          [.recover (received (r.blocks slot) r.fragmentNof) p.index p.out p.pktsiz]) := by
      refine Machine.bind_ok_iff.mpr ⟨p, (planLoop_like ..).trans hp, Machine.bind_ok_iff.mpr ⟨outpkts, ho, ?_⟩⟩
      rw [← rssiRing_setBlock_same, ← putAll_like]
      rfl
    rw [if_pos hne, hrec]
    rfl
  · rename_i hne
    cases h
    exact ⟨[], by rw [if_neg hne], rfl⟩

theorem dataFec_like {slot : Nat} {r' : Rbuf} {evs : List Ev} (h : dataFec x ctx r slot = .ok (r', evs)) :
    ∃ evs', dataFec x (onRing ctx o) (rssiRing r ρ) slot = .ok (rssiRing r' ρ, evs') ∧ delivered evs' = delivered evs := by
  unfold dataFec at h ⊢
  split at h
  · cases h
  · rename_i hf
    have hf' : ¬ (rssiRing r ρ).ringFront ≠ slot := hf
    rw [if_neg hf']
    split at h
    · rename_i hready
      obtain ⟨⟨r1, e1⟩, h1, h2⟩ := Machine.bind_ok_iff.mp h
      cases h2
      obtain ⟨e', hm, hd⟩ := recoverMissing_like (o := o) (ρ := ρ) h1
      obtain ⟨hr, he⟩ := sendDataAny_like ctx o r1 ρ slot false true
      change (sendDataRecovered (onRing ctx o) (rssiRing r1 ρ) slot).1 = rssiRing (sendDataRecovered ctx r1 slot).1 ρ at hr
      change delivered (sendDataRecovered (onRing ctx o) (rssiRing r1 ρ) slot).2 = delivered
        (sendDataRecovered ctx r1 slot).2 at he
      refine ⟨e' ++ (sendDataRecovered (onRing ctx o) (rssiRing r1 ρ) slot).2 ++
        [.ring (freeEv (sendDataRecovered ctx r1 slot).1 slot)], ?_, ?_⟩
      · have hready' : ((rssiRing r ρ).blocks slot).fragmentToSend < (onRing ctx o).fecK ∧
            ((rssiRing r ρ).blocks slot).fragmentUsed = (onRing ctx o).fecK ∧ (onRing ctx o).noFec = false := hready
        rw [if_pos hready', hm]
        show Except.ok (rbufFreeBlock (sendDataRecovered (onRing ctx o) (rssiRing r1 ρ) slot).1 slot, _ ++ _ ++
          [Ev.ring (freeEv (sendDataRecovered (onRing ctx o) (rssiRing r1 ρ) slot).1 slot)]) = _
        rw [hr, free_like, freeEv_like]
      · simp only [delivered_append, hd, he]
    · rename_i hready
      cases h
      exact ⟨[], if_neg hready, rfl⟩

theorem dataAdd_like {slot : Nat} {r' : Rbuf} {evs : List Ev} (h : dataAdd x ctx r slot = .ok (r', evs)) :
    ∃ evs', dataAdd x (onRing ctx o) (rssiRing r ρ) slot = .ok (rssiRing r' ρ, evs') ∧ delivered evs' = delivered evs := by
  unfold dataAdd at h ⊢
  split at h
  · rename_i hf
    have hf' : (rssiRing r ρ).ringFront = slot := hf
    obtain ⟨hr, he⟩ := sendDataAny_like ctx o r ρ slot false false
    change (sendDataSeq (onRing ctx o) (rssiRing r ρ) slot).1 = rssiRing (sendDataSeq ctx r slot).1 ρ at hr
    change delivered (sendDataSeq (onRing ctx o) (rssiRing r ρ) slot).2 = delivered (sendDataSeq ctx r slot).2 at he
    rw [if_pos hf']
    dsimp only at h ⊢
    rw [hr]
    split at h
    · rename_i hk
      cases h
      refine ⟨(sendDataSeq (onRing ctx o) (rssiRing r ρ) slot).2 ++ [.ring (freeEv (sendDataSeq ctx r slot).1 slot)], ?_, ?_⟩
      · rw [if_pos (by exact hk), free_like, freeEv_like]
        rfl
      · simp only [delivered_append, he]
    · rename_i hk
      obtain ⟨⟨r1, e1⟩, h1, h2⟩ := Machine.bind_ok_iff.mp h
      cases h2
      obtain ⟨e', hm, hd⟩ := dataFec_like (o := o) (ρ := ρ) h1
      refine ⟨(sendDataSeq (onRing ctx o) (rssiRing r ρ) slot).2 ++ e', ?_, ?_⟩
      · rw [if_neg (by exact hk), hm]
        rfl
      · simp only [delivered_append, he, hd]
  · rename_i hf
    have hf' : ¬ (rssiRing r ρ).ringFront = slot := hf
    obtain ⟨⟨r1, e1⟩, h1, h2⟩ := Machine.bind_ok_iff.mp h
    obtain ⟨⟨r2, e2⟩, h3, h4⟩ := Machine.bind_ok_iff.mp h2
    cases h4
    obtain ⟨e1', hp, hd1⟩ := purgeStale_like (o := o) (ρ := ρ) h1
    obtain ⟨e2', hm, hd2⟩ := dataFec_like (o := o) (ρ := ρ) h3
    refine ⟨e1' ++ e2', ?_, by simp only [delivered_append, hd1, hd2]⟩
    rw [if_neg hf']
    exact Machine.bind_ok_iff.mpr ⟨_, hp, Machine.bind_ok_iff.mpr ⟨_, hm, rfl⟩⟩

/-! ## rx_data -/

/-- The two receivers differ in rssi values alone. -/
def Alike (ctx ctx' : RxContext) : Prop := ∃ ρ, ctx' = onRing ctx (ctx.rxRing.map fun r => rssiRing r ρ)

theorem raiseRssi_like (blk : RbufBlock) (q : Nat → Int) (f : Nat) (dbm : Int) :
    ∃ q', raiseRssi (withRssi blk q) f dbm = withRssi (raiseRssi blk f dbm) q' := by
  unfold raiseRssi
  split <;> split <;> exact ⟨_, rfl⟩

theorem rxFragment_like {slot : Nat} {q : Ret} (h : rxFragment x ctx r slot = .ok q) :
    ∃ q', rxFragment x (onRing ctx o) (rssiRing r ρ) slot = .ok q' ∧ Alike q.ctx q'.ctx ∧ delivered q'.evs = delivered q.evs := by
  obtain ⟨w, hw⟩ := raiseRssi_like (r.blocks slot) (ρ slot) ctx.wfb.fragmentIdx ctx.dbm
  change raiseRssi ((rssiRing r ρ).blocks slot) (onRing ctx o).wfb.fragmentIdx (onRing ctx o).dbm = _ at hw
  have hset : ∀ blk : RbufBlock, (rssiRing r ρ).setBlock slot (withRssi blk w) =
      rssiRing (r.setBlock slot blk) (Function.update ρ slot w) := fun blk => rssiRing_setBlock r ρ slot blk w
  unfold rxFragment at h ⊢
  dsimp only at h ⊢
  rw [hw]
  split at h
  · rename_i hl
    cases h
    refine ⟨⟨0, { onRing ctx o with
      rxRing := some ((rssiRing r ρ).setBlock slot (withRssi (raiseRssi (r.blocks slot) ctx.wfb.fragmentIdx ctx.dbm) w)) }, []⟩,
      if_pos hl, ⟨Function.update ρ slot w, ?_⟩, rfl⟩
    rw [hset]
    rfl
  · rename_i hl
    obtain ⟨d, hd, h1⟩ := Machine.bind_ok_iff.mp h
    rw [if_neg (by exact hl)]
    split at h1
    · rename_i left fmt
      cases h1
      refine ⟨⟨-1, { onRing ctx o with
        rxRing := some ((rssiRing r ρ).setBlock slot
          (withRssi (putFragment (raiseRssi (r.blocks slot) ctx.wfb.fragmentIdx ctx.dbm)
          ctx.wfb.fragmentIdx left) w))
        hasSessionKey := false }, errEvs fmt ++ [.contextDump]⟩, Machine.bind_ok_iff.mpr ⟨_, hd, rfl⟩,
        ⟨Function.update ρ slot w, ?_⟩, rfl⟩
      rw [hset]
      rfl
    · rename_i plain
      split at h1
      · cases h1
      · rename_i hs
        obtain ⟨⟨r', evs⟩, ha, h2⟩ := Machine.bind_ok_iff.mp h1
        cases h2
        obtain ⟨e', hadd, hdel⟩ := dataAdd_like (o := o) (ρ := Function.update ρ slot w) ha
        rw [← hset] at hadd
        refine ⟨⟨0, { onRing ctx o with rxRing := some (rssiRing r' (Function.update ρ slot w)) },
          .store slot (raiseRssi (r.blocks slot) ctx.wfb.fragmentIdx ctx.dbm).index ctx.wfb.fragmentIdx plain.length :: e'⟩,
          Machine.bind_ok_iff.mpr ⟨_, hd, ?_⟩, ⟨_, rfl⟩, hdel⟩
        dsimp only
        rw [if_neg (by exact hs)]
        exact Machine.bind_ok_iff.mpr ⟨_, hadd, rfl⟩

theorem rxData_like {ctx' : RxContext} {q : Ret} (h : rxData x ctx = .ok q) (ha : Alike ctx ctx') :
    ∃ q', rxData x ctx' = .ok q' ∧ Alike q.ctx q'.ctx ∧ delivered q'.evs = delivered q.evs := by
  obtain ⟨ρ, rfl⟩ := ha
  unfold rxData at h ⊢
  split at h
  · rename_i hk
    cases h
    exact ⟨_, if_pos hk, ⟨ρ, rfl⟩, rfl⟩
  · rename_i hk
    rw [if_neg (by exact hk)]
    split at h
    · cases h
    · rename_i r hr
      have hr' : (onRing ctx (ctx.rxRing.map fun r => rssiRing r ρ)).rxRing = some (rssiRing r ρ) := by
        show ctx.rxRing.map _ = _
        rw [hr]
        rfl
      simp only [hr']
      split at h
      · rename_i hp
        cases h
        exact ⟨_, if_pos hp, ⟨ρ, rfl⟩, rfl⟩
      · rename_i hp
        rw [if_neg (by exact hp)]
        split at h
        · rename_i hb
          cases h
          exact ⟨_, if_pos hb, ⟨ρ, rfl⟩, rfl⟩
        · rename_i hb
          rw [if_neg (by exact hb)]
          split at h
          · rename_i hf
            cases h
            exact ⟨_, if_pos hf, ⟨ρ, rfl⟩, rfl⟩
          · rename_i hf
            rw [if_neg (by exact hf)]
            obtain ⟨⟨r1, blk, evs⟩, hg, h1⟩ := Machine.bind_ok_iff.mp h
            obtain ⟨ρ', hg'⟩ := rbufGetBlock_like ρ hg
            cases blk with
            | none =>
              cases h1
              exact ⟨⟨0, { onRing ctx (ctx.rxRing.map fun r => rssiRing r ρ) with rxRing := some (rssiRing r1 ρ') }, _⟩,
                Machine.bind_ok_iff.mpr ⟨_, hg', rfl⟩, ⟨ρ', rfl⟩, rfl⟩
            | some slot =>
              obtain ⟨q1, hq, h2⟩ := Machine.bind_ok_iff.mp h1
              cases h2
              obtain ⟨q', hq', hal, hdel⟩ := rxFragment_like (o := ctx.rxRing.map fun r => rssiRing r ρ) (ρ := ρ') hq
              exact ⟨_, Machine.bind_ok_iff.mpr ⟨_, hg', Machine.bind_ok_iff.mpr ⟨_, hq', rfl⟩⟩, hal,
                by simp only [delivered_append, hdel]; rfl⟩

/-! ## The receiver -/

/-- The two receivers differ in the frame at hand and in rssi values alone. -/
def Like (ctx ctx' : RxContext) : Prop := ∃ ρ w freq dbm,
  ctx' = { ctx with wfb := w, freq := freq, dbm := dbm, rxRing := ctx.rxRing.map fun r => rssiRing r ρ }

theorem rssiRing_self (r : Rbuf) : rssiRing r (fun s => (r.blocks s).rssi) = r := rfl

theorem Like.refl (ctx : RxContext) : Like ctx ctx := by
  cases hr : ctx.rxRing with
  | none =>
    refine ⟨fun _ _ => 0, ctx.wfb, ctx.freq, ctx.dbm, ?_⟩
    rw [hr]
    show ctx = { ctx with rxRing := none }
    rw [← hr]
  | some r =>
    refine ⟨fun s => (r.blocks s).rssi, ctx.wfb, ctx.freq, ctx.dbm, ?_⟩
    rw [hr, Option.map_some, rssiRing_self]
    show ctx = { ctx with rxRing := some r }
    rw [← hr]

theorem Like.trans {a b c : RxContext} (h : Like a b) (h' : Like b c) : Like a c := by
  obtain ⟨ρ, w, freq, dbm, rfl⟩ := h
  obtain ⟨ρ', w', freq', dbm', rfl⟩ := h'
  refine ⟨ρ', w', freq', dbm', ?_⟩
  rw [Option.map_map]
  rfl

theorem Alike.like {a b : RxContext} (h : Alike a b) : Like a b := by
  obtain ⟨ρ, rfl⟩ := h
  exact ⟨ρ, a.wfb, a.freq, a.dbm, rfl⟩

theorem Like.framed {a b : RxContext} (h : Like a b) (f : RxFrame) (w : WfbContext) :
    Alike (withFrame a f w) (withFrame b f w) := by
  obtain ⟨ρ, w', freq, dbm, rfl⟩ := h
  exact ⟨ρ, rfl⟩

theorem like_withFrame (ctx : RxContext) (f : RxFrame) (w : WfbContext) : Like ctx (withFrame ctx f w) := by
  obtain ⟨ρ, _, _, _, he⟩ := Like.refl ctx
  exact ⟨ρ, w, f.freq, f.dbm, congrArg (fun c => withFrame c f w) he⟩

theorem rxStep_data {f : RxFrame} {w : WfbContext} (hp : wfbFrameParse f.data f.size = .ok w)
    (ht : w.packetType = wfbPacketData) (ctx : RxContext) :
    rxStep x ctx (.frame f) = (rxData x (withFrame ctx f w) >>= fun q => .ok (q.ctx, q.evs)) := by
  have hs : ¬ (withFrame ctx f w).wfb.packetType = wfbPacketSession := by
    show ¬ w.packetType = _
    rw [ht]
    decide
  unfold rxStep rxFrame rxWfb
  simp only [hp]
  rw [if_neg hs, if_pos (by exact ht)]
  rfl

theorem rxStep_session {f : RxFrame} {w : WfbContext} (hp : wfbFrameParse f.data f.size = .ok w)
    (ht : w.packetType = wfbPacketSession) (ctx : RxContext) :
    rxStep x ctx (.frame f) = (rxSession x f.outcome (withFrame ctx f w) >>= fun q => .ok (q.ctx, q.evs)) := by
  unfold rxStep rxFrame rxWfb
  simp only [hp]
  rw [if_pos (by exact ht)]
  rfl

/-- A DATA frame makes receivers that are alike deliver the same, and leaves them alike. -/
theorem rxStep_like {f : RxFrame} {w : WfbContext} {a a' b : RxContext} {e : List Ev}
    (hp : wfbFrameParse f.data f.size = .ok w) (ht : w.packetType = wfbPacketData)
    (hs : rxStep x a (.frame f) = .ok (a', e)) (h : Like a b) :
    ∃ b' e', rxStep x b (.frame f) = .ok (b', e') ∧ Like a' b' ∧ delivered e' = delivered e := by
  rw [rxStep_data hp ht] at hs
  obtain ⟨q, hq, h1⟩ := Machine.bind_ok_iff.mp hs
  cases h1
  obtain ⟨q', hq', hal, hdel⟩ := rxData_like hq (h.framed f w)
  exact ⟨q'.ctx, q'.evs, by rw [rxStep_data hp ht, hq']; rfl, hal.like, hdel⟩

end WfbYa.Rx
