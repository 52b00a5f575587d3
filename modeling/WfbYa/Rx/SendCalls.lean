/-
  WfbYa.Rx.SendCalls — the calls of `send_data_one` that handling a frame makes.

  A decode handler and the log are told where a payload begins and how long it is, not what
  the buffer there was filled with. `stepCalls` has the block each call finds, and the size
  of the recovery before it.

  - `rxStep_deliveries`: what a step delivers is what its calls deliver, in their order.
  - `addCalls_all`: what holds of a call of each kind holds of all calls of `data_add`.
-/

import WfbYa.Rx.Storing

namespace WfbYa.Rx

open WfbYa.Frame WfbYa.Ring WfbYa.Lib

/-! ## Deliveries -/

def Ev.isDelivery : Ev → Bool
  | .decode .. => true
  | .logDecode .. => true
  | _ => false

/-- What is given to the decode handlers and to `rx_log_decode`. -/
def deliveries (evs : List Ev) : List Ev := evs.filter Ev.isDelivery

@[simp] theorem deliveries_nil : deliveries [] = [] := rfl

@[simp] theorem deliveries_append (a b : List Ev) : deliveries (a ++ b) = deliveries a ++ deliveries b := List.filter_append ..

theorem deliveries_cons {e : Ev} (h : e.isDelivery = false) (evs : List Ev) : deliveries (e :: evs) = deliveries evs :=
  List.filter_cons_of_neg (by rw [h]; exact Bool.false_ne_true)

theorem deliveries_none {evs : List Ev} (h : ∀ e ∈ evs, e.isDelivery = false) : deliveries evs = [] := by
  apply List.filter_eq_nil_iff.mpr
  intro e he
  rw [h e he]
  exact Bool.false_ne_true

@[simp] theorem deliveries_ring (evs : List RingEv) : deliveries (evs.map Ev.ring) = [] := by
  apply deliveries_none
  intro e he
  obtain ⟨a, -, rfl⟩ := List.mem_map.mp he
  rfl

theorem deliveries_effects (evs : List Ev) : deliveries (effects evs) = deliveries evs := by
  unfold deliveries effects
  rw [List.filter_filter]
  apply List.filter_congr
  intro e _
  cases e <;> rfl

theorem deliveries_quiet {evs : List Ev} (h : Quiet evs) : deliveries evs = [] := by
  rw [← deliveries_effects, show effects evs = [] from h]
  rfl

theorem deliveries_handOver (ctx : RxContext) (blk : RbufBlock) (i : Nat) :
    deliveries (handOver ctx blk i) = deliveries (deliver ctx { blk with fragmentToSend := i }) := by
  unfold handOver
  rw [deliveries_cons rfl, deliveries_effects]

/-! ## Calls -/

/-- A call of `send_data_one`: the block as it finds it, and the block size of the
    `data_recovery` before it, if there was one. -/
structure SendCall where
  blk : RbufBlock
  pktsiz : Option Nat

def SendCall.deliveries (ctx : RxContext) (c : SendCall) : List Ev := Rx.deliveries (deliver ctx c.blk)

/-- The calls of `send_data_any` on a block. -/
def anyCalls (ctx : RxContext) (blk : RbufBlock) (stale recovered : Bool) (pktsiz : Option Nat) : List SendCall :=
  (sendRun ctx blk stale recovered).1.map fun i => ⟨{ blk with fragmentToSend := i }, pktsiz⟩

def purgeCalls (ctx : RxContext) (slot : Nat) : Nat → Rbuf → List SendCall
  | 0, _ => []
  | n + 1, r =>
    if r.ringFront = slot then []
    else anyCalls ctx (r.blocks r.ringFront) true false none ++
      purgeCalls ctx slot n (rbufFreeBlock (sendDataStale ctx r r.ringFront).1 r.ringFront)

/-- The block size of the recovery, if one is needed. -/
def recoverySize (ctx : RxContext) (nof : Nat) (blk : RbufBlock) : Option Nat :=
  if fecCount ctx blk = 0 then none else (planLoop blk nof ctx.fecK 0 ctx.fecK 0).toOption.map Plan.pktsiz

def fecCalls (x : Externals) (ctx : RxContext) (r : Rbuf) (slot : Nat) : List SendCall :=
  if Ready ctx (r.blocks slot) then
    match recoverMissing x ctx r slot with
    | .error _ => []
    | .ok p => anyCalls ctx (p.1.blocks slot) false true (recoverySize ctx r.fragmentNof (r.blocks slot))
  else []

def addCalls (x : Externals) (ctx : RxContext) (r : Rbuf) (slot : Nat) : List SendCall :=
  if r.ringFront = slot then anyCalls ctx (r.blocks slot) false false none ++ fecCalls x ctx (sendDataSeq ctx r slot).1 slot
  else match purgeStale x ctx r slot with
    | .error _ => []
    | .ok p => purgeCalls ctx slot x.maxIter r ++ fecCalls x ctx p.1 slot

variable {x : Externals} {ctx : RxContext}

/-- What recovery, if needed, makes of the slot, and of which size. -/
theorem recoverMissing_cases {r r' : Rbuf} {slot : Nat} {evs : List Ev} (h : recoverMissing x ctx r slot = .ok (r', evs)) :
    ∃ blk, Recovery x ctx r.fragmentNof (r.blocks slot) blk evs ∧ r' = r.setBlock slot blk := by
  unfold recoverMissing at h
  split at h
  · rename_i hc
    obtain ⟨⟨r2, e2⟩, hrec, h3⟩ := Machine.bind_ok_iff.mp h
    cases h3
    obtain ⟨p, hp, h4⟩ := Machine.bind_ok_iff.mp hrec
    obtain ⟨outpkts, ho, h5⟩ := Machine.bind_ok_iff.mp h4
    cases h5
    exact ⟨_, .decoded hc hp ho, rfl⟩
  · rename_i hc
    cases h
    exact ⟨_, .complete (not_not.mp hc), (setBlock_self r slot).symm⟩

theorem Recovery.deliveries {nof : Nat} {blk blk' : RbufBlock} {evs : List Ev} (h : Recovery x ctx nof blk blk' evs) :
    Rx.deliveries evs = [] := by
  cases h with
  | complete _ => rfl
  | decoded _ _ _ => rfl

/-! ## What the calls deliver -/

theorem sendDataAny_deliveries (ctx : RxContext) (r : Rbuf) (slot : Nat) (stale recovered : Bool) (pktsiz : Option Nat) :
    deliveries (sendDataAny ctx r slot stale recovered).2 =
      (anyCalls ctx (r.blocks slot) stale recovered pktsiz).flatMap (SendCall.deliveries ctx) := by
  rw [← deliveries_effects, (sendDataAny_eq ctx r slot stale recovered).2]
  unfold anyCalls
  generalize (sendRun ctx (r.blocks slot) stale recovered).1 = is
  induction is with
  | nil => rfl
  | cons i is ih =>
    rw [List.flatMap_cons, deliveries_append, ih, deliveries_handOver]
    rfl

theorem purgeLoop_deliveries {slot n : Nat} {r r' : Rbuf} {evs : List Ev} (h : purgeLoop ctx slot n r = .ok (r', evs)) :
    deliveries evs = (purgeCalls ctx slot n r).flatMap (SendCall.deliveries ctx) := by
  induction n generalizing r r' evs with
  | zero =>
    unfold purgeLoop at h
    split at h
    · cases h
      rfl
    · cases h
  | succ n ih =>
    unfold purgeLoop at h
    unfold purgeCalls
    split at h
    · rename_i hf
      cases h
      rw [if_pos hf]
      rfl
    · rename_i hf
      obtain ⟨⟨r1, e1⟩, h1, h2⟩ := Machine.bind_ok_iff.mp h
      cases h2
      have hsent : deliveries (sendDataStale ctx r r.ringFront).2 = _ := sendDataAny_deliveries ctx r r.ringFront true false none
      rw [if_neg hf, deliveries_append, deliveries_cons rfl, hsent, ih h1, List.flatMap_append]

theorem dataFec_deliveries {r r' : Rbuf} {slot : Nat} {evs : List Ev} (h : dataFec x ctx r slot = .ok (r', evs)) :
    deliveries evs = (fecCalls x ctx r slot).flatMap (SendCall.deliveries ctx) := by
  unfold dataFec at h
  unfold fecCalls
  split at h
  · cases h
  · split at h
    · rename_i hready
      obtain ⟨⟨r1, e1⟩, h1, h2⟩ := Machine.bind_ok_iff.mp h
      cases h2
      obtain ⟨blk, hrec, -⟩ := recoverMissing_cases h1
      have hsent : deliveries (sendDataRecovered ctx r1 slot).2 = _ :=
        sendDataAny_deliveries ctx r1 slot false true (recoverySize ctx r.fragmentNof (r.blocks slot))
      rw [if_pos (show Ready ctx (r.blocks slot) from hready), h1, deliveries_append, deliveries_append, hrec.deliveries, hsent,
        deliveries_cons rfl, deliveries_nil, List.append_nil, List.nil_append]
    · rename_i hready
      cases h
      rw [if_neg (show ¬ Ready ctx (r.blocks slot) from hready)]
      rfl

theorem dataAdd_deliveries {r r' : Rbuf} {slot : Nat} {evs : List Ev} (h : dataAdd x ctx r slot = .ok (r', evs)) :
    deliveries evs = (addCalls x ctx r slot).flatMap (SendCall.deliveries ctx) := by
  have hseq : deliveries (sendDataSeq ctx r slot).2 = _ := sendDataAny_deliveries ctx r slot false false none
  unfold addCalls
  rcases dataAdd_cases h with ⟨hf, ⟨hk, rfl, rfl⟩ | ⟨-, e, hfec, rfl⟩⟩ | ⟨hf, r1, e1, e, hp, hfec, rfl⟩
  · have hdone : ¬ Ready ctx ((sendDataSeq ctx r slot).1.blocks slot) := fun hready => Nat.ne_of_lt hready.1 hk
    have hfec : fecCalls x ctx (sendDataSeq ctx r slot).1 slot = [] := if_neg hdone
    rw [if_pos hf, hfec, List.append_nil, deliveries_append, hseq, deliveries_cons rfl, deliveries_nil, List.append_nil]
  · rw [if_pos hf, deliveries_append, hseq, dataFec_deliveries hfec, List.flatMap_append]
  · obtain ⟨p, hl, he⟩ := Machine.bind_ok_iff.mp hp
    cases he
    rw [if_neg hf, hp, deliveries_append, deliveries_append, purgeLoop_deliveries hl, dataFec_deliveries hfec,
      deliveries_cons rfl, deliveries_nil, List.append_nil, List.flatMap_append]

/-! ## Rules for a property of every call -/

variable {I : RbufBlock → Prop} {Q : Ev → Prop} {P : SendCall → Prop}

theorem anyCalls_all {blk : RbufBlock} {stale recovered : Bool} {pktsiz : Option Nat}
    (h : ∀ i, blk.fragmentToSend ≤ i → i < ctx.fecK → 0 < blk.fragmentLen i ∨ recovered = true →
      P ⟨{ blk with fragmentToSend := i }, pktsiz⟩) : ∀ c ∈ anyCalls ctx blk stale recovered pktsiz, P c := by
  intro c hc
  obtain ⟨i, hi, rfl⟩ := List.mem_map.mp hc
  obtain ⟨h1, h2, h3⟩ := sendRun_mem hi
  exact h i h1 h2 h3

/-- `P` holds of what is sent of a block with `I`. -/
def SendsAll (ctx : RxContext) (I : RbufBlock → Prop) (P : SendCall → Prop) : Prop :=
  ∀ blk i, I blk → blk.fragmentToSend ≤ i → i < ctx.fecK → 0 < blk.fragmentLen i → P ⟨{ blk with fragmentToSend := i }, none⟩

theorem purgeCalls_all {nof slot n : Nat} {r : Rbuf} (hr : SlotRules x ctx nof I Q) (h : ∀ s, I (r.blocks s))
    (hsent : SendsAll ctx I P) : ∀ c ∈ purgeCalls ctx slot n r, P c := by
  induction n generalizing r with
  | zero => exact fun c hc => absurd hc List.not_mem_nil
  | succ n ih =>
    unfold purgeCalls
    intro c hc
    split at hc
    · exact absurd hc List.not_mem_nil
    · rcases List.mem_append.mp hc with hc | hc
      · apply anyCalls_all _ c hc
        intro i h1 h2 h3
        exact hsent _ i (h r.ringFront) h1 h2 (h3.resolve_right Bool.false_ne_true)
      · exact ih (slots_flush hr h r.ringFront).1 c hc

/-- `P` holds of what is sent of a block once it is recovered. -/
def RecoversAll (x : Externals) (ctx : RxContext) (nof : Nat) (blk : RbufBlock) (P : SendCall → Prop) : Prop :=
  ∀ blk' evs i, Ready ctx blk → Recovery x ctx nof blk blk' evs → blk.fragmentToSend ≤ i → i < ctx.fecK →
    P ⟨{ blk' with fragmentToSend := i }, recoverySize ctx nof blk⟩

theorem fecCalls_all {r : Rbuf} {slot : Nat} (hrec : RecoversAll x ctx r.fragmentNof (r.blocks slot) P) :
    ∀ c ∈ fecCalls x ctx r slot, P c := by
  intro c hc
  unfold fecCalls at hc
  split at hc
  · rename_i hready
    split at hc
    · exact absurd hc List.not_mem_nil
    · rename_i p hp
      obtain ⟨blk, hrecov, hset⟩ := recoverMissing_cases hp
      rw [hset, setBlock_same] at hc
      apply anyCalls_all _ c hc
      intro i h1 h2 _
      rw [hrecov.keeps.2.2.1] at h1
      exact hrec blk p.2 i hready hrecov h1 h2
  · exact absurd hc List.not_mem_nil

/-- The calls of `data_add`: for each block sent, and for the one at hand once recovered. -/
theorem addCalls_all {r : Rbuf} {slot : Nat} (hr : SlotRules x ctx r.fragmentNof I Q) (h : ∀ s, I (r.blocks s))
    (hsent : SendsAll ctx I P) (hrec : ∀ t, (r.blocks slot).fragmentToSend ≤ t →
      RecoversAll x ctx r.fragmentNof { r.blocks slot with fragmentToSend := t } P) : ∀ c ∈ addCalls x ctx r slot, P c := by
  intro c hc
  unfold addCalls at hc
  split at hc
  · rcases List.mem_append.mp hc with hc | hc
    · apply anyCalls_all _ c hc
      intro i h1 h2 h3
      exact hsent _ i (h slot) h1 h2 (h3.resolve_right Bool.false_ne_true)
    · obtain ⟨⟨q, hq⟩, -⟩ := sendDataAny_eq ctx r slot false false
      change (sendDataSeq ctx r slot).1 = _ at hq
      rw [hq] at hc
      apply fecCalls_all _ c hc
      rw [sentTo_same, sentTo_fragmentNof]
      apply hrec
      exact (sendPlan_spec (r.blocks slot).fragmentLen false false (ctx.fecK - (r.blocks slot).fragmentToSend) _).bounds.1
  · split at hc
    · exact absurd hc List.not_mem_nil
    · rename_i p hp
      rcases List.mem_append.mp hc with hc | hc
      · exact purgeCalls_all hr h hsent c hc
      · have hsh := (purgeStale_slots hr h hp).2
        have hnof : p.1.fragmentNof = r.fragmentNof := congrArg (·.2.1) hsh
        obtain ⟨p', hl, he⟩ := Machine.bind_ok_iff.mp hp
        cases he
        apply fecCalls_all _ c hc
        rw [hnof, (purgeLoop_others hl).1]
        exact hrec _ (Nat.le_refl _)

/-! ## A step's calls -/

/-- A fragment about to be stored: the frame's context, the ring and the slot
    `rbuf_get_block` gives, and the plaintext. -/
structure Filed where
  ctx : RxContext
  ring : Rbuf
  slot : Nat
  plain : Bytes

/-- The block once the fragment is stored. -/
def Filed.block (q : Filed) : RbufBlock := filedBlock q.ctx q.ring q.slot q.plain

/-- The fragment an input stores, if it does. -/
def filed? (x : Externals) (ctx : RxContext) : Input → Option Filed
  | .fecToggle => none
  | .frame f =>
    match wfbFrameParse f.data f.size, asked? ctx (.frame f) with
    | .ok w, some (r, b) =>
      match rbufGetBlock r b, decrypted x ctx.crypto w with
      | .ok (r1, some slot, _), .ok (.ok plain) =>
        if (r1.blocks slot).fragmentLen w.fragmentIdx = 0 ∧ plain.length ≤ r1.fragmentSize then
          some ⟨withFrame ctx f w, r1, slot, plain⟩
        else none
      | _, _ => none
    | _, _ => none

/-- The calls of `send_data_one` that handling an input makes. -/
def stepCalls (x : Externals) (ctx : RxContext) (i : Input) : List SendCall :=
  match filed? x ctx i with
  | none => []
  | some q => addCalls x q.ctx (q.ring.setBlock q.slot q.block) q.slot

theorem filed?_some {i : Input} {q : Filed} (h : q ∈ filed? x ctx i) : ∃ f w r evs, i = .frame f ∧
    wfbFrameParse f.data f.size = .ok w ∧ w.packetType = wfbPacketData ∧ Admitted (withFrame ctx f w) r ∧
      q.ctx = withFrame ctx f w ∧ rbufGetBlock r w.blockIdx = .ok (q.ring, some q.slot, evs) ∧
        (q.ring.blocks q.slot).fragmentLen w.fragmentIdx = 0 ∧ decrypted x ctx.crypto w = .ok (.ok q.plain) ∧
          q.plain.length ≤ q.ring.fragmentSize := by
  unfold filed? at h
  split at h
  · cases h
  · split at h
    · rename_i f _ _ w r b hp hasked
      obtain ⟨f', w', hf, hp', ht, hb, ha⟩ := asked?_some hasked
      cases hf
      cases hp.symm.trans hp'
      split at h
      · rename_i r1 slot evs plain hg hd
        split at h
        · rename_i hc
          cases h
          exact ⟨f, w, r, evs, rfl, hp, ht, ha, rfl, by rw [← hb]; exact hg, hc.1, hd, hc.2⟩
        · cases h
      · cases h
    · cases h

theorem filed?_eq {f : RxFrame} {w : WfbContext} {r r1 : Rbuf} {slot : Nat} {evs : List RingEv} {plain : Bytes}
    (hp : wfbFrameParse f.data f.size = .ok w) (ht : w.packetType = wfbPacketData) (ha : Admitted (withFrame ctx f w) r)
    (hg : rbufGetBlock r w.blockIdx = .ok (r1, some slot, evs)) (h0 : (r1.blocks slot).fragmentLen w.fragmentIdx = 0)
    (hd : decrypted x ctx.crypto w = .ok (.ok plain)) (hle : plain.length ≤ r1.fragmentSize) :
    filed? x ctx (.frame f) = some ⟨withFrame ctx f w, r1, slot, plain⟩ := by
  have hasked := asked?_data hp ht ha
  simp only [filed?, hp, hasked, hg, hd, h0, hle, and_self, if_true]

/-- A step delivers what its calls deliver. -/
theorem rxStep_deliveries {ctx' : RxContext} {i : Input} {evs : List Ev} (hs : rxStep x ctx i = .ok (ctx', evs)) :
    deliveries evs = (stepCalls x ctx i).flatMap (SendCall.deliveries ctx) := by
  have hnone : filed? x ctx i = none → deliveries evs = [] →
    deliveries evs = (stepCalls x ctx i).flatMap (SendCall.deliveries ctx) := by
    intro hf he
    unfold stepCalls
    rw [hf, he]
    rfl
  cases rxStep_cases hs with
  | toggle hq => exact hnone rfl (deliveries_quiet hq)
  | unparsed hp hq =>
    refine hnone (Option.eq_none_iff_forall_not_mem.mpr fun q h => ?_) (deliveries_quiet hq)
    obtain ⟨f, w, r, evs, hf, hp', -⟩ := filed?_some h
    cases hf
    rw [hp] at hp'
    cases hp'
  | session hp ht hx =>
    refine hnone (Option.eq_none_iff_forall_not_mem.mpr fun q h => ?_) ?_
    · obtain ⟨f, w, r, evs, hf, hp', ht', -⟩ := filed?_some h
      cases hf
      cases hp.symm.trans hp'
      exact absurd (ht.symm.trans ht') (by decide)
    · cases rxSession_cases hx with
      | ignored hq => exact deliveries_quiet hq
      | ended hq => exact deliveries_quiet hq
      | started _ _ _ _ _ hev =>
        apply deliveries_none
        intro e he
        have hout := (hev e he).1
        cases e <;> first | rfl | cases hout
  | @data f w _ hp ht hd =>
    cases hd with
    | refused hno hq =>
      refine hnone (Option.eq_none_iff_forall_not_mem.mpr fun q h => ?_) (deliveries_quiet hq)
      obtain ⟨f', w', r, evs, hf, hp', -, ha, -⟩ := filed?_some h
      cases hf
      cases hp.symm.trans hp'
      exact hno r ha
    | outside ha hg =>
      refine hnone (Option.eq_none_iff_forall_not_mem.mpr fun q h => ?_) ?_
      · obtain ⟨f', w', r, evs, hf, hp', -, ha', -, hg', -⟩ := filed?_some h
        cases hf
        cases hp.symm.trans hp'
        cases ha.ring.symm.trans ha'.ring
        cases hg.symm.trans hg'
      · rw [deliveries_cons rfl, deliveries_ring]
    | @filed r r1 slot revs _ ha hg hf =>
      have hno : (∀ plain, (r1.blocks slot).fragmentLen w.fragmentIdx = 0 → decrypted x ctx.crypto w ≠ .ok (.ok plain)) →
          filed? x ctx (.frame f) = none := by
        intro hne
        refine Option.eq_none_iff_forall_not_mem.mpr fun q h => ?_
        obtain ⟨f', w', r', evs, hf, hp', -, ha', -, hg', h0, hd, -⟩ := filed?_some h
        cases hf
        cases hp.symm.trans hp'
        cases ha.ring.symm.trans ha'.ring
        cases hg.symm.trans hg'
        exact hne q.plain h0 hd
      have hfront : ∀ evs', deliveries (.logFrame (withFrame ctx f w).wfb.blockIdx (withFrame ctx f w).wfb.fragmentIdx
          (withFrame ctx f w).wfb.pktlen :: revs.map Ev.ring ++ evs') = deliveries evs' := by
        intro evs'
        rw [deliveries_append, deliveries_cons rfl, deliveries_ring, List.nil_append]
      cases hf with
      | duplicate h => exact hnone (hno fun _ h0 => absurd h0 h) (hfront [])
      | @forged left fmt _ hd =>
        refine hnone (hno fun plain _ hd' => ?_) ((hfront _).trans ?_)
        · cases hd.symm.trans hd'
        · cases fmt <;> rfl
      | @stored plain r' e h0 hd hle hadd =>
        unfold stepCalls
        rw [filed?_eq hp ht ha hg h0 hd hle]
        refine (hfront _).trans ?_
        rw [deliveries_cons rfl, dataAdd_deliveries hadd]
        rfl

end WfbYa.Rx
