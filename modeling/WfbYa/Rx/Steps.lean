/-
  WfbYa.Rx.Steps — the ways each function of the receiver returns (see `WfbYa.Rx.Data`,
  `WfbYa.Rx.Core`).

  - `dataFec_cases` / `dataAdd_cases` / `rxFragment_cases` / `rxData_cases` /
    `rxStep_cases`: everything a call can do, so that a proof about the receiver never
    unfolds it.
  - `SlotRules` / `dataAdd_slots` / `rxData_slots`: an invariant of single blocks that the
    block-level steps keep holds of every slot.
-/

import WfbYa.Rx.Core
import WfbYa.Rx.Sending

namespace WfbYa.Rx

open WfbYa.Frame WfbYa.Ring WfbYa.Lib

/-! ## data_recovery, data_add -/

/-- The block is complete or recoverable, and FEC is on. -/
def Ready (ctx : RxContext) (blk : RbufBlock) : Prop :=
  blk.fragmentToSend < ctx.fecK ∧ blk.fragmentUsed = ctx.fecK ∧ ctx.noFec = false

instance (ctx : RxContext) (blk : RbufBlock) : Decidable (Ready ctx blk) := by unfold Ready; infer_instance

/-- What recovery, if needed, makes of a block. -/
inductive Recovery (x : Externals) (ctx : RxContext) (nof : Nat) (blk : RbufBlock) : RbufBlock → List Ev → Prop
  | complete : fecCount ctx blk = 0 → Recovery x ctx nof blk blk []
  | decoded {p : Plan} {outpkts : List Bytes} : fecCount ctx blk ≠ 0 →
      planLoop blk nof ctx.fecK 0 ctx.fecK 0 = .ok p →
      fecWfbApply x ctx.fec (p.index.map blk.fragment) p.index p.pktsiz = .ok outpkts →
      Recovery x ctx nof blk (putAll blk (p.out.zip outpkts))
        [.msg .debug "Recover %d frames using FEC\n", .recover (received blk nof) p.index p.out p.pktsiz]

theorem setBlock_self (r : Rbuf) (s : Nat) : r.setBlock s (r.blocks s) = r := by
  simp [Rbuf.setBlock]

/-- The ring and events once a recovered block was handed over and freed. -/
def finish (ctx : RxContext) (r : Rbuf) (slot : Nat) (blk : RbufBlock) : Rbuf × List Ev :=
  let sent := sendDataRecovered ctx (r.setBlock slot blk) slot
  (rbufFreeBlock sent.1 slot, sent.2 ++ [.ring (freeEv sent.1 slot)])

theorem dataFec_cases {x : Externals} {ctx : RxContext} {r r' : Rbuf} {slot : Nat} {evs : List Ev}
    (h : dataFec x ctx r slot = .ok (r', evs)) : r.ringFront = slot ∧
      ((¬ Ready ctx (r.blocks slot) ∧ r' = r ∧ evs = []) ∨
        (Ready ctx (r.blocks slot) ∧ ∃ blk e, Recovery x ctx r.fragmentNof (r.blocks slot) blk e ∧
          r' = (finish ctx r slot blk).1 ∧ evs = e ++ (finish ctx r slot blk).2)) := by
  unfold dataFec at h
  split at h
  · cases h
  · rename_i hf
    refine ⟨not_not.mp hf, ?_⟩
    split at h
    · rename_i hr
      obtain ⟨⟨r1, e1⟩, h1, h2⟩ := Machine.bind_ok_iff.mp h
      cases h2
      refine .inr ⟨hr, ?_⟩
      unfold recoverMissing at h1
      split at h1
      · rename_i hc
        obtain ⟨⟨r2, e2⟩, hrec, h3⟩ := Machine.bind_ok_iff.mp h1
        cases h3
        obtain ⟨p, hp, h4⟩ := Machine.bind_ok_iff.mp hrec
        obtain ⟨outpkts, ho, h5⟩ := Machine.bind_ok_iff.mp h4
        cases h5
        exact ⟨_, _, .decoded hc hp ho, rfl, by simp [finish]⟩
      · rename_i hc
        cases h1
        exact ⟨_, _, .complete (not_not.mp hc), by simp [finish, setBlock_self], by simp [finish, setBlock_self]⟩
    · rename_i hr
      cases h
      exact .inl ⟨hr, rfl, rfl⟩

theorem dataAdd_cases {x : Externals} {ctx : RxContext} {r r' : Rbuf} {slot : Nat} {evs : List Ev}
    (h : dataAdd x ctx r slot = .ok (r', evs)) :
    (r.ringFront = slot ∧ (((sendDataSeq ctx r slot).1.blocks slot).fragmentToSend = ctx.fecK ∧
        r' = rbufFreeBlock (sendDataSeq ctx r slot).1 slot ∧
        evs = (sendDataSeq ctx r slot).2 ++ [.ring (freeEv (sendDataSeq ctx r slot).1 slot)] ∨
      ((sendDataSeq ctx r slot).1.blocks slot).fragmentToSend ≠ ctx.fecK ∧
        ∃ e, dataFec x ctx (sendDataSeq ctx r slot).1 slot = .ok (r', e) ∧ evs = (sendDataSeq ctx r slot).2 ++ e)) ∨
    (r.ringFront ≠ slot ∧ ∃ r1 e1 e, purgeStale x ctx r slot = .ok (r1, e1) ∧ dataFec x ctx r1 slot = .ok (r', e) ∧
      evs = e1 ++ e) := by
  unfold dataAdd at h
  split at h
  · rename_i hf
    refine .inl ⟨hf, ?_⟩
    dsimp only at h
    split at h
    · rename_i hs
      cases h
      exact .inl ⟨hs, rfl, rfl⟩
    · rename_i hs
      obtain ⟨⟨r1, e1⟩, h1, h2⟩ := Machine.bind_ok_iff.mp h
      cases h2
      exact .inr ⟨hs, e1, h1, rfl⟩
  · rename_i hf
    obtain ⟨⟨r1, e1⟩, h1, h2⟩ := Machine.bind_ok_iff.mp h
    obtain ⟨⟨r2, e2⟩, h3, h4⟩ := Machine.bind_ok_iff.mp h2
    cases h4
    exact .inr ⟨hf, r1, e1, e2, h1, h3, rfl⟩

/-! ## rx_data -/

/-- What decryption makes of a DATA frame. -/
def decrypted (x : Externals) (c : CryptoWfbContext) (w : WfbContext) : Except Fault (Except (Bytes × Option String) Bytes) :=
  cryptoWfbDataDecrypt x c w.hdr w.pktlen w.hdrlen w.nonce

inductive Fragment (x : Externals) (ctx : RxContext) (r : Rbuf) (slot : Nat) : Ret → Prop
  /-- The slot holds the fragment already. -/
  | duplicate : (r.blocks slot).fragmentLen ctx.wfb.fragmentIdx ≠ 0 →
      Fragment x ctx r slot
        ⟨0, { ctx with rxRing := some (r.setBlock slot (raiseRssi (r.blocks slot) ctx.wfb.fragmentIdx ctx.dbm)) }, []⟩
  | forged {left : Bytes} {fmt : Option String} : (r.blocks slot).fragmentLen ctx.wfb.fragmentIdx = 0 →
      decrypted x ctx.crypto ctx.wfb = .ok (.error (left, fmt)) →
      Fragment x ctx r slot
        ⟨-1, { ctx with
          rxRing := some (r.setBlock slot
            (putFragment (raiseRssi (r.blocks slot) ctx.wfb.fragmentIdx ctx.dbm) ctx.wfb.fragmentIdx left))
          hasSessionKey := false }, errEvs fmt ++ [.contextDump]⟩
  | stored {plain : Bytes} {r' : Rbuf} {evs : List Ev} : (r.blocks slot).fragmentLen ctx.wfb.fragmentIdx = 0 →
      decrypted x ctx.crypto ctx.wfb = .ok (.ok plain) → plain.length ≤ r.fragmentSize →
      dataAdd x ctx (r.setBlock slot (storeFragment (raiseRssi (r.blocks slot) ctx.wfb.fragmentIdx ctx.dbm)
        ctx.wfb.fragmentIdx r.fragmentSize plain)) slot = .ok (r', evs) →
      Fragment x ctx r slot ⟨0, { ctx with rxRing := some r' },
        .store slot (r.blocks slot).index ctx.wfb.fragmentIdx plain.length :: evs⟩

@[simp] theorem raiseRssi_index (blk : RbufBlock) (f : Nat) (dbm : Int) : (raiseRssi blk f dbm).index = blk.index := by
  unfold raiseRssi
  split <;> rfl

@[simp] theorem raiseRssi_len (blk : RbufBlock) (f : Nat) (dbm : Int) :
    (raiseRssi blk f dbm).fragmentLen = blk.fragmentLen := by
  unfold raiseRssi
  split <;> rfl

@[simp] theorem raiseRssi_used (blk : RbufBlock) (f : Nat) (dbm : Int) :
    (raiseRssi blk f dbm).fragmentUsed = blk.fragmentUsed := by
  unfold raiseRssi
  split <;> rfl

@[simp] theorem raiseRssi_toSend (blk : RbufBlock) (f : Nat) (dbm : Int) :
    (raiseRssi blk f dbm).fragmentToSend = blk.fragmentToSend := by
  unfold raiseRssi
  split <;> rfl

@[simp] theorem raiseRssi_fragment (blk : RbufBlock) (f : Nat) (dbm : Int) :
    (raiseRssi blk f dbm).fragment = blk.fragment := by
  unfold raiseRssi
  split <;> rfl

theorem rxFragment_cases {x : Externals} {ctx : RxContext} {r : Rbuf} {slot : Nat} {q : Ret}
    (h : rxFragment x ctx r slot = .ok q) : Fragment x ctx r slot q := by
  unfold rxFragment at h
  dsimp only at h
  rw [raiseRssi_len] at h
  split at h
  · rename_i hl
    cases h
    exact .duplicate hl
  · rename_i hl
    rw [not_not] at hl
    obtain ⟨d, hd, h1⟩ := Machine.bind_ok_iff.mp h
    split at h1
    · cases h1
      exact .forged hl hd
    · split at h1
      · cases h1
      · rename_i hs
        obtain ⟨⟨r', evs⟩, ha, h2⟩ := Machine.bind_ok_iff.mp h1
        cases h2
        rw [raiseRssi_index]
        exact .stored hl hd (Nat.not_lt.mp hs) ha

/-- The frame being handled passes the checks of `rx_data`. -/
structure Admitted (ctx : RxContext) (r : Rbuf) : Prop where
  session : ctx.hasSessionKey = true
  ring : ctx.rxRing = some r
  pktlen : minDataPacketLen ≤ ctx.wfb.pktlen
  blockIdx : ctx.wfb.blockIdx ≤ maxBlockIdx
  fragmentIdx : ctx.wfb.fragmentIdx < ctx.fecN

def Quiet (evs : List Ev) : Prop := effects evs = []

inductive DataCall (x : Externals) (ctx : RxContext) : Ret → Prop
  | refused {ret : Int} {evs : List Ev} : (∀ r, ¬ Admitted ctx r) → Quiet evs → DataCall x ctx ⟨ret, ctx, evs⟩
  /-- The frame is out of window. -/
  | outside {r r1 : Rbuf} {evs : List RingEv} : Admitted ctx r → rbufGetBlock r ctx.wfb.blockIdx = .ok (r1, none, evs) →
      DataCall x ctx ⟨0, { ctx with rxRing := some r1 },
        .logFrame ctx.wfb.blockIdx ctx.wfb.fragmentIdx ctx.wfb.pktlen :: evs.map Ev.ring⟩
  | filed {r r1 : Rbuf} {slot : Nat} {evs : List RingEv} {q : Ret} : Admitted ctx r →
      rbufGetBlock r ctx.wfb.blockIdx = .ok (r1, some slot, evs) → Fragment x ctx r1 slot q →
      DataCall x ctx { q with
        evs := (.logFrame ctx.wfb.blockIdx ctx.wfb.fragmentIdx ctx.wfb.pktlen :: evs.map Ev.ring) ++ q.evs }

theorem rxData_cases {x : Externals} {ctx : RxContext} {q : Ret} (h : rxData x ctx = .ok q) : DataCall x ctx q := by
  unfold rxData at h
  split at h
  · rename_i hs
    cases h
    exact .refused (fun r ha => by rw [ha.session] at hs; cases hs) rfl
  · rename_i hs
    split at h
    · cases h
    · rename_i r hr
      split at h
      · rename_i hp
        cases h
        exact .refused (fun r ha => absurd ha.pktlen (Nat.not_le.mpr hp)) rfl
      · rename_i hp
        split at h
        · rename_i hb
          cases h
          exact .refused (fun r ha => absurd ha.blockIdx (Nat.not_le.mpr hb)) rfl
        · rename_i hb
          split at h
          · rename_i hf
            cases h
            exact .refused (fun r ha => absurd ha.fragmentIdx (Nat.not_lt.mpr hf)) rfl
          · rename_i hf
            have ha : Admitted ctx r := ⟨by simpa using hs, hr, by omega, by omega, by omega⟩
            obtain ⟨⟨r1, blk, evs⟩, hg, h1⟩ := Machine.bind_ok_iff.mp h
            cases blk with
            | none =>
              cases h1
              exact .outside ha hg
            | some slot =>
              obtain ⟨q1, hq, h2⟩ := Machine.bind_ok_iff.mp h1
              cases h2
              exact .filed ha hg (rxFragment_cases hq)

/-! ## The receiver -/

theorem wfbFrameParse_type {data : Bytes} {size : Nat} {w : WfbContext} (h : wfbFrameParse data size = .ok w) :
    w.packetType = wfbPacketSession ∨ w.packetType = wfbPacketData := by
  unfold wfbFrameParse at h
  split at h
  · cases h
  · split at h
    · cases h
    · dsimp only at h
      split at h
      · rename_i ht
        split at h
        · cases h
        · cases h; exact .inr ht
      · split at h
        · rename_i ht
          split at h
          · cases h
          · cases h; exact .inl ht
        · cases h

/-- What one input does. -/
inductive Step (x : Externals) (ctx : RxContext) : Input → RxContext → List Ev → Prop
  | toggle {evs : List Ev} : Quiet evs → Step x ctx .fecToggle { ctx with noFec := !ctx.noFec } evs
  | unparsed {f : RxFrame} {fmt : String} {evs : List Ev} : wfbFrameParse f.data f.size = .error fmt → Quiet evs →
      Step x ctx (.frame f) { ctx with freq := f.freq, dbm := f.dbm } evs
  | session {f : RxFrame} {w : WfbContext} {q : Ret} : wfbFrameParse f.data f.size = .ok w →
      w.packetType = wfbPacketSession → rxSession x f.outcome (withFrame ctx f w) = .ok q →
      Step x ctx (.frame f) q.ctx q.evs
  | data {f : RxFrame} {w : WfbContext} {q : Ret} : wfbFrameParse f.data f.size = .ok w →
      w.packetType = wfbPacketData → DataCall x (withFrame ctx f w) q → Step x ctx (.frame f) q.ctx q.evs

theorem rxStep_cases {x : Externals} {ctx ctx' : RxContext} {i : Input} {evs : List Ev}
    (h : rxStep x ctx i = .ok (ctx', evs)) : Step x ctx i ctx' evs := by
  cases i with
  | fecToggle =>
    cases h
    exact .toggle rfl
  | frame f =>
    obtain ⟨q, hq, hr⟩ := Machine.bind_ok_iff.mp h
    cases hr
    unfold rxFrame at hq
    split at hq
    · rename_i fmt hp
      cases hq
      exact .unparsed hp rfl
    · rename_i w hp
      unfold rxWfb at hq
      split at hq
      · rename_i ht
        exact .session hp ht hq
      · split at hq
        · rename_i ht
          exact .data hp ht (rxData_cases hq)
        · rename_i hs hd
          rcases wfbFrameParse_type hp with ht | ht
          · exact absurd ht hs
          · exact absurd ht hd

/-! ## Inputs -/

/-- The header of a DATA frame. -/
def dataHdr? : Input → Option WfbContext
  | .fecToggle => none
  | .frame f => match wfbFrameParse f.data f.size with
    | .error _ => none
    | .ok w => if w.packetType = wfbPacketData then some w else none

theorem dataHdr?_some {f : RxFrame} {w : WfbContext} (h : wfbFrameParse f.data f.size = .ok w)
    (ht : w.packetType = wfbPacketData) : dataHdr? (.frame f) = some w := by
  simp [dataHdr?, h, ht]

theorem dataHdr?_frame {i : Input} {w : WfbContext} (h : dataHdr? i = some w) :
    ∃ f, i = .frame f ∧ wfbFrameParse f.data f.size = .ok w ∧ w.packetType = wfbPacketData := by
  unfold dataHdr? at h
  split at h
  · cases h
  · rename_i f
    split at h
    · cases h
    · rename_i w' hp
      split at h
      · rename_i ht
        cases h
        exact ⟨f, rfl, hp, ht⟩
      · cases h

/-- The ring and the block `rbuf_get_block` is called with for an input, if it is. -/
def asked? (ctx : RxContext) (i : Input) : Option (Rbuf × Nat) :=
  match dataHdr? i, ctx.rxRing with
  | some w, some r =>
    if ctx.hasSessionKey = true ∧ minDataPacketLen ≤ w.pktlen ∧ w.blockIdx ≤ maxBlockIdx ∧ w.fragmentIdx < ctx.fecN
    then some (r, w.blockIdx) else none
  | _, _ => none

theorem asked?_data {ctx : RxContext} {f : RxFrame} {w : WfbContext} {r : Rbuf}
    (h : wfbFrameParse f.data f.size = .ok w) (ht : w.packetType = wfbPacketData) (ha : Admitted (withFrame ctx f w) r) :
    asked? ctx (.frame f) = some (r, w.blockIdx) := by
  have hr : ctx.rxRing = some r := ha.ring
  simp only [asked?, dataHdr?_some h ht, hr]
  exact if_pos ⟨ha.session, ha.pktlen, ha.blockIdx, ha.fragmentIdx⟩

theorem asked?_some {ctx : RxContext} {i : Input} {p : Rbuf × Nat} (h : p ∈ asked? ctx i) :
    ∃ f w, i = .frame f ∧ wfbFrameParse f.data f.size = .ok w ∧ w.packetType = wfbPacketData ∧ p.2 = w.blockIdx ∧
      Admitted (withFrame ctx f w) p.1 := by
  unfold asked? at h
  split at h
  · rename_i w r hw hr
    obtain ⟨f, rfl, hp, ht⟩ := dataHdr?_frame hw
    split at h
    · rename_i hc
      cases h
      exact ⟨f, w, rfl, hp, ht, rfl, hc.1, hr, hc.2.1, hc.2.2.1, hc.2.2.2⟩
    · cases h
  · cases h

/-- The plaintext of an authentic DATA frame. -/
def plaintext? (x : Externals) (c : CryptoWfbContext) (i : Input) : Option Bytes :=
  match dataHdr? i with
  | none => none
  | some w => match decrypted x c w with
    | .ok (.ok plain) => some plain
    | _ => none

theorem plaintext?_data {x : Externals} {c : CryptoWfbContext} {f : RxFrame} {w : WfbContext} {plain : Bytes}
    (h : wfbFrameParse f.data f.size = .ok w) (ht : w.packetType = wfbPacketData)
    (hd : decrypted x c w = .ok (.ok plain)) : plaintext? x c (.frame f) = some plain := by
  simp only [plaintext?, dataHdr?_some h ht, hd]

theorem plaintext?_frame {x : Externals} {c : CryptoWfbContext} {i : Input} {plain : Bytes}
    (h : plaintext? x c i = some plain) : ∃ w, dataHdr? i = some w ∧ decrypted x c w = .ok (.ok plain) := by
  unfold plaintext? at h
  split at h
  · cases h
  · rename_i w hw
    split at h
    · rename_i p hd
      cases h
      exact ⟨w, hw, hd⟩
    · cases h

end WfbYa.Rx
