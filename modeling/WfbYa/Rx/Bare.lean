/-
  WfbYa.Rx.Bare — what of a frame the receiver reads.

  The receiver's context keeps the frame it handled last, its frequency and its signal; no
  later frame is handled by them. Of a frame's memory only the frame itself is read.

  - `rxFrame_bare`: frames with the same bytes, size and signal, handled in contexts that
    differ in the frame before at most, report the same and leave contexts that differ in
    the frame at most; or fault alike.
-/

import WfbYa.Rx.NodeSteps

namespace WfbYa.Rx

open WfbYa.Frame WfbYa.Ring WfbYa.Lib

variable {x : Externals} {ctx : RxContext} {v : WfbContext}

/-- The context without the last frame. -/
def bare (ctx : RxContext) : RxContext := { ctx with wfb := .zero, freq := 0, dbm := 0 }

def Ret.bare (q : Ret) : Ret := { q with ctx := WfbYa.Rx.bare q.ctx }

/-- The result, with another frame in the context. -/
def Ret.withWfb (v : WfbContext) (q : Ret) : Ret := { q with ctx := { q.ctx with wfb := v } }

/-! ## The ring is handled without the frame -/

theorem sendLoop_wfb (slot : Nat) (stale recovered : Bool) (n : Nat) (r : Rbuf) :
    sendLoop { ctx with wfb := v } slot stale recovered n r = sendLoop ctx slot stale recovered n r := by
  induction n generalizing r with
  | zero => rfl
  | succ n ih =>
    unfold sendLoop
    simp only [ih]
    rfl

theorem sendDataAny_wfb (r : Rbuf) (slot : Nat) (stale recovered : Bool) :
    sendDataAny { ctx with wfb := v } r slot stale recovered = sendDataAny ctx r slot stale recovered := sendLoop_wfb ..

theorem purgeLoop_wfb (slot n : Nat) (r : Rbuf) : purgeLoop { ctx with wfb := v } slot n r = purgeLoop ctx slot n r := by
  induction n generalizing r with
  | zero => rfl
  | succ n ih =>
    unfold purgeLoop
    simp only [sendDataStale, sendDataAny_wfb, ih]

theorem dataFec_wfb (r : Rbuf) (slot : Nat) : dataFec x { ctx with wfb := v } r slot = dataFec x ctx r slot := by
  unfold dataFec sendDataRecovered
  simp only [sendDataAny_wfb]
  rfl

theorem dataAdd_wfb (r : Rbuf) (slot : Nat) : dataAdd x { ctx with wfb := v } r slot = dataAdd x ctx r slot := by
  unfold dataAdd purgeStale sendDataSeq
  simp only [sendDataAny_wfb, dataFec_wfb, purgeLoop_wfb]

/-! ## Frames with the same bytes -/

/-- The frame `v` is `w` but for the memory behind it. -/
structure FrameAlike (w v : WfbContext) : Prop where
  eq : ∃ h, v = { w with hdr := h } ∧ h.take w.pktlen = w.hdr.take w.pktlen
  hdrlen : w.hdrlen ≤ w.pktlen
  cipherlen : w.cipherlen = w.pktlen - w.hdrlen
  pos : 0 < w.pktlen

theorem FrameAlike.packetType {w v : WfbContext} (h : FrameAlike w v) : v.packetType = w.packetType := by
  obtain ⟨h', rfl, ht⟩ := h.eq
  have h1 : h'.getD 0 0 = w.hdr.getD 0 0 := getD_take ht h.pos
  unfold WfbContext.packetType
  cases h' <;> cases hw : w.hdr <;> rw [hw] at h1 <;> exact h1

theorem FrameAlike.cipher {w v : WfbContext} (h : FrameAlike w v) : v.cipher.take w.cipherlen = w.cipher.take w.cipherlen := by
  obtain ⟨h', rfl, ht⟩ := h.eq
  rw [h.cipherlen]
  exact drop_take_eq ht

theorem FrameAlike.decrypt {w v : WfbContext} (h : FrameAlike w v) (c : CryptoWfbContext) :
    cryptoWfbDataDecrypt x c v.hdr v.pktlen v.hdrlen v.nonce = cryptoWfbDataDecrypt x c w.hdr w.pktlen w.hdrlen w.nonce := by
  obtain ⟨h', rfl, ht⟩ := h.eq
  have hhead : h'.take w.hdrlen = w.hdr.take w.hdrlen := by
    rw [← Nat.min_eq_left h.hdrlen, ← List.take_take, ht, List.take_take]
  have hbody : (h'.drop w.hdrlen).take (w.pktlen - w.hdrlen) = (w.hdr.drop w.hdrlen).take (w.pktlen - w.hdrlen) := drop_take_eq ht
  unfold cryptoWfbDataDecrypt
  dsimp only
  rw [hhead, hbody]

theorem rxFragment_copy (h : FrameAlike ctx.wfb v) (r : Rbuf) (slot : Nat) :
    rxFragment x { ctx with wfb := v } r slot = (rxFragment x ctx r slot).map (Ret.withWfb v) := by
  have hidx : v.fragmentIdx = ctx.wfb.fragmentIdx := by
    obtain ⟨h', rfl, -⟩ := h.eq
    rfl
  unfold rxFragment
  dsimp only
  rw [hidx, h.decrypt]
  split
  · rfl
  · cases cryptoWfbDataDecrypt x ctx.crypto ctx.wfb.hdr ctx.wfb.pktlen ctx.wfb.hdrlen ctx.wfb.nonce with
    | error e => rfl
    | ok res =>
      cases res with
      | error err => rfl
      | ok plain =>
        dsimp only [bind, Except.bind]
        split
        · rfl
        · rw [dataAdd_wfb]
          cases dataAdd x ctx (r.setBlock slot (storeFragment (raiseRssi (r.blocks slot) ctx.wfb.fragmentIdx ctx.dbm)
            ctx.wfb.fragmentIdx r.fragmentSize plain)) slot <;> rfl

theorem rxData_copy (h : FrameAlike ctx.wfb v) : rxData x { ctx with wfb := v } = (rxData x ctx).map (Ret.withWfb v) := by
  have hfields : v.pktlen = ctx.wfb.pktlen ∧ v.blockIdx = ctx.wfb.blockIdx ∧ v.fragmentIdx = ctx.wfb.fragmentIdx := by
    obtain ⟨h', rfl, -⟩ := h.eq
    exact ⟨rfl, rfl, rfl⟩
  unfold rxData
  dsimp only
  rw [hfields.1, hfields.2.1, hfields.2.2]
  split
  · rfl
  · split
    · rfl
    · rename_i r _
      split
      · rfl
      · split
        · rfl
        · split
          · rfl
          · dsimp only [bind, Except.bind]
            cases rbufGetBlock r ctx.wfb.blockIdx with
            | error e => rfl
            | ok p =>
              obtain ⟨r1, blk, evs⟩ := p
              cases blk with
              | none => rfl
              | some slot =>
                dsimp only
                rw [rxFragment_copy h]
                cases rxFragment x ctx r1 slot <;> rfl

/-- The holders of the session box's keys put whole headers into it. -/
def BoxFull (x : Externals) : Prop :=
  ∀ c nonce pub sec plain, x.boxOpen c nonce pub sec = some plain → wfbSessionHdrlen ≤ plain.length

/-- A whole header is read from the plaintext alone. -/
theorem sessionHdr_whole {w : WfbContext} {plain : Bytes} (h : wfbSessionHdrlen ≤ plain.length) :
    sessionHdr w plain = wfbSessionHdr plain := by
  have htake : (plain ++ w.cipher.drop plain.length).take wfbSessionHdrlen = plain.take wfbSessionHdrlen := by
    rw [List.take_append_of_le_length h]
  unfold sessionHdr wfbSessionHdr
  rw [slice_take htake (by decide), slice_take htake (by decide), slice_take htake (by decide), getD_take htake (by decide),
    getD_take htake (by decide), getD_take htake (by decide)]

theorem rekey_wfb (o : Outcome) (hdr : WfbSessionHdr) :
    rekey o { ctx with wfb := v } hdr = (rekey o ctx hdr).map (Ret.withWfb v) := by
  unfold rekey
  dsimp only
  rw [show sessionCheck { ctx with wfb := v, hasSessionKey := false } hdr = sessionCheck
    { ctx with hasSessionKey := false } hdr from rfl]
  cases sessionCheck { ctx with hasSessionKey := false } hdr with
  | some fmt => rfl
  | none =>
    dsimp only
    split
    · rfl
    · cases rbufAlloc o.rbufAlloc o.heap rxRingSize maxFecPayload hdr.fecN with
      | error e => rfl
      | ok ring => cases ring <;> rfl

theorem rxSession_copy (hbox : BoxFull x) (h : FrameAlike ctx.wfb v) (o : Outcome) :
    rxSession x o { ctx with wfb := v } = (rxSession x o ctx).map (Ret.withWfb v) := by
  have hcipher : v.cipher.take v.cipherlen = ctx.wfb.cipher.take ctx.wfb.cipherlen := by
    have := h.cipher
    obtain ⟨h', rfl, -⟩ := h.eq
    exact this
  have hfields : v.pktlen = ctx.wfb.pktlen ∧ v.nonce = ctx.wfb.nonce := by
    obtain ⟨h', rfl, -⟩ := h.eq
    exact ⟨rfl, rfl⟩
  unfold rxSession
  dsimp only
  rw [hfields.1, hfields.2, hcipher]
  split
  · rfl
  · split
    · rfl
    · rename_i plain hd
      have hfull : wfbSessionHdrlen ≤ plain.length := by
        unfold cryptoWfbSessionDecrypt at hd
        split at hd
        · cases hd
        · split at hd
          · rename_i hopen
            cases hd
            exact hbox _ _ _ _ _ hopen
          · cases hd
      rw [sessionHdr_whole hfull, sessionHdr_whole hfull]
      show (if sameSession ctx _ = true then _ else _) = _
      split
      · rfl
      · exact rekey_wfb o _

/-! ## Frames -/

/-- The same bytes are parsed to the same frame. -/
theorem wfbFrameParse_copy {a b : Bytes} {n : Nat} (h : a.take n = b.take n) :
    (∃ fmt, wfbFrameParse a n = .error fmt ∧ wfbFrameParse b n = .error fmt) ∨
      ∃ w w', wfbFrameParse a n = .ok w ∧ wfbFrameParse b n = .ok w' ∧ FrameAlike w w' := by
  unfold wfbFrameParse
  split
  · exact .inl ⟨_, rfl, rfl⟩
  · rename_i h0
    split
    · exact .inl ⟨_, rfl, rfl⟩
    · have htype : a.headD 0 = b.headD 0 := by
        have h1 : a.getD 0 0 = b.getD 0 0 := getD_take h (Nat.not_lt.mp h0)
        cases a <;> cases b <;> exact h1
      dsimp only
      rw [htype]
      split
      · split
        · exact .inl ⟨_, rfl, rfl⟩
        · rename_i hmin
          have hnonce := @slice_take _ _ _ 1 crypto_aead_chacha20poly1305_NPUBBYTES h (Nat.not_lt.mp hmin)
          rw [hnonce]
          exact .inr ⟨_, _, rfl, rfl, ⟨⟨b, rfl, h.symm⟩, Nat.not_lt.mp hmin, rfl, Nat.not_lt.mp h0⟩⟩
      · split
        · split
          · exact .inl ⟨_, rfl, rfl⟩
          · rename_i hmin
            have hnonce := @slice_take _ _ _ 1 crypto_box_NONCEBYTES h (Nat.not_lt.mp hmin)
            rw [hnonce]
            exact .inr ⟨_, _, rfl, rfl, ⟨⟨b, rfl, h.symm⟩, Nat.not_lt.mp hmin, rfl, Nat.not_lt.mp h0⟩⟩
        · exact .inl ⟨_, rfl, rfl⟩

theorem map_bare_withWfb {φ : Type} (e : Except φ Ret) : (e.map (Ret.withWfb v)).map Ret.bare = e.map Ret.bare := by
  cases e <;> rfl

theorem rxWfb_copy (hbox : BoxFull x) (h : FrameAlike ctx.wfb v) (o : Outcome) :
    (rxWfb x o { ctx with wfb := v }).map Ret.bare = (rxWfb x o ctx).map Ret.bare := by
  unfold rxWfb
  rw [show ({ ctx with wfb := v } : RxContext).wfb.packetType = ctx.wfb.packetType from h.packetType]
  split
  · rw [rxSession_copy hbox h, map_bare_withWfb]
  · split
    · rw [rxData_copy h, map_bare_withWfb]
    · rfl

/-- Frames with the same bytes, size and signal, in contexts that differ in the last frame
    at most, do the same and leave such contexts, or both fault. -/
theorem rxFrame_bare (hbox : BoxFull x) {ctx' : RxContext} (hctx : bare ctx' = bare ctx)
    {f f' : RxFrame} (hsize : f'.size = f.size)
    (hdata : f'.data.take f.size = f.data.take f.size) (hfreq : f'.freq = f.freq) (hdbm : f'.dbm = f.dbm)
    (ho : f'.outcome = f.outcome) : (rxFrame x ctx' f').map Ret.bare = (rxFrame x ctx f).map Ret.bare := by
  unfold rxFrame
  rw [hsize, hfreq, hdbm, ho]
  rcases wfbFrameParse_copy hdata.symm with ⟨fmt, h1, h2⟩ | ⟨w, w', h1, h2, hcopy⟩
  · rw [h1, h2]
    show Except.ok (Ret.mk (-1) (bare ctx') _) = Except.ok (Ret.mk (-1) (bare ctx) _)
    rw [hctx]
  · rw [h1, h2]
    have hsame : withFrame ctx' f' w' = { withFrame ctx f w with wfb := w' } := by
      have hstate : withFrame ctx' f' w' = withFrame (bare ctx') f' w' := rfl
      rw [hstate, hctx]
      unfold withFrame
      rw [hfreq, hdbm]
      rfl
    show (rxWfb x f.outcome (withFrame ctx' f' w')).map Ret.bare = (rxWfb x f.outcome (withFrame ctx f w)).map Ret.bare
    rw [hsame]
    exact rxWfb_copy hbox hcopy f.outcome

end WfbYa.Rx
