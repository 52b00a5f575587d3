/-
  WfbYa.Rx.Datagrams — what a relayed datagram's handling depends on.

  The receive buffer is used again for each datagram, so the one before lies behind a short
  one. `udp_frame_parse` is given the size and does not look at it: a datagram shorter than
  its header is read to the header's end, `rxlen` wraps, and what refuses it is the limit
  on the size of a WFB frame.

  - `rxFrame_own`: two buffers that agree on the frame make the receiver do the same, if the
    frame is not a session frame too short for its header.
  - `size_respected_iff`: the lengths for which all is as it should be.
-/

import WfbYa.Rx.Coverage
import WfbYa.Rx.Relay

namespace WfbYa.Rx

open WfbYa.Frame WfbYa.Ring WfbYa.Lib

/-! ## Counters -/

/-- The counters of `wfb_stats` that `rx_frame_udp` and what it calls change. -/
structure WfbStatistics where
  mcUdpFrameError : UInt64
  mcUdpCorruptedFrames : UInt64
  mcUdpWfbFrameError : UInt64
  mcAccept : UInt64
  decodedFrames : UInt64
  deriving DecidableEq

/-- The calls of decode handlers. -/
def decodeEvs (evs : List NodeEv) : List NodeEv :=
  evs.filter fun e => match e with
    | .rx (.decode ..) => true
    | _ => false

/-- The counters of a datagram whose header is parsed. -/
def countUdp (udp : UdpContext) (stats : WfbStatistics) : WfbStatistics :=
  if udp.flags &&& udpFlagCorrupt ≠ 0 then { stats with mcUdpCorruptedFrames := stats.mcUdpCorruptedFrames + 1 } else stats

/-- The counters of its WFB frame. -/
def countWfb (evs : List NodeEv) (stats : WfbStatistics) : Except String WfbContext → WfbStatistics
  | .error _ => { stats with mcUdpWfbFrameError := stats.mcUdpWfbFrameError + 1 }
  | .ok _ =>
    { stats with
      mcAccept := stats.mcAccept + 1
      decodedFrames := stats.decodedFrames + UInt64.ofNat (decodeEvs evs).length }

/-- `wfb_stats` after `rx_frame_udp`. As `udp_frame_parse` never fails, nothing increments
    `mc_udp_frame_error`. -/
def rxFrameUdpStats (x : Externals) (node : RxNode) (d : Datagram) (stats : WfbStatistics) : WfbStatistics :=
  countWfb (rxFrameUdp x node d).evs (countUdp (udpFrameParse d.mem) stats)
    (wfbFrameParse (d.mem.drop (udpFrameParse d.mem).hdrlen) (sizeMinus d.size (udpFrameParse d.mem).hdrlen))

theorem countUdp_errors (udp : UdpContext) (stats : WfbStatistics) :
    (countUdp udp stats).mcUdpFrameError = stats.mcUdpFrameError ∧
    (countUdp udp stats).mcUdpWfbFrameError = stats.mcUdpWfbFrameError := by
  unfold countUdp
  split
  · exact ⟨rfl, rfl⟩
  · exact ⟨rfl, rfl⟩

theorem countWfb_same {evs : List NodeEv} {stats : WfbStatistics} {p q : Except String WfbContext} (h : SameFrame p q) :
    countWfb evs stats p = countWfb evs stats q := by
  cases p with
  | error e =>
    cases q with
    | error e' => rfl
    | ok v => cases h
  | ok w =>
    cases q with
    | error e => cases h
    | ok v => rfl

/-! ## The frame at hand -/

variable {x : Externals} {ctx : RxContext} {r : Rbuf} {slot : Nat}

theorem sendLoop_framed (w : WfbContext) (stale recovered : Bool) (n : Nat) (r : Rbuf) :
    sendLoop { ctx with wfb := w } slot stale recovered n r = sendLoop ctx slot stale recovered n r := by
  induction n generalizing r with
  | zero => rfl
  | succ n ih =>
    simp only [sendLoop, ih]
    rfl

theorem purgeLoop_framed (w : WfbContext) (n : Nat) (r : Rbuf) :
    purgeLoop { ctx with wfb := w } slot n r = purgeLoop ctx slot n r := by
  induction n generalizing r with
  | zero => rfl
  | succ n ih =>
    unfold purgeLoop
    simp only [ih, sendDataStale, sendDataAny, sendLoop_framed]

theorem dataFec_framed (w : WfbContext) (r : Rbuf) : dataFec x { ctx with wfb := w } r slot = dataFec x ctx r slot := by
  unfold dataFec
  simp only [sendDataRecovered, sendDataAny, sendLoop_framed]
  rfl

theorem dataAdd_framed (w : WfbContext) (r : Rbuf) : dataAdd x { ctx with wfb := w } r slot = dataAdd x ctx r slot := by
  unfold dataAdd purgeStale
  simp only [sendDataSeq, sendDataAny, sendLoop_framed, purgeLoop_framed, dataFec_framed]
  rfl

/-- Two calls end in the same way, but for the memory behind the frame. -/
inductive SameRet : Except Fault Ret → Except Fault Ret → Prop
  | fault (e : Fault) : SameRet (.error e) (.error e)
  | ok (ret : Int) (ctx : RxContext) (v : WfbContext) (evs : List Ev) :
      SameRet (.ok ⟨ret, ctx, evs⟩) (.ok ⟨ret, { ctx with wfb := v }, evs⟩)

theorem SameRet.bind {α : Type} {m : Except Fault α} {f g : α → Except Fault Ret} (h : ∀ a, SameRet (f a) (g a)) :
    SameRet (m >>= f) (m >>= g) := by
  cases m with
  | error e => exact .fault e
  | ok a => exact h a

theorem SameRet.prepend {a b : Except Fault Ret} (h : SameRet a b) (evs : List Ev) :
    SameRet (a >>= fun q => .ok { q with evs := evs ++ q.evs }) (b >>= fun q => .ok { q with evs := evs ++ q.evs }) := by
  cases h with
  | fault e => exact .fault e
  | ok ret ctx v e => exact .ok ..

variable {w v : WfbContext}

theorem rxFragment_same (r : Rbuf) (slot : Nat) (hf : w.fragmentIdx = v.fragmentIdx)
    (hd : decrypted x ctx.crypto w = decrypted x ctx.crypto v) :
    SameRet (rxFragment x { ctx with wfb := w } r slot) (rxFragment x { ctx with wfb := v } r slot) := by
  unfold decrypted at hd
  unfold rxFragment
  simp only [hf, hd, dataAdd_framed]
  split
  · exact .ok ..
  · apply SameRet.bind
    intro d
    cases d with
    | error left => exact .ok ..
    | ok plain =>
      dsimp only
      split
      · exact .fault _
      · apply SameRet.bind
        intro rest
        exact .ok ..

theorem rxData_same (hl : w.pktlen = v.pktlen) (hb : w.blockIdx = v.blockIdx) (hf : w.fragmentIdx = v.fragmentIdx)
    (hd : decrypted x ctx.crypto w = decrypted x ctx.crypto v) :
    SameRet (rxData x { ctx with wfb := w }) (rxData x { ctx with wfb := v }) := by
  unfold rxData
  simp only [hl, hb, hf]
  split
  · exact .ok ..
  · cases ctx.rxRing with
    | none => exact .fault _
    | some r =>
      dsimp only
      split
      · exact .ok ..
      · split
        · exact .ok ..
        · split
          · exact .ok ..
          · apply SameRet.bind
            intro p
            obtain ⟨r1, blk, evs⟩ := p
            cases blk with
            | none => exact .ok ..
            | some slot =>
              have hsame := @rxFragment_same x { ctx with rxRing := some r } w v r1 slot hf hd
              exact hsame.prepend _

theorem rekey_same (o : Outcome) (hdr : WfbSessionHdr) :
    SameRet (rekey o { ctx with wfb := w } hdr) (rekey o { ctx with wfb := v } hdr) := by
  have hcheck : sessionCheck { ctx with wfb := w, hasSessionKey := false } hdr =
      sessionCheck { ctx with wfb := v, hasSessionKey := false } hdr := rfl
  unfold rekey
  dsimp only
  rw [hcheck]
  cases sessionCheck { ctx with wfb := v, hasSessionKey := false } hdr with
  | some fmt => exact .ok ..
  | none =>
    dsimp only
    split
    · exact .ok ..
    · apply SameRet.bind
      intro ring
      cases ring with
      | none => exact .ok ..
      | some ring => exact .ok ..

theorem rxSession_same (o : Outcome) (hl : w.pktlen = v.pktlen) (hn : w.nonce = v.nonce)
    (hc : w.cipher.take w.cipherlen = v.cipher.take v.cipherlen)
    (hhdr : ∀ plain, cryptoWfbSessionDecrypt x ctx.crypto (v.cipher.take v.cipherlen) v.nonce = .ok plain →
      minSessionPacketLen ≤ v.pktlen → sessionHdr w plain = sessionHdr v plain) :
    SameRet (rxSession x o { ctx with wfb := w }) (rxSession x o { ctx with wfb := v }) := by
  unfold rxSession
  dsimp only
  rw [hl, hn, hc]
  split
  · exact .ok ..
  · rename_i hmin
    cases hd : cryptoWfbSessionDecrypt x ctx.crypto (v.cipher.take v.cipherlen) v.nonce with
    | error fmt => exact .ok ..
    | ok plain =>
      dsimp only
      rw [hhdr plain hd (Nat.not_lt.mp hmin)]
      have hsame : sameSession { ctx with wfb := w } (sessionHdr v plain) = sameSession { ctx with wfb := v }
        (sessionHdr v plain) := rfl
      rw [hsame]
      split
      · exact .ok ..
      · exact rekey_same o _

/-! ## The bytes of the frame -/

theorem wfbSessionHdr_take {a b : Bytes} (h : a.take wfbSessionHdrlen = b.take wfbSessionHdrlen) :
    wfbSessionHdr a = wfbSessionHdr b := by
  unfold wfbSessionHdr
  rw [slice_take h (by decide), slice_take h (by decide), getD_take h (by decide), getD_take h (by decide),
    getD_take h (by decide), slice_take h (by decide)]

/-- The header of an opened session lies in the frame, opened or not. -/
theorem sessionHdr_take {n : Nat} (hn : wfbSessionHdrlen ≤ n) (h : w.cipher.take n = v.cipher.take n) (plain : Bytes) :
    sessionHdr w plain = sessionHdr v plain := by
  apply wfbSessionHdr_take
  have hhead : w.cipher.take wfbSessionHdrlen = v.cipher.take wfbSessionHdrlen := by
    have htake := congrArg (List.take wfbSessionHdrlen) h
    rwa [List.take_take, List.take_take, Nat.min_eq_left hn] at htake
  rw [List.take_append, List.take_append, drop_take_eq hhead]

/-- A session frame that is long enough for the check on it, and not for its header even
    with the nonce before it. -/
def SessionTooShort (type : UInt8) (size : Nat) : Prop :=
  type = wfbPacketSession ∧ minSessionPacketLen ≤ size ∧ size < wfbSessionBlockHdrlen + wfbSessionHdrlen

theorem decrypted_take {a b : Bytes} {n : Nat} {c : CryptoWfbContext} (h : a.take n = b.take n) (hw : wfbFrameParse a n = .ok w)
    (hv : wfbFrameParse b n = .ok v) (ht : w.packetType = wfbPacketData) (ht' : v.packetType = wfbPacketData)
    (hn : w.nonce = v.nonce) : decrypted x c w = decrypted x c v := by
  obtain ⟨hdw, hhw, hlw⟩ := wfbFrameParse_data hw ht
  obtain ⟨hdv, hhv, hlv⟩ := wfbFrameParse_data hv ht'
  have hle : wfbDataBlockHdrlen ≤ n := by
    rw [← hlw, ← hdw.hdrlen]
    exact hdw.pktlen.1
  have hhead : a.take wfbDataBlockHdrlen = b.take wfbDataBlockHdrlen := by
    have htake := congrArg (List.take wfbDataBlockHdrlen) h
    rwa [List.take_take, List.take_take, Nat.min_eq_left hle] at htake
  unfold decrypted cryptoWfbDataDecrypt
  rw [hhw, hhv, hlw, hlv, hdw.hdrlen, hdv.hdrlen, hn, hhead, drop_take_eq h]

/-- Buffers that agree on the frame make the receiver do the same. -/
theorem rxFrame_own {a b : Bytes} {n : Nat} (h : a.take n = b.take n) (hs : ¬ SessionTooShort (a.headD 0) n)
    (freq : Nat) (dbm : Int)
    (o : Outcome) : SameRet (rxFrame x ctx ⟨a, n, freq, dbm, o⟩) (rxFrame x ctx ⟨b, n, freq, dbm, o⟩) := by
  have hsame := wfbFrameParse_take h
  unfold rxFrame
  dsimp only
  cases hw : wfbFrameParse a n with
  | error fmt =>
    cases hv : wfbFrameParse b n with
    | error fmt' =>
      rw [hw, hv] at hsame
      obtain rfl : fmt = fmt' := hsame
      exact .ok _ _ ctx.wfb _
    | ok v =>
      rw [hw, hv] at hsame
      cases hsame
  | ok w =>
    cases hv : wfbFrameParse b n with
    | error fmt =>
      rw [hw, hv] at hsame
      cases hsame
    | ok v =>
      rw [hw, hv] at hsame
      obtain ⟨htype, -, hlen, hnonce, hblk, hfrag, hclen, hcipher⟩ := hsame
      dsimp only
      unfold rxWfb
      by_cases hsess : w.packetType = wfbPacketSession
      · obtain ⟨hss, hhw, hlw⟩ := wfbFrameParse_session hw hsess
        rw [if_pos (show (withFrame ctx ⟨a, n, freq, dbm, o⟩ w).wfb.packetType = wfbPacketSession from hsess),
          if_pos (show (withFrame ctx ⟨b, n, freq, dbm, o⟩ v).wfb.packetType = wfbPacketSession from htype ▸ hsess)]
        refine @rxSession_same x { ctx with freq := freq, dbm := dbm } w v o hlen hnonce hcipher ?_
        intro plain _ hmin
        apply @sessionHdr_take w v w.cipherlen _ (by rw [hcipher, hclen]) plain
        rw [hss.cipherlen, hlw, hss.hdrlen]
        rw [← hlen, hlw] at hmin
        by_contra hlt
        exact hs ⟨by rw [← hhw]; exact hsess, hmin, by omega⟩
      · rw [if_neg (show ¬ (withFrame ctx ⟨a, n, freq, dbm, o⟩ w).wfb.packetType = wfbPacketSession from hsess),
          if_neg (show ¬ (withFrame ctx ⟨b, n, freq, dbm, o⟩ v).wfb.packetType = wfbPacketSession from htype ▸ hsess)]
        by_cases hdata : w.packetType = wfbPacketData
        · rw [if_pos (show (withFrame ctx ⟨a, n, freq, dbm, o⟩ w).wfb.packetType = wfbPacketData from hdata),
            if_pos (show (withFrame ctx ⟨b, n, freq, dbm, o⟩ v).wfb.packetType = wfbPacketData from htype ▸ hdata)]
          exact @rxData_same x { ctx with freq := freq, dbm := dbm } w v hlen hblk hfrag
            (decrypted_take h hw hv hdata (htype ▸ hdata) hnonce)
        · rw [if_neg (show ¬ (withFrame ctx ⟨a, n, freq, dbm, o⟩ w).wfb.packetType = wfbPacketData from hdata),
            if_neg (show ¬ (withFrame ctx ⟨b, n, freq, dbm, o⟩ v).wfb.packetType = wfbPacketData from htype ▸ hdata)]
          exact .ok 0 (withFrame ctx ⟨a, n, freq, dbm, o⟩ w) v []

/-! ## The datagram -/

/-- What shows of a call of `rx_frame_udp`: the result and the `freq`, `dbm` and flags it
    leaves, what it does, and the counters. -/
def observed (x : Externals) (node : RxNode) (d : Datagram) (stats : WfbStatistics) :
    Except Fault (Int × Nat × Int × Nat) × List NodeEv × WfbStatistics :=
  ((rxFrameUdp x node d).out.map fun p => (p.1, p.2.rx.freq, p.2.rx.dbm, p.2.udp.flags), (rxFrameUdp x node d).evs,
    rxFrameUdpStats x node d stats)

/-- The node when the datagram's header is parsed. -/
def udpNode (node : RxNode) (d : Datagram) : RxNode :=
  { node with
    rxSrc := d.src
    udp := udpFrameParse d.mem
    rx := { node.rx with freq := (udpFrameParse d.mem).freq, dbm := (udpFrameParse d.mem).dbm } }

def corruptEvs (d : Datagram) : List NodeEv := if (udpFrameParse d.mem).flags &&& udpFlagCorrupt ≠ 0 then [.logCorrupt] else []

variable {node : RxNode} {d d' : Datagram}

theorem rxFrameUdp_evs (x : Externals) (node : RxNode) (d : Datagram) : (rxFrameUdp x node d).evs =
    .minus d.size wfbUdpHdrlen :: (corruptEvs d ++
      (rxFrameWfb x (udpNode node d) d.mem wfbUdpHdrlen (sizeMinus d.size wfbUdpHdrlen) d.outcome).evs) := by
  have hout : (rxUdpFrame node d.mem d.size d.src).out = .ok (udpNode node d, wfbUdpHdrlen, sizeMinus d.size wfbUdpHdrlen) := rfl
  have hevs : (rxUdpFrame node d.mem d.size d.src).evs = .minus d.size wfbUdpHdrlen :: corruptEvs d := by
    show NodeEv.minus d.size wfbUdpHdrlen :: (corruptEvs d ++ []) = _
    rw [List.append_nil]
  unfold rxFrameUdp
  rw [(Traced.bind_ok hout).1, hevs]
  rfl

theorem rxFrameUdp_out (x : Externals) (node : RxNode) (d : Datagram) : (rxFrameUdp x node d).out =
    (rxFrameWfb x (udpNode node d) d.mem wfbUdpHdrlen (sizeMinus d.size wfbUdpHdrlen) d.outcome).out := by
  have hout : (rxUdpFrame node d.mem d.size d.src).out = .ok (udpNode node d, wfbUdpHdrlen, sizeMinus d.size wfbUdpHdrlen) := rfl
  unfold rxFrameUdp
  rw [(Traced.bind_ok hout).2]

theorem rxFrameWfb_own {a b : Bytes} {off n : Nat} {o : Outcome} (h : (a.drop off).take n = (b.drop off).take n)
    (hs : ¬ SessionTooShort ((a.drop off).headD 0) n) :
    (rxFrameWfb x node a off n o).evs = (rxFrameWfb x node b off n o).evs ∧
      ((rxFrameWfb x node a off n o).out.map fun p => (p.1, p.2.rx.freq, p.2.rx.dbm, p.2.udp.flags)) =
        (rxFrameWfb x node b off n o).out.map fun p => (p.1, p.2.rx.freq, p.2.rx.dbm, p.2.udp.flags) := by
  have htaken : wfbTaken n (wfbFrameParse (a.drop off) n) = wfbTaken n (wfbFrameParse (b.drop off) n) := by
    have hsame := wfbFrameParse_take h
    cases hw : wfbFrameParse (a.drop off) n with
    | error fmt =>
      cases hv : wfbFrameParse (b.drop off) n with
      | error fmt' => rfl
      | ok v =>
        rw [hw, hv] at hsame
        cases hsame
    | ok w =>
      cases hv : wfbFrameParse (b.drop off) n with
      | error fmt =>
        rw [hw, hv] at hsame
        cases hsame
      | ok v =>
        rw [hw, hv] at hsame
        unfold wfbTaken
        dsimp only
        rw [hsame.2.2.1]
  have hret := @rxFrame_own x node.rx _ _ _ h hs node.rx.freq node.rx.dbm o
  unfold rxFrameWfb
  simp only [Traced.emit_bind_evs, Traced.emit_bind_out, Traced.emitAll_bind_evs, Traced.emitAll_bind_out, htaken]
  generalize rxFrame x node.rx ⟨a.drop off, n, node.rx.freq, node.rx.dbm, o⟩ = q at hret ⊢
  generalize rxFrame x node.rx ⟨b.drop off, n, node.rx.freq, node.rx.dbm, o⟩ = q' at hret ⊢
  cases hret with
  | fault e => exact ⟨rfl, rfl⟩
  | ok ret ctx v evs => exact ⟨rfl, rfl⟩

theorem udpFrameParse_take {a b : Bytes} {n : Nat} (hn : wfbUdpHdrlen ≤ n) (h : a.take n = b.take n) :
    udpFrameParse a = udpFrameParse b := by
  unfold udpFrameParse
  rw [slice_take h (Nat.le_trans (by decide) hn), slice_take h (Nat.le_trans (by decide) hn),
    slice_take h (Nat.le_trans (by decide) hn)]

/-! ## The sizes that are respected -/

/-- Records of frames in the log. -/
def NodeEv.isRecord : NodeEv → Bool
  | .logCorrupt => true
  | .rx (.logFrame ..) => true
  | .rx (.logDecode ..) => true
  | _ => false

/-- What `rx_frame_udp` does is up to the datagram, and a datagram without a header is an error. -/
structure SizeRespected (x : Externals) (node : RxNode) (d : Datagram) : Prop where
  own : ∀ mem' stats, mem'.length = d.mem.length → mem'.take d.size = d.mem.take d.size →
    observed x node { d with mem := mem' } stats = observed x node d stats
  short : d.size < wfbUdpHdrlen → ∀ stats, (rxFrameUdp x node d).out.map Prod.fst = .ok (-1) ∧
    rxFrameUdpStats x node d stats = { stats with mcUdpFrameError := stats.mcUdpFrameError + 1 } ∧
      ∀ e ∈ (rxFrameUdp x node d).evs, e.isRecord = false
  noWrap : ∀ rxlen parsed, .minus rxlen parsed ∈ (rxFrameUdp x node d).evs → parsed ≤ rxlen

theorem headD_drop (mem : Bytes) (n : Nat) : (mem.drop n).headD 0 = mem.getD n 0 := by
  rw [List.headD_eq_head?_getD, List.head?_drop, List.getD_eq_getElem?_getD]

/-- A length taken off a length that is no less. -/
def NodeEv.Unwrapped : NodeEv → Prop
  | .minus rxlen parsed => parsed ≤ rxlen
  | _ => True

/-- The WFB frame is all that is left. -/
theorem rxFrameWfb_unwrapped (node : RxNode) (mem : Bytes) (rxbuf size : Nat) (o : Outcome) :
    Traced.All NodeEv.Unwrapped (rxFrameWfb x node mem rxbuf size o) := by
  unfold rxFrameWfb
  have htaken : Traced.All NodeEv.Unwrapped
      (Traced.emitAll (wfbTaken size (wfbFrameParse (mem.drop rxbuf) size)) : Traced NodeEv Fault Unit) := by
    intro e he
    cases hw : wfbFrameParse (mem.drop rxbuf) size with
    | error fmt =>
      rw [hw] at he
      cases he
    | ok w =>
      rw [hw] at he
      rw [List.mem_singleton.mp he]
      exact Nat.le_of_eq (wfbFrameParse_pktlen hw)
  refine Traced.all_emit_bind.mpr ⟨trivial, Traced.all_bind.mpr ⟨htaken, fun _ _ => ?_⟩⟩
  split
  · intro e he
    obtain ⟨a, -, rfl⟩ := List.mem_map.mp he
    trivial
  · exact Traced.all_fail _

theorem rxFrameUdp_unwrapped (h : wfbUdpHdrlen ≤ d.size) : Traced.All NodeEv.Unwrapped (rxFrameUdp x node d) := by
  intro e he
  rw [rxFrameUdp_evs, List.mem_cons, List.mem_append] at he
  rcases he with rfl | he | he
  · exact h
  · unfold corruptEvs at he
    split at he
    · rw [List.mem_singleton.mp he]
      trivial
    · cases he
  · exact rxFrameWfb_unwrapped _ _ _ _ _ e he

theorem wfbFrameParse_long {size : Nat} (h : maxDataPacketSize < size) (data : Bytes) :
    wfbFrameParse data size = .error "Frame too long\n" := by
  unfold wfbFrameParse
  rw [if_neg (by omega), if_pos h]

theorem rxFrameWfb_long {size : Nat} (h : maxDataPacketSize < size) (node : RxNode) (mem : Bytes) (rxbuf : Nat) (o : Outcome) :
    (rxFrameWfb x node mem rxbuf size o).out.map Prod.fst = .ok (-1) := by
  unfold rxFrameWfb rxFrame
  rw [Traced.emit_bind_out, Traced.emitAll_bind_out]
  dsimp only
  rw [wfbFrameParse_long h]
  rfl

theorem short_wraps {size : Nat} (h : size < wfbUdpHdrlen) : maxDataPacketSize < sizeMinus size wfbUdpHdrlen := by
  unfold sizeMinus u64 maxDataPacketSize wifiMtu ieee80211DataHdrlen
  unfold wfbUdpHdrlen at h ⊢
  omega

/-- A datagram shorter than its header is refused as a WFB frame that is too long. -/
theorem short_refused (h : d.size < wfbUdpHdrlen) (stats : WfbStatistics) : (rxFrameUdp x node d).out.map Prod.fst = .ok (-1) ∧
    (rxFrameUdpStats x node d stats).mcUdpFrameError = stats.mcUdpFrameError ∧
      (rxFrameUdpStats x node d stats).mcUdpWfbFrameError = stats.mcUdpWfbFrameError + 1 := by
  have hwraps := short_wraps h
  refine ⟨?_, ?_⟩
  · rw [rxFrameUdp_out]
    exact rxFrameWfb_long hwraps _ _ _ _
  · have hhdr : (udpFrameParse d.mem).hdrlen = wfbUdpHdrlen := rfl
    have hstats : rxFrameUdpStats x node d stats =
        countWfb (rxFrameUdp x node d).evs (countUdp (udpFrameParse d.mem) stats) (.error "Frame too long\n") := by
      unfold rxFrameUdpStats
      rw [hhdr, wfbFrameParse_long hwraps]
    obtain ⟨hudp, hwfb⟩ := countUdp_errors (udpFrameParse d.mem) stats
    rw [hstats]
    exact ⟨hudp, congrArg (· + 1) hwfb⟩

theorem respected_of_size (hfit : d.size < 2 ^ 64) (h : wfbUdpHdrlen ≤ d.size)
    (hs : ¬ SessionTooShort (d.mem.getD wfbUdpHdrlen 0) (d.size - wfbUdpHdrlen)) : SizeRespected x node d where
  own := by
    intro mem' stats hlen hmem
    have hudp : udpFrameParse mem' = udpFrameParse d.mem := udpFrameParse_take h hmem
    have hminus : sizeMinus d.size wfbUdpHdrlen = d.size - wfbUdpHdrlen := sizeMinus_eq h hfit
    have hnode : udpNode node { d with mem := mem' } = udpNode node d := by
      unfold udpNode
      dsimp only
      rw [hudp]
    have hcorrupt : corruptEvs { d with mem := mem' } = corruptEvs d := by
      unfold corruptEvs
      dsimp only
      rw [hudp]
    have hdrop : (d.mem.drop wfbUdpHdrlen).take (d.size - wfbUdpHdrlen) = (mem'.drop wfbUdpHdrlen).take (d.size - wfbUdpHdrlen) :=
      drop_take_eq hmem.symm
    obtain ⟨hevs, hout⟩ := @rxFrameWfb_own x (udpNode node d) _ _ _ _ d.outcome hdrop (by rw [headD_drop]; exact hs)
    have hall : (rxFrameUdp x node { d with mem := mem' }).evs = (rxFrameUdp x node d).evs := by
      rw [rxFrameUdp_evs, rxFrameUdp_evs, hnode, hcorrupt]
      dsimp only
      rw [hminus, hevs]
    have hstats : rxFrameUdpStats x node { d with mem := mem' } stats = rxFrameUdpStats x node d stats := by
      unfold rxFrameUdpStats
      rw [hall]
      dsimp only
      have hhdr : (udpFrameParse d.mem).hdrlen = wfbUdpHdrlen := rfl
      rw [hudp, hhdr, hminus]
      exact (countWfb_same (wfbFrameParse_take hdrop)).symm
    unfold observed
    rw [hall, hstats, rxFrameUdp_out, rxFrameUdp_out, hnode]
    dsimp only
    rw [hminus, hout]
  short := fun hlt => absurd h (Nat.not_le.mpr hlt)
  noWrap := by
    intro rxlen parsed hmem
    exact rxFrameUdp_unwrapped h _ hmem

/-! ## Where the size is not respected -/

theorem observed_ret (x : Externals) (node : RxNode) (d : Datagram) (stats : WfbStatistics) :
    (observed x node d stats).1.toOption.map Prod.fst = (rxFrameUdp x node d).out.toOption.map Prod.fst := by
  unfold observed
  cases (rxFrameUdp x node d).out with
  | error e => rfl
  | ok p => rfl

/-- A node after some receive history. -/
def Reached (x : Externals) (lib : RadiotapLib) (node : RxNode) : Prop :=
  ∃ channelId crypto noFec handlers mirrorHandler is tr, Machine.Run (nodeStep x lib) (fun _ _ => True)
    { nodeSetup channelId crypto noFec handlers with mirrorHandler := mirrorHandler } is node tr

/-- A sender's session frame, relayed. -/
def sessionMem : Bytes := List.replicate wfbUdpHdrlen 0 ++ (sessionFrame 1 0 2 2 someKey).data

/-- The session is accepted, and its frame comes again, cut off before the key's end. With the
    key's end in the buffer it is the same session, else another one, for which there is no
    codec. -/
theorem cut_session_unrespected {size : Nat} (h : wfbUdpHdrlen + minSessionPacketLen ≤ size)
    (h' : size < wfbUdpHdrlen + wfbSessionBlockHdrlen + wfbSessionHdrlen) : ∃ node, Reached lax basicIterator node ∧
      ¬ SizeRespected lax node ⟨sessionMem, size, none, { allWell with fecNew := false }⟩ := by
  obtain ⟨node, tr, hrun, hall⟩ := Machine.exists_run (nodeStep lax basicIterator) (fun _ _ => True) (nodeSetup 0 loaded false [])
    [.datagram ⟨sessionMem, sessionMem.length, none, allWell⟩] (fun p => decide (∀ n ∈ List.range' 71 9,
      ((rxFrameUdp lax p.1 ⟨sessionMem, n, none, { allWell with fecNew := false }⟩).out.toOption.map Prod.fst = some 0 ∧
        (rxFrameUdp lax p.1 ⟨sessionMem.set 79 0, n, none, { allWell with fecNew := false }⟩).out.toOption.map Prod.fst =
          some (-1)) ∧
          (sessionMem.set 79 0).take n = sessionMem.take n))
    (by decide +kernel)
  refine ⟨node, ⟨0, loaded, false, [], [], _, tr, hrun⟩, ?_⟩
  intro hok
  have hn : size ∈ List.range' 71 9 := List.mem_range'_1.mpr ⟨h, h'⟩
  obtain ⟨⟨hsame, hother⟩, htake⟩ := of_decide_eq_true hall size hn
  have hseen := hok.own (sessionMem.set 79 0) ⟨0, 0, 0, 0, 0⟩ List.length_set htake
  have hout := congrArg (fun seen => seen.1.toOption.map Prod.fst) hseen
  dsimp only at hout
  rw [observed_ret, observed_ret, hsame, hother] at hout
  cases hout

/-- For which lengths, and which first bytes of the WFB frame, `rx_frame_udp` always respects
    the datagram's size: none shorter than the header, and no session frame too short for its
    own header. -/
theorem size_respected_iff (type : UInt8) (size : UInt64) :
    (∀ x lib node, Reached x lib node → ∀ d : Datagram, d.size = size.toNat → d.size ≤ d.mem.length →
      d.mem.getD wfbUdpHdrlen 0 = type → SizeRespected x node d) ↔
    wfbUdpHdrlen ≤ size.toNat ∧ ¬ SessionTooShort type (size.toNat - wfbUdpHdrlen) := by
  constructor
  · intro h
    have hlong : wfbUdpHdrlen ≤ size.toNat := by
      by_contra hshort
      have hlen : (List.replicate wfbUdpHdrlen 0 ++ [type]).length = wfbUdpHdrlen + 1 := by simp
      have hok := h lax basicIterator (nodeSetup 0 loaded false []) ⟨0, loaded, false, [], [], [], [], .nil⟩
        ⟨List.replicate wfbUdpHdrlen 0 ++ [type], size.toNat, none, allWell⟩ rfl (by dsimp only; omega) (by simp)
      have hwrap := hok.noWrap size.toNat wfbUdpHdrlen (by rw [rxFrameUdp_evs]; exact List.mem_cons_self)
      exact hshort hwrap
    refine ⟨hlong, ?_⟩
    intro hs
    obtain ⟨htype, hmin, hmax⟩ := hs
    obtain ⟨node, hreach, hno⟩ := @cut_session_unrespected size.toNat (by omega) (by omega)
    apply hno
    have hlen : sessionMem.length = 96 := by decide
    have hbound : wfbSessionBlockHdrlen + wfbSessionHdrlen = 72 := by decide
    have hhdr : wfbUdpHdrlen = 8 := rfl
    have hfirst : sessionMem.getD wfbUdpHdrlen 0 = wfbPacketSession := by decide
    exact h lax basicIterator node hreach _ rfl (by dsimp only; omega) (hfirst.trans htype.symm)
  · intro h x lib node _ d hsize _ htype
    have hfit : d.size < 2 ^ 64 := by
      rw [hsize]
      exact size.toNat_lt
    apply respected_of_size hfit
    · rw [hsize]
      exact h.1
    · rw [hsize, htype]
      exact h.2

/-- Three bytes, and nothing behind them. -/
def threeBytes : Datagram := ⟨[1, 2, 3], 3, none, allWell⟩

example : NodeEv.minus 3 8 ∈ (rxFrameUdp lax (nodeSetup 0 loaded false []) threeBytes).evs := by decide +kernel

theorem short_breaks_size : ¬ ∀ x lib node, Reached x lib node → ∀ d : Datagram, d.size ≤ d.mem.length →
    SizeRespected x node d := by
  intro h
  have hok := h lax basicIterator (nodeSetup 0 loaded false []) ⟨0, loaded, false, [], [], [], [], .nil⟩ threeBytes (by decide)
  have hclaimed := (hok.short (by decide) ⟨0, 0, 0, 0, 0⟩).2.1
  have hdone := (@short_refused lax (nodeSetup 0 loaded false []) threeBytes (by decide) ⟨0, 0, 0, 0, 0⟩).2.1
  rw [hclaimed] at hdone
  cases hdone

end WfbYa.Rx
