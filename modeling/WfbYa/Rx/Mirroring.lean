/-
  WfbYa.Rx.Mirroring — nodes that capture and mirror, a network, and a node that receives.

  Any number of relays capture frames, each on its own, and mirror them (`rx_mirror_frame`).
  The network keeps every datagram sent: it may deliver them in any order, late, twice or
  never, and what else the receive buffer holds is arbitrary. The viewer handles what is
  delivered (`rx_frame_udp`).

  - `viewer_as_local`: in every run of the system the viewer reports, and is left with, what
    a node would that had itself captured the frames behind the datagrams, in the order of
    their delivery.
-/

import WfbYa.Rx.Bare
import WfbYa.Rx.Relay

namespace WfbYa.Rx

open WfbYa.Frame WfbYa.Ring WfbYa.Lib WfbYa.Lib.BigEndian

variable {x : Externals} {lib : RadiotapLib} {node node' : RxNode}

/-! ## The system -/

/-- A datagram in the network, and the capture it was mirrored for. -/
structure Sent where
  bytes : Bytes
  cap : Capture

structure System where
  relays : Nat → RxNode
  net : List Sent
  viewer : RxNode

inductive SystemInput where
  | capture (relay : Nat) (cap : Capture)
  /-- A datagram of the network is received; `rest` is what the buffer holds behind it. -/
  | deliver (k : Nat) (rest : Bytes) (src : Option Bytes) (o : Outcome)
  | fecToggle

inductive SystemEv where
  /-- What the viewer is told amounts to this. -/
  | heard (i : NodeInput)
  /-- The viewer's receiver reports. -/
  | viewer (e : Ev)

def systemStep (x : Externals) (lib : RadiotapLib) (s : System) : SystemInput → Except Fault (System × List SystemEv)
  | .capture i cap => do
    let p ← nodeStep x lib (s.relays i) (.capture cap)
    return ({ s with
      relays := Function.update s.relays i p.1
      net := s.net ++ (mirrors p.2).map fun m => ⟨m.2.flatten, cap⟩ }, [])
  | .deliver k rest src o =>
    match s.net[k]? with
    | none => return (s, [])
    | some m => do
      let p ← nodeStep x lib s.viewer (.datagram ⟨m.bytes ++ rest, m.bytes.length, src, o⟩)
      return ({ s with viewer := p.1 }, .heard (.capture { m.cap with outcome := o }) :: (rxEvs p.2).map .viewer)
  | .fecToggle => do
    let p ← nodeStep x lib s.viewer .fecToggle
    return ({ s with viewer := p.1 }, .heard .fecToggle :: (rxEvs p.2).map .viewer)

/-- What the viewer was told. -/
def heardInputs (tr : List SystemEv) : List NodeInput :=
  tr.filterMap fun e => match e with
    | .heard i => some i
    | .viewer _ => none

/-- What the viewer's receiver reported. -/
def viewerEvs (tr : List SystemEv) : List Ev :=
  tr.filterMap fun e => match e with
    | .heard _ => none
    | .viewer e => some e

@[simp] theorem heardInputs_append (t t' : List SystemEv) : heardInputs (t ++ t') = heardInputs t ++ heardInputs t' :=
  List.filterMap_append ..

@[simp] theorem viewerEvs_append (t t' : List SystemEv) : viewerEvs (t ++ t') = viewerEvs t ++ viewerEvs t' :=
  List.filterMap_append ..

@[simp] theorem viewerEvs_viewer (evs : List Ev) : viewerEvs (evs.map .viewer) = evs := by
  unfold viewerEvs
  rw [List.filterMap_map]
  exact List.filterMap_some

@[simp] theorem heardInputs_viewer (evs : List Ev) : heardInputs (evs.map .viewer) = [] := by
  induction evs with
  | nil => rfl
  | cons e evs ih => exact ih

/-! ## One frame at both -/

theorem rxFrameWfb_ok {mem : Bytes} {rxbuf size : Nat} {o : Outcome} {q : Ret}
    (h : rxFrame x node.rx ⟨mem.drop rxbuf, size, node.rx.freq, node.rx.dbm, o⟩ = .ok q) :
    (rxFrameWfb x node mem rxbuf size o).out = .ok (q.ret, { node with rx := q.ctx }) ∧
      rxEvs (rxFrameWfb x node mem rxbuf size o).evs = q.evs := by
  have hmin : rxEvs (wfbTaken size (wfbFrameParse (mem.drop rxbuf) size)) = [] := by
    cases wfbFrameParse (mem.drop rxbuf) size <;> rfl
  unfold rxFrameWfb
  rw [Traced.emit_bind_out, Traced.emitAll_bind_out, Traced.emit_bind_evs, Traced.emitAll_bind_evs, h]
  refine ⟨rfl, ?_⟩
  show rxEvs (_ ++ q.evs.map NodeEv.rx) = _
  rw [rxEvs_append, hmin, rxEvs_rx, List.nil_append]

theorem rxFrameWfb_iff {mem : Bytes} {rxbuf size : Nat} {o : Outcome} {p : Int × RxNode}
    (h : (rxFrameWfb x node mem rxbuf size o).out = .ok p) :
    ∃ q, rxFrame x node.rx ⟨mem.drop rxbuf, size, node.rx.freq, node.rx.dbm, o⟩ = .ok q := by
  unfold rxFrameWfb at h
  rw [Traced.emit_bind_out, Traced.emitAll_bind_out] at h
  cases hf : rxFrame x node.rx ⟨mem.drop rxbuf, size, node.rx.freq, node.rx.dbm, o⟩ with
  | error e =>
    rw [hf] at h
    cases h
  | ok q => exact ⟨q, rfl⟩

/-- A frame handled by two nodes whose receivers differ in the frame before at most. -/
theorem rxFrameWfb_alike (hbox : BoxFull x) (hrx : bare node'.rx = bare node.rx) {mem mem' : Bytes}
    {at' at0 size : Nat} {o : Outcome}
    (hdata : (mem'.drop at').take size = (mem.drop at0).take size) (hfreq : node'.rx.freq = node.rx.freq)
    (hdbm : node'.rx.dbm = node.rx.dbm) {p : Int × RxNode} (h : (rxFrameWfb x node mem at0 size o).out = .ok p) :
    ∃ p', (rxFrameWfb x node' mem' at' size o).out = .ok p' ∧ bare p'.2.rx = bare p.2.rx ∧
      rxEvs (rxFrameWfb x node' mem' at' size o).evs = rxEvs (rxFrameWfb x node mem at0 size o).evs := by
  obtain ⟨q, hq⟩ := rxFrameWfb_iff h
  have hsame : (rxFrame x node'.rx ⟨mem'.drop at', size, node'.rx.freq, node'.rx.dbm, o⟩).map Ret.bare =
      (rxFrame x node.rx ⟨mem.drop at0, size, node.rx.freq, node.rx.dbm, o⟩).map Ret.bare :=
    rxFrame_bare hbox hrx rfl hdata hfreq hdbm rfl
  rw [hq] at hsame
  cases hq' : rxFrame x node'.rx ⟨mem'.drop at', size, node'.rx.freq, node'.rx.dbm, o⟩ with
  | error e =>
    rw [hq'] at hsame
    cases hsame
  | ok q' =>
    rw [hq'] at hsame
    have hret : q'.bare = q.bare := Except.ok.inj hsame
    obtain ⟨hout, hevs⟩ := rxFrameWfb_ok hq
    obtain ⟨hout', hevs'⟩ := rxFrameWfb_ok hq'
    rw [hout] at h
    cases h
    refine ⟨_, hout', ?_, ?_⟩
    · exact congrArg Ret.ctx hret
    · rw [hevs, hevs']
      show q'.bare.evs = q.bare.evs
      rw [hret]

/-! ## A datagram at the viewer -/

theorem rxUdpFrame_out (viewer : RxNode) (mem : Bytes) (size : Nat) (src : Option Bytes) :
    (rxUdpFrame viewer mem size src).out = .ok ({ viewer with
      rxSrc := src
      udp := udpFrameParse mem
      rx := { viewer.rx with freq := (udpFrameParse mem).freq, dbm := (udpFrameParse mem).dbm } },
      wfbUdpHdrlen, sizeMinus size wfbUdpHdrlen) := by
  have hlen : (udpFrameParse mem).hdrlen = wfbUdpHdrlen := rfl
  unfold rxUdpFrame
  generalize udpFrameParse mem = udp at hlen ⊢
  dsimp only
  rw [Traced.emit_bind_out, Traced.emitAll_bind_out, Traced.pure_out, hlen]

theorem rxUdpFrame_rxEvs (viewer : RxNode) (mem : Bytes) (size : Nat) (src : Option Bytes) :
    rxEvs (rxUdpFrame viewer mem size src).evs = [] := by
  unfold rxUdpFrame
  rw [Traced.emit_bind_evs, Traced.emitAll_bind_evs]
  split <;> rfl

/-- What a datagram amounts to: a frame behind its header. -/
theorem rxFrameUdp_eq (viewer : RxNode) (d : Datagram) : ∃ viewer' : RxNode,
    viewer'.rx = { viewer.rx with freq := (udpFrameParse d.mem).freq, dbm := (udpFrameParse d.mem).dbm } ∧
      (rxFrameUdp x viewer d).out = (rxFrameWfb x viewer' d.mem wfbUdpHdrlen (sizeMinus d.size wfbUdpHdrlen) d.outcome).out ∧
        rxEvs (rxFrameUdp x viewer d).evs =
          rxEvs (rxFrameWfb x viewer' d.mem wfbUdpHdrlen (sizeMinus d.size wfbUdpHdrlen) d.outcome).evs := by
  have hout := rxUdpFrame_out viewer d.mem d.size d.src
  refine ⟨{ viewer with
    rxSrc := d.src
    udp := udpFrameParse d.mem
    rx := { viewer.rx with freq := (udpFrameParse d.mem).freq, dbm := (udpFrameParse d.mem).dbm } }, rfl, ?_, ?_⟩
  · exact (Traced.bind_ok hout).2
  · show rxEvs (rxUdpFrame viewer d.mem d.size d.src >>= _).evs = _
    rw [(Traced.bind_ok hout).1, rxEvs_append, rxUdpFrame_rxEvs, List.nil_append]

/-- No frame: a message at most. -/
theorem rxFrameWfb_empty (node : RxNode) (mem : Bytes) (rxbuf : Nat) (o : Outcome) :
    ∃ p, (rxFrameWfb x node mem rxbuf 0 o).out = .ok p ∧ bare p.2.rx = bare node.rx ∧
      effects (rxEvs (rxFrameWfb x node mem rxbuf 0 o).evs) = [] := by
  have hq : rxFrame x node.rx ⟨mem.drop rxbuf, 0, node.rx.freq, node.rx.dbm, o⟩ =
      .ok ⟨-1, node.rx, [.msg .err "Frame too short\n"]⟩ := rfl
  obtain ⟨hout, hevs⟩ := rxFrameWfb_ok hq
  exact ⟨_, hout, rfl, by rw [hevs]; rfl⟩

/-! ## A capture -/

theorem rxPcapFrame_badFcs (hlib : RadiotapOk lib) (node : RxNode) {buf : Bytes} (hfit : buf.length < 2 ^ 64)
    {it : RadiotapIterator} {p : Nat} (ha : Accepted lib buf it p) (hbad : flagSet buf p ieee80211RadiotapFBadfcs = true) :
    ∃ node', (rxPcapFrame lib node buf).out = .ok (node', none) ∧ KeepsRx node node' := by
  have hcases := rxPcapFrame_cases hlib node hfit
  generalize mirrors (rxPcapFrame lib node buf).evs = ms at hcases
  generalize (rxPcapFrame lib node buf).out = out at hcases
  cases hcases with
  | refused hno _ => exact absurd ha (hno it p)
  | @badFcs _ _ node' _ _ hk => exact ⟨node', rfl, hk⟩
  | foreign ha' hgood _ _ =>
    obtain ⟨rfl, rfl⟩ := ha.unique ha'
    rw [hbad] at hgood
    cases hgood
  | carried ha' hgood _ _ _ _ =>
    obtain ⟨rfl, rfl⟩ := ha.unique ha'
    rw [hbad] at hgood
    cases hgood

theorem rxPcapFrame_carried (hlib : RadiotapOk lib) (node : RxNode) {buf : Bytes} (hfit : buf.length < 2 ^ 64)
    {it : RadiotapIterator} {p : Nat} (ha : Accepted lib buf it p) (hgood : flagSet buf p ieee80211RadiotapFBadfcs = false)
    (hc : Carried node.rx.channelId buf p) :
    ∃ node', (rxPcapFrame lib node buf).out = .ok (node', some (itLen buf + ieee80211DataHdrlen,
      buf.length - itLen buf - fcsLen buf p - ieee80211DataHdrlen)) ∧ KeepsRx node node' ∧
        node'.rx.freq = (it.context buf p).freq ∧ node'.rx.dbm = (it.context buf p).dbm := by
  have hcases := rxPcapFrame_cases hlib node hfit
  generalize mirrors (rxPcapFrame lib node buf).evs = ms at hcases
  generalize (rxPcapFrame lib node buf).out = out at hcases
  cases hcases with
  | refused hno _ => exact absurd ha (hno it p)
  | badFcs ha' hbad _ =>
    obtain ⟨rfl, rfl⟩ := ha.unique ha'
    rw [hbad] at hgood
    cases hgood
  | foreign ha' _ hno _ =>
    obtain ⟨rfl, rfl⟩ := ha.unique ha'
    exact absurd hc hno
  | @carried it' p' node' ha' _ _ hk hf hd =>
    obtain ⟨rfl, rfl⟩ := ha.unique ha'
    exact ⟨node', rfl, hk, hf, hd⟩

theorem KeepsRx.bare (h : KeepsRx node node') : WfbYa.Rx.bare node'.rx = WfbYa.Rx.bare node.rx := by
  obtain ⟨⟨freq, dbm, hrx⟩, -⟩ := h
  rw [hrx]
  rfl

/-- A step of a node on a capture, by what is left of it for `wfb_frame_parse`. -/
theorem nodeStep_capture {cap : Capture} {seen : Option (Nat × Nat)}
    (h : (rxPcapFrame lib node cap.bytes).out = .ok (node', seen)) {p : Int × RxNode}
    (hp : (rxPcapRest x cap (node', seen)).out = .ok p) : ∃ e, nodeStep x lib node (.capture cap) = .ok (p.2, e) ∧
      rxEvs e = rxEvs (rxPcapRest x cap (node', seen)).evs := by
  have hout : (rxFramePcap x lib node cap).out = .ok p := (Traced.bind_ok h).2.trans hp
  refine ⟨(rxFramePcap x lib node cap).evs, ?_, ?_⟩
  · show (do let p ← (rxFramePcap x lib node cap).out; return (p.2, _)) = _
    rw [hout]
    rfl
  · show rxEvs (rxPcapFrame lib node cap.bytes >>= _).evs = _
    rw [(Traced.bind_ok h).1, rxEvs_append, rxEvs_nil (rxPcapFrame_notRx lib node cap.bytes), List.nil_append]

/-! ## A datagram and its capture -/

/-- A node of channel `chan` has mirrored the datagram for the capture. -/
def MirrorOf (lib : RadiotapLib) (chan : Nat) (m : Sent) : Prop :=
  ∃ (relay : RxNode) (h : Nat) (iov : List Bytes), relay.rx.channelId = chan ∧
    (h, iov) ∈ mirrors (rxPcapFrame lib relay m.cap.bytes).evs ∧ m.bytes = iov.flatten

/-- What a mirrored datagram carries: nothing but its header, or the header of a WFB frame
    and the frame. -/
theorem MirrorOf.cases (hlib : RadiotapOk lib) {chan : Nat} {m : Sent} (h : MirrorOf lib chan m) :
    ∃ it p, Accepted lib m.cap.bytes it p ∧
      ((flagSet m.cap.bytes p ieee80211RadiotapFBadfcs = true ∧ m.bytes.length = wfbUdpHdrlen) ∨
        (flagSet m.cap.bytes p ieee80211RadiotapFBadfcs = false ∧ Carried chan m.cap.bytes p ∧
          ∃ udp : UdpContext, udp.flags < 2 ^ 32 ∧ udp.freq = (it.context m.cap.bytes p).freq ∧
            udp.dbm = (it.context m.cap.bytes p).dbm ∧
              m.bytes = (udpFrameBuild udp).raw ++ (m.cap.bytes.drop (itLen m.cap.bytes + ieee80211DataHdrlen)).take
                (m.cap.bytes.length - itLen m.cap.bytes - fcsLen m.cap.bytes p - ieee80211DataHdrlen))) := by
  obtain ⟨relay, h, iov, rfl, hmem, hbytes⟩ := h
  have hcases := rxPcapFrame_cases hlib relay m.cap.fits
  generalize mirrors (rxPcapFrame lib relay m.cap.bytes).evs = ms at hcases hmem
  generalize (rxPcapFrame lib relay m.cap.bytes).out = out at hcases
  cases hcases with
  | refused _ _ => cases hmem
  | @badFcs it p _ ha hbad _ =>
    obtain ⟨g, -, hg⟩ := List.mem_map.mp hmem
    cases hg
    refine ⟨it, p, ha, .inl ⟨hbad, ?_⟩⟩
    rw [hbytes]
    show ((udpFrameBuild (metaData relay udpFlagCorrupt)).raw ++ []).length = _
    rw [List.append_nil, udpFrameBuild_length]
  | foreign _ _ _ _ => cases hmem
  | @carried it p node' ha hgood hc _ hf hd =>
    obtain ⟨g, -, hg⟩ := List.mem_map.mp hmem
    cases hg
    refine ⟨it, p, ha, .inr ⟨hgood, hc, ?_⟩⟩
    by_cases hn : m.cap.bytes.length - itLen m.cap.bytes - fcsLen m.cap.bytes p - ieee80211DataHdrlen = 0
    · refine ⟨metaData node' udpFlagCorrupt, show udpFlagCorrupt < 2 ^ 32 by decide, hf, hd, ?_⟩
      rw [hbytes, hn]
      simp [mirrored, metaData]
    · refine ⟨metaData node' 0, show 0 < 2 ^ 32 by decide, hf, hd, ?_⟩
      rw [hbytes]
      simp [mirrored, metaData, hn]

/-- What the viewer makes of a datagram is what a node makes of its capture whose receiver
    differs from the viewer's in the frame before at most. -/
theorem deliver_alike (hlib : RadiotapOk lib) (hbox : BoxFull x) {chan : Nat} {m : Sent} (hm : MirrorOf lib chan m)
    {viewer viewer' own : RxNode} (hch : viewer.rx.channelId = 0 ∨ chan = viewer.rx.channelId)
    (hrx : bare own.rx = bare viewer.rx) {rest : Bytes} {src : Option Bytes} {o : Outcome} {e : List NodeEv}
    (h : nodeStep x lib viewer (.datagram ⟨m.bytes ++ rest, m.bytes.length, src, o⟩) = .ok (viewer', e)) :
    ∃ own' e', nodeStep x lib own (.capture { m.cap with outcome := o }) = .ok (own', e') ∧
      bare own'.rx = bare viewer'.rx ∧ effects (rxEvs e') = effects (rxEvs e) := by
  obtain ⟨q, hq, he⟩ := Machine.bind_ok_iff.mp h
  cases he
  obtain ⟨w, hw, hout, hevs⟩ := rxFrameUdp_eq (x := x) viewer ⟨m.bytes ++ rest, m.bytes.length, src, o⟩
  rw [hevs]
  rw [hout] at hq
  dsimp only at hq hw ⊢
  have hwbare : bare w.rx = bare viewer.rx := by
    rw [hw]
    rfl
  obtain ⟨it, p, ha, ⟨hbad, hlen⟩ | ⟨hgood, hc, udp, hflags, hfreq, hdbm, hbytes⟩⟩ := hm.cases hlib
  · -- a notification: nothing for the receiver
    obtain ⟨own', hown, hk⟩ := rxPcapFrame_badFcs hlib own m.cap.fits ha hbad
    obtain ⟨e', hstep, hnone⟩ := @nodeStep_capture x lib own own' { m.cap with outcome := o } none hown _ rfl
    have hzero : sizeMinus m.bytes.length wfbUdpHdrlen = 0 := by
      rw [hlen]
      rfl
    rw [hzero] at hq ⊢
    obtain ⟨q', hq', hbare, hquiet⟩ := rxFrameWfb_empty (x := x) w (m.bytes ++ rest) wfbUdpHdrlen o
    cases hq.symm.trans hq'
    refine ⟨own', e', hstep, ?_, ?_⟩
    · rw [hbare, hwbare, ← hrx, ← hk.bare]
    · rw [hquiet, hnone]
      rfl
  · -- a frame: the same bytes, with the meta data of its radiotap header
    have hchan : own.rx.channelId = viewer.rx.channelId := by
      have := congrArg RxContext.channelId hrx
      exact this
    have hown : Carried own.rx.channelId m.cap.bytes p := by
      refine ⟨hc.length, hc.header, ?_⟩
      rw [hchan]
      exact hch.elim .inl fun he => by rw [← he]; exact hc.channel
    obtain ⟨own1, hpcap, hk, hf, hd⟩ := rxPcapFrame_carried hlib own m.cap.fits ha hgood hown
    generalize hn : m.cap.bytes.length - itLen m.cap.bytes - fcsLen m.cap.bytes p - ieee80211DataHdrlen = n at hpcap hbytes
    have hfit := m.cap.fits
    have hin := hc.length
    have hraw : (udpFrameBuild udp).raw.length = wfbUdpHdrlen := udpFrameBuild_length _
    have hbody : ((m.cap.bytes.drop (itLen m.cap.bytes + ieee80211DataHdrlen)).take n).length = n := by
      rw [List.length_take, List.length_drop]
      omega
    have hsize : sizeMinus m.bytes.length wfbUdpHdrlen = n := by
      rw [hbytes, List.length_append, hraw, hbody]
      have hsmall : wfbUdpHdrlen ≤ ieee80211DataHdrlen := by decide
      rw [sizeMinus_eq (Nat.le_add_right _ _) (by omega), Nat.add_sub_cancel_left]
    obtain ⟨-, hpf, hpd⟩ := udpFrameParse_build udp ((m.cap.bytes.drop (itLen m.cap.bytes + ieee80211DataHdrlen)).take n ++ rest)
      hflags (by rw [hfreq]; exact context_freq_lt it m.cap.bytes p)
    rw [← List.append_assoc, ← hbytes] at hpf hpd
    have hdata : (m.cap.bytes.drop (itLen m.cap.bytes + ieee80211DataHdrlen)).take n =
      ((m.bytes ++ rest).drop wfbUdpHdrlen).take n := by
      rw [hbytes, List.append_assoc, ← hraw, List.drop_append_of_le_length (le_refl _), List.drop_length, List.nil_append,
        List.take_append_of_le_length (le_of_eq hbody.symm), List.take_of_length_le (le_of_eq hbody)]
    rw [hsize] at hq ⊢
    obtain ⟨p', hp', hbare, hsame⟩ := rxFrameWfb_alike hbox (hk.bare.trans (hrx.trans hwbare.symm)) hdata
      (by rw [hf, hw, hpf, hfreq]) (by rw [hd, hw, hpd, hdbm, context_dbm]) hq
    obtain ⟨e', hstep, he'⟩ := @nodeStep_capture x lib own own1 { m.cap with outcome := o } _ hpcap p' hp'
    refine ⟨p'.2, e', hstep, hbare, ?_⟩
    rw [he']
    exact congrArg effects hsame

/-! ## Runs -/

theorem rxStep_channel {ctx ctx' : RxContext} {i : Input} {evs : List Ev} (hs : rxStep x ctx i = .ok (ctx', evs)) :
    ctx'.channelId = ctx.channelId := by
  cases rxStep_cases hs with
  | toggle _ => rfl
  | unparsed _ _ => rfl
  | session _ _ hsess =>
    cases rxSession_cases hsess with
    | ignored _ => rfl
    | ended _ => rfl
    | started _ _ _ _ hst _ => rw [hst.1]; rfl
  | data _ _ hcall =>
    obtain ⟨ring, key, he, -⟩ := hcall.ctx_eq
    rw [he]
    rfl

theorem nodeStep_channel (hlib : RadiotapOk lib) {i : NodeInput} {e : List NodeEv} (h : nodeStep x lib node i = .ok (node', e)) :
    node'.rx.channelId = node.rx.channelId := by
  have hstep : RxStepOf x node node' (rxEvs e) := by
    cases i with
    | capture cap =>
      obtain ⟨p, hp, he⟩ := Machine.bind_ok_iff.mp h
      cases he
      exact rxFramePcap_refines hlib hp
    | datagram d =>
      obtain ⟨p, hp, he⟩ := Machine.bind_ok_iff.mp h
      cases he
      exact rxFrameUdp_refines hp
    | fecToggle =>
      cases h
      refine ⟨node.rx.freq, node.rx.dbm, .inr ⟨.fecToggle, ?_⟩⟩
      rw [rxEvs_rx]
      rfl
  obtain ⟨freq, dbm, ⟨hk, -⟩ | ⟨j, hj⟩⟩ := hstep
  · rw [hk]
  · exact (rxStep_channel hj).trans rfl

/-- The system, and a node that captured what the viewer was told. -/
structure Likened (x : Externals) (lib : RadiotapLib) (s0 s : System) (own0 : RxNode) (tr : List SystemEv) : Prop where
  relays : ∀ i, (s.relays i).rx.channelId = (s0.relays i).rx.channelId
  viewer : s.viewer.rx.channelId = s0.viewer.rx.channelId
  net : ∀ m ∈ s.net, ∃ i, MirrorOf lib (s0.relays i).rx.channelId m
  own : ∃ own e, Machine.Run (nodeStep x lib) (fun _ _ => True) own0 (heardInputs tr) own e ∧ bare own.rx = bare s.viewer.rx ∧
    effects (rxEvs e) = effects (viewerEvs tr)

/-- One more input at the viewer, and what it amounts to at the other node. -/
theorem Likened.told (hlib : RadiotapOk lib) {s0 s : System} {own0 : RxNode} {tr : List SystemEv} (h : Likened x lib s0 s own0 tr)
    {i j : NodeInput} {viewer' : RxNode} {e : List NodeEv} (hs : nodeStep x lib s.viewer i = .ok (viewer', e))
    (hown : ∀ own : RxNode, bare own.rx = bare s.viewer.rx → ∃ own' e', nodeStep x lib own j = .ok (own', e') ∧
      bare own'.rx = bare viewer'.rx ∧ effects (rxEvs e') = effects (rxEvs e)) :
    Likened x lib s0 { s with viewer := viewer' } own0 (tr ++ (.heard j :: (rxEvs e).map .viewer)) := by
  obtain ⟨own, ev, hrun, hrx, hevs⟩ := h.own
  obtain ⟨own', e', hstep, hrx', hevs'⟩ := hown own hrx
  refine ⟨h.relays, (nodeStep_channel hlib hs).trans h.viewer, h.net, own', ev ++ e', ?_, hrx', ?_⟩
  · rw [heardInputs_append]
    show Machine.Run _ _ _ (_ ++ (j :: heardInputs ((rxEvs e).map .viewer))) _ _
    rw [heardInputs_viewer]
    exact hrun.snoc trivial hstep
  · rw [viewerEvs_append]
    show _ = effects (_ ++ viewerEvs ((rxEvs e).map .viewer))
    rw [viewerEvs_viewer, rxEvs_append, effects_append, effects_append, hevs, hevs']

theorem toggle_alike {viewer viewer' own : RxNode} (hrx : bare own.rx = bare viewer.rx) {e : List NodeEv}
    (h : nodeStep x lib viewer .fecToggle = .ok (viewer', e)) : ∃ own' e', nodeStep x lib own .fecToggle = .ok (own', e') ∧
      bare own'.rx = bare viewer'.rx ∧ effects (rxEvs e') = effects (rxEvs e) := by
  cases h
  refine ⟨_, _, rfl, ?_, rfl⟩
  have hset : ∀ ctx : RxContext, bare { ctx with noFec := !ctx.noFec } = { bare ctx with noFec := !(bare ctx).noFec } :=
    fun _ => rfl
  show bare { own.rx with noFec := !own.rx.noFec } = bare { viewer.rx with noFec := !viewer.rx.noFec }
  rw [hset, hset, hrx]

theorem Likened.step (hlib : RadiotapOk lib) (hbox : BoxFull x) {s0 s s' : System} {own0 : RxNode} {tr e : List SystemEv}
    (hch : s0.viewer.rx.channelId = 0 ∨ ∀ i, (s0.relays i).rx.channelId = s0.viewer.rx.channelId)
    (h : Likened x lib s0 s own0 tr) {i : SystemInput} (hs : systemStep x lib s i = .ok (s', e)) :
    Likened x lib s0 s' own0 (tr ++ e) := by
  cases i with
  | capture i cap =>
    obtain ⟨p, hp, he⟩ := Machine.bind_ok_iff.mp hs
    cases he
    rw [List.append_nil]
    have hkeep := nodeStep_channel hlib hp
    obtain ⟨q, hq, he⟩ := Machine.bind_ok_iff.mp hp
    cases he
    refine ⟨fun j => ?_, h.viewer, fun m hm => ?_, h.own⟩
    · dsimp only
      by_cases hj : j = i
      · subst hj
        rw [Function.update_self]
        exact hkeep.trans (h.relays j)
      · rw [Function.update_of_ne hj]
        exact h.relays j
    · rcases List.mem_append.mp hm with hm | hm
      · exact h.net m hm
      · obtain ⟨g, hg, rfl⟩ := List.mem_map.mp hm
        dsimp only at hg
        rw [rxFramePcap_mirrors] at hg
        exact ⟨i, s.relays i, g.1, g.2, h.relays i, hg, rfl⟩
  | deliver k rest src o =>
    simp only [systemStep] at hs
    split at hs
    · cases hs
      rw [List.append_nil]
      exact h
    · rename_i m hm
      obtain ⟨p, hp, he⟩ := Machine.bind_ok_iff.mp hs
      cases he
      obtain ⟨i, hmirror⟩ := h.net m (List.mem_of_getElem? hm)
      have hchan : s.viewer.rx.channelId = 0 ∨ (s0.relays i).rx.channelId = s.viewer.rx.channelId := by
        rw [h.viewer]
        exact hch.imp_right fun hall => hall i
      exact h.told hlib hp fun own hrx => deliver_alike hlib hbox hmirror hchan hrx hp
  | fecToggle =>
    obtain ⟨p, hp, he⟩ := Machine.bind_ok_iff.mp hs
    cases he
    exact h.told hlib hp fun own hrx => toggle_alike hrx hp

theorem externals_boxFull (S : Sender) : BoxFull S.externals := by
  intro c nonce pub sec plain h
  change (if _ then some _ else none) = _ at h
  split at h
  · rename_i hc
    cases h
    exact le_of_eq hc.2.1.symm
  · cases h

/-- A frame on the air, with its radiotap and 802.11 headers. -/
def onAir (frame : Bytes) : Bytes :=
  tuned 0 ++ [8, 1, 0, 0] ++ List.replicate 6 0xff ++ [0x57, 0x42, 0, 0, 0, 0] ++ [0x57, 0x42, 0, 0, 0, 0] ++ [0, 0] ++ frame

def airSession : Capture := ⟨onAir (sessionFrame 1 0 1 1 someKey).data, by decide +kernel, allWell⟩

def airData (b : UInt8) : Capture :=
  ⟨onAir (wfbPacketData :: [0, 0, 0, 0, 0, 0, b, 0] ++ (withHdr 0 (number 1 b.toNat 0) ++ tag)), by
  simp [onAir, tuned, withHdr, number, tag], allWell⟩

def idleSystem : System := ⟨fun _ => someNode, [], someNode⟩

end WfbYa.Rx
