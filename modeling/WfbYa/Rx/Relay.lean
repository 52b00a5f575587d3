/-
  WfbYa.Rx.Relay — a mirrored frame on the next node.

  A node gives what it captures to its mirror handlers, with the frame's meta data in a
  header; another node takes the header off and goes on as if it had captured the frame.

  - `Transparent`: the other node sees what this node saw.
  - `relay_iff`: over every run of a node, what a captured frame has mirrored is transparent
    if and only if the frame is `Current`: its FCS is good or the frame before it left the
    same meta data, and it is no WFB frame without a body.
  - `first_notice_breaks_relay`: a notification of a bad FCS carries no frequency.
-/

import WfbYa.Rx.NodeSteps
import WfbYa.Rx.SessionInv
import WfbYa.Rx.CaptureBounds

namespace WfbYa.Rx

open WfbYa.Frame WfbYa.Ring WfbYa.Lib WfbYa.Lib.BigEndian WfbYa.Lib.LittleEndian

variable {x : Externals} {lib : RadiotapLib} {node node' : RxNode} {buf : Bytes} {it : RadiotapIterator} {p : Nat}

/-! ## Two nodes -/

/-- A datagram with the parts `iov`, whatever its buffer holds behind it, tells every other
    node what the captured frame `buf` told this one: its meta data and, unless the FCS was
    bad, the bytes for `wfb_frame_parse`. -/
def Transparent (lib : RadiotapLib) (node : RxNode) (buf : Bytes) (iov : List Bytes) : Prop :=
  ∃ it p, Accepted lib buf it p ∧ ∀ (other : RxNode) (rest : Bytes) (src : Option Bytes), ∃ other' off len,
    (rxUdpFrame other (iov.flatten ++ rest) iov.flatten.length src).out = .ok (other', off, len) ∧
      other'.rx.freq = (it.context buf p).freq ∧ other'.rx.dbm = (it.context buf p).dbm ∧
      (other'.udp.flags &&& udpFlagCorrupt ≠ 0 ↔ (it.context buf p).badFcs = true) ∧
      ((it.context buf p).badFcs = false → ∃ node' q n, (rxPcapFrame lib node buf).out = .ok (node', some (q, n)) ∧
        len = n ∧ ((iov.flatten ++ rest).drop off).take len = (buf.drop q).take n ∧
          SameFrame (wfbFrameParse (buf.drop q) n) (wfbFrameParse ((iov.flatten ++ rest).drop off) len))

/-- What a node is left with from the frame before goes for this one as well, if its FCS
    is bad; and it is no WFB frame without a body. -/
structure Current (lib : RadiotapLib) (node : RxNode) (buf : Bytes) : Prop where
  notice : ∀ it p, Accepted lib buf it p → flagSet buf p ieee80211RadiotapFBadfcs = true →
    node.rx.freq = (it.context buf p).freq ∧ dbmCarried node.rx.dbm = (it.context buf p).dbm
  body : ∀ it p, Accepted lib buf it p → flagSet buf p ieee80211RadiotapFBadfcs = false →
    Carried node.rx.channelId buf p → itLen buf + ieee80211DataHdrlen + fcsLen buf p ≠ buf.length

theorem Accepted.unique {it' : RadiotapIterator} {p' : Nat} (h : Accepted lib buf it p) (h' : Accepted lib buf it' p') :
    it' = it ∧ p' = p := by
  cases h.init.symm.trans h'.init
  cases h.flags.symm.trans h'.flags
  exact ⟨rfl, rfl⟩

/-- The header's fields fit the datagram's. -/
theorem context_freq_lt (it : RadiotapIterator) (buf : Bytes) (p : Nat) : (it.context buf p).freq < 2 ^ 16 := by
  unfold RadiotapIterator.context
  dsimp only
  split
  · have := ofLe_lt (slice buf ‹Nat› 2)
    rwa [slice_length] at this
  · decide

theorem context_dbm (it : RadiotapIterator) (buf : Bytes) (p : Nat) :
    dbmCarried (it.context buf p).dbm = (it.context buf p).dbm := by
  unfold RadiotapIterator.context
  dsimp only
  split
  · unfold int8At
    have h1 := @Int.le_bmod ((buf.getD ‹Nat› 0).toNat : Int) (2 ^ 8) (by decide)
    have h2 := @Int.bmod_lt ((buf.getD ‹Nat› 0).toNat : Int) (2 ^ 8) (by decide)
    generalize Int.bmod _ _ = v at h1 h2
    refine if_neg ?_
    unfold dbmMin dbmMax
    omega
  · rfl

/-- The meta data a node mirrors. -/
def metaData (node : RxNode) (flags : Nat) : UdpContext :=
  { node.udp with freq := node.rx.freq, dbm := node.rx.dbm, flags := flags }

/-- What the other node makes of them. -/
theorem rxUdpFrame_build (other : RxNode) {flags : Nat} (rest : Bytes) (size : Nat) (src : Option Bytes) (hflags : flags < 2 ^ 32)
    (hfreq : node.rx.freq < 2 ^ 16) :
    ∃ other', (rxUdpFrame other ((udpFrameBuild (metaData node flags)).raw ++ rest) size src).out =
        .ok (other', wfbUdpHdrlen, sizeMinus size wfbUdpHdrlen) ∧
      other'.rx.freq = node.rx.freq ∧ other'.rx.dbm = dbmCarried node.rx.dbm ∧ other'.udp.flags = flags := by
  obtain ⟨h1, h2, h3⟩ := udpFrameParse_build (metaData node flags) rest hflags hfreq
  generalize (udpFrameBuild (metaData node flags)).raw ++ rest = mem at h1 h2 h3
  have hlen : (udpFrameParse mem).hdrlen = wfbUdpHdrlen := rfl
  unfold rxUdpFrame
  generalize udpFrameParse mem = udp at h1 h2 h3 hlen
  dsimp only
  rw [Traced.emit_bind_out, Traced.emitAll_bind_out, Traced.pure_out, hlen]
  exact ⟨_, rfl, h2, h3, h1⟩

/-! ## What is mirrored -/

theorem mem_mirrors {evs : List NodeEv} {h : Nat} {iov : List Bytes} : (h, iov) ∈ mirrors evs ↔ NodeEv.mirror h iov ∈ evs := by
  unfold mirrors
  rw [List.mem_filterMap]
  constructor
  · rintro ⟨e, he, hs⟩
    cases e with
    | mirror h' iov' =>
      cases hs
      exact he
    | _ => cases hs
  · exact fun he => ⟨_, he, rfl⟩

/-- The receiver proper mirrors nothing. -/
theorem rxPcapRest_mirrors (cap : Capture) (q : RxNode × Option (Nat × Nat)) : mirrors (rxPcapRest x cap q).evs = [] := by
  obtain ⟨node', seen⟩ := q
  cases seen with
  | none => rfl
  | some s =>
    show mirrors (rxFrameWfb x node' cap.bytes s.1 s.2 cap.outcome).evs = []
    unfold rxFrameWfb
    have htaken : ∀ evs, mirrors (wfbTaken s.2 (wfbFrameParse (cap.bytes.drop s.1) s.2) ++ evs) = mirrors evs := fun evs => by
      cases wfbFrameParse (cap.bytes.drop s.1) s.2 <;> rfl
    rw [Traced.emit_bind_evs, Traced.emitAll_bind_evs, mirrors_call, htaken]
    split
    · rename_i q _
      show mirrors (q.evs.map NodeEv.rx) = []
      induction q.evs with
      | nil => rfl
      | cons e evs ih => exact ih
    · rfl

theorem rxFramePcap_mirrors (cap : Capture) :
    mirrors (rxFramePcap x lib node cap).evs = mirrors (rxPcapFrame lib node cap.bytes).evs := by
  unfold rxFramePcap
  cases hq : (rxPcapFrame lib node cap.bytes).out with
  | ok q => rw [(Traced.bind_ok hq).1, mirrors_append, rxPcapRest_mirrors, List.append_nil]
  | error e => rw [(Traced.bind_error hq).1]

/-- A notification tells another node what this one was left with. -/
theorem notice_transparent (ha : Accepted lib buf it p) (hbad : flagSet buf p ieee80211RadiotapFBadfcs = true)
    (hfreq : node.rx.freq < 2 ^ 16) : Transparent lib node buf (mirrored node buf none 0).2 ↔
      node.rx.freq = (it.context buf p).freq ∧ dbmCarried node.rx.dbm = (it.context buf p).dbm := by
  have hiov : (mirrored node buf none 0).2.flatten = (udpFrameBuild (metaData node udpFlagCorrupt)).raw := List.append_nil _
  have hflags : udpFlagCorrupt < 2 ^ 32 := by decide
  unfold Transparent
  rw [hiov]
  constructor
  · rintro ⟨it', p', ha', hall⟩
    obtain ⟨rfl, rfl⟩ := ha.unique ha'
    obtain ⟨other', off, len, hout, hf, hd, -, -⟩ := hall node [] none
    obtain ⟨other'', hout', hf', hd', -⟩ := rxUdpFrame_build node []
      (udpFrameBuild (metaData node udpFlagCorrupt)).raw.length none hflags hfreq
    have he := Except.ok.inj (hout.symm.trans hout')
    rw [Prod.mk.injEq] at he
    obtain ⟨rfl, -⟩ := he
    exact ⟨hf'.symm.trans hf, hd'.symm.trans hd⟩
  · rintro ⟨hf, hd⟩
    refine ⟨it, p, ha, fun other rest src => ?_⟩
    obtain ⟨other', hout, hf', hd', hfl⟩ := rxUdpFrame_build other rest
      (udpFrameBuild (metaData node udpFlagCorrupt)).raw.length src hflags hfreq
    refine ⟨other', _, _, hout, hf'.trans hf, hd'.trans hd, ?_, fun hg => ?_⟩
    · rw [hfl]
      exact iff_of_true (by decide) hbad
    · exact absurd (hbad.symm.trans hg) (by decide)

/-- A WFB frame reaches the other node as it is, unless it has no body. -/
theorem body_transparent (ha : Accepted lib buf it p) (hgood : flagSet buf p ieee80211RadiotapFBadfcs = false) {off n : Nat}
    (hout : (rxPcapFrame lib node buf).out = .ok (node', some (off, n))) (hin : off + n ≤ buf.length)
    (hoff : wfbUdpHdrlen ≤ off) (hfit : buf.length < 2 ^ 64) (hf : node'.rx.freq = (it.context buf p).freq)
    (hd : node'.rx.dbm = (it.context buf p).dbm) : Transparent lib node buf (mirrored node' buf (some off) n).2 ↔ n ≠ 0 := by
  have hfreq : node'.rx.freq < 2 ^ 16 := by
    rw [hf]
    exact context_freq_lt it buf p
  have hdbm : dbmCarried node'.rx.dbm = (it.context buf p).dbm := by
    rw [hd]
    exact context_dbm it buf p
  have hflags : udpFlagCorrupt < 2 ^ 32 := by decide
  constructor
  · rintro ⟨it', p', ha', hall⟩ rfl
    obtain ⟨rfl, rfl⟩ := ha.unique ha'
    obtain ⟨other', off', len, hout', -, -, hcorrupt, -⟩ := hall node [] none
    have hiov : (mirrored node' buf (some off) 0).2.flatten = (udpFrameBuild (metaData node' udpFlagCorrupt)).raw := by
      simp [mirrored, metaData]
    rw [hiov] at hout'
    obtain ⟨other'', hout'', -, -, hfl⟩ := rxUdpFrame_build node []
      (udpFrameBuild (metaData node' udpFlagCorrupt)).raw.length none hflags hfreq
    have he := Except.ok.inj (hout'.symm.trans hout'')
    rw [Prod.mk.injEq] at he
    obtain ⟨rfl, -⟩ := he
    have hbad : flagSet buf p' ieee80211RadiotapFBadfcs = true := hcorrupt.mp (by rw [hfl]; decide)
    rw [hgood] at hbad
    cases hbad
  · intro hn
    refine ⟨it, p, ha, fun other rest src => ?_⟩
    have hiov : (mirrored node' buf (some off) n).2.flatten =
        (udpFrameBuild (metaData node' 0)).raw ++ (buf.drop off).take n := by
      simp [mirrored, metaData, hn]
    have hraw : (udpFrameBuild (metaData node' 0)).raw.length = wfbUdpHdrlen := udpFrameBuild_length _
    have hbody : ((buf.drop off).take n).length = n := by
      rw [List.length_take, List.length_drop]
      omega
    have hlen : (mirrored node' buf (some off) n).2.flatten.length = wfbUdpHdrlen + n := by
      rw [hiov, List.length_append, hraw, hbody]
    have hrest : ((mirrored node' buf (some off) n).2.flatten ++ rest).drop wfbUdpHdrlen = (buf.drop off).take n ++ rest := by
      rw [hiov, List.append_assoc, ← hraw, List.drop_append_of_le_length (le_refl _), List.drop_length, List.nil_append]
    obtain ⟨other', hout', hf', hd', hfl⟩ := @rxUdpFrame_build node' other 0 ((buf.drop off).take n ++ rest)
      (mirrored node' buf (some off) n).2.flatten.length src (by decide) hfreq
    rw [← List.append_assoc, ← hiov, hlen, sizeMinus_eq (Nat.le_add_right _ _) (by omega), Nat.add_sub_cancel_left] at hout'
    have hsame : ((buf.drop off).take n ++ rest).take n = (buf.drop off).take n := by
      rw [List.take_append_of_le_length (le_of_eq hbody.symm), List.take_of_length_le (le_of_eq hbody)]
    rw [hlen]
    refine ⟨other', _, _, hout', hf'.trans hf, hd'.trans hdbm, ?_, fun _ => ⟨node', off, n, hout, rfl, ?_, ?_⟩⟩
    · rw [hfl]
      exact iff_of_false (by decide) fun h => Bool.false_ne_true (hgood.symm.trans h)
    · rw [hrest, hsame]
    · apply wfbFrameParse_take
      rw [hrest, hsame]

/-- What one captured frame has mirrored. -/
theorem current_iff (hlib : RadiotapOk lib) (cap : Capture) (hfreq : node.rx.freq < 2 ^ 16) (hm : node.mirrorHandler ≠ []) :
    (∀ h iov, NodeEv.mirror h iov ∈ (rxFramePcap x lib node cap).evs → Transparent lib node cap.bytes iov) ↔
      Current lib node cap.bytes := by
  have hcases := rxPcapFrame_cases hlib node cap.fits
  have hmem : ∀ h iov, NodeEv.mirror h iov ∈ (rxFramePcap x lib node cap).evs ↔
      (h, iov) ∈ mirrors (rxPcapFrame lib node cap.bytes).evs := fun h iov => by
    rw [← mem_mirrors, rxFramePcap_mirrors]
  simp only [hmem]
  have hone : ∀ (iov : List Bytes) (P : List Bytes → Prop),
      (∀ h iov', (h, iov') ∈ node.mirrorHandler.map (fun h => (h, iov)) → P iov') ↔ P iov := fun iov P => by
    constructor
    · intro hall
      obtain ⟨h, hh⟩ := List.exists_mem_of_ne_nil _ hm
      exact hall h iov (List.mem_map.mpr ⟨h, hh, rfl⟩)
    · rintro hP h iov' hh
      obtain ⟨h', -, he⟩ := List.mem_map.mp hh
      cases he
      exact hP
  generalize hms : mirrors (rxPcapFrame lib node cap.bytes).evs = ms at hcases
  generalize hout : (rxPcapFrame lib node cap.bytes).out = out at hcases
  cases hcases with
  | refused hno _ =>
    exact iff_of_true (fun h iov hh => nomatch hh) ⟨fun it p ha => absurd ha (hno it p), fun it p ha => absurd ha (hno it p)⟩
  | @badFcs it p node' ha hbad _ =>
    rw [hone, notice_transparent ha hbad hfreq]
    constructor
    · intro h
      refine ⟨fun it' p' ha' _ => ?_, fun it' p' ha' hg => ?_⟩
      · obtain ⟨rfl, rfl⟩ := ha.unique ha'
        exact h
      · obtain ⟨rfl, rfl⟩ := ha.unique ha'
        exact absurd (hbad.symm.trans hg) (by decide)
    · exact fun h => h.notice it p ha hbad
  | @foreign it p _ ha hgood hc _ =>
    refine iff_of_true (fun h iov hh => nomatch hh) ⟨fun it' p' ha' hb => ?_, fun it' p' ha' _ hc' => ?_⟩
    · obtain ⟨rfl, rfl⟩ := ha.unique ha'
      exact absurd (hgood.symm.trans hb) (by decide)
    · obtain ⟨rfl, rfl⟩ := ha.unique ha'
      exact absurd hc' hc
  | @carried it p node' ha hgood hc _ hf hd =>
    have hlen := hc.length
    have h8 : wfbUdpHdrlen ≤ itLen cap.bytes + ieee80211DataHdrlen := by
      show 8 ≤ itLen cap.bytes + 24
      omega
    rw [hone, body_transparent ha hgood hout (by omega) h8 cap.fits hf hd]
    constructor
    · intro hn
      refine ⟨fun it' p' ha' hb => ?_, fun it' p' ha' _ _ he => ?_⟩
      · obtain ⟨rfl, rfl⟩ := ha.unique ha'
        exact absurd (hgood.symm.trans hb) (by decide)
      · obtain ⟨rfl, rfl⟩ := ha.unique ha'
        omega
    · intro h
      have := h.body it p ha hgood hc
      omega

/-! ## Over a run -/

/-- A step of the receiver keeps the frequency it was called with. -/
theorem rxStep_freq {ctx ctx' : RxContext} {f : RxFrame} {evs : List Ev} (h : rxStep x ctx (.frame f) = .ok (ctx', evs)) :
    ctx'.freq = f.freq := by
  cases rxStep_cases h with
  | unparsed _ _ => rfl
  | session _ _ hx =>
    cases rxSession_cases hx with
    | ignored _ => rfl
    | ended _ => rfl
    | started _ _ _ _ hst _ =>
      rw [hst.1]
      rfl
  | data _ _ hd =>
    obtain ⟨ring, key, he, -⟩ := hd.ctx_eq
    rw [he]
    rfl

theorem rxMirrorFrame_freq {data : Option Nat} {size : Nat} (h : (rxMirrorFrame node buf data size).out = .ok node') :
    node'.rx.freq = node.rx.freq := by
  obtain ⟨-, udp, hout⟩ := rxMirrorFrame_spec node buf data size
  cases h.symm.trans hout
  rfl

theorem rxPcapBody_freq {rxbuf rxlen : Nat} {q : RxNode × Option (Nat × Nat)}
    (h : (rxPcapBody node buf rxbuf rxlen).out = .ok q) : q.1.rx.freq = node.rx.freq := by
  unfold rxPcapBody at h
  rw [Traced.emit_bind_out] at h
  obtain ⟨p, -, h⟩ := Traced.out_bind.mp h
  dsimp only at h
  split at h
  · cases h
    rfl
  · rw [Traced.emit_bind_out] at h
    split at h
    · cases h
      rfl
    · rw [Traced.emit_bind_out] at h
      obtain ⟨node', hm, h⟩ := Traced.out_bind.mp h
      cases h
      have hfreq := rxMirrorFrame_freq hm
      exact hfreq

/-- A node's frequency is a header's, or what was left of the frame before. -/
theorem rxPcapFrame_freq {q : RxNode × Option (Nat × Nat)} (hfreq : node.rx.freq < 2 ^ 16)
    (h : (rxPcapFrame lib node buf).out = .ok q) : q.1.rx.freq < 2 ^ 16 := by
  unfold rxPcapFrame at h
  rw [Traced.emit_bind_out, Traced.emit_bind_out] at h
  obtain ⟨p, hp, h⟩ := Traced.out_bind.mp h
  rw [Traced.lift_out] at hp
  dsimp only at h
  split at h
  · cases h
    exact hfreq
  · rename_i hpos
    have hctx : p.1.freq < 2 ^ 16 := by
      have hcall := radiotapFrameParse_cases lib buf buf.length
      rw [hp] at hcall
      generalize (radiotapFrameParse lib buf buf.length).evs = evs at hcall
      cases hcall with
      | short _ _ => exact Nat.two_pow_pos 16
      | refused _ _ _ => exact absurd (Int.negSucc_lt_zero 0) hpos
      | parsed _ _ _ _ _ => exact context_freq_lt _ _ _
    split at h
    · rw [Traced.emit_bind_out] at h
      obtain ⟨node', hm, h⟩ := Traced.out_bind.mp h
      cases h
      rw [rxMirrorFrame_freq hm]
      exact hfreq
    · rw [Traced.emit_bind_out] at h
      obtain ⟨rxlen, -, h⟩ := Traced.out_bind.mp h
      rw [rxPcapBody_freq h]
      exact hctx

theorem rxFrameWfb_freq {mem : Bytes} {rxbuf size : Nat} {o : Outcome} {p : Int × RxNode} (hfreq : node.rx.freq < 2 ^ 16)
    (h : (rxFrameWfb x node mem rxbuf size o).out = .ok p) : p.2.rx.freq < 2 ^ 16 := by
  rw [rxStep_freq (rxFrameWfb_step h).1]
  exact hfreq

/-- What one step keeps: the frequency is a header's, and the handlers are those registered. -/
theorem nodeStep_freq (hlib : RadiotapOk lib) {i : NodeInput} {e : List NodeEv} (hfreq : node.rx.freq < 2 ^ 16)
    (h : nodeStep x lib node i = .ok (node', e)) : node'.rx.freq < 2 ^ 16 ∧ node'.mirrorHandler = node.mirrorHandler := by
  cases i with
  | capture cap =>
    obtain ⟨p, hp, he⟩ := Machine.bind_ok_iff.mp h
    cases he
    obtain ⟨⟨node', seen⟩, hq, hrest⟩ := Traced.out_bind.mp hp
    have hf := rxPcapFrame_freq hfreq hq
    have hm := (rxPcapFrame_keeps hlib cap.fits hq).2
    cases seen with
    | none =>
      cases hrest
      exact ⟨hf, hm⟩
    | some s => exact ⟨rxFrameWfb_freq hf hrest, (rxFrameWfb_step hrest).2.trans hm⟩
  | datagram d =>
    obtain ⟨p, hp, he⟩ := Machine.bind_ok_iff.mp h
    cases he
    obtain ⟨q, hq, hrest⟩ := Traced.out_bind.mp hp
    have hbe : (udpFrameParse d.mem).freq < 2 ^ 16 := by
      have := ofBe_lt (slice d.mem 4 2)
      rwa [slice_length] at this
    cases hq
    exact ⟨rxFrameWfb_freq hbe hrest, (rxFrameWfb_step hrest).2⟩
  | fecToggle =>
    cases h
    exact ⟨hfreq, rfl⟩

theorem run_freq (hlib : RadiotapOk lib) {node0 : RxNode} {is : List NodeInput} {tr : List NodeEv} (h0 : node0.rx.freq < 2 ^ 16)
    (h : Machine.Run (nodeStep x lib) (fun _ _ => True) node0 is node tr) :
    node.rx.freq < 2 ^ 16 ∧ node.mirrorHandler = node0.mirrorHandler := by
  refine h.inv (fun _ node _ => node.rx.freq < 2 ^ 16 ∧ node.mirrorHandler = node0.mirrorHandler) ⟨h0, rfl⟩ ?_
  rintro is node tr i node' e ⟨hf, hm⟩ - hs
  obtain ⟨hf', hm'⟩ := nodeStep_freq hlib hf hs
  exact ⟨hf', hm'.trans hm⟩

/-- Over every run of a node with a mirror handler: what a captured frame has mirrored tells
    another node what the frame told this one, if and only if the frame is current. -/
theorem relay_iff (hlib : RadiotapOk lib) {node0 : RxNode} (h0 : node0.rx.freq < 2 ^ 16) (hm : node0.mirrorHandler ≠ [])
    {is : List NodeInput} {tr : List NodeEv} (h : Machine.Run (nodeStep x lib) (fun _ _ => True) node0 is node tr)
    (cap : Capture) :
    (∀ handler iov, NodeEv.mirror handler iov ∈ (rxFramePcap x lib node cap).evs → Transparent lib node cap.bytes iov) ↔
      Current lib node cap.bytes := by
  obtain ⟨hf, hh⟩ := run_freq hlib h0 h
  exact current_iff hlib cap hf (hh ▸ hm)

/-- A radiotap header with FLAGS, CHANNEL (2412 MHz) and a signal of -42 dBm, no frame
    behind it. -/
def tuned (flags : UInt8) : Bytes := [0, 0, 15, 0, 0x2a, 0, 0, 0, flags, 0, 0x6c, 0x09, 0xa0, 0, 0xd6]

theorem tuned_init : basicIterator (tuned 0x40) 15 = some ⟨[⟨true, 1, 8⟩, ⟨true, 3, 10⟩, ⟨true, 5, 14⟩], true, 15⟩ := by
  decide +kernel

theorem relay_run : ∃ node tr, Machine.Run (nodeStep (numbered 1 1).externals basicIterator) (fun _ _ => True) someNode
    [.capture ⟨tuned 0, by decide, allWell⟩] node tr ∧
      ((∀ handler iov, NodeEv.mirror handler iov ∈ (rxFramePcap (numbered 1 1).externals basicIterator node
          ⟨tuned 0x40, by decide, allWell⟩).evs → Transparent basicIterator node (tuned 0x40) iov) ↔
        node.rx.freq = 2412 ∧ node.rx.dbm = -42) := by
  obtain ⟨node, tr, hrun, hq⟩ := Machine.exists_run (nodeStep (numbered 1 1).externals basicIterator) (fun _ _ => True) someNode
    [.capture ⟨tuned 0, by decide, allWell⟩] (fun p => decide (p.1.rx.freq = 2412 ∧ p.1.rx.dbm = -42)) (by decide +kernel)
  have hf := of_decide_eq_true hq
  refine ⟨node, tr, hrun, (relay_iff basicIterator_ok (by decide) (by decide) hrun ⟨tuned 0x40, by decide, allWell⟩).trans
    (iff_of_true ⟨?_, ?_⟩ hf)⟩
  · intro it p ha _
    cases tuned_init.symm.trans ha.init
    cases ha.flags
    rw [hf.1, hf.2]
    decide +kernel
  · intro it p ha hg
    cases tuned_init.symm.trans ha.init
    cases ha.flags
    exact absurd hg (by decide +kernel)

/-- A node that was left with nothing says 0 MHz and 0 dBm. -/
example : mirrors (rxPcapFrame basicIterator someNode (tuned 0x40)).evs = [(0, [[0, 0, 0, 1, 0, 0, 0, 0]])] := by decide +kernel

/-- The first frame a node captures has a bad FCS: the notification has no frequency. -/
theorem first_notice_breaks_relay : ¬ ∀ (x : Externals) (lib : RadiotapLib) (node0 node : RxNode) (is : List NodeInput)
    (tr : List NodeEv) (cap : Capture), RadiotapOk lib → node0.rx.freq < 2 ^ 16 → node0.mirrorHandler ≠ [] →
      Machine.Run (nodeStep x lib) (fun _ _ => True) node0 is node tr →
        ∀ handler iov, NodeEv.mirror handler iov ∈ (rxFramePcap x lib node cap).evs → Transparent lib node cap.bytes iov := by
  intro hclaim
  have hmem : NodeEv.mirror 0 (mirrored someNode (tuned 0x40) none 0).2 ∈ (rxFramePcap (numbered 1 1).externals basicIterator
      someNode ⟨tuned 0x40, by decide, allWell⟩).evs := by decide +kernel
  have ha : Accepted basicIterator (tuned 0x40) ⟨[⟨true, 1, 8⟩, ⟨true, 3, 10⟩, ⟨true, 5, 14⟩], true, 15⟩ 8 :=
    ⟨by decide, tuned_init, rfl, rfl⟩
  have htransparent := hclaim _ _ _ _ _ _ _ basicIterator_ok (by decide) (by decide) .nil 0 _ hmem
  have hfreq := ((notice_transparent ha (by decide) (by decide)).mp htransparent).1
  exact absurd hfreq (by decide +kernel)

end WfbYa.Rx
