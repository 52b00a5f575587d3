/-
  WfbYa.Rx.NodeSteps — what becomes of a captured frame (see `WfbYa.Rx.Node`).

  - `rxPcapFrame_cases`: everything `rx_frame_pcap` can do before `wfb_frame_parse`, with
    what it mirrors.
  - `nodeStep_refines`: behind the headers a node is the receiver of `WfbYa.Rx.Core`.
-/

import WfbYa.Rx.Node

namespace WfbYa.Rx

open WfbYa.Frame WfbYa.Ring WfbYa.Lib

theorem sizeMinus_eq {a b : Nat} (h : b ≤ a) (ha : a < 2 ^ 64) : sizeMinus a b = a - b := by
  unfold sizeMinus u64
  omega

/-! ## What a captured frame is, and what becomes of it -/

/-- The radiotap header is accepted, and its FLAGS field is at `p`. -/
structure Accepted (lib : RadiotapLib) (buf : Bytes) (it : RadiotapIterator) (p : Nat) : Prop where
  hdrlen : radiotapHdrlen ≤ buf.length
  init : lib buf buf.length = some it
  noent : it.noent = true
  flags : it.field ieee80211RadiotapFlags = some p

/-- The bytes of the FCS at the tail, by what the header says. -/
def fcsLen (buf : Bytes) (p : Nat) : Nat := if flagSet buf p ieee80211RadiotapFFcs then 4 else 0

/-- Behind the radiotap header is a WFB header, of the node's channel if it has one. -/
structure Carried (channelId : Nat) (buf : Bytes) (p : Nat) : Prop where
  length : itLen buf + ieee80211DataHdrlen + fcsLen buf p ≤ buf.length
  header : WfbHeader (buf.drop (itLen buf))
  channel : channelId = 0 ∨ channelId = getChannelId (buf.drop (itLen buf))

/-- The mirror handlers' calls. -/
def mirrors (evs : List NodeEv) : List (Nat × List Bytes) :=
  evs.filterMap fun e => match e with
    | .mirror h iov => some (h, iov)
    | _ => none

/-- The node's receiver is as before but for the meta data of the last frame. -/
def KeepsRx (node node' : RxNode) : Prop :=
  (∃ freq dbm, node'.rx = { node.rx with freq := freq, dbm := dbm }) ∧ node'.mirrorHandler = node.mirrorHandler

/-- Everything `rx_frame_pcap` can do up to `wfb_frame_parse`: what it mirrors, and its
    result. -/
inductive PcapCall (lib : RadiotapLib) (node : RxNode) (buf : Bytes) :
    List (Nat × List Bytes) → Except Fault (RxNode × Option (Nat × Nat)) → Prop
  | refused {out : Except Fault (RxNode × Option (Nat × Nat))} : (∀ it p, ¬ Accepted lib buf it p) →
      (∀ q, out = .ok q → q.2 = none ∧ KeepsRx node q.1) → PcapCall lib node buf [] out
  | badFcs {it : RadiotapIterator} {p : Nat} {node' : RxNode} : Accepted lib buf it p →
      flagSet buf p ieee80211RadiotapFBadfcs = true → KeepsRx node node' →
      PcapCall lib node buf (node.mirrorHandler.map fun h => (h, (mirrored node buf none 0).2)) (.ok (node', none))
  | foreign {it : RadiotapIterator} {p : Nat} {out : Except Fault (RxNode × Option (Nat × Nat))} : Accepted lib buf it p →
      flagSet buf p ieee80211RadiotapFBadfcs = false → ¬ Carried node.rx.channelId buf p →
      (∀ q, out = .ok q → q.2 = none ∧ KeepsRx node q.1) → PcapCall lib node buf [] out
  | carried {it : RadiotapIterator} {p : Nat} {node' : RxNode} : Accepted lib buf it p →
      flagSet buf p ieee80211RadiotapFBadfcs = false → Carried node.rx.channelId buf p → KeepsRx node node' →
      node'.rx.freq = (it.context buf p).freq → node'.rx.dbm = (it.context buf p).dbm →
      PcapCall lib node buf
        (node.mirrorHandler.map fun h => (h, (mirrored node' buf (some (itLen buf + ieee80211DataHdrlen))
          (buf.length - itLen buf - fcsLen buf p - ieee80211DataHdrlen)).2))
        (.ok (node', some (itLen buf + ieee80211DataHdrlen, buf.length - itLen buf - fcsLen buf p - ieee80211DataHdrlen)))

@[simp] theorem mirrors_append (e e' : List NodeEv) : mirrors (e ++ e') = mirrors e ++ mirrors e' := List.filterMap_append ..

@[simp] theorem mirrors_minus (a b : Nat) (evs : List NodeEv) : mirrors (.minus a b :: evs) = mirrors evs := rfl

@[simp] theorem mirrors_call (f : Callee) (p : Option Nat) (n : Nat) (evs : List NodeEv) :
    mirrors (.call f p n :: evs) = mirrors evs := rfl

@[simp] theorem mirrors_parse (evs : List ParseEv) : mirrors (evs.map NodeEv.parse) = [] := by
  induction evs with
  | nil => rfl
  | cons e evs ih => exact ih

theorem mirrors_lift {α : Type} (t : Traced ParseEv Fault α) (evs : List NodeEv) :
    mirrors ((t.lift NodeEv.parse).evs ++ evs) = mirrors evs := by
  rw [mirrors_append, Traced.lift_evs, mirrors_parse, List.nil_append]

theorem rxMirrorFrame_spec (node : RxNode) (buf : Bytes) (data : Option Nat) (size : Nat) :
    mirrors (rxMirrorFrame node buf data size).evs = node.mirrorHandler.map (fun h => (h, (mirrored node buf data size).2)) ∧
      ∃ udp, (rxMirrorFrame node buf data size).out = .ok { node with udp := udp } := by
  unfold rxMirrorFrame
  split
  · rename_i h
    refine ⟨?_, node.udp, rfl⟩
    rw [h]
    rfl
  · refine ⟨?_, _, rfl⟩
    unfold mirrors
    rw [List.filterMap_map, ← List.filterMap_eq_map]
    rfl

/-- What `rx_frame_pcap` makes of an 802.11 frame that is not WFB's, or of another channel. -/
theorem rxPcapBody_foreign {node : RxNode} {buf : Bytes} {rxbuf rxlen : Nat}
    (h : ¬ (ieee80211DataHdrlen ≤ rxlen ∧ addr2 + 6 ≤ (buf.drop rxbuf).length ∧ WfbHeader (buf.drop rxbuf) ∧
      (node.rx.channelId = 0 ∨ node.rx.channelId = getChannelId (buf.drop rxbuf)))) :
    mirrors (rxPcapBody node buf rxbuf rxlen).evs = [] ∧
      ∀ q, (rxPcapBody node buf rxbuf rxlen).out = .ok q → q.2 = none ∧ q.1.rx = node.rx ∧
        q.1.mirrorHandler = node.mirrorHandler := by
  unfold rxPcapBody
  rw [Traced.emit_bind_evs, Traced.emit_bind_out]
  have hcall := ieee80211FrameParse_cases (buf.drop rxbuf) rxlen
  generalize ieee80211FrameParse (buf.drop rxbuf) rxlen = t at hcall
  obtain ⟨evs, out⟩ := t
  dsimp only at hcall ⊢
  cases hcall with
  | @refused ctx _ _ _ =>
    simp only [Traced.lift, bind, pure]
    refine ⟨?_, fun q hq => ?_⟩
    · show mirrors (evs.map NodeEv.parse ++ []) = []
      simp
    · cases hq
      exact ⟨rfl, rfl, rfl⟩
  | beyond _ _ =>
    simp only [Traced.lift, bind]
    exact ⟨rfl, fun q hq => nomatch hq⟩
  | parsed h1 h2 h3 =>
    have hchan : node.rx.channelId ≠ 0 ∧ node.rx.channelId ≠ getChannelId (buf.drop rxbuf) := by
      by_contra hc
      refine h ⟨h1, h2, h3, ?_⟩
      by_contra hc'
      exact hc (not_or.mp hc')
    simp only [Traced.lift, Traced.emit, bind, pure]
    rw [if_neg (by decide), if_pos hchan]
    refine ⟨rfl, fun q hq => ?_⟩
    cases hq
    exact ⟨rfl, rfl, rfl⟩

/-- What `rx_frame_pcap` makes of a WFB frame. -/
theorem rxPcapBody_carried {node : RxNode} {buf : Bytes} {rxbuf rxlen : Nat} (h1 : ieee80211DataHdrlen ≤ rxlen)
    (h2 : rxlen ≤ (buf.drop rxbuf).length) (h3 : WfbHeader (buf.drop rxbuf))
    (h4 : node.rx.channelId = 0 ∨ node.rx.channelId = getChannelId (buf.drop rxbuf)) (hlt : rxlen < 2 ^ 64) :
    ∃ node', node'.rx = node.rx ∧ node'.mirrorHandler = node.mirrorHandler ∧
      mirrors (rxPcapBody node buf rxbuf rxlen).evs = node.mirrorHandler.map (fun h =>
        (h, (mirrored node' buf (some (rxbuf + ieee80211DataHdrlen)) (rxlen - ieee80211DataHdrlen)).2)) ∧
      (rxPcapBody node buf rxbuf rxlen).out = .ok (node', some (rxbuf + ieee80211DataHdrlen, rxlen - ieee80211DataHdrlen)) := by
  unfold rxPcapBody
  rw [Traced.emit_bind_evs, Traced.emit_bind_out]
  have hcall := ieee80211FrameParse_cases (buf.drop rxbuf) rxlen
  generalize ieee80211FrameParse (buf.drop rxbuf) rxlen = t at hcall
  obtain ⟨evs, out⟩ := t
  dsimp only at hcall ⊢
  cases hcall with
  | refused _ hno => exact absurd h3 (hno h1)
  | beyond _ hshort => exact absurd h2 (Nat.not_le.mpr hshort)
  | parsed _ _ _ =>
    have hchan : ¬ (node.rx.channelId ≠ 0 ∧ node.rx.channelId ≠ getChannelId (buf.drop rxbuf)) := by
      rintro ⟨hc, hc'⟩
      exact h4.elim hc hc'
    obtain ⟨hev, udp, hout⟩ := rxMirrorFrame_spec
      { node with ieee80211 := ⟨ieee80211DataHdrlen, wfbSig, getChannelId (buf.drop rxbuf)⟩ } buf
      (some (rxbuf + ieee80211DataHdrlen)) (rxlen - ieee80211DataHdrlen)
    refine ⟨{ node with ieee80211 := ⟨ieee80211DataHdrlen, wfbSig, getChannelId (buf.drop rxbuf)⟩, udp := udp }, rfl, rfl, ?_⟩
    have hlift : (Traced.lift NodeEv.parse (⟨[], .ok (⟨ieee80211DataHdrlen, wfbSig, getChannelId (buf.drop rxbuf)⟩,
        ieee80211DataHdrlen)⟩ : Traced ParseEv Fault (Ieee80211Context × Int))).out = .ok (_, _) := rfl
    rw [(Traced.bind_ok hlift).1, (Traced.bind_ok hlift).2]
    dsimp only
    rw [if_neg (by decide), if_neg hchan, Int.toNat_natCast, sizeMinus_eq h1 hlt]
    rw [Traced.emit_bind_evs, Traced.emit_bind_out, Traced.emit_bind_evs, Traced.emit_bind_out,
      (Traced.bind_ok hout).1, (Traced.bind_ok hout).2]
    refine ⟨?_, rfl⟩
    rw [mirrors_call, mirrors_lift, mirrors_minus, mirrors_call, Traced.pure_evs, List.append_nil, hev]
    rfl

theorem stripFcs_spec (hasFcs : Bool) {rxlen : Nat} (h : (if hasFcs then 4 else 0) ≤ rxlen) (hlt : rxlen < 2 ^ 64) :
    (stripFcs hasFcs rxlen).out = .ok (rxlen - if hasFcs then 4 else 0) := by
  cases hasFcs with
  | false => rfl
  | true =>
    have h4 : 4 ≤ rxlen := h
    show Except.ok (sizeMinus rxlen 4) = Except.ok (rxlen - 4)
    rw [sizeMinus_eq h4 hlt]

theorem stripFcs_mirrors (hasFcs : Bool) (rxlen : Nat) (evs : List NodeEv) :
    mirrors ((stripFcs hasFcs rxlen).evs ++ evs) = mirrors evs := by
  cases hasFcs <;> rfl

/-- A captured frame whose radiotap header was accepted and whose FCS is good. -/
theorem accepted_cases {lib : RadiotapLib} (hlib : RadiotapOk lib) {node : RxNode} {buf : Bytes} (hfit : buf.length < 2 ^ 64)
    {it : RadiotapIterator} {p : Nat} (ha : Accepted lib buf it p) (hgood : flagSet buf p ieee80211RadiotapFBadfcs = false)
    {t : Traced NodeEv Fault (RxNode × Option (Nat × Nat))}
    (ht : t = do
      let rxlen ← stripFcs (flagSet buf p ieee80211RadiotapFFcs) (sizeMinus buf.length it.maxLength)
      rxPcapBody { node with
        rxSrc := none, radiotap := it.context buf p,
        rx := { node.rx with freq := (it.context buf p).freq, dbm := (it.context buf p).dbm } } buf it.maxLength rxlen) :
    PcapCall lib node buf (mirrors t.evs) t.out := by
  have hle := hlib.itLen _ _ _ ha.init
  rw [hlib.maxLength _ _ _ ha.init, sizeMinus_eq hle hfit] at ht
  have hdrop : (buf.drop (itLen buf)).length = buf.length - itLen buf := List.length_drop
  by_cases hfcs : fcsLen buf p ≤ buf.length - itLen buf
  · have hstrip := stripFcs_spec (flagSet buf p ieee80211RadiotapFFcs) hfcs (by omega)
    change _ = Except.ok (buf.length - itLen buf - fcsLen buf p) at hstrip
    rw [ht, (Traced.bind_ok hstrip).1, (Traced.bind_ok hstrip).2, stripFcs_mirrors]
    by_cases hc : Carried node.rx.channelId buf p
    · have hlen := hc.length
      obtain ⟨node', hrx, hm, hev, hout⟩ := @rxPcapBody_carried
        { node with
          rxSrc := none, radiotap := it.context buf p,
          rx := { node.rx with freq := (it.context buf p).freq, dbm := (it.context buf p).dbm } }
        buf (itLen buf) (buf.length - itLen buf - fcsLen buf p) (by omega) (by omega) hc.header hc.channel (by omega)
      rw [hev, hout]
      exact .carried ha hgood hc ⟨⟨_, _, hrx⟩, hm⟩ (by rw [hrx]) (by rw [hrx])
    · obtain ⟨hev, hout⟩ := @rxPcapBody_foreign
        { node with
          rxSrc := none, radiotap := it.context buf p,
          rx := { node.rx with freq := (it.context buf p).freq, dbm := (it.context buf p).dbm } }
        buf (itLen buf) (buf.length - itLen buf - fcsLen buf p)
        (fun ⟨h1, _, h3, h4⟩ => hc ⟨by unfold ieee80211DataHdrlen at h1 ⊢; omega, h3, h4⟩)
      rw [hev]
      exact .foreign ha hgood hc fun q hq => ⟨(hout q hq).1, ⟨_, _, (hout q hq).2.1⟩, (hout q hq).2.2⟩
  · -- the FCS does not fit: what is taken for the frame is not in the buffer
    have hfour : fcsLen buf p ≤ 4 := by unfold fcsLen; split <;> omega
    obtain ⟨n, hn⟩ : ∃ n, (stripFcs (flagSet buf p ieee80211RadiotapFFcs) (buf.length - itLen buf)).out = .ok n := by
      cases flagSet buf p ieee80211RadiotapFFcs <;> exact ⟨_, rfl⟩
    rw [ht, (Traced.bind_ok hn).1, (Traced.bind_ok hn).2, stripFcs_mirrors]
    obtain ⟨hev, hout⟩ := @rxPcapBody_foreign
      { node with
        rxSrc := none, radiotap := it.context buf p,
        rx := { node.rx with freq := (it.context buf p).freq, dbm := (it.context buf p).dbm } } buf (itLen buf) n
      (fun ⟨_, h2, _, _⟩ => by unfold addr2 at h2; omega)
    rw [hev]
    refine .foreign ha hgood (fun hc => ?_) fun q hq => ⟨(hout q hq).1, ⟨_, _, (hout q hq).2.1⟩, (hout q hq).2.2⟩
    have := hc.length
    omega

/-- Everything `rx_frame_pcap` can do up to `wfb_frame_parse`. -/
theorem rxPcapFrame_cases {lib : RadiotapLib} (hlib : RadiotapOk lib) (node : RxNode) {buf : Bytes} (hfit : buf.length < 2 ^ 64) :
    PcapCall lib node buf (mirrors (rxPcapFrame lib node buf).evs) (rxPcapFrame lib node buf).out := by
  unfold rxPcapFrame
  rw [Traced.emit_bind_evs, Traced.emit_bind_out, Traced.emit_bind_evs, Traced.emit_bind_out, mirrors_minus, mirrors_call]
  have hcall := radiotapFrameParse_cases lib buf buf.length
  generalize radiotapFrameParse lib buf buf.length = t at hcall
  obtain ⟨evs, out⟩ := t
  dsimp only at hcall
  have hno : (∀ it, radiotapHdrlen ≤ buf.length → lib buf buf.length = some it → it.noent = true →
      it.field ieee80211RadiotapFlags = none) → ∀ it p, ¬ Accepted lib buf it p := by
    intro h it p ha
    have := h it ha.hdrlen ha.init ha.noent
    rw [ha.flags] at this
    cases this
  cases hcall with
  | short h _ =>
    have hlift : (Traced.lift NodeEv.parse (⟨evs, .ok (.zero, 0)⟩ : Traced ParseEv Fault (RadiotapContext × Int))).out =
      .ok (.zero, 0) := rfl
    rw [(Traced.bind_ok hlift).1, (Traced.bind_ok hlift).2, mirrors_lift]
    obtain ⟨hev, hout⟩ := @rxPcapBody_foreign
      { node with rxSrc := none, radiotap := .zero, rx := { node.rx with freq := 0, dbm := 0 } } buf 0 (sizeMinus buf.length 0)
      (fun ⟨h1, _, _, _⟩ => by
        rw [sizeMinus_eq (Nat.zero_le _) hfit] at h1
        unfold ieee80211DataHdrlen at h1
        unfold radiotapHdrlen at h
        omega)
    have hstrip : (stripFcs RadiotapContext.zero.hasFcs (sizeMinus buf.length 0)).out = .ok (sizeMinus buf.length 0) := rfl
    dsimp only
    rw [if_neg (by decide), if_neg (by decide), Traced.emit_bind_evs, Traced.emit_bind_out, Int.toNat_zero,
      (Traced.bind_ok hstrip).1, (Traced.bind_ok hstrip).2, mirrors_minus, stripFcs_mirrors]
    rw [show RadiotapContext.zero.freq = 0 from rfl, show RadiotapContext.zero.dbm = 0 from rfl, hev]
    exact .refused (fun it p ha => absurd ha.hdrlen (Nat.not_le.mpr h)) fun q hq =>
      ⟨(hout q hq).1, ⟨_, _, (hout q hq).2.1⟩, (hout q hq).2.2⟩
  | @refused ctx _ _ h _ =>
    have hlift : (Traced.lift NodeEv.parse (⟨evs, .ok (ctx, -1)⟩ : Traced ParseEv Fault (RadiotapContext × Int))).out =
      .ok (ctx, -1) := rfl
    rw [(Traced.bind_ok hlift).1, (Traced.bind_ok hlift).2, mirrors_lift]
    refine .refused (hno fun it _ hl hn => ?_) fun q hq => ?_
    · rw [h it hl] at hn
      cases hn
    · cases hq
      exact ⟨rfl, ⟨_, _, rfl⟩, rfl⟩
  | @noFlags it _ hl _ hf =>
    refine .refused (hno fun it' _ hl' _ => ?_) fun q hq => nomatch hq
    cases hl.symm.trans hl'
    exact hf
  | @parsed it p _ h8 hl hn hf _ =>
    have ha : Accepted lib buf it p := ⟨h8, hl, hn, hf⟩
    have hlift : (Traced.lift NodeEv.parse (⟨evs, .ok (it.context buf p, it.maxLength)⟩ :
      Traced ParseEv Fault (RadiotapContext × Int))).out = .ok (it.context buf p, (it.maxLength : Int)) := rfl
    rw [(Traced.bind_ok hlift).1, (Traced.bind_ok hlift).2, mirrors_lift]
    dsimp only
    rw [if_neg (Int.not_lt.mpr (Int.natCast_nonneg _)), Int.toNat_natCast]
    cases hbad : flagSet buf p ieee80211RadiotapFBadfcs with
    | false =>
      rw [if_neg (show ¬ (it.context buf p).badFcs = true from fun h => Bool.false_ne_true (hbad.symm.trans h))]
      rw [Traced.emit_bind_evs, Traced.emit_bind_out, mirrors_minus]
      exact accepted_cases hlib hfit ha hbad rfl
    | true =>
      rw [if_pos (show (it.context buf p).badFcs = true from hbad), Traced.emit_bind_evs, Traced.emit_bind_out,
        mirrors_call]
      obtain ⟨hev, udp, hout⟩ := rxMirrorFrame_spec { node with rxSrc := none, radiotap := it.context buf p } buf none 0
      rw [(Traced.bind_ok hout).1, (Traced.bind_ok hout).2, Traced.pure_evs, List.append_nil, hev]
      exact .badFcs ha hbad ⟨⟨_, _, rfl⟩, rfl⟩

/-! ## Behind the headers -/

/-- What the receiver reports, within what a node reports. -/
def rxEvs (evs : List NodeEv) : List Ev :=
  evs.filterMap fun e => match e with
    | .rx e => some e
    | _ => none

@[simp] theorem rxEvs_append (e e' : List NodeEv) : rxEvs (e ++ e') = rxEvs e ++ rxEvs e' := List.filterMap_append ..

@[simp] theorem rxEvs_rx (evs : List Ev) : rxEvs (evs.map NodeEv.rx) = evs := by
  induction evs with
  | nil => rfl
  | cons e evs ih => exact congrArg (e :: ·) ih

/-- Not an event of the receiver. -/
def NotRx : NodeEv → Prop
  | .rx _ => False
  | _ => True

theorem rxEvs_nil {evs : List NodeEv} (h : ∀ e ∈ evs, NotRx e) : rxEvs evs = [] := by
  unfold rxEvs
  rw [List.filterMap_eq_nil_iff]
  intro e he
  have := h e he
  cases e with
  | rx e => cases this
  | _ => rfl

theorem rxMirrorFrame_notRx (node : RxNode) (buf : Bytes) (data : Option Nat) (size : Nat) :
    Traced.All NotRx (rxMirrorFrame node buf data size) := by
  unfold rxMirrorFrame
  split
  · exact fun _ h => nomatch h
  · intro e he
    obtain ⟨h, -, rfl⟩ := List.mem_map.mp he
    trivial

theorem rxPcapBody_notRx (node : RxNode) (buf : Bytes) (rxbuf rxlen : Nat) :
    Traced.All NotRx (rxPcapBody node buf rxbuf rxlen) := by
  unfold rxPcapBody
  refine Traced.all_emit_bind.mpr ⟨trivial, Traced.all_bind.mpr ⟨Traced.all_lift.mpr fun _ _ => trivial, fun p _ => ?_⟩⟩
  dsimp only
  split
  · exact Traced.all_pure _
  · refine Traced.all_emit_bind.mpr ⟨trivial, ?_⟩
    split
    · exact Traced.all_pure _
    · exact Traced.all_emit_bind.mpr ⟨trivial, Traced.all_bind.mpr ⟨rxMirrorFrame_notRx _ _ _ _, fun _ _ => by simp⟩⟩

theorem rxPcapFrame_notRx (lib : RadiotapLib) (node : RxNode) (buf : Bytes) : Traced.All NotRx (rxPcapFrame lib node buf) := by
  unfold rxPcapFrame
  refine Traced.all_emit_bind.mpr ⟨trivial, Traced.all_emit_bind.mpr ⟨trivial, Traced.all_bind.mpr ⟨?_, fun p _ => ?_⟩⟩⟩
  · exact Traced.all_lift.mpr fun _ _ => trivial
  dsimp only
  split
  · simp
  · split
    · exact Traced.all_emit_bind.mpr ⟨trivial, Traced.all_bind.mpr ⟨rxMirrorFrame_notRx _ _ _ _, fun _ _ => by simp⟩⟩
    · refine Traced.all_emit_bind.mpr ⟨trivial, Traced.all_bind.mpr ⟨?_, fun _ _ => rxPcapBody_notRx _ _ _ _⟩⟩
      unfold stripFcs
      split
      · exact Traced.all_emit_bind.mpr ⟨trivial, by simp⟩
      · simp

/-- `wfb_frame_parse` and what follows it is a step of the receiver. -/
theorem rxFrameWfb_step {x : Externals} {node : RxNode} {mem : Bytes} {rxbuf size : Nat} {o : Outcome} {p : Int × RxNode}
    (h : (rxFrameWfb x node mem rxbuf size o).out = .ok p) :
    rxStep x node.rx (.frame ⟨mem.drop rxbuf, size, node.rx.freq, node.rx.dbm, o⟩) =
      .ok (p.2.rx, rxEvs (rxFrameWfb x node mem rxbuf size o).evs) ∧ p.2.mirrorHandler = node.mirrorHandler := by
  unfold rxFrameWfb at h ⊢
  rw [Traced.emit_bind_out, Traced.emitAll_bind_out] at h
  rw [Traced.emit_bind_evs, Traced.emitAll_bind_evs]
  cases hf : rxFrame x node.rx ⟨mem.drop rxbuf, size, node.rx.freq, node.rx.dbm, o⟩ with
  | error e =>
    rw [hf] at h
    cases h
  | ok q =>
    rw [hf] at h
    cases h
    refine ⟨?_, rfl⟩
    have hq : rxStep x node.rx (.frame ⟨mem.drop rxbuf, size, node.rx.freq, node.rx.dbm, o⟩) = .ok (q.ctx, q.evs) := by
      show (do let q ← rxFrame x node.rx _; return (q.ctx, q.evs)) = _
      rw [hf]
      rfl
    rw [hq]
    have hmin : rxEvs (wfbTaken size (wfbFrameParse (mem.drop rxbuf) size)) = [] := by
      cases wfbFrameParse (mem.drop rxbuf) size <;> rfl
    show Except.ok (q.ctx, q.evs) = Except.ok (q.ctx, rxEvs (_ ++ q.evs.map NodeEv.rx))
    rw [rxEvs_append, hmin, rxEvs_rx, List.nil_append]

theorem rxPcapFrame_keeps {lib : RadiotapLib} (hlib : RadiotapOk lib) {node : RxNode} {buf : Bytes} (hfit : buf.length < 2 ^ 64)
    {q : RxNode × Option (Nat × Nat)} (h : (rxPcapFrame lib node buf).out = .ok q) : KeepsRx node q.1 := by
  have hcases := rxPcapFrame_cases hlib node hfit
  rw [h] at hcases
  generalize mirrors (rxPcapFrame lib node buf).evs = ms at hcases
  cases hcases with
  | refused _ hout => exact (hout _ rfl).2
  | badFcs _ _ hk => exact hk
  | foreign _ _ _ hout => exact (hout _ rfl).2
  | carried _ _ _ hk _ _ => exact hk

/-- What a step of a node is to its receiver: at most the last frame's meta data change,
    or it is a step of the receiver with such meta data. -/
def RxStepOf (x : Externals) (node node' : RxNode) (evs : List Ev) : Prop :=
  ∃ freq dbm, node'.rx = { node.rx with freq := freq, dbm := dbm } ∧ evs = [] ∨
    ∃ i, rxStep x { node.rx with freq := freq, dbm := dbm } i = .ok (node'.rx, evs)

theorem rxFramePcap_refines {x : Externals} {lib : RadiotapLib} (hlib : RadiotapOk lib) {node : RxNode} {cap : Capture}
    {p : Int × RxNode} (h : (rxFramePcap x lib node cap).out = .ok p) :
    RxStepOf x node p.2 (rxEvs (rxFramePcap x lib node cap).evs) := by
  unfold rxFramePcap at h ⊢
  obtain ⟨⟨node', seen⟩, hq, hrest⟩ := Traced.out_bind.mp h
  rw [(Traced.bind_ok hq).1, rxEvs_append, rxEvs_nil (rxPcapFrame_notRx lib node cap.bytes), List.nil_append]
  obtain ⟨⟨freq, dbm, hk⟩, -⟩ := rxPcapFrame_keeps hlib cap.fits hq
  refine ⟨freq, dbm, ?_⟩
  rw [← hk]
  cases seen with
  | none =>
    cases hrest
    exact .inl ⟨rfl, rfl⟩
  | some s => exact .inr ⟨_, (rxFrameWfb_step hrest).1⟩

theorem rxFrameUdp_refines {x : Externals} {node : RxNode} {d : Datagram} {p : Int × RxNode}
    (h : (rxFrameUdp x node d).out = .ok p) : RxStepOf x node p.2 (rxEvs (rxFrameUdp x node d).evs) := by
  unfold rxFrameUdp at h ⊢
  obtain ⟨q, hq, hrest⟩ := Traced.out_bind.mp h
  have hnone : rxEvs (rxUdpFrame node d.mem d.size d.src).evs = [] := by
    unfold rxUdpFrame
    rw [Traced.emit_bind_evs, Traced.emitAll_bind_evs]
    split <;> rfl
  rw [(Traced.bind_ok hq).1, rxEvs_append, hnone, List.nil_append]
  cases hq
  exact ⟨_, _, .inr ⟨_, (rxFrameWfb_step hrest).1⟩⟩

end WfbYa.Rx
