/-
  WfbYa.Frame.TxIeee80211 — the 802.11 header a sender builds, and what the receiver makes
  of it (`ieee80211_tx_context_initialize` against `ieee80211_frame_parse`).

  The sender's header is as long as the whole `struct ieee80211_header`, whose union has room
  for four addresses; the receiver's ends behind three. The fields are where the receiver
  looks for them, but eight bytes of the sender's header are left in front of the payload.

  - `txHeader_parses`: the receiver finds the signature and the channel.
  - `txHeader_leaves`: what it leaves.
-/

import WfbYa.Frame.FrameIeee80211

namespace WfbYa.Frame

open WfbYa.Lib WfbYa.Lib.BigEndian WfbYa.Lib.LittleEndian

/-! ## ieee80211_tx_context_initialize -/

def ethAddrLen : Nat := 6

/-- An address as it lies in memory. -/
structure EtherAddr where
  bytes : Bytes
  size : bytes.length = ethAddrLen

/-- The sizes of the union's members: three addresses and `seq_ctrl`; with `qos_ctrl`; with a
    fourth address; a trigger frame. `__packed` is on the members and not on the structures in
    them: `common_info` is aligned. -/
def base3Size : Nat := 3 * ethAddrLen + 2
def qos3Size : Nat := 3 * ethAddrLen + 4
def qos4Size : Nat := 4 * ethAddrLen + 4
def triggerSize : Nat := (2 * ethAddrLen + 7) / 8 * 8 + 8

/-- `sizeof(struct ieee80211_header)`. -/
def ieee80211HeaderSize : Nat := 2 + 2 + max (max base3Size qos3Size) (max qos4Size triggerSize)

/-- `struct ieee80211_header` as the sender fills it. -/
structure Ieee80211Header where
  frameControl : UInt16
  durationId : UInt16
  addr1 : EtherAddr
  addr2 : EtherAddr
  addr3 : EtherAddr
  seqCtrl : UInt16

/-- The header in memory: what lies behind `base3` is as `memset` left it. -/
def Ieee80211Header.raw (hdr : Ieee80211Header) : Bytes :=
  le 2 hdr.frameControl.toNat ++ le 2 hdr.durationId.toNat ++ hdr.addr1.bytes ++ hdr.addr2.bytes ++ hdr.addr3.bytes ++
    le 2 hdr.seqCtrl.toNat ++ List.replicate (ieee80211HeaderSize - (2 + 2 + base3Size)) 0

structure Ieee80211TxContext where
  hdr : Ieee80211Header
  /-- `tx_iov`, as the bytes it covers. -/
  txIov : Bytes

def ieee80211TxContextInitialize (dst src bssid : EtherAddr) : Ieee80211TxContext :=
  let hdr : Ieee80211Header := ⟨UInt16.ofNat ((ftypeData <<< 2) ||| (dtypeData <<< 4)), 0, dst, src, bssid, 0⟩
  ⟨hdr, hdr.raw.take ieee80211HeaderSize⟩

/-! ## What the receiver finds -/

/-- The bytes of the sender's header behind the receiver's. -/
def txPadding : Bytes := List.replicate 8 0

variable {dst src bssid : EtherAddr} {c : UInt32} {p : Bytes}

/-- The header in two parts, `addr2` apart. -/
theorem txIov_eq (dst src bssid : EtherAddr) :
    (ieee80211TxContextInitialize dst src bssid).txIov =
      ([8, 0, 0, 0] ++ dst.bytes) ++ (src.bytes ++ (bssid.bytes ++ [0, 0] ++ txPadding)) := by
  have h1 := dst.size
  have h2 := src.size
  have h3 := bssid.size
  unfold ethAddrLen at h1 h2 h3
  have hsize : ieee80211HeaderSize = 32 := rfl
  have hcontrol : le 2 (UInt16.ofNat (ftypeData <<< 2 ||| dtypeData <<< 4)).toNat = [8, 0] := rfl
  have hzero : le 2 (0 : UInt16).toNat = [0, 0] := rfl
  unfold ieee80211TxContextInitialize Ieee80211Header.raw
  dsimp only
  rw [hcontrol, hzero, hsize, List.take_of_length_le]
  · simp [txPadding, base3Size, ethAddrLen]
  · simp [base3Size, ethAddrLen, h1, h2, h3]

theorem txIov_length : (ieee80211TxContextInitialize dst src bssid).txIov.length = ieee80211HeaderSize := by
  have h1 := dst.size
  have h2 := src.size
  have h3 := bssid.size
  unfold ethAddrLen at h1 h2 h3
  rw [txIov_eq]
  simp [txPadding, h1, h2, h3, show ieee80211HeaderSize = 32 from rfl]

/-- An address of this channel: the signature and the channel's number. -/
def OfChannel (src : EtherAddr) (c : UInt32) : Prop :=
  ofBe (src.bytes.take 2) = wfbSig ∧ ofBe (src.bytes.drop 2) = c.toNat

/-- `addr2` lies where the receiver reads the signature and the channel. -/
theorem txIov_addr2 :
    getSignature ((ieee80211TxContextInitialize dst src bssid).txIov ++ p) = ofBe (src.bytes.take 2) ∧
      getChannelId ((ieee80211TxContextInitialize dst src bssid).txIov ++ p) = ofBe (src.bytes.drop 2) := by
  have h1 := dst.size
  have h2 := src.size
  unfold ethAddrLen at h1 h2
  have hfront : ([8, 0, 0, 0] ++ dst.bytes).length = addr2 := by simp [h1, addr2]
  have htake : (src.bytes.take 2).length = 2 := by simp [h2]
  have hdrop : (src.bytes.drop 2).length = 4 := by simp [h2]
  unfold getSignature getChannelId
  rw [txIov_eq, ← List.take_append_drop 2 src.bytes]
  simp only [List.append_assoc]
  constructor
  · rw [List.take_append_drop, ← List.append_assoc _ dst.bytes, slice_middle hfront htake]
  · rw [List.take_append_drop, ← List.append_assoc _ dst.bytes, ← List.append_assoc _ (src.bytes.take 2),
      slice_middle (by rw [List.length_append, hfront, htake]) hdrop]

theorem txIov_wfbHeader (h : OfChannel src c) : WfbHeader ((ieee80211TxContextInitialize dst src bssid).txIov ++ p) := by
  have hcontrol : frameControl ((ieee80211TxContextInitialize dst src bssid).txIov ++ p) = 8 := by
    unfold frameControl
    rw [txIov_eq]
    simp only [List.append_assoc]
    exact congrArg ofLe (@slice_front [8, 0] _ 2 rfl)
  refine ⟨?_, ?_, ?_, ?_⟩
  · rw [hcontrol]
    rfl
  · rw [hcontrol]
    rfl
  · rw [hcontrol]
    rfl
  · rw [txIov_addr2.1]
    exact h.1

/-- The signature and the channel are found. -/
theorem txHeader_parses (h : OfChannel src c) :
    (ieee80211FrameParse ((ieee80211TxContextInitialize dst src bssid).txIov ++ p)
        ((ieee80211TxContextInitialize dst src bssid).txIov ++ p).length).out =
      .ok (⟨ieee80211DataHdrlen, wfbSig, c.toNat⟩, ieee80211DataHdrlen) := by
  have hw := @txIov_wfbHeader dst src bssid c p h
  have hchan := (@txIov_addr2 dst src bssid p).2.trans h.2
  have hlen : ieee80211HeaderSize ≤ ((ieee80211TxContextInitialize dst src bssid).txIov ++ p).length := by
    rw [List.length_append, txIov_length]
    exact Nat.le_add_right ..
  generalize (ieee80211TxContextInitialize dst src bssid).txIov ++ p = data at hw hchan hlen ⊢
  have hsize : ieee80211DataHdrlen ≤ ieee80211HeaderSize := by decide
  rw [← hchan]
  have hcall := ieee80211FrameParse_cases data data.length
  generalize (ieee80211FrameParse data data.length).out = out at hcall ⊢
  generalize (ieee80211FrameParse data data.length).evs = evs at hcall
  cases hcall with
  | refused _ hno => exact absurd hw (hno (Nat.le_trans hsize hlen))
  | beyond hshort => exact absurd hshort (Nat.not_lt.mpr (Nat.le_trans hsize hlen))
  | parsed => rfl

/-- Eight bytes stay in front of the payload. -/
theorem txHeader_leaves :
    ((ieee80211TxContextInitialize dst src bssid).txIov ++ p).drop ieee80211DataHdrlen = txPadding ++ p := by
  have h1 := dst.size
  have h2 := src.size
  have h3 := bssid.size
  unfold ethAddrLen at h1 h2 h3
  rw [txIov_eq]
  have hassoc : [8, 0, 0, 0] ++ dst.bytes ++ (src.bytes ++ (bssid.bytes ++ [0, 0] ++ txPadding)) ++ p =
      ([8, 0, 0, 0] ++ dst.bytes ++ src.bytes ++ bssid.bytes ++ [0, 0]) ++ (txPadding ++ p) := by
    simp only [List.append_assoc]
  rw [hassoc]
  exact List.drop_left' (by simp [h1, h2, h3, ieee80211DataHdrlen])

/-! ## The round trip -/

/-- The receiver finds the channel, and the payload behind the header. -/
def HeaderRoundTrip (dst src bssid : EtherAddr) (c : UInt32) (p : Bytes) : Prop :=
  ∃ ctx n, (ieee80211FrameParse ((ieee80211TxContextInitialize dst src bssid).txIov ++ p)
      ((ieee80211TxContextInitialize dst src bssid).txIov ++ p).length).out = .ok (ctx, Int.ofNat n) ∧
    ctx.wfbSignature = wfbSig ∧ ctx.channelId = c.toNat ∧ ((ieee80211TxContextInitialize dst src bssid).txIov ++ p).drop n = p

theorem header_roundTrip_never (dst bssid : EtherAddr) (h : OfChannel src c) (p : Bytes) :
    ¬ HeaderRoundTrip dst src bssid c p := by
  intro ⟨ctx, n, hparse, _, _, hdrop⟩
  rw [txHeader_parses h] at hparse
  have hn : (ieee80211DataHdrlen : Int) = Int.ofNat n := congrArg Prod.snd (Except.ok.inj hparse)
  rw [← Int.ofNat.inj hn, txHeader_leaves] at hdrop
  have hlen := congrArg List.length hdrop
  rw [List.length_append, show txPadding.length = 8 from rfl] at hlen
  omega

/-- The transmitter of channel 7. -/
def channelSeven : EtherAddr := ⟨[0x57, 0x42, 0, 0, 0, 7], rfl⟩

theorem channelSeven_of : OfChannel channelSeven 7 := ⟨by decide, by decide⟩

theorem header_roundTrip_never_seven : ¬ HeaderRoundTrip channelSeven channelSeven channelSeven 7 [1, 2, 3] :=
  header_roundTrip_never channelSeven channelSeven channelSeven_of [1, 2, 3]

/-- One byte comes back as nine. -/
theorem one_byte_breaks_header : ¬ HeaderRoundTrip channelSeven channelSeven channelSeven 7 [0xaa] := by
  intro ⟨ctx, n, hparse, _, _, hdrop⟩
  rw [txHeader_parses channelSeven_of] at hparse
  have hn : (ieee80211DataHdrlen : Int) = Int.ofNat n := congrArg Prod.snd (Except.ok.inj hparse)
  rw [← Int.ofNat.inj hn] at hdrop
  exact absurd hdrop (by decide)

end WfbYa.Frame
