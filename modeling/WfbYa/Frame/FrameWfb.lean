/-
  WfbYa.Frame.FrameWfb — the WFB header (`frame_wfb.c`, `frame_wfb.h`).

  A frame is the first `size` bytes of the memory at `data`; the receive buffer goes on
  behind it. A DATA frame's 8 nonce bytes are big-endian `block_idx << 8 | fragment_idx`.
-/

import WfbYa.Params
import WfbYa.Lib.BigEndian

namespace WfbYa.Frame

open WfbYa.Lib.BigEndian

structure WfbContext where
  /-- The memory from the header on. -/
  hdr : Bytes
  hdrlen : Nat
  pktlen : Nat
  cipherlen : Nat
  nonce : Bytes
  blockIdx : Nat
  fragmentIdx : Nat

def WfbContext.packetType (w : WfbContext) : UInt8 := w.hdr.headD 0

/-- The memory from the ciphertext on. -/
def WfbContext.cipher (w : WfbContext) : Bytes := w.hdr.drop w.hdrlen

def WfbContext.zero : WfbContext := ⟨[], 0, 0, 0, [], 0, 0⟩

/-- The text of a `p_err`, or the parsed header (the return value is its `pktlen`). -/
def wfbFrameParse (data : Bytes) (size : Nat) : Except String WfbContext :=
  if size < 1 then .error "Frame too short\n"
  else if maxDataPacketSize < size then .error "Frame too long\n"
  else
    let type := data.headD 0
    if type = wfbPacketData then
      if size < wfbDataBlockHdrlen then .error "Frame too short\n"
      else
        let nonce := slice data 1 crypto_aead_chacha20poly1305_NPUBBYTES
        let v64 := ofBe nonce
        .ok ⟨data, wfbDataBlockHdrlen, size, size - wfbDataBlockHdrlen, nonce, v64 >>> 8, v64 &&& 0xff⟩
    else if type = wfbPacketSession then
      if size < wfbSessionBlockHdrlen then .error "Frame too short\n"
      else
        .ok ⟨data, wfbSessionBlockHdrlen, size, size - wfbSessionBlockHdrlen,
          slice data 1 crypto_box_NONCEBYTES, 0, 0⟩
    else .error "Unknown packet type\n"

/-- `struct wfb_session_hdr`. -/
structure WfbSessionHdr where
  epoch : Nat
  channelId : Nat
  fecType : Nat
  fecK : Nat
  fecN : Nat
  sessionKey : Bytes

/-- The header the memory at `m` is cast to. -/
def wfbSessionHdr (m : Bytes) : WfbSessionHdr where
  epoch := ofBe (slice m 0 8)
  channelId := ofBe (slice m 8 4)
  fecType := (m.getD 12 0).toNat
  fecK := (m.getD 13 0).toNat
  fecN := (m.getD 14 0).toNat
  sessionKey := slice m 15 crypto_aead_chacha20poly1305_KEYBYTES

/-- `packet_size` of the `struct wfb_data_hdr` a fragment starts with. -/
def packetSize (fragment : Bytes) : Nat := ofBe (slice fragment 1 2)

/-- The `packet_size` bytes after a fragment's header. -/
def packetData (fragment : Bytes) : Bytes := (fragment.drop wfbDataHdrlen).take (packetSize fragment)

/-- What a parsed DATA frame says about itself. -/
structure IsData (w : WfbContext) : Prop where
  type : w.packetType = wfbPacketData
  hdrlen : w.hdrlen = wfbDataBlockHdrlen
  pktlen : w.hdrlen ≤ w.pktlen ∧ w.pktlen ≤ maxDataPacketSize
  cipherlen : w.cipherlen = w.pktlen - w.hdrlen
  nonce : w.nonce = slice w.hdr 1 crypto_aead_chacha20poly1305_NPUBBYTES
  blockIdx : w.blockIdx = ofBe w.nonce / 256
  fragmentIdx : w.fragmentIdx = ofBe w.nonce % 256

theorem wfbFrameParse_data {data : Bytes} {size : Nat} {w : WfbContext} (h : wfbFrameParse data size = .ok w)
    (ht : w.packetType = wfbPacketData) : IsData w ∧ w.hdr = data ∧ w.pktlen = size := by
  unfold wfbFrameParse at h
  split at h
  · cases h
  · split at h
    · cases h
    · rename_i hmax
      dsimp only at h
      split at h
      · rename_i htype
        split at h
        · cases h
        · rename_i hmin
          cases h
          have hmask : (0xff : Nat) = 2 ^ 8 - 1 := rfl
          refine ⟨⟨ht, rfl, ⟨Nat.not_lt.mp hmin, Nat.not_lt.mp hmax⟩, rfl, rfl, ?_, ?_⟩, rfl, rfl⟩
          · exact Nat.shiftRight_eq_div_pow _ 8
          · show _ &&& 0xff = _
            rw [hmask, Nat.and_two_pow_sub_one_eq_mod]
      · rename_i htype
        split at h
        · split at h
          · cases h
          · cases h
            exact absurd ht htype
        · cases h

/-- What a parsed SESSION frame says about itself. -/
structure IsSession (w : WfbContext) : Prop where
  hdrlen : w.hdrlen = wfbSessionBlockHdrlen
  pktlen : w.hdrlen ≤ w.pktlen
  cipherlen : w.cipherlen = w.pktlen - w.hdrlen

theorem wfbFrameParse_session {data : Bytes} {size : Nat} {w : WfbContext} (h : wfbFrameParse data size = .ok w)
    (ht : w.packetType = wfbPacketSession) : IsSession w ∧ w.hdr = data ∧ w.pktlen = size := by
  unfold wfbFrameParse at h
  split at h
  · cases h
  · split at h
    · cases h
    · dsimp only at h
      split at h
      · rename_i htype
        split at h
        · cases h
        · cases h
          exact absurd (htype.symm.trans ht) (by decide)
      · split at h
        · split at h
          · cases h
          · rename_i hmin
            cases h
            exact ⟨⟨rfl, Nat.not_lt.mp hmin, rfl⟩, rfl, rfl⟩
        · cases h

/-- The return value is the whole length. -/
theorem wfbFrameParse_pktlen {data : Bytes} {size : Nat} {w : WfbContext} (h : wfbFrameParse data size = .ok w) :
    w.pktlen = size := by
  unfold wfbFrameParse at h
  split at h
  · cases h
  · split at h
    · cases h
    · dsimp only at h
      split at h
      · split at h
        · cases h
        · cases h
          rfl
      · split at h
        · split at h
          · cases h
          · cases h
            rfl
        · cases h

/-! ## The bytes that count -/

/-- Two parsers' results tell the receiver the same. -/
def SameFrame : Except String WfbContext → Except String WfbContext → Prop
  | .ok w, .ok v => w.packetType = v.packetType ∧ w.hdrlen = v.hdrlen ∧ w.pktlen = v.pktlen ∧ w.nonce = v.nonce ∧
      w.blockIdx = v.blockIdx ∧ w.fragmentIdx = v.fragmentIdx ∧ w.cipherlen = v.cipherlen ∧
        w.cipher.take w.cipherlen = v.cipher.take v.cipherlen
  | .error e, .error e' => e = e'
  | _, _ => False

theorem getD_take {a b : Bytes} {n i : Nat} (h : a.take n = b.take n) (hi : i < n) : a.getD i 0 = b.getD i 0 := by
  rw [List.getD_eq_getElem?_getD, List.getD_eq_getElem?_getD, ← List.getElem?_take_of_lt hi, h, List.getElem?_take_of_lt hi]

theorem slice_take {a b : Bytes} {n off len : Nat} (h : a.take n = b.take n) (hl : off + len ≤ n) :
    slice a off len = slice b off len := by
  unfold slice
  apply List.map_congr_left
  intro i hi
  rw [List.mem_range] at hi
  exact getD_take h (by omega)

theorem drop_take_eq {a b : Bytes} {n k : Nat} (h : a.take n = b.take n) :
    (a.drop k).take (n - k) = (b.drop k).take (n - k) := by
  rw [← List.drop_take, ← List.drop_take, h]

/-- `wfb_frame_parse` looks at nothing behind the frame. -/
theorem wfbFrameParse_take {a b : Bytes} {n : Nat} (h : a.take n = b.take n) :
    SameFrame (wfbFrameParse a n) (wfbFrameParse b n) := by
  unfold wfbFrameParse
  split
  · exact rfl
  · rename_i h0
    split
    · exact rfl
    · have htype : a.headD 0 = b.headD 0 := by
        have h1 : a.getD 0 0 = b.getD 0 0 := getD_take h (Nat.not_lt.mp h0)
        cases a <;> cases b <;> exact h1
      dsimp only
      rw [htype]
      split
      · split
        · exact rfl
        · rename_i hmin
          have hnonce := @slice_take _ _ _ 1 crypto_aead_chacha20poly1305_NPUBBYTES h (Nat.not_lt.mp hmin)
          rw [hnonce]
          exact ⟨htype, rfl, rfl, rfl, rfl, rfl, rfl, drop_take_eq h⟩
      · split
        · split
          · exact rfl
          · rename_i hmin
            have hnonce := @slice_take _ _ _ 1 crypto_box_NONCEBYTES h (Nat.not_lt.mp hmin)
            rw [hnonce]
            exact ⟨htype, rfl, rfl, rfl, rfl, rfl, rfl, drop_take_eq h⟩
        · exact rfl

end WfbYa.Frame
