/-
  WfbYa.Params — the sizes the receiver is compiled with (`wfb_params.h`, `frame_wfb.h`,
  `frame_ieee80211.h`, libsodium's), the C integer conversions it relies on, and how a
  call can go wrong other than by returning.
-/

import Mathlib.Algebra.Ring.Int.Defs
import Mathlib.Algebra.Ring.Nat

namespace WfbYa

abbrev Bytes := List UInt8

/-! ## wfb_params.h -/

def rxRingSize : Nat := 40
def wifiMtu : Nat := 4045
def maxBlockIdx : Nat := 2 ^ 55 - 1
def rxMaxDecode : Nat := 3
def rxMaxMirror : Nat := 3
def wfbSig : Nat := 0x5742

/-! ## The C library, libsodium -/

def bufsiz : Nat := 8192

def crypto_aead_chacha20poly1305_KEYBYTES : Nat := 32
def crypto_aead_chacha20poly1305_NPUBBYTES : Nat := 8
def crypto_aead_chacha20poly1305_ABYTES : Nat := 16
def crypto_box_NONCEBYTES : Nat := 24
def crypto_box_MACBYTES : Nat := 16

/-! ## frame_ieee80211.h, frame_wfb.h -/

def ieee80211DataHdrlen : Nat := 24

def wfbPacketData : UInt8 := 0x01
def wfbPacketSession : UInt8 := 0x02
def wfbPacketFFecOnly : UInt8 := 0x1
def wfbFecVdmRs : Nat := 1

/-- `sizeof(struct wfb_data_hdr)`: flags and a big-endian packet size. -/
def wfbDataHdrlen : Nat := 3
/-- `sizeof(struct wfb_session_hdr)`. -/
def wfbSessionHdrlen : Nat := 8 + 4 + 1 + 1 + 1 + crypto_aead_chacha20poly1305_KEYBYTES
def wfbDataBlockHdrlen : Nat := 1 + crypto_aead_chacha20poly1305_NPUBBYTES
def wfbSessionBlockHdrlen : Nat := 1 + crypto_box_NONCEBYTES
def minDataPacketLen : Nat := wfbDataHdrlen + crypto_aead_chacha20poly1305_ABYTES
def minSessionPacketLen : Nat := wfbSessionHdrlen + crypto_box_MACBYTES
def maxDataPacketSize : Nat := wifiMtu - ieee80211DataHdrlen
def maxFecPayload : Nat :=
  wifiMtu - ieee80211DataHdrlen - wfbDataBlockHdrlen - crypto_aead_chacha20poly1305_ABYTES
def maxPayloadSize : Nat := maxFecPayload - wfbDataHdrlen

/-! ## rx_log.h, frame_udp.h -/

def udpFlagCorrupt : Nat := 0x1
/-- `sizeof(struct wfb_udp_header)`. -/
def wfbUdpHdrlen : Nat := 8

def dbmInval : Int := -2 ^ 15
def dbmMin : Int := -2 ^ 7
def dbmMax : Int := 2 ^ 7 - 1

/-! ## C integers

  `size_t` and `uint64_t` are naturals below `2 ^ 64`, reduced where the code can leave
  that range. -/

def intMax : Nat := 2 ^ 31 - 1

def u64 (n : Nat) : Nat := n % 2 ^ 64

/-- A `uint64_t` stored in an `int`: its low 32 bits, as a signed number. -/
def intOfU64 (n : Nat) : Int := (n : Int).bmod (2 ^ 32)

/-- An `int` compared with a `size_t`: sign-extended to 64 bits. -/
def sizeOfInt (v : Int) : Nat := (v % 2 ^ 64).toNat

/-- An `int16_t` stored in an `int8_t`. -/
def int8OfInt16 (v : Int) : Int := v.bmod (2 ^ 8)

/-- What a call can do instead of returning. -/
inductive Fault where
  /-- An `int` loop counter passes `INT_MAX`. -/
  | signedOverflow
  /-- An array is read or written past its end. -/
  | outOfBounds
  | nullPointer
  | assertFailed
  /-- A loop exceeds the iterations granted to it. -/
  | endless
  /-- A signal kills the process. -/
  | killed
  deriving DecidableEq, Repr

end WfbYa
