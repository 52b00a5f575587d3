/-
  WfbYa.Rx.Sender — the frames of a sender, and externals that accept them alone.

  A sender has a `(k, n)` and the plaintexts of its fragments for each session key.
  `Sender.externals` decrypts what that sender made and nothing else; its codec repeats
  primaries.

  - `dataFrame_parse`: the receiver parses a sender's DATA frame back into its block and
    fragment.
-/

import WfbYa.Rx.Core

namespace WfbYa.Rx

open WfbYa.Frame WfbYa.Ring WfbYa.Lib.BigEndian

structure Sender where
  fecK : Bytes → Nat
  fecN : Bytes → Nat
  /-- The plaintext of a fragment of a block. -/
  plain : Bytes → Nat → Nat → Bytes

/-- The block size and flags before a payload. -/
def withHdr (flags : UInt8) (payload : Bytes) : Bytes := flags :: be 2 payload.length ++ payload

def tag : Bytes := List.replicate 16 0

/-- Every allocation succeeds, in a memory of zeros. -/
def allWell : Outcome := ⟨true, true, ⟨fun _ _ _ => 0, 0⟩⟩

def dataBytes (b f : Nat) (plain : Bytes) : Bytes :=
  wfbPacketData :: be 8 (b * 256 + f) ++ (plain ++ tag)

def dataFrame (b f : Nat) (plain : Bytes) (dbm : Int) : RxFrame :=
  ⟨dataBytes b f plain, wfbDataBlockHdrlen + plain.length + 16, 0, dbm, allWell⟩

def sessionPlain (epoch chan : Nat) (k n : UInt8) (key : Bytes) : Bytes :=
  be 8 epoch ++ be 4 chan ++ [1, k, n] ++ key

def sessionFrame (epoch chan : Nat) (k n : UInt8) (key : Bytes) : RxFrame :=
  ⟨wfbPacketSession :: List.replicate 24 0 ++ (sessionPlain epoch chan k n key ++ tag),
    wfbSessionBlockHdrlen + 47 + 16, 0, 0, allWell⟩

def Sender.externals (S : Sender) : Externals where
  boxOpen c _ _ _ :=
    let plain := c.take 47
    let hdr := wfbSessionHdr plain
    if c = plain ++ tag ∧ plain.length = 47 ∧ hdr.fecK = S.fecK hdr.sessionKey ∧ hdr.fecN = S.fecN hdr.sessionKey then some plain
    else none
  aeadDecrypt c _ nonce key :=
    let plain := S.plain key (ofBe nonce / 256) (ofBe nonce % 256)
    if c = plain ++ tag ∧ nonce.length = 8 then .ok plain else .error []
  fecDecode k _ inpkts index _ :=
    (List.range k).filterMap fun i => if index.getD i 0 < k then none else some (inpkts.getD i [])
  maxIter := 200

/-- The payload of fragment `f` of block `b`: the two numbers. -/
def number (k b f : Nat) : Bytes := be 8 b ++ [UInt8.ofNat (f % k)]

/-- Fragments carry their numbers; parities repeat primaries. -/
def numbered (k n : Nat) : Sender where
  fecK := fun _ => k
  fecN := fun _ => n
  plain := fun _ b f => withHdr 0 (number k b f)

def someKey : Bytes := List.replicate 32 7

/-- The input a sender's fragment makes. -/
def Sender.input (S : Sender) (b f : Nat) : Input := .frame (dataFrame b f (S.plain someKey b f) (-50))

/-- The input that starts a sender's session. -/
def Sender.opening (S : Sender) : Input :=
  .frame (sessionFrame 1 0 (UInt8.ofNat (S.fecK someKey)) (UInt8.ofNat (S.fecN someKey)) someKey)

/-- Both key pairs are loaded. -/
def loaded : CryptoWfbContext := ⟨true, true, true, false, [], [], List.replicate 32 0⟩

theorem dataFrame_parse {b f : Nat} {plain : Bytes} {dbm : Int} (hb : b < 2 ^ 56) (hf : f < 256)
    (hl : wfbDataBlockHdrlen + plain.length + 16 ≤ maxDataPacketSize) :
    ∃ w, wfbFrameParse (dataFrame b f plain dbm).data (dataFrame b f plain dbm).size = .ok w ∧
      w.packetType = wfbPacketData ∧ w.blockIdx = b ∧ w.fragmentIdx = f := by
  have hs : slice (dataBytes b f plain) 1 8 = be 8 (b * 256 + f) := by
    have hlen : (be 8 (b * 256 + f)).length = 8 := be_length 8 _
    refine List.ext_getElem (by simp) fun i h1 h2 => ?_
    have hi : i < 8 := by simpa using h1
    simp only [slice, List.getElem_map, List.getElem_range, dataBytes, List.cons_append]
    rw [Nat.add_comm 1 i, List.getD_cons_succ, List.getD_eq_getElem?_getD, List.getElem?_append_left (by omega),
      List.getElem?_eq_getElem (by omega)]
    rfl
  have hv : ofBe (be 8 (b * 256 + f)) = b * 256 + f := ofBe_be (by omega)
  have hmask : (0xff : Nat) = 2 ^ 8 - 1 := rfl
  refine ⟨⟨dataBytes b f plain, 9, 9 + plain.length + 16, 9 + plain.length + 16 - 9, be 8 (b * 256 + f), b, f⟩, ?_, rfl, rfl, rfl⟩
  unfold wfbFrameParse
  change (if 9 + plain.length + 16 < 1 then _ else if maxDataPacketSize < 9 + plain.length + 16 then _ else _) = _
  change 9 + plain.length + 16 ≤ maxDataPacketSize at hl
  rw [if_neg (by omega), if_neg (by omega)]
  change (if wfbPacketData = wfbPacketData then (if 9 + plain.length + 16 < 9 then _ else _) else _) = _
  rw [if_pos rfl, if_neg (by omega)]
  change Except.ok (WfbContext.mk _ _ _ _ (slice (dataBytes b f plain) 1 8) (ofBe (slice (dataBytes b f plain) 1 8) >>> 8)
    (ofBe (slice (dataBytes b f plain) 1 8) &&& 0xff)) = _
  rw [hs, hv, Nat.shiftRight_eq_div_pow, hmask, Nat.and_two_pow_sub_one_eq_mod]
  have h1 : (b * 256 + f) / 2 ^ 8 = b := by omega
  have h2 : (b * 256 + f) % 2 ^ 8 = f := by omega
  rw [h1, h2]
  rfl

end WfbYa.Rx
