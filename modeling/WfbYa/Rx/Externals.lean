/-
  WfbYa.Rx.Externals — what the receiver calls outside the repository (libsodium, zfec),
  and the two modules that wrap it (`crypto_wfb.c`, `fec_wfb.c`).

  `Externals` is a parameter of the receiver; nothing is assumed of it here.
-/

import WfbYa.Params

namespace WfbYa.Rx

structure Externals where
  /-- `crypto_box_open_easy` on ciphertext, nonce, public and secret key: the plaintext. -/
  boxOpen : Bytes → Bytes → Bytes → Bytes → Option Bytes
  /-- `crypto_aead_chacha20poly1305_decrypt` on ciphertext, additional data, nonce and key:
      the plaintext, or what a failed call leaves in its output buffer. -/
  aeadDecrypt : Bytes → Bytes → Bytes → Bytes → Except Bytes Bytes
  /-- `fec_decode` of the codec `fec_new(k, n)` on `inpkts`, `index` and `sz`: what it
      writes to `outpkts`, in order. -/
  fecDecode : Nat → Nat → List Bytes → List Nat → Nat → List Bytes
  /-- The iterations granted to `purge_stale`, whose loop has no bound of its own. -/
  maxIter : Nat

/-! ## crypto_wfb.c -/

structure CryptoWfbContext where
  initialized : Bool
  hasSecretKey : Bool
  hasPublicKey : Bool
  hasSessionKey : Bool
  secretKey : Bytes
  publicKey : Bytes
  sessionKey : Bytes

def cryptoWfbSessionKeySet (c : CryptoWfbContext) (key : Bytes) : Int × CryptoWfbContext :=
  if key.length ≠ crypto_aead_chacha20poly1305_KEYBYTES then (-1, { c with hasSessionKey := false })
  else (0, { c with sessionKey := key, hasSessionKey := true })

/-- The plaintext, or the error it prints, if any. -/
def cryptoWfbSessionDecrypt (x : Externals) (c : CryptoWfbContext) (src nonce : Bytes) : Except (Option String) Bytes :=
  if !c.initialized || !c.hasSecretKey || !c.hasPublicKey then .error none
  else match x.boxOpen src nonce c.publicKey c.secretKey with
    | some plain => .ok plain
    | none => .error (some "Failed to decrypt session. Check your keypair.\n")

/-- The plaintext, or what is left in the destination and the error printed, if any. The
    destination is never the ciphertext here, so `_plain` is not used. -/
def cryptoWfbDataDecrypt (x : Externals) (c : CryptoWfbContext) (src : Bytes) (srclen hdrlen : Nat) (nonce : Bytes) :
    Except Fault (Except (Bytes × Option String) Bytes) :=
  if srclen ≤ hdrlen then .error .assertFailed
  else if !c.initialized || !c.hasSessionKey then .ok (.error ([], none))
  else match x.aeadDecrypt ((src.drop hdrlen).take (srclen - hdrlen)) (src.take hdrlen) nonce c.sessionKey with
    | .ok plain => .ok (.ok plain)
    | .error left => .ok (.error (left, some "Falied to decrypt data. Stale session key?\n"))

/-! ## fec_wfb.c -/

structure FecContext where
  type : Nat
  /-- The `k` and `n` the codec was made for. -/
  zfec : Option (Nat × Nat)
  deriving DecidableEq

/-- `ok`: whether zfec's `fec_new` returns a codec. -/
def fecWfbNew (ok : Bool) (fec : FecContext) (type k n : Nat) : Int × FecContext :=
  if type = wfbFecVdmRs then
    if ok then (0, ⟨type, some (k, n)⟩) else (-1, ⟨type, none⟩)
  else (-1, fec)

/-- What is written to `out`, in order. -/
def fecWfbApply (x : Externals) (fec : FecContext) (inpkts : List Bytes) (index : List Nat) (size : Nat) :
    Except Fault (List Bytes) :=
  if size = 0 then .error .assertFailed
  else if fec.type = wfbFecVdmRs then
    match fec.zfec with
    | none => .error .nullPointer
    | some (k, n) => .ok (x.fecDecode k n (inpkts.map (List.take size)) index size)
  else .ok []

end WfbYa.Rx
