/-
  WfbYa.Rx.Session — session frames (`rx_session.c`).

  The ciphertext is decrypted in place and the memory there read as a session header, so
  what the plaintext does not cover is what the buffer held before. `Outcome` says how the
  allocations of one call go.
-/

import WfbYa.Rx.Context

namespace WfbYa.Rx

open WfbYa.Frame WfbYa.Ring

structure Outcome where
  fecNew : Bool
  rbufAlloc : Bool
  heap : Heap

/-- The session header, as the in-place decryption leaves it in memory. -/
def sessionHdr (w : WfbContext) (plain : Bytes) : WfbSessionHdr :=
  wfbSessionHdr (plain ++ w.cipher.drop plain.length)

/-- No rekeying is required for the session a header announces. -/
def sameSession (ctx : RxContext) (hdr : WfbSessionHdr) : Bool :=
  ctx.hasSessionKey && ctx.sessionKey == hdr.sessionKey && hdr.epoch == ctx.epoch

/-- The checks on a new session's header: the error printed, if one fails. -/
def sessionCheck (ctx : RxContext) (hdr : WfbSessionHdr) : Option String :=
  if ctx.channelId ≠ 0 ∧ ctx.channelId ≠ hdr.channelId then some "Channel ID mismach\n"
  else if hdr.fecType ≠ wfbFecVdmRs then some "Unsupported FEC type\n"
  else if hdr.fecN < 1 then some "Invalid FEC N\n"
  else if hdr.fecK < 1 ∨ hdr.fecN < hdr.fecK then some "Invalid FEC K\n"
  else none

/-- The context with a checked session in use and a new ring. -/
def acceptSession (ctx : RxContext) (hdr : WfbSessionHdr) (r : Rbuf) : RxContext :=
  { ctx with
    rxRing := some r
    epoch := hdr.epoch
    fecType := hdr.fecType
    fecK := hdr.fecK
    fecN := hdr.fecN
    sessionKey := hdr.sessionKey
    crypto := (cryptoWfbSessionKeySet ctx.crypto hdr.sessionKey).2
    hasSessionKey := true }

/-- `rx_session` once it has decided to rekey. -/
def rekey (o : Outcome) (ctx : RxContext) (hdr : WfbSessionHdr) : Except Fault Ret := do
  let txReboot := decide (hdr.epoch ≤ ctx.epoch)
  let ctx := { ctx with hasSessionKey := false }
  match sessionCheck ctx hdr with
  | some fmt => return ⟨-1, ctx, [.msg .err fmt]⟩
  | none =>
    let (r, fec) := fecWfbNew o.fecNew ctx.fec hdr.fecType hdr.fecK hdr.fecN
    let ctx := { ctx with fec := fec }
    if r < 0 then
      return ⟨-1, ctx, [.msg .err "fec_new() failed.\n", .msg .err "Cannot Initialize FEC\n"]⟩
    else
      match ← rbufAlloc o.rbufAlloc o.heap rxRingSize maxFecPayload hdr.fecN with
      | none => return ⟨-1, { ctx with rxRing := none }, [.msg .err "Cannot Initialize Rx Buffer\n"]⟩
      | some ring =>
        return ⟨0, acceptSession ctx hdr ring,
          (if txReboot then [.logCreate hdr.fecType hdr.fecK hdr.fecN] else []) ++ [.sessionDump]⟩

def rxSession (x : Externals) (o : Outcome) (ctx : RxContext) : Except Fault Ret :=
  if ctx.wfb.pktlen < minSessionPacketLen then .ok ⟨-1, ctx, [.msg .err "Frame too short\n"]⟩
  else
    match cryptoWfbSessionDecrypt x ctx.crypto (ctx.wfb.cipher.take ctx.wfb.cipherlen) ctx.wfb.nonce with
    | .error fmt => .ok ⟨-1, ctx, errEvs fmt⟩
    | .ok plain =>
      let hdr := sessionHdr ctx.wfb plain
      if sameSession ctx hdr then .ok ⟨0, ctx, []⟩ else rekey o ctx hdr

end WfbYa.Rx
