/-
  WfbYa.Rx.Data — data frames (`rx_data.c`).

  The functions below `rx_data` change the ring alone, so they take the context, the ring
  and a slot, and return the ring and what they report. Loops without a bound of their own
  are granted `maxIter` iterations; reads past an array's end fault.
-/

import WfbYa.Rx.Context

namespace WfbYa.Rx

open WfbYa.Frame WfbYa.Ring

/-! ## send_data_one, send_data_any -/

def blkGetSeq (ctx : RxContext) (blk : RbufBlock) : Nat := u64 (blk.index * ctx.fecK + blk.fragmentToSend)

/-- `rx_decode_frame` and `rx_log_decode`, unless the fragment is only there for FEC or
    announces more than a fragment holds. -/
def deliver (ctx : RxContext) (blk : RbufBlock) : List Ev :=
  let hdr := blk.fragment blk.fragmentToSend
  if hdr.headD 0 &&& wfbPacketFFecOnly ≠ 0 then []
  else if maxPayloadSize < packetSize hdr then [.msg .info "Malformed frame detected. Invalid FEC?\n"]
  else
    (if ctx.decodeHandler = [] then
      [Ev.msg .debug "Received %PRIu64: %d bytes, BLK %PRIu64, FRAG %02zx, FEC: %s\n"]
    else ctx.decodeHandler.map fun h =>
      .decode h blk.index blk.fragmentToSend (blk.rssi blk.fragmentToSend) (packetData hdr)) ++
    [.logDecode blk.index blk.fragmentToSend (packetData hdr)]

def sendDataOne (ctx : RxContext) (r : Rbuf) (slot : Nat) : Rbuf × List Ev :=
  let blk := r.blocks slot
  let hdr := blk.fragment blk.fragmentToSend
  let seq := blkGetSeq ctx blk
  ({ r with lastSeq := seq },
    .send blk.index blk.fragmentToSend (hdr.take wfbDataHdrlen) (packetData hdr) ::
    (if 0 < r.lastSeq ∧ u64 (r.lastSeq + 1) < seq then [.msg .debug "Missing Frame: %PRIu64\n"] else []) ++
    deliver ctx blk)

/-- `blk->fragment_to_send++`. -/
def advance (r : Rbuf) (slot : Nat) : Rbuf :=
  r.setBlock slot { r.blocks slot with fragmentToSend := (r.blocks slot).fragmentToSend + 1 }

/-- The loop of `send_data_any`, with `n` fragments left to `fec_k`. -/
def sendLoop (ctx : RxContext) (slot : Nat) (stale recovered : Bool) : Nat → Rbuf → Rbuf × List Ev
  | 0, r => (r, [])
  | n + 1, r =>
    if 0 < (r.blocks slot).fragmentLen (r.blocks slot).fragmentToSend ∨ recovered = true then
      let one := sendDataOne ctx r slot
      let rest := sendLoop ctx slot stale recovered n (advance one.1 slot)
      (rest.1, one.2 ++ rest.2)
    else if stale then sendLoop ctx slot stale recovered n (advance r slot)
    else (r, [])

def sendDataAny (ctx : RxContext) (r : Rbuf) (slot : Nat) (stale recovered : Bool) : Rbuf × List Ev :=
  sendLoop ctx slot stale recovered (ctx.fecK - (r.blocks slot).fragmentToSend) r

def sendDataSeq (ctx : RxContext) (r : Rbuf) (slot : Nat) : Rbuf × List Ev := sendDataAny ctx r slot false false
def sendDataStale (ctx : RxContext) (r : Rbuf) (slot : Nat) : Rbuf × List Ev := sendDataAny ctx r slot true false
def sendDataRecovered (ctx : RxContext) (r : Rbuf) (slot : Nat) : Rbuf × List Ev := sendDataAny ctx r slot false true

/-! ## purge_stale -/

/-- The blocks freed, in order. -/
def freed (evs : List Ev) : List Nat :=
  evs.filterMap fun e => match e with
    | .ring (.free _ index _ _) => some index
    | _ => none

def purgeLoop (ctx : RxContext) (slot : Nat) : Nat → Rbuf → Except Fault (Rbuf × List Ev)
  | n, r =>
    if r.ringFront = slot then .ok (r, [])
    else match n with
      | 0 => .error .endless
      | n + 1 => do
        let stale := r.ringFront
        let sent := sendDataStale ctx r stale
        let rest ← purgeLoop ctx slot n (rbufFreeBlock sent.1 stale)
        return (rest.1, sent.2 ++ .ring (freeEv sent.1 stale) :: rest.2)

def purgeStale (x : Externals) (ctx : RxContext) (r : Rbuf) (slot : Nat) : Except Fault (Rbuf × List Ev) := do
  let p ← purgeLoop ctx slot x.maxIter r
  return (p.1, p.2 ++ [.purged slot r.ringAlloc (freed p.2)])

/-! ## data_recovery -/

/-- The first fragment from `j` on that the slot holds. -/
def nextParity (blk : RbufBlock) (nof j : Nat) : Option Nat :=
  (List.range' j (nof - j)).find? fun j => blk.fragmentLen j ≠ 0

/-- `index`, `out` (as fragment numbers) and the block size. `in[i]` is always fragment
    `index[i]`. -/
structure Plan where
  index : List Nat
  out : List Nat
  pktsiz : Nat

/-- The loop of `data_recovery`, with `n` primaries left from `i`, parities taken from `j`. -/
def planLoop (blk : RbufBlock) (nof : Nat) : Nat → Nat → Nat → Nat → Except Fault Plan
  | 0, _, _, pktsiz => .ok ⟨[], [], pktsiz⟩
  | n + 1, i, j, pktsiz =>
    if blk.fragmentLen i ≠ 0 then do
      let p ← planLoop blk nof n (i + 1) j pktsiz
      return { p with index := i :: p.index }
    else match nextParity blk nof j with
      | none => .error .outOfBounds
      | some j' => do
        let p ← planLoop blk nof n (i + 1) (j' + 1) (max pktsiz (blk.fragmentLen j'))
        return { p with index := j' :: p.index, out := i :: p.out }

/-- Bytes written at the start of a fragment's buffer. -/
def putFragment (blk : RbufBlock) (i : Nat) (data : Bytes) : RbufBlock :=
  { blk with fragment := Function.update blk.fragment i (data ++ (blk.fragment i).drop data.length) }

def putAll (blk : RbufBlock) (ps : List (Nat × Bytes)) : RbufBlock :=
  ps.foldl (fun blk p => putFragment blk p.1 p.2) blk

/-- The fragments a slot holds. -/
def received (blk : RbufBlock) (nof : Nat) : List Nat := (List.range nof).filter fun j => blk.fragmentLen j ≠ 0

def dataRecovery (x : Externals) (ctx : RxContext) (r : Rbuf) (slot : Nat) : Except Fault (Rbuf × List Ev) := do
  let blk := r.blocks slot
  let p ← planLoop blk r.fragmentNof ctx.fecK 0 ctx.fecK 0
  let outpkts ← fecWfbApply x ctx.fec (p.index.map blk.fragment) p.index p.pktsiz
  return (r.setBlock slot (putAll blk (p.out.zip outpkts)),
    [.recover (received blk r.fragmentNof) p.index p.out p.pktsiz])

/-! ## data_add -/

/-- How many primaries from `fragment_to_send` on are missing. -/
def fecCount (ctx : RxContext) (blk : RbufBlock) : Nat :=
  (List.range' blk.fragmentToSend (ctx.fecK - blk.fragmentToSend)).countP fun i => blk.fragmentLen i = 0

/-- Recover the missing fragments, if there are any. -/
def recoverMissing (x : Externals) (ctx : RxContext) (r : Rbuf) (slot : Nat) : Except Fault (Rbuf × List Ev) :=
  if fecCount ctx (r.blocks slot) ≠ 0 then do
    let p ← dataRecovery x ctx r slot
    return (p.1, Ev.msg .debug "Recover %d frames using FEC\n" :: p.2)
  else .ok (r, [])

/-- `data_add` from its assertion on. -/
def dataFec (x : Externals) (ctx : RxContext) (r : Rbuf) (slot : Nat) : Except Fault (Rbuf × List Ev) :=
  if r.ringFront ≠ slot then .error .assertFailed
  else if (r.blocks slot).fragmentToSend < ctx.fecK ∧ (r.blocks slot).fragmentUsed = ctx.fecK ∧ ctx.noFec = false then do
    let rec1 ← recoverMissing x ctx r slot
    let sent := sendDataRecovered ctx rec1.1 slot
    return (rbufFreeBlock sent.1 slot, rec1.2 ++ sent.2 ++ [.ring (freeEv sent.1 slot)])
  else .ok (r, [])

def dataAdd (x : Externals) (ctx : RxContext) (r : Rbuf) (slot : Nat) : Except Fault (Rbuf × List Ev) :=
  if r.ringFront = slot then do
    let sent := sendDataSeq ctx r slot
    if (sent.1.blocks slot).fragmentToSend = ctx.fecK then
      return (rbufFreeBlock sent.1 slot, sent.2 ++ [.ring (freeEv sent.1 slot)])
    else
      let rest ← dataFec x ctx sent.1 slot
      return (rest.1, sent.2 ++ rest.2)
  else do
    let p ← purgeStale x ctx r slot
    let rest ← dataFec x ctx p.1 slot
    return (rest.1, p.2 ++ rest.2)

/-! ## rx_data -/

def raiseRssi (blk : RbufBlock) (f : Nat) (dbm : Int) : RbufBlock :=
  if blk.rssi f < dbm then { blk with rssi := Function.update blk.rssi f (int8OfInt16 dbm) } else blk

/-- A decrypted fragment in its buffer, the rest of it cleared, and counted. -/
def storeFragment (blk : RbufBlock) (f fragmentSize : Nat) (plain : Bytes) : RbufBlock :=
  { blk with
    fragment := Function.update blk.fragment f (plain ++ List.replicate (fragmentSize - plain.length) 0)
    fragmentLen := Function.update blk.fragmentLen f plain.length
    fragmentUsed := blk.fragmentUsed + 1 }

/-- `rx_data` once it has a slot for the frame's block. -/
def rxFragment (x : Externals) (ctx : RxContext) (r : Rbuf) (slot : Nat) : Except Fault Ret := do
  let f := ctx.wfb.fragmentIdx
  let blk := raiseRssi (r.blocks slot) f ctx.dbm
  if blk.fragmentLen f ≠ 0 then return ⟨0, { ctx with rxRing := some (r.setBlock slot blk) }, []⟩
  else
    match ← cryptoWfbDataDecrypt x ctx.crypto ctx.wfb.hdr ctx.wfb.pktlen ctx.wfb.hdrlen ctx.wfb.nonce with
    | .error (left, fmt) =>
      return ⟨-1, { ctx with rxRing := some (r.setBlock slot (putFragment blk f left)), hasSessionKey := false },
        errEvs fmt ++ [.contextDump]⟩
    | .ok plain =>
      if r.fragmentSize < plain.length then .error .outOfBounds
      else
        let rest ← dataAdd x ctx (r.setBlock slot (storeFragment blk f r.fragmentSize plain)) slot
        return ⟨0, { ctx with rxRing := some rest.1 }, .store slot blk.index f plain.length :: rest.2⟩

def rxData (x : Externals) (ctx : RxContext) : Except Fault Ret :=
  if ctx.hasSessionKey = false then .ok ⟨0, ctx, []⟩
  else match ctx.rxRing with
    | none => .error .assertFailed
    | some r =>
      if ctx.wfb.pktlen < minDataPacketLen then .ok ⟨-1, ctx, [.msg .err "Frame too short\n"]⟩
      else if maxBlockIdx < ctx.wfb.blockIdx then .ok ⟨-1, ctx, [.msg .err "Block index out of range.\n"]⟩
      else if ctx.fecN ≤ ctx.wfb.fragmentIdx then .ok ⟨-1, ctx, [.msg .err "Fragment index out of range.\n"]⟩
      else do
        let (r1, blk, evs) ← rbufGetBlock r ctx.wfb.blockIdx
        let evs := Ev.logFrame ctx.wfb.blockIdx ctx.wfb.fragmentIdx ctx.wfb.pktlen :: evs.map Ev.ring
        match blk with
        | none => return ⟨0, { ctx with rxRing := some r1 }, evs⟩
        | some slot =>
          let q ← rxFragment x ctx r1 slot
          return { q with evs := evs ++ q.evs }

end WfbYa.Rx
