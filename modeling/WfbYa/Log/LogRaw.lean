/-
  WfbYa.Log.LogRaw — the analysis program's loader (`log_analysis/log_raw.c`).

  Each record becomes a value in the store, linked under its sequence number and its block,
  or, a message, under its own number; the keys carry marks that are kept up as the records
  come in. Pointers to values are indices of `vs`, in the order of their allocation, and
  pointers to keys name the list and the key. Allocations succeed, the file is read without
  I/O errors on a little-endian host, and what is printed on the way is left out.

  - `loadLog`: the store a file gives.
-/

import WfbYa.Log.RxLog
import WfbYa.Lib.KeyedList
import WfbYa.Lib.Stream

namespace WfbYa.Log

open WfbYa.Lib WfbYa.Lib.BigEndian WfbYa.Lib.LittleEndian

/-! ## log_raw.h -/

inductive KvType where
  | seq
  | blk
  | msg
  deriving DecidableEq, Repr

/-- A pointer to a key. -/
structure KvRef where
  type : KvType
  key : Nat
  deriving DecidableEq

structure LogDataKv where
  key : Nat
  type : KvType
  hasEthernetFrame : Bool
  hasCorruptedFrame : Bool
  hasLostFrame : Bool
  hasFecFrame : Bool
  /-- An `int`, counting records; that there are no 2^31 of them is taken for granted. -/
  nEthernetFrame : Nat
  /-- Likewise. -/
  nH265Frame : Nat
  vh : List Nat
  deriving DecidableEq

/-- `struct timespec` of the analysis. -/
structure TimeStamp where
  sec : Int64
  nsec : Int64
  deriving DecidableEq

structure LogDataV where
  ts : TimeStamp
  type : UInt8
  size : UInt32
  blockIdx : UInt64
  fragmentIdx : UInt64
  /-- The address, once the family is set to `AF_INET6`. -/
  rxSrc : Option In6Addr
  freq : UInt16
  dbm : Int16
  corrupt : Bool
  isParity : Bool
  buf : Option Bytes
  filtered : Bool
  kv : Option KvRef
  blockKv : Option KvRef
  msgKv : Option KvRef
  deriving DecidableEq

def LogDataV.zero : LogDataV :=
  ⟨⟨0, 0⟩, 0, 0, 0, 0, none, 0, 0, false, false, none, false, none, none, none⟩

/-- The summary fields of the store. -/
structure LogSummary where
  nPkts : UInt32
  nPktsWithDbm : UInt32
  maxDbm : Int16
  minDbm : Int16
  nFrames : UInt32
  maxFrameSize : UInt32
  minFrameSize : UInt32
  totalBytes : UInt64
  deriving DecidableEq

structure LogStore where
  channelId : UInt32
  fecType : UInt8
  fecK : UInt8
  fecN : UInt8
  epoch : TimeStamp
  summary : LogSummary
  kvh : List LogDataKv
  blockKvh : List LogDataKv
  msgKvh : List LogDataKv
  vs : List LogDataV

def LogSummary.initial : LogSummary where
  nPkts := 0
  nPktsWithDbm := 0
  maxDbm := -128
  minDbm := 127
  nFrames := 0
  maxFrameSize := 0
  minFrameSize := UInt32.ofNat (2 ^ 32 - 1)
  totalBytes := 0

def logStoreAlloc : LogStore := ⟨0, 0, 0, 0, ⟨0, 0⟩, .initial, [], [], [], []⟩

/-! ## Pointers -/

def LogStore.kvs (ls : LogStore) : KvType → List LogDataKv
  | .seq => ls.kvh
  | .blk => ls.blockKvh
  | .msg => ls.msgKvh

def LogStore.setKvs (ls : LogStore) : KvType → List LogDataKv → LogStore
  | .seq, l => { ls with kvh := l }
  | .blk, l => { ls with blockKvh := l }
  | .msg, l => { ls with msgKvh := l }

def LogStore.kv? (ls : LogStore) (r : KvRef) : Option LogDataKv := (ls.kvs r.type).find? fun kv => kv.key = r.key

def LogStore.modKv (ls : LogStore) (r : KvRef) (f : LogDataKv → LogDataKv) : LogStore :=
  ls.setKvs r.type (KeyedList.modify LogDataKv.key r.key f (ls.kvs r.type))

def LogStore.modV (ls : LogStore) (v : Nat) (f : LogDataV → LogDataV) : LogStore := { ls with vs := ls.vs.modify v f }

def LogStore.v (ls : LogStore) (v : Nat) : LogDataV := ls.vs.getD v .zero

/-! ## log_kv_alloc, log_v_alloc -/

def LogDataKv.new (r : KvRef) : LogDataKv := ⟨r.key, r.type, false, false, false, false, 0, 0, []⟩

/-- `TAILQ_INSERT_TAIL` of a value. -/
def LogDataKv.insert (v : Nat) (kv : LogDataKv) : LogDataKv := { kv with vh := kv.vh ++ [v] }

def logKvAlloc (ls : LogStore) (r : KvRef) : LogStore :=
  ls.setKvs r.type (KeyedList.alloc LogDataKv.key (.new r) (ls.kvs r.type))

/-- The types of records that are kept under a sequence number and a block. -/
def isSeqType (type : UInt8) : Bool := type = frameTypeInet6 || type = frameTypeDecode || type = frameTypeCorrupt

def logVAlloc (ls : LogStore) (hd : RxLogFrameHeader) : Option (LogStore × Nat) :=
  let v := ls.vs.length
  if isMsgType hd.type then
    let msg : KvRef := ⟨.msg, hd.seq.toNat⟩
    let ls := logKvAlloc ls msg
    -- the message's key ends up in `block_kv`
    let ls := { ls with vs := ls.vs ++ [{ LogDataV.zero with blockKv := some msg }] }
    some (ls.modKv msg (.insert v), v)
  else if isSeqType hd.type then
    let kv : KvRef := ⟨.seq, hd.seq.toNat⟩
    let blockKv : KvRef := ⟨.blk, hd.blockIdx.toNat⟩
    let ls := logKvAlloc (logKvAlloc ls kv) blockKv
    let ls := { ls with vs := ls.vs ++ [{ LogDataV.zero with kv := some kv, blockKv := some blockKv }] }
    some ((ls.modKv kv (.insert v)).modKv blockKv (.insert v), v)
  else none

/-! ## The marks -/

/-- `if (r) f(r)`. -/
def LogStore.modRef (ls : LogStore) (r : Option KvRef) (f : LogDataKv → LogDataKv) : LogStore :=
  match r with
  | some r => ls.modKv r f
  | none => ls

def LogDataKv.corrupted (kv : LogDataKv) : LogDataKv := { kv with hasEthernetFrame := true, hasCorruptedFrame := true }

def LogDataKv.received (kv : LogDataKv) : LogDataKv :=
  { kv with hasEthernetFrame := true, nEthernetFrame := kv.nEthernetFrame + 1 }

def LogDataKv.decoded (kv : LogDataKv) : LogDataKv := { kv with nH265Frame := kv.nH265Frame + 1 }

def LogDataKv.byFec (kv : LogDataKv) : LogDataKv := { kv with hasFecFrame := true }

def LogDataKv.lost (b : Bool) (kv : LogDataKv) : LogDataKv := { kv with hasLostFrame := b }

def markCorrupt (ls : LogStore) (v : Nat) : LogStore :=
  (ls.modRef (ls.v v).kv .corrupted).modRef (ls.v v).blockKv .corrupted

def markInet6 (ls : LogStore) (v : Nat) : LogStore := (ls.modRef (ls.v v).kv .received).modRef (ls.v v).blockKv .received

def markH265 (ls : LogStore) (v : Nat) : LogStore :=
  match (ls.v v).kv, (ls.v v).blockKv with
  | some kv, some blockKv =>
    let ls := (ls.modKv kv .decoded).modKv blockKv .decoded
    -- only decoded frame appeared
    let ls := if (ls.kv? kv).any (fun kv => kv.nEthernetFrame = 0) then (ls.modKv kv .byFec).modKv blockKv .byFec else ls
    ls.modKv blockKv fun b => b.lost (decide (b.nH265Frame < ls.fecK.toNat))
  | _, _ => ls

/-! ## Reading -/

def RxLogFrameHeader.ofRaw (bs : Bytes) : RxLogFrameHeader where
  tvSec := UInt64.ofNat (ofLe (slice bs 0 8))
  tvNsec := UInt64.ofNat (ofLe (slice bs 8 8))
  seq := UInt64.ofNat (ofLe (slice bs 16 8))
  blockIdx := UInt64.ofNat (ofLe (slice bs 24 8))
  size := UInt32.ofNat (ofLe (slice bs 32 4))
  fragmentIdx := bs.getD 36 0
  type := bs.getD 37 0
  freq := UInt16.ofNat (ofLe (slice bs 40 2))
  dbm := (UInt16.ofNat (ofLe (slice bs 42 2))).toInt16
  rxSrc := ⟨slice bs 48 16, slice_length ..⟩

def RxLogFileHeader.ofRaw (bs : Bytes) : RxLogFileHeader where
  version := bs.getD 0 0
  fecType := bs.getD 1 0
  fecK := bs.getD 2 0
  fecN := bs.getD 3 0
  channelId := UInt32.ofNat (ofLe (slice bs 4 4))
  signature := UInt32.ofNat (ofLe (slice bs 8 4))

/-- `timespecsub`. -/
def TimeStamp.sub (t u : TimeStamp) : TimeStamp :=
  let sec := t.sec - u.sec
  let nsec := t.nsec - u.nsec
  if nsec < 0 then ⟨sec - 1, nsec + 1000000000⟩ else ⟨sec, nsec⟩

/-- What is left of the file behind the payload, or the error. -/
def processPayload (ls : LogStore) (v : Nat) (size : UInt32) (bs : Bytes) : Except Fault (LogStore × Except String Bytes) :=
  if wifiMtu ≤ size.toNat then .error .assertFailed
  else if size = 0 then .ok (ls, .ok bs)
  else if (ls.v v).buf.isSome then .ok (ls, .ok bs)
  else if bs.length < size.toNat then
    .ok (ls.modV v fun x => { x with buf := none, size := 0 }, .error "End of File\n")
  else .ok (ls.modV v fun x => { x with buf := some (bs.take size.toNat) }, .ok (bs.drop size.toNat))

def processFileHeader (ls : LogStore) (bs : Bytes) : Except String (LogStore × Bytes) :=
  let hd := RxLogFileHeader.ofRaw bs
  if bs.length < rxLogFileHdrlen then .error "End of File\n"
  else if hd.signature ≠ rxLogSignature then .error "Invalid file signature.\n"
  else if hd.version ≠ rxLogVersion then .error "Unknown Log version.\n"
  else .ok ({ ls with channelId := hd.channelId, fecType := hd.fecType, fecK := hd.fecK, fecN := hd.fecN },
    bs.drop rxLogFileHdrlen)

/-- The counters of a received frame. -/
def LogSummary.pkt (s : LogSummary) (dbm : Int16) : LogSummary :=
  let s := { s with nPkts := s.nPkts + 1 }
  if dbm = dbmInval16 then s
  else
    { s with
      nPktsWithDbm := s.nPktsWithDbm + 1
      maxDbm := if s.maxDbm < dbm then dbm else s.maxDbm
      minDbm := if dbm < s.minDbm then dbm else s.minDbm }

/-- The counters of a decoded frame. -/
def LogSummary.frame (s : LogSummary) (size : UInt32) : LogSummary :=
  { s with
    nFrames := s.nFrames + 1
    maxFrameSize := if s.maxFrameSize < size then size else s.maxFrameSize
    minFrameSize := if size < s.minFrameSize then size else s.minFrameSize
    totalBytes := s.totalBytes + size.toUInt64 }

/-- The value's fields, as far as they do not depend on the type. -/
def RxLogFrameHeader.fill (hd : RxLogFrameHeader) (fecK : UInt8) (ts : TimeStamp) (v : LogDataV) : LogDataV :=
  { v with
    size := hd.size
    ts := ts
    blockIdx := hd.blockIdx
    fragmentIdx := hd.fragmentIdx.toUInt64
    isParity := decide (fecK ≤ hd.fragmentIdx)
    freq := hd.freq
    dbm := hd.dbm
    type := hd.type }

/-- What `process_frame_header` does with a value by its type; `bs` is what follows the
    header. -/
def processType (ls : LogStore) (v : Nat) (hd : RxLogFrameHeader) (bs : Bytes) : Except Fault (LogStore × Except String Bytes) :=
  if hd.type = frameTypeCorrupt then
    .ok (markCorrupt (ls.modV v fun x => { x with rxSrc := some hd.rxSrc, corrupt := true }) v, .ok bs)
  else if hd.type = frameTypeInet6 then
    let ls := ls.modV v fun x => { x with rxSrc := some hd.rxSrc }
    .ok (markInet6 { ls with summary := ls.summary.pkt hd.dbm } v, .ok bs)
  else if hd.type = frameTypeDecode then do
    let p ← processPayload ls v hd.size bs
    match p.2 with
    | .error fmt => return (p.1, .error fmt)
    | .ok rest => return (markH265 { p.1 with summary := p.1.summary.frame hd.size } v, .ok rest)
  else if isMsgType hd.type then processPayload ls v hd.size bs
  else .ok (ls, .ok bs)

/-- What is left of the file behind a record; or the error, if one is printed. -/
def processFrameHeader (ls : LogStore) (bs : Bytes) : Except Fault (LogStore × Except (Option String) Bytes) :=
  if bs.length < rxLogFrameHdrlen then .ok (ls, .error (some "End of File\n"))
  else
    let hd := RxLogFrameHeader.ofRaw bs
    let ts : TimeStamp := ⟨hd.tvSec.toInt64, hd.tvNsec.toInt64⟩
    let ls := if ls.epoch.sec = 0 then { ls with epoch := ts } else ls
    match logVAlloc ls hd with
    | none => .ok (ls, .error none)
    | some (ls', v) => do
      let p ← processType (ls'.modV v (hd.fill ls'.fecK (ts.sub ls.epoch))) v hd (bs.drop rxLogFrameHdrlen)
      return (p.1, p.2.mapError some)

/-- One turn of the loop in `load_log`. -/
def loadStep (ls : LogStore) (bs : Bytes) : Except Fault (LogStore × Option Bytes) := do
  let p ← processFrameHeader ls bs
  return (p.1, p.2.toOption)

/-- Nothing, if there is no file header. -/
def loadLog (file : Bytes) : Except Fault (Option LogStore) :=
  match processFileHeader logStoreAlloc file with
  | .error _ => .ok none
  | .ok (ls, bs) => do
    let ls ← Stream.loop Fault.endless loadStep (bs.length + 1) ls bs
    return some ls

end WfbYa.Log
