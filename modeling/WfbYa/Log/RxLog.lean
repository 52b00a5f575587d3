/-
  WfbYa.Log.RxLog — the listener's log file (`rx_log.c`, `rx_log.h`), with the message hook
  that writes to it (`util_msg.c`).

  A file is a header and records behind it; a record is a header, and for decoded frames
  and messages a payload. The log's own messages go through the hook, back into the file:
  `util_msg.c` hands the hook a `va_list` that `vfprintf` has consumed, so that what the hook
  makes of a message may be any text, and may be the end of the process.

  - `LogState`: the handler, the files it left behind, and the hook's static counter.
  - `LogEnv.reread`: what the hook's `vsnprintf` makes of a message.
  - `logStep`: the log as a machine, over the calls the listener makes.
-/

import WfbYa.Params
import WfbYa.Lib.LittleEndian
import WfbYa.Lib.Machine

namespace WfbYa.Log

open WfbYa.Lib.LittleEndian

/-! ## rx_log.h -/

def rxLogVersion : UInt8 := 1
def rxLogSignature : UInt32 := 0xdeadbeef

def frameTypeUnspec : UInt8 := 0
def frameTypeInet6 : UInt8 := 1
def frameTypeDecode : UInt8 := 2
def frameTypeCorrupt : UInt8 := 3
def frameTypeMsgInfo : UInt8 := 252
def frameTypeMsgErr : UInt8 := 253
def frameTypeMsgDebug : UInt8 := 254

def isMsgType (type : UInt8) : Bool := type = frameTypeMsgInfo || type = frameTypeMsgErr || type = frameTypeMsgDebug

/-- The types with a payload. -/
def carriesPayload (type : UInt8) : Bool := type = frameTypeDecode || isMsgType type

/-- `DBM_INVAL`, an `int16_t`. -/
def dbmInval16 : Int16 := Int16.minValue

abbrev In6Addr := { a : Bytes // a.length = 16 }

def In6Addr.zero : In6Addr := ⟨List.replicate 16 0, rfl⟩

/-- `sizeof(struct rx_log_file_header)`. -/
def rxLogFileHdrlen : Nat := 12
/-- `sizeof(struct rx_log_frame_header)`. -/
def rxLogFrameHdrlen : Nat := 64

structure RxLogFileHeader where
  version : UInt8
  fecType : UInt8
  fecK : UInt8
  fecN : UInt8
  channelId : UInt32
  signature : UInt32
  deriving DecidableEq

def RxLogFileHeader.raw (hd : RxLogFileHeader) : Bytes :=
  [hd.version, hd.fecType, hd.fecK, hd.fecN] ++ le 4 hd.channelId.toNat ++ le 4 hd.signature.toNat

structure RxLogFrameHeader where
  tvSec : UInt64
  tvNsec : UInt64
  seq : UInt64
  blockIdx : UInt64
  size : UInt32
  fragmentIdx : UInt8
  type : UInt8
  freq : UInt16
  dbm : Int16
  rxSrc : In6Addr
  deriving DecidableEq

def RxLogFrameHeader.raw (hd : RxLogFrameHeader) : Bytes :=
  le 8 hd.tvSec.toNat ++ le 8 hd.tvNsec.toNat ++ le 8 hd.seq.toNat ++ le 8 hd.blockIdx.toNat ++ le 4 hd.size.toNat ++
    [hd.fragmentIdx, hd.type] ++ [0, 0] ++ le 2 hd.freq.toNat ++ le 2 hd.dbm.toUInt16.toNat ++ [0, 0, 0, 0] ++ hd.rxSrc.val

/-! ## The log's state -/

/-- A record as it is given to `fwrite`, and the IPv6 sender of the frame it is about. -/
structure LogRecord where
  hd : RxLogFrameHeader
  payload : Bytes
  src : Option In6Addr
  deriving DecidableEq

def LogRecord.raw (r : LogRecord) : Bytes := r.hd.raw ++ r.payload

/-- What was written to a file, and by which records. -/
structure LogFile where
  bytes : Bytes
  written : List LogRecord

def LogFile.put (f : LogFile) (r : LogRecord) : LogFile := ⟨f.bytes ++ r.raw, f.written ++ [r]⟩

structure RxLogHandler where
  fileName : Bytes
  seq : Nat
  fp : Option LogFile

structure LogState where
  log : RxLogHandler
  /-- The files closed so far. -/
  left : List LogFile
  /-- `static int seq` of `rx_log_hook`. -/
  seq : Int32
  /-- The calls of `clock_gettime` so far. -/
  ticks : Nat
  /-- A signal has killed the process: nothing is done to its files any more. -/
  dead : Bool

/-- `rx_context_initialize`. -/
def LogState.initial : LogState := ⟨⟨[], 0, none⟩, [], 0, 0, false⟩

def LogState.put (st : LogState) (r : LogRecord) : LogState :=
  if st.dead then st else { st with log := { st.log with fp := st.log.fp.map fun f => f.put r } }

structure TimeSpec where
  sec : UInt64
  nsec : UInt64

/-- What the log depends on beside its arguments: `wfb_options`, the outcome of every
    `clock_gettime`, the time or the text of its error, and what becomes of a message. -/
structure LogEnv where
  debug : Bool
  logFile : Option Bytes
  clock : Nat → Except Bytes TimeSpec
  /-- What the `vsnprintf` behind the clock's `n`th reading makes of a message that
      `vfprintf` printed as given. It reads its arguments where `vfprintf` has stopped: any
      text, or none, if a pointer it takes from there faults. -/
  reread : Nat → Bytes → Option Bytes

def clockGettime (env : LogEnv) (st : LogState) : Except Bytes TimeSpec × LogState :=
  (env.clock st.ticks, { st with ticks := st.ticks + 1 })

/-! ## Texts -/

def ascii (s : String) : Bytes := s.toList.map fun c => UInt8.ofNat c.toNat

/-- `%u`, `%lu` and `%PRIu64`. -/
def decimal (n : Nat) : Bytes := (Nat.toDigits 10 n).map fun c => UInt8.ofNat c.toNat

def pathMax : Nat := 4096

/-! ## rx_log_hook, util_msg.c -/

inductive MsgHookType where
  | none
  | info
  | err
  | debug
  deriving DecidableEq, Repr

def MsgHookType.frameType : MsgHookType → Option UInt8
  | .info => some frameTypeMsgInfo
  | .err => some frameTypeMsgErr
  | .debug => some frameTypeMsgDebug
  | .none => Option.none

/-- The record of a message. `seq` is extended to 64 bits with its sign. -/
def msgRecord (ts : TimeSpec) (seq : Int32) (type : UInt8) (text : Bytes) : LogRecord where
  hd := {
    tvSec := ts.sec
    tvNsec := ts.nsec
    seq := seq.toInt64.toUInt64
    blockIdx := 0
    size := UInt32.ofNat text.length
    fragmentIdx := 0
    type := type
    freq := 0
    dbm := 0
    rxSrc := .zero }
  payload := text
  src := none

/-- `text` is the message as `vsnprintf` makes it, if the process survives that. -/
def rxLogHook (env : LogEnv) (type : MsgHookType) (text : Option Bytes) (st : LogState) : Int × LogState :=
  match st.log.fp with
  | none => (0, st)
  | some _ =>
    let t := clockGettime env st
    match t.1 with
    | .error _ => (-1, t.2)
    | .ok ts =>
      match type.frameType with
      | none => (-1, t.2)
      | some type =>
        match text with
        | none => (-1, { t.2 with dead := true })
        | some text =>
          if bufsiz ≤ text.length then (-1, t.2)
          else (text.length, { t.2 with seq := t.2.seq + 1 }.put (msgRecord ts t.2.seq type text))

/-- `__p_err` with the hook installed, which gets a `va_list` that is used up. -/
def pErrRaw (env : LogEnv) (text : Bytes) (st : LogState) : LogState :=
  (rxLogHook env .err (env.reread st.ticks text) st).2

/-- `__p_debug` with the hook installed, which gets a `va_list` that is used up. -/
def pDebugRaw (env : LogEnv) (text : Bytes) (st : LogState) : LogState :=
  if env.debug then (rxLogHook env .debug (env.reread st.ticks text) st).2 else st

/-- What `p_err` prints before its message. -/
def errHead (func : String) : Bytes := ascii func ++ ascii ": "

/-- What `p_debug` prints before its message. -/
def debugHead (func : String) : Bytes := ascii "--Debug-- " ++ ascii func ++ ascii ": "

/-- `p_err` in the function `func`. -/
def pErr (env : LogEnv) (func : String) (text : Bytes) (st : LogState) : LogState :=
  pErrRaw env text (pErrRaw env (errHead func) st)

/-- `p_debug` in the function `func`. -/
def pDebug (env : LogEnv) (func : String) (text : Bytes) (st : LogState) : LogState :=
  pDebugRaw env text (pDebugRaw env (debugHead func) st)

/-! ## Records of frames -/

inductive AddrFamily where
  | unspec
  | inet
  | inet6
  deriving DecidableEq, Repr

/-- What the log reads of `struct rx_context`. -/
structure LogContext where
  fecType : UInt8
  fecK : UInt8
  fecN : UInt8
  channelId : UInt32
  freq : UInt16
  dbm : Int16
  /-- `rx_src`. -/
  family : AddrFamily
  addr : In6Addr

/-- The sender, if it is known and IPv6. -/
def LogContext.src (ctx : LogContext) : Option In6Addr := if ctx.family = .inet6 then some ctx.addr else none

def corruptRecord (ctx : LogContext) (ts : TimeSpec) : LogRecord where
  hd := {
    tvSec := ts.sec
    tvNsec := ts.nsec
    seq := 0
    blockIdx := 0
    size := 0
    fragmentIdx := 0
    type := frameTypeCorrupt
    freq := ctx.freq
    dbm := ctx.dbm
    rxSrc := if ctx.family = .inet then ctx.addr else .zero }
  payload := []
  src := ctx.src

def frameRecord (ctx : LogContext) (ts : TimeSpec) (blockIdx : UInt64) (fragmentIdx : UInt8) (size : UInt64) : LogRecord where
  hd := {
    tvSec := ts.sec
    tvNsec := ts.nsec
    seq := blockIdx * ctx.fecN.toUInt64 + fragmentIdx.toUInt64
    blockIdx := blockIdx
    size := size.toUInt32
    fragmentIdx := fragmentIdx
    type := if ctx.family = .inet6 then frameTypeInet6 else frameTypeUnspec
    freq := ctx.freq
    dbm := ctx.dbm
    rxSrc := if ctx.family = .inet6 then ctx.addr else .zero }
  payload := []
  src := ctx.src

def decodeRecord (ctx : LogContext) (ts : TimeSpec) (blockIdx : UInt64) (fragmentIdx : UInt8) (data : Bytes) : LogRecord where
  hd := {
    tvSec := ts.sec
    tvNsec := ts.nsec
    seq := blockIdx * ctx.fecN.toUInt64 + fragmentIdx.toUInt64
    blockIdx := blockIdx
    size := UInt32.ofNat data.length
    fragmentIdx := fragmentIdx
    type := frameTypeDecode
    freq := 0
    dbm := dbmInval16
    rxSrc := .zero }
  payload := data
  src := none

def clockFailed (err : Bytes) : Bytes := ascii "clock_gettime() failed: " ++ err ++ ascii "\n"

/-- `"SEQ %PRIu64, BLK %PRIu64, FRAG %u, SIZE %lu\n"`. -/
def seqText (hd : RxLogFrameHeader) (size : Nat) : Bytes :=
  ascii "SEQ " ++ decimal hd.seq.toNat ++ ascii ", BLK " ++ decimal hd.blockIdx.toNat ++ ascii ", FRAG " ++
    decimal hd.fragmentIdx.toNat ++ ascii ", SIZE " ++ decimal size ++ ascii "\n"

def rxLogCorrupt (env : LogEnv) (ctx : LogContext) (st : LogState) : LogState :=
  match st.log.fp with
  | none => st
  | some _ =>
    let t := clockGettime env st
    match t.1 with
    | .error err => pErr env "rx_log_corrupt" (clockFailed err) t.2
    | .ok ts => t.2.put (corruptRecord ctx ts)

def rxLogFrame (env : LogEnv) (ctx : LogContext) (blockIdx : UInt64) (fragmentIdx : UInt8) (size : UInt64) (st : LogState) :
    LogState :=
  match st.log.fp with
  | none => st
  | some _ =>
    if size = 0 then st
    else
      let t := clockGettime env st
      match t.1 with
      | .error err => pErr env "rx_log_frame" (clockFailed err) t.2
      | .ok ts =>
        let r := frameRecord ctx ts blockIdx fragmentIdx size
        (pDebug env "rx_log_frame" (seqText r.hd size.toNat) t.2).put r

/-- `data` are the `size` bytes at the pointer, or nothing at `NULL`. -/
def rxLogDecode (env : LogEnv) (ctx : LogContext) (blockIdx : UInt64) (fragmentIdx : UInt8) (data : Option Bytes)
    (st : LogState) : LogState :=
  match st.log.fp, data with
  | none, _ => st
  | some _, none => st
  | some _, some data =>
    if data = [] then st
    else
      let t := clockGettime env st
      match t.1 with
      | .error err => pErr env "rx_log_decode" (clockFailed err) t.2
      | .ok ts =>
        let r := decodeRecord ctx ts blockIdx fragmentIdx data
        (pDebug env "rx_log_decode" (seqText r.hd data.length) t.2).put r

/-! ## rx_log_create -/

/-- How the file operations go: how many names `stat` finds taken, and for each of the
    others the text of its error. A failing `fwrite` may have written a part. -/
structure CreateOutcome where
  taken : Nat
  fopen : Option Bytes
  fcntl : Option Bytes
  fwrite : Option (Fin 12 × Bytes)

/-- The loop of `fixup_filename`. -/
def tryNames (env : LogEnv) (base : Bytes) : Nat → LogState → LogState
  | 0, st => st
  | taken + 1, st =>
    let st := pDebug env "fixup_filename" (ascii "stat() => 0\n") st
    let seq := st.log.seq + 1
    let fileName := (base ++ ascii "." ++ decimal seq).take (pathMax - 1)
    tryNames env base taken { st with log := { st.log with seq := seq, fileName := fileName } }

def fixupFilename (env : LogEnv) (base : Bytes) (taken : Nat) (st : LogState) : LogState :=
  let fileName := if st.log.seq = 0 then base.take (pathMax - 1) else st.log.fileName
  let st := { st with log := { st.log with fileName := fileName } }
  let st := tryNames env base taken (pDebug env "fixup_filename" (ascii "try file name: " ++ fileName ++ ascii "\n") st)
  pDebug env "fixup_filename" (ascii "use file name: " ++ st.log.fileName ++ ascii "\n") st

def fileHeader (ctx : LogContext) : RxLogFileHeader where
  version := rxLogVersion
  fecType := ctx.fecType
  fecK := ctx.fecK
  fecN := ctx.fecN
  channelId := ctx.channelId
  signature := rxLogSignature

/-- `fclose`, and `fp` set to `NULL`. -/
def LogState.close (st : LogState) : LogState :=
  if st.dead then st else { st with log := { st.log with fp := none }, left := st.left ++ st.log.fp.toList }

def LogState.write (st : LogState) (bs : Bytes) : LogState :=
  if st.dead then st
  else { st with log := { st.log with fp := st.log.fp.map fun f => { f with bytes := f.bytes ++ bs } } }

/-- `rx_log_create` once the file is open. -/
def rxLogHeader (env : LogEnv) (ctx : LogContext) (o : CreateOutcome) (st : LogState) : LogState :=
  let st := pDebug env "rx_log_create" (ascii "New LOG File: " ++ st.log.fileName ++ ascii "\n") st
  match o.fcntl with
  | some err => pErr env "rx_log_create" (ascii "fcntl(F_SETFD) failed: " ++ err ++ ascii "\n") st
  | none =>
    match o.fwrite with
    | none => st.write (fileHeader ctx).raw
    | some (n, err) =>
      (pErr env "rx_log_create" (ascii "write failed: " ++ err ++ ascii "\n") (st.write ((fileHeader ctx).raw.take n))).close

def rxLogCreate (env : LogEnv) (ctx : LogContext) (o : CreateOutcome) (st : LogState) : LogState :=
  let st := st.close
  match env.logFile with
  | none => st
  | some base =>
    let st := fixupFilename env base o.taken st
    match o.fopen with
    | some err => pErr env "rx_log_create"
      (ascii "Failed to create File " ++ st.log.fileName ++ ascii ": " ++ err ++ ascii "\n") st
    | none => rxLogHeader env ctx o { st with log := { st.log with fp := some ⟨[], []⟩ } }

/-! ## The machine -/

/-- What `send_data_one` hands over. -/
abbrev Payload := { data : Bytes // data.length ≤ maxPayloadSize }

inductive LogOp where
  | frame (ctx : LogContext) (blockIdx : UInt64) (fragmentIdx : UInt8) (size : UInt64)
  | decode (ctx : LogContext) (blockIdx : UInt64) (fragmentIdx : UInt8) (data : Payload)
  | corrupt (ctx : LogContext)
  | hook (type : MsgHookType) (text : Option Bytes)

def logOp (env : LogEnv) (st : LogState) : LogOp → LogState
  | .frame ctx blockIdx fragmentIdx size => rxLogFrame env ctx blockIdx fragmentIdx size st
  | .decode ctx blockIdx fragmentIdx data => rxLogDecode env ctx blockIdx fragmentIdx (some data.val) st
  | .corrupt ctx => rxLogCorrupt env ctx st
  | .hook type text => (rxLogHook env type text st).2

inductive LogInput where
  | create (ctx : LogContext) (o : CreateOutcome)
  | op (op : LogOp)

def logCall (env : LogEnv) (st : LogState) : LogInput → LogState
  | .create ctx o => rxLogCreate env ctx o st
  | .op op => logOp env st op

/-- A call reports nothing. One in which the process dies is the last. -/
def logStep (env : LogEnv) (st : LogState) (i : LogInput) : Except Fault (LogState × List Empty) :=
  if st.dead then .error .killed else .ok (logCall env st i, [])

/-- The files there are. -/
def LogState.files (st : LogState) : List LogFile := st.left ++ st.log.fp.toList

end WfbYa.Log
