/-
  WfbYa.Log.LogH265 — the analysis program's player and its writers of MP4 files
  (`log_analysis/log_h265.c`), with what they use of a GStreamer context (`wfb_gst.c`).

  GStreamer is a parameter: whether a pipeline comes up, the call before which an error on
  its bus closes it, whether it is stopped at the end, and what the clock shows. Left out are
  the overlay's ring of signal strengths, of which each value handed over is seen, and what
  follows the end of the stream.

  - `sendData`: what is handed to which context.
  - `playH265` / `writeMp4` / `writeMp4Enc`: its callers.
-/

import WfbYa.Log.LogRaw

namespace WfbYa.Log

/-! ## wfb_gst.c -/

inductive GstFault where
  | nullPointer
  | useAfterFree
  | endless
  /-- `exit(0)`. -/
  | exit
  deriving DecidableEq, Repr

inductive Pipeline where
  | null
  | freed
  | made
  deriving DecidableEq, Repr

structure GstContext where
  initialized : Bool
  closing : Bool
  enc : Bool
  file : Option String
  pipeline : Pipeline
  up : initialized = true → pipeline = .made

def GstContext.zero : GstContext := ⟨false, false, false, none, .null, by decide⟩

/-- How `wfb_gst_context_init` ends. -/
inductive GstInit where
  | noElements
  | noPlaying
  | noBus
  | playing
  deriving DecidableEq, Repr

def wfbGstContextInit (r : GstInit) (file : Option String) (enc : Bool) : GstContext :=
  match r with
  | .noElements => ⟨false, false, enc, file, .null, by decide⟩
  | .noPlaying => ⟨false, false, enc, file, .freed, by decide⟩
  | .noBus => ⟨false, false, enc, file, .made, by decide⟩
  | .playing => ⟨true, false, enc, file, .made, fun _ => rfl⟩

/-- A context: the player of the file, or the one a writer has of its own. -/
inductive CtxId where
  | player
  | writer
  deriving DecidableEq, Repr

structure GstWorld where
  player : GstContext
  writer : GstContext

def GstWorld.get (w : GstWorld) : CtxId → GstContext
  | .player => w.player
  | .writer => w.writer

inductive GstEv where
  | dbm (ctx : CtxId) (dbm : Int8)
  | push (ctx : CtxId) (nsec : UInt64) (data : Bytes)
  | endOfStream (ctx : CtxId)
  deriving DecidableEq

structure GstEnv where
  init : CtxId → GstInit
  /-- The first call that sees the context closed by an error. -/
  errorAt : CtxId → Option Nat
  stopped : CtxId → Bool
  /-- The readings of `CLOCK_MONOTONIC`. -/
  clock : Nat → TimeStamp

/-- How far `send_data` has come: the clock is read, calls are made, things handed over. -/
structure SendSt where
  now : Nat
  calls : Nat
  evs : List GstEv

variable (env : GstEnv) (w : GstWorld)

/-- `ctx->closing`, as the `n`-th call sees it: only an initialized context is closed. -/
def GstWorld.closing (c : CtxId) (n : Nat) : Bool :=
  (w.get c).closing || ((w.get c).initialized && (env.errorAt c).any fun m => decide (m ≤ n))

def SendSt.call (st : SendSt) (evs : List GstEv) : SendSt := { st with calls := st.calls + 1, evs := st.evs ++ evs }

def wfbGstAddDbm (c : CtxId) (dbm : Int8) (st : SendSt) : SendSt :=
  st.call (if w.closing env c st.calls then [] else [.dbm c dbm])

/-- The nanoseconds of `set_timestamp`. -/
def TimeStamp.nsecs (ts : TimeStamp) : UInt64 := ts.sec.toUInt64 * 1000000000 + ts.nsec.toUInt64

def wfbGstWrite (c : CtxId) (ts : TimeStamp) (data : Option Bytes) (size : UInt32) (st : SendSt) : SendSt :=
  st.call <|
    if !(w.get c).initialized then []
    else
      match data with
      | none => []
      | some data =>
        if size = 0 then []
        else if w.closing env c st.calls then []
        else [.push c ts.nsecs (data.take size.toNat)]

/-- The state of the pipeline is read through its pointer. -/
def wfbGstEos (c : CtxId) (st : SendSt) : Except GstFault SendSt :=
  if w.closing env c st.calls then .ok (st.call [])
  else
    match (w.get c).pipeline with
    | .null => .error .nullPointer
    | .freed => .error .useAfterFree
    | .made => .ok (st.call (if env.stopped c then [] else [.endOfStream c]))

/-! ## log_h265.c -/

/-- `timespeccmp(t, u, <)`. -/
def TimeStamp.before (t u : TimeStamp) : Bool := if t.sec = u.sec then decide (t.nsec < u.nsec) else decide (t.sec < u.sec)

/-- The waiting loop, granted `n` turns: how often the clock has been read then. -/
def waitTick (epoch ts : TimeStamp) : Nat → Nat → Except GstFault Nat
  | n, now =>
    match n with
    | 0 => .error .endless
    | n + 1 => if ((env.clock now).sub epoch).before ts then waitTick epoch ts n (now + 1) else .ok (now + 1)

def waitFor (tick : Bool) (ts : TimeStamp) (turns now : Nat) : Except GstFault Nat :=
  if tick then waitTick env (env.clock 0) ts turns now else .ok now

/-- `send_data` at one value, with the strongest signal so far. -/
def sendV (tick : Bool) (turns : Nat) (p : SendSt × Int8) (v : LogDataV) : Except GstFault (SendSt × Int8) :=
  if v.type = frameTypeInet6 then .ok (p.1, if p.2.toInt < v.dbm.toInt then v.dbm.toInt8 else p.2)
  else if v.type ≠ frameTypeDecode then .ok p
  else if v.filtered then .ok p
  else do
    let now ← waitFor env tick v.ts turns p.1.now
    -- not to the context that is given
    let st := wfbGstAddDbm env w .player p.2 { p.1 with now := now }
    return (wfbGstWrite env w .player v.ts v.buf v.size st, p.2)

def sendKv (tick : Bool) (turns : Nat) (ls : LogStore) (st : SendSt) (kv : LogDataKv) : Except GstFault SendSt :=
  (kv.vh.foldlM (fun p i => sendV env w tick turns p (ls.v i)) (st, (-128 : Int8))).map Prod.fst

/-- What `send_data` is given as its context decides only whether it waits. -/
def sendData (turns : Nat) (c : CtxId) (ls : LogStore) : Except GstFault (List GstEv) := do
  let tick := !((w.get c).file.isSome && !(w.get c).enc)
  let st ← ls.kvh.foldlM (sendKv env w tick turns ls) ⟨if tick then 1 else 0, 0, []⟩
  let st ← wfbGstEos env w .player st
  return st.evs

def initPlayer (ctx : GstContext) : GstContext :=
  if ctx.initialized then ctx else wfbGstContextInit (env.init .player) none false

def initWriter (ctx : GstContext) (file : String) (enc : Bool) : GstContext :=
  if ctx.initialized then ctx else wfbGstContextInit (env.init .writer) (some file) enc

def playH265 (turns : Nat) (player : GstContext) (ls : LogStore) : Except GstFault (List GstEv) :=
  sendData env ⟨initPlayer env player, .zero⟩ turns .player ls

def writeMp4 (turns : Nat) (player : GstContext) (file : Option String) (ls : LogStore) : Except GstFault (List GstEv) :=
  match file with
  | none => .error .exit
  | some file => sendData env ⟨player, initWriter env .zero file false⟩ turns .writer ls

def writeMp4Enc (turns : Nat) (player : GstContext) (file : Option String) (ls : LogStore) : Except GstFault (List GstEv) :=
  match file with
  | none => .error .exit
  | some file => sendData env ⟨player, initWriter env .zero file true⟩ turns .writer ls

end WfbYa.Log
