/-
  WfbYa.Rx.Core — the receiver over frames (`rx_core.c`, from `wfb_frame_parse` on, and
  the FEC toggle of `wfb_ipc.c`).

  `rxStep` is the receiver as a machine: its inputs are frames, as the capture or the
  multicast path hands them over, and FEC toggle requests.
-/

import WfbYa.Rx.Data
import WfbYa.Rx.Session
import WfbYa.Lib.Machine

namespace WfbYa.Rx

open WfbYa.Frame WfbYa.Ring WfbYa.Lib

/-- A frame in the receive buffer, its meta data, and how allocations go while it is
    handled. -/
structure RxFrame where
  data : Bytes
  size : Nat
  freq : Nat
  dbm : Int
  outcome : Outcome

inductive Input where
  | frame (f : RxFrame)
  | fecToggle

def rxWfb (x : Externals) (o : Outcome) (ctx : RxContext) : Except Fault Ret :=
  if ctx.wfb.packetType = wfbPacketSession then rxSession x o ctx
  else if ctx.wfb.packetType = wfbPacketData then rxData x ctx
  else .ok ⟨0, ctx, []⟩

/-- The context a frame is handled in. -/
def withFrame (ctx : RxContext) (f : RxFrame) (w : WfbContext) : RxContext :=
  { ctx with freq := f.freq, dbm := f.dbm, wfb := w }

def rxFrame (x : Externals) (ctx : RxContext) (f : RxFrame) : Except Fault Ret :=
  match wfbFrameParse f.data f.size with
  | .error fmt => .ok ⟨-1, { ctx with freq := f.freq, dbm := f.dbm }, [.msg .err fmt]⟩
  | .ok w => rxWfb x f.outcome (withFrame ctx f w)

def rxStep (x : Externals) (ctx : RxContext) : Input → Except Fault (RxContext × List Ev)
  | .frame f => do
    let q ← rxFrame x ctx f
    return (q.ctx, q.evs)
  | .fecToggle => .ok ({ ctx with noFec := !ctx.noFec }, [.msg .info "Execute IPC FEC_TOGGLE.\n"])

end WfbYa.Rx
