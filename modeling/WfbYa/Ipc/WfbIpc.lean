/-
  WfbYa.Ipc.WfbIpc — the control socket (`wfb_ipc.c`).

  A client (`ipc_tx`) connects, sends one message and waits for the same message back, with
  its result. The server (`ipc_rx`) is a callback of the receiver's event loop: it takes one
  connection, receives a message, does what it asks for, replies and closes. Both sides wait
  for each piece of a message no longer than 100 ms.

  `struct ipc_msg` is in memory order, little-endian; what lies in the union is bytes.
-/

import WfbYa.Lib.CStrings
import WfbYa.Lib.LittleEndian
import WfbYa.Log.Listener

namespace WfbYa.Ipc

open WfbYa.Lib.BigEndian WfbYa.Lib.LittleEndian WfbYa.Lib.CStrings WfbYa.Log WfbYa.Rx

/-! ## struct wfb_statistics -/

structure Statistics where
  pcapLibpcapFrameError : UInt64
  pcapRadiotapFrameError : UInt64
  pcapBadFcs : UInt64
  pcap80211FrameError : UInt64
  pcapInvalidChannelId : UInt64
  pcapWfbFrameError : UInt64
  pcapAccept : UInt64
  mcUdpFrameError : UInt64
  mcUdpCorruptedFrames : UInt64
  mcUdpWfbFrameError : UInt64
  mcAccept : UInt64
  ipcSuccess : UInt64
  ipcError : UInt64
  mirroredFrames : UInt64
  decodedFrames : UInt64
  reload : UInt64
  sighup : UInt64
  deriving DecidableEq

def Statistics.zero : Statistics := ⟨0, 0, 0, 0, 0, 0, 0, 0, 0, 0, 0, 0, 0, 0, 0, 0, 0⟩

def Statistics.success (st : Statistics) : Statistics := { st with ipcSuccess := st.ipcSuccess + 1 }

def Statistics.error (st : Statistics) : Statistics := { st with ipcError := st.ipcError + 1 }

/-- `sizeof(struct wfb_statistics)`. -/
def statisticsLen : Nat := 17 * 8

def Statistics.fields (st : Statistics) : List UInt64 :=
  [st.pcapLibpcapFrameError, st.pcapRadiotapFrameError, st.pcapBadFcs, st.pcap80211FrameError, st.pcapInvalidChannelId,
    st.pcapWfbFrameError, st.pcapAccept, st.mcUdpFrameError, st.mcUdpCorruptedFrames, st.mcUdpWfbFrameError, st.mcAccept,
    st.ipcSuccess, st.ipcError, st.mirroredFrames, st.decodedFrames, st.reload, st.sighup]

def Statistics.bytes (st : Statistics) : Bytes := st.fields.flatMap fun v => le 8 v.toNat

def word (bs : Bytes) (k : Nat) : UInt64 := UInt64.ofNat (ofLe ((bs.drop (8 * k)).take 8))

def Statistics.ofBytes (bs : Bytes) : Statistics :=
  ⟨word bs 0, word bs 1, word bs 2, word bs 3, word bs 4, word bs 5, word bs 6, word bs 7, word bs 8, word bs 9, word bs 10,
    word bs 11, word bs 12, word bs 13, word bs 14, word bs 15, word bs 16⟩

/-! ## struct ipc_msg -/

def ipcMsgLen : Nat := 64

def wfbIpcOk : UInt8 := 1
def wfbIpcErr : UInt8 := 2
def wfbIpcPing : UInt8 := 3
def wfbIpcStat : UInt8 := 4
def wfbIpcExit : UInt8 := 5
def wfbIpcFecSet : UInt8 := 6
def wfbIpcFecGet : UInt8 := 7
def wfbIpcFecToggle : UInt8 := 8

structure IpcMsg where
  query : UInt8
  result : UInt8
  pad : Bytes
  u : Bytes
  pad_length : pad.length = 6
  u_length : u.length = statisticsLen
  deriving DecidableEq

/-- `sizeof(struct ipc_msg)`. -/
def ipcMsgSize : Nat := 8 + statisticsLen

def IpcMsg.bytes (m : IpcMsg) : Bytes := m.query :: m.result :: (m.pad ++ m.u)

def IpcMsg.ofBytes (bs : Bytes) : IpcMsg :=
  ⟨bs.getD 0 0, bs.getD 1 0, slice bs 2 6, slice bs 8 statisticsLen, by simp [slice], by simp [slice]⟩

/-- These bytes are stored in the union; what is behind them stays. -/
def IpcMsg.setU (m : IpcMsg) (bs : Bytes) : IpcMsg :=
  { m with u := slice (bs ++ m.u.drop bs.length) 0 statisticsLen, u_length := by simp [slice] }

def boolByte (b : Bool) : UInt8 := if b then 1 else 0

/-! ## What is printed -/

def pInfo (text : Bytes) : List Message := [(.info, text)]

def pErr (func : String) (text : Bytes) : List Message := [(.err, ascii func ++ ascii ": "), (.err, text)]

/-- How a wait or a transfer fails: with the text of the error, or by its limit. -/
inductive Trouble where
  | select (why : Bytes)
  | timeout
  | io (why : Bytes)
  deriving DecidableEq

/-- `ipc_recv_msg` and `ipc_send_msg` when they return -1. -/
def troublePrinted (func call : String) : Trouble → List Message
  | .select why => pErr func (ascii "select() failed: " ++ why ++ ascii ".\n")
  | .timeout => pInfo (ascii "IPC timeout.\n")
  | .io why => pErr func (ascii call ++ ascii " failed: " ++ why ++ ascii ".\n")

def recvPrinted : Trouble → List Message := troublePrinted "ipc_recv_msg" "recv(MSG_PEEK)"
def sendPrinted : Trouble → List Message := troublePrinted "ipc_send_msg" "send()"

def statLine (label : String) (v : UInt64) : Message := (.info, ascii label ++ ascii ": " ++ decimal v.toNat ++ ascii "\n")

/-- `ipc_dump_stat`. `pcap_80211_frame_error` is not printed. -/
def ipcDumpStat (st : Statistics) : List Message :=
  (.info, ascii "Statistics:\n") ::
    [statLine "pcap library errors" st.pcapLibpcapFrameError, statLine "pcap radiotap errors" st.pcapRadiotapFrameError,
      statLine "pcap bad FCS" st.pcapBadFcs, statLine "pcap invalid channel ID" st.pcapInvalidChannelId,
      statLine "pcap WFB errors" st.pcapWfbFrameError, statLine "pcap received packets" st.pcapAccept,
      statLine "Mulitcast UDP header errors" st.mcUdpFrameError,
      statLine "Mulitcast UDP for corrupted frames" st.mcUdpCorruptedFrames,
      statLine "Multicast UDP WFB errors" st.mcUdpWfbFrameError, statLine "Multicast UDP received packets" st.mcAccept,
      statLine "IPC success" st.ipcSuccess, statLine "IPC error" st.ipcError, statLine "Frames mirrored" st.mirroredFrames,
      statLine "Frames decoded" st.decodedFrames, statLine "Reload" st.reload, statLine "signal HUP" st.sighup]

def fecPrinted (disabled : Bool) : List Message :=
  pInfo (ascii "FEC is " ++ ascii (if disabled then "disabled" else "enabled") ++ ascii ".\n")

/-- The switch of `ipc_dump`. -/
def ipcDumpQuery (msg : IpcMsg) : List Message :=
  if msg.query = wfbIpcPing ∨ msg.query = wfbIpcExit then []
  else if msg.query = wfbIpcStat then ipcDumpStat (.ofBytes msg.u)
  else if msg.query = wfbIpcFecGet ∨ msg.query = wfbIpcFecSet ∨ msg.query = wfbIpcFecToggle then
    fecPrinted (decide (msg.u.getD 0 0 ≠ 0))
  else pInfo (ascii "Unknown IPC query(" ++ decimal msg.query.toNat ++ ascii ") received.\n")

def ipcDump (msg : IpcMsg) : Int × List Message :=
  if msg.result = wfbIpcErr then (0, pInfo (ascii "Message: " ++ cText msg.u ++ ascii ".\n"))
  else if msg.result ≠ wfbIpcOk then
    (-1, pInfo (ascii "Unknown IPC result(" ++ decimal msg.result.toNat ++ ascii ") received.\n"))
  else (0, ipcDumpQuery msg)

/-! ## ipc_tx -/

/-- The query a parameter stands for. -/
def ipcQuery (param : Bytes) : Option UInt8 :=
  if sameText (ascii "ping") param then some wfbIpcPing
  else if sameText (ascii "stat") param then some wfbIpcStat
  else if sameText (ascii "exit") param then some wfbIpcExit
  else if sameText (ascii "quit") param then some wfbIpcExit
  else if sameText (ascii "fec") param then some wfbIpcFecGet
  else if sameText (ascii "fec_toggle") param then some wfbIpcFecToggle
  else none

/-- The message `ipc_tx` sends. -/
def ipcRequest (query : UInt8) : IpcMsg :=
  ⟨query, 0, List.replicate 6 0, List.replicate statisticsLen 0, List.length_replicate, List.length_replicate⟩

/-- What `ipc_tx` returns and prints when no response comes, or one that is no success; `msg`
    is what is in its buffer. -/
def ipcFailure (msg : IpcMsg) : Int × List Message := (-1, pInfo (ascii "IPC failure: " ++ cText msg.u ++ ascii ".\n"))

/-- `ipc_tx` on a response. -/
def ipcTxDone (msg : IpcMsg) : Int × List Message := if msg.result = wfbIpcOk then (0, (ipcDump msg).2) else ipcFailure msg

/-- The client's buffer when this much of a response has come. -/
def ipcBuffer (query : UInt8) (got : Bytes) : IpcMsg := .ofBytes (got ++ (ipcRequest query).bytes.drop got.length)

/-! ## ipc_rx -/

/-- What the switch of `ipc_rx` comes to: the reply, `no_fec`, what is printed before the
    reply and behind it, and whether `netcore_exit` is called. -/
structure Served where
  reply : IpcMsg
  noFec : Bool
  before : List Message
  after : List Message
  exits : Bool

/-- `ipc_rx_reply` up to `ipc_send_msg`. -/
def IpcMsg.replied (m : IpcMsg) (isOk : Bool) : IpcMsg := { m with result := if isOk then wfbIpcOk else wfbIpcErr }

def invalidText (query : UInt8) : Bytes := ascii "Invalid IPC query(" ++ decimal query.toNat ++ ascii ").\n"

/-- The switch. `stats` are the counters, this request counted. -/
def ipcSwitch (stats : Statistics) (noFec : Bool) (msg : IpcMsg) : Served :=
  if msg.query = wfbIpcPing then ⟨msg.replied true, noFec, pInfo (ascii "Execute IPC PING.\n"), [], false⟩
  else if msg.query = wfbIpcStat then
    ⟨(msg.setU stats.bytes).replied true, noFec, pInfo (ascii "Execute IPC STAT.\n"), [], false⟩
  else if msg.query = wfbIpcExit then
    ⟨msg.replied true, noFec, pInfo (ascii "Execute IPC EXIT.\n"), pInfo (ascii "Stopping services...\n"), true⟩
  else if msg.query = wfbIpcFecToggle then
    ⟨(msg.setU [boolByte !noFec]).replied true, !noFec, pInfo (ascii "Execute IPC FEC_TOGGLE.\n"), [], false⟩
  else if msg.query = wfbIpcFecGet then
    ⟨(msg.setU [boolByte noFec]).replied true, noFec, pInfo (ascii "Execute IPC FEC_GET.\n"), [], false⟩
  else
    ⟨(msg.setU (snprintf ipcMsgLen (invalidText msg.query))).replied false, noFec, [],
      pErr "ipc_rx" (ascii "Invalid IPC message.\n"), false⟩

/-! ## The receiver and its clients -/

/-- A connection: its client, and the bytes on the way in either direction. -/
structure Conn where
  /-- What `ipc_tx` asks for; another program may do anything. -/
  query : Option UInt8
  /-- What `ipc_tx` has still to send. -/
  left : Bytes
  /-- What the client has received. -/
  got : Bytes
  live : Bool
  up : Bytes
  down : Bytes
  /-- The server has closed its end. -/
  ended : Bool
  deriving DecidableEq

inductive Server where
  | idle
  /-- In `ipc_recv_msg`, for a connection, with what has come. -/
  | receiving (i : Nat) (got : Bytes)
  /-- In `ipc_send_msg`, with what is still to be sent. -/
  | replying (i : Nat) (served : Served) (left : Bytes)
  /-- The process has ended. -/
  | gone

structure IpcSystem where
  node : RxNode
  stats : Statistics
  /-- `SIGPIPE` is ignored. -/
  daemon : Bool
  /-- `event_base_loopexit` has been called. -/
  exiting : Bool
  /-- In the order of their `connect`. -/
  conns : List Conn
  accepted : Nat
  server : Server

inductive IpcInput where
  /-- `ipc_tx`: its socket is connected. -/
  | connect (param : Bytes)
  | connectOther
  | clientSend (i n : Nat)
  | clientRecv (i n : Nat)
  | clientEof (i : Nat)
  /-- `errno` is the text of the last error, whatever call it is of. -/
  | clientFail (i : Nat) (t : Trouble) (errno : Bytes)
  /-- A signal, such as `SIGPIPE` of a `send`. -/
  | clientKilled (i : Nat)
  | otherSend (i : Nat) (bs : Bytes)
  | otherRecv (i n : Nat)
  | otherClose (i : Nat)
  | accept
  | acceptFail (why : Bytes)
  | serverRecv (n : Nat)
  | serverEof
  | serverFail (t : Trouble)
  | serverSend (n : Nat)
  /-- `send`, with no client left. -/
  | serverPipe (why : Bytes)
  /-- Another callback of the event loop: a frame is received, and counted. -/
  | work (i : NodeInput) (stats : Statistics)
  | stop

inductive IpcEv where
  | called (i : Nat) (query : Option UInt8)
  /-- The request is carried out. -/
  | executed (i : Nat) (msg reply : IpcMsg)
  | returned (i : Nat) (ret : Int) (printed : List Message)
  /-- Counted as an error: this connection, or a failed `accept`. -/
  | failed (i : Option Nat)
  | printed (msgs : List Message)
  /-- The receiver is given this, and does so. -/
  | heard (i : NodeInput)
  | node (e : NodeEv)

/-- Not possible here. -/
def blocked {α : Type} : Except Unit α := .error ()

def IpcSystem.put (s : IpcSystem) (i : Nat) (c : Conn) : IpcSystem := { s with conns := s.conns.set i c }

/-- `n` more bytes of `bs` for a buffer with `got` in it. -/
def Fits (n : Nat) (bs got : Bytes) : Prop := 0 < n ∧ n ≤ bs.length ∧ got.length + n ≤ ipcMsgSize

instance {n : Nat} {bs got : Bytes} : Decidable (Fits n bs got) := inferInstanceAs (Decidable (_ ∧ _ ∧ _))

/-- A client's step on its connection. -/
def clientStep (s : IpcSystem) (i : Nat) (f : Conn → Except Unit (Conn × List IpcEv)) : Except Unit (IpcSystem × List IpcEv) :=
  match s.conns[i]? with
  | none => blocked
  | some c => if c.live then (f c).map fun p => (s.put i p.1, p.2) else blocked

/-- A step of `ipc_tx`. -/
def toolStep (s : IpcSystem) (i : Nat) (f : Conn → UInt8 → Except Unit (Conn × List IpcEv)) :
    Except Unit (IpcSystem × List IpcEv) :=
  clientStep s i fun c => match c.query with
    | some q => f c q
    | none => blocked

/-- A step of another program. -/
def otherStep (s : IpcSystem) (i : Nat) (f : Conn → Except Unit Conn) : Except Unit (IpcSystem × List IpcEv) :=
  clientStep s i fun c => match c.query with
    | some _ => blocked
    | none => (f c).map fun c => (c, [])

def clientSend (n : Nat) (ended : Bool) (c : Conn) : Except Unit (Conn × List IpcEv) :=
  if 0 < n ∧ n ≤ c.left.length ∧ ended = false then .ok ({ c with left := c.left.drop n, up := c.up ++ c.left.take n }, [])
  else blocked

def clientRecv (i n : Nat) (c : Conn) : Except Unit (Conn × List IpcEv) :=
  if c.left = [] ∧ Fits n c.down c.got then
    let c := { c with got := c.got ++ c.down.take n, down := c.down.drop n }
    if c.got.length = ipcMsgSize then
      .ok ({ c with live := false }, [.returned i (ipcTxDone (.ofBytes c.got)).1 (ipcTxDone (.ofBytes c.got)).2])
    else .ok (c, [])
  else blocked

/-- `ipc_recv_msg` returns 0. -/
def clientEof (i : Nat) (ended : Bool) (c : Conn) (q : UInt8) : Except Unit (Conn × List IpcEv) :=
  if c.left = [] ∧ c.down = [] ∧ ended = true then
    .ok ({ c with live := false },
      [.returned i (-1) (pInfo (ascii "Connection closed.\n") ++ (ipcFailure (ipcBuffer q c.got)).2)])
  else blocked

/-- `ipc_send_msg` or `ipc_recv_msg` returns -1. -/
def clientFail (i : Nat) (t : Trouble) (errno : Bytes) (c : Conn) (q : UInt8) : Except Unit (Conn × List IpcEv) :=
  .ok ({ c with live := false }, [.returned i (-1) (if c.left = [] then
    recvPrinted t ++ pErr "ipc_tx_recv_response" (ascii "read() failed: " ++ errno ++ ascii ".\n") ++
      (ipcFailure (ipcBuffer q c.got)).2
    else sendPrinted t)])

/-- `ipc_rx` after a message: it is counted and carried out. -/
def ipcExecute (s : IpcSystem) (i : Nat) (msg : IpcMsg) : IpcSystem × List IpcEv :=
  let served := ipcSwitch s.stats.success s.node.rx.noFec msg
  let toggled := decide (served.noFec ≠ s.node.rx.noFec)
  ({ s with
      stats := s.stats.success
      node := { s.node with rx := { s.node.rx with noFec := served.noFec } }
      server := .replying i served served.reply.bytes },
    [.printed (pInfo (ascii "IPC Rx: " ++ decimal ipcMsgSize ++ ascii " bytes received.\n")), .executed i msg served.reply,
      .printed served.before] ++ if toggled then [.heard .fecToggle] else [])

/-- `ipc_rx` gives a connection up. -/
def ipcGiveUp (s : IpcSystem) (i : Nat) (c : Conn) (msgs : List Message) : IpcSystem × List IpcEv :=
  ({ s.put i { c with ended := true } with stats := s.stats.error, server := .idle },
    [.failed (some i), .printed msgs])

/-- The end of `ipc_rx`, whatever became of the reply. -/
def ipcFinish (s : IpcSystem) (i : Nat) (c : Conn) (served : Served) (msgs : List Message) : IpcSystem × List IpcEv :=
  ({ s.put i { c with ended := true } with server := .idle, exiting := s.exiting || served.exits },
    [.printed (msgs ++ served.after)])

/-- A step of `ipc_rx` in `ipc_recv_msg`. -/
def receivingStep (s : IpcSystem) (f : Nat → Bytes → Conn → Except Unit (IpcSystem × List IpcEv)) :
    Except Unit (IpcSystem × List IpcEv) :=
  match s.server with
  | .receiving i got =>
    match s.conns[i]? with
    | some c => f i got c
    | none => blocked
  | _ => blocked

/-- A step of `ipc_rx` in `ipc_send_msg`. -/
def replyingStep (s : IpcSystem) (f : Nat → Served → Bytes → Conn → Except Unit (IpcSystem × List IpcEv)) :
    Except Unit (IpcSystem × List IpcEv) :=
  match s.server with
  | .replying i served left =>
    match s.conns[i]? with
    | some c => f i served left c
    | none => blocked
  | _ => blocked

def Server.isIdle : Server → Bool
  | .idle => true
  | _ => false

def Server.isGone : Server → Bool
  | .gone => true
  | _ => false

def serverRecv (s : IpcSystem) (n i : Nat) (got : Bytes) (c : Conn) : Except Unit (IpcSystem × List IpcEv) :=
  if Fits n c.up got then
    let got := got ++ c.up.take n
    let s := s.put i { c with up := c.up.drop n }
    if got.length = ipcMsgSize then .ok (ipcExecute s i (.ofBytes got)) else .ok ({ s with server := .receiving i got }, [])
  else blocked

def serverSend (s : IpcSystem) (n i : Nat) (served : Served) (left : Bytes) (c : Conn) : Except Unit (IpcSystem × List IpcEv) :=
  if 0 < n ∧ n ≤ left.length ∧ c.live = true then
    let c := { c with down := c.down ++ left.take n }
    if left.drop n = [] then .ok (ipcFinish s i c served [])
    else .ok ({ s.put i c with server := .replying i served (left.drop n) }, [])
  else blocked

def newConn (query : Option UInt8) (left : Bytes) : Conn := ⟨query, left, [], true, [], [], false⟩

def ipcConnect (s : IpcSystem) (query : Option UInt8) (left : Bytes) : Except Unit (IpcSystem × List IpcEv) :=
  if s.server.isGone then blocked
  else .ok ({ s with conns := s.conns ++ [newConn query left] }, [.called s.conns.length query])

variable (x : Externals) (lib : Frame.RadiotapLib)

def ipcStep (s : IpcSystem) : IpcInput → Except Unit (IpcSystem × List IpcEv)
  | .connect param =>
    match ipcQuery param with
    | some q => ipcConnect s (some q) (ipcRequest q).bytes
    | none => blocked
  | .connectOther => ipcConnect s none []
  | .clientSend i n => toolStep s i fun c _ => clientSend n (c.ended || s.server.isGone) c
  | .clientRecv i n => toolStep s i fun c _ => clientRecv i n c
  | .clientEof i => toolStep s i fun c q => clientEof i (c.ended || s.server.isGone) c q
  | .clientFail i t errno => toolStep s i fun c q => clientFail i t errno c q
  | .clientKilled i => toolStep s i fun c _ => .ok ({ c with live := false }, [])
  | .otherSend i bs => otherStep s i fun c => .ok { c with up := c.up ++ bs }
  | .otherRecv i n => otherStep s i fun c =>
    if n ≤ c.down.length then .ok { c with got := c.got ++ c.down.take n, down := c.down.drop n } else blocked
  | .otherClose i => otherStep s i fun c => .ok { c with live := false }
  | .accept =>
    if s.server.isIdle ∧ s.accepted < s.conns.length then
      .ok ({ s with server := .receiving s.accepted [], accepted := s.accepted + 1 }, [])
    else blocked
  | .acceptFail why =>
    if s.server.isIdle then
      .ok ({ s with stats := s.stats.error },
        [.failed none, .printed (pErr "ipc_rx" (ascii "accept() failed: " ++ why ++ ascii ".\n"))])
    else blocked
  | .serverRecv n => receivingStep s fun i got c => serverRecv s n i got c
  | .serverEof => receivingStep s fun i _ c =>
    if c.up = [] ∧ c.live = false then .ok (ipcGiveUp s i c (pInfo (ascii "Connection closed.\n"))) else blocked
  | .serverFail t =>
    match s.server with
    | .receiving .. => receivingStep s fun i _ c => .ok (ipcGiveUp s i c (recvPrinted t))
    | _ => replyingStep s fun i served _ c => .ok (ipcFinish s i c served (sendPrinted t))
  | .serverSend n => replyingStep s fun i served left c => serverSend s n i served left c
  | .serverPipe why => replyingStep s fun i served _ c =>
    if c.live = false then
      if s.daemon then .ok (ipcFinish s i c served (sendPrinted (.io why))) else .ok ({ s with server := .gone }, [])
    else blocked
  | .work i stats =>
    match i, nodeStep x lib s.node i with
    | .fecToggle, _ => blocked
    | _, .ok p =>
      if s.server.isIdle then
        .ok ({ s with node := p.1, stats := { stats with ipcSuccess := s.stats.ipcSuccess, ipcError := s.stats.ipcError } },
          .heard i :: p.2.map .node)
      else blocked
    | _, .error _ => blocked
  | .stop => .ok ({ s with server := .gone }, [])

/-- A receiver whose socket has just been set up. -/
def IpcSystem.Fresh (s : IpcSystem) : Prop := s.conns = [] ∧ s.accepted = 0 ∧ s.server.isIdle = true

end WfbYa.Ipc
