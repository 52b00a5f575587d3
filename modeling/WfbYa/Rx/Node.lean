/-
  WfbYa.Rx.Node — a node of the network: captured frames, relayed datagrams (`rx_core.c`).

  A captured frame goes through the radiotap and the 802.11 header, is mirrored to other
  nodes, and is handed to the receiver; a relayed datagram is handed to it without its
  header. Pointers into a captured buffer are offsets in it, and its length is a `size_t`.

  Beside what the code does, events record what it relies on: the part of the buffer each
  function is given (`call`), and each length taken off what is left (`minus`).

  - `nodeStep`: a node as a machine.
-/

import WfbYa.Rx.Core
import WfbYa.Frame.FrameIeee80211
import WfbYa.Frame.FrameUdp

namespace WfbYa.Rx

open WfbYa.Frame WfbYa.Ring WfbYa.Lib

/-! ## The node -/

inductive Callee where
  | radiotapFrameParse
  | ieee80211FrameParse
  | rxMirrorFrame
  | wfbFrameParse
  deriving DecidableEq, Repr

inductive NodeEv where
  | rx (e : Ev)
  | parse (e : ParseEv)
  /-- A mirror handler is called with the parts of a datagram. -/
  | mirror (handler : Nat) (iov : List Bytes)
  /-- `rx_log_corrupt`. -/
  | logCorrupt
  /-- `f` is called with `data` (`none`: `NULL`) and `size`. -/
  | call (f : Callee) (data : Option Nat) (size : Nat)
  /-- `rxlen -= parsed`, by the values before it. -/
  | minus (rxlen parsed : Nat)
  deriving DecidableEq, Repr

structure RxNode where
  rx : RxContext
  radiotap : RadiotapContext
  ieee80211 : Ieee80211Context
  udp : UdpContext
  /-- `rx_src`: an IPv6 address, or `AF_UNSPEC`. -/
  rxSrc : Option Bytes
  /-- The registered mirror handlers, in the order of their table entries. -/
  mirrorHandler : List Nat

/-- `rx_context_initialize` and the decode handlers, before any mirror handler. -/
def nodeSetup (channelId : Nat) (crypto : CryptoWfbContext) (noFec : Bool) (handlers : List Nat) : RxNode :=
  ⟨rxSetup channelId crypto noFec handlers, .zero, .zero, .zero, none, []⟩

def rxContextSetMirror (node : RxNode) (handler : Nat) : Int × RxNode :=
  if node.mirrorHandler.length < rxMaxMirror then (0, { node with mirrorHandler := node.mirrorHandler ++ [handler] })
  else (-1, node)

/-- `rxlen -= parsed`. -/
def sizeMinus (rxlen parsed : Nat) : Nat := u64 (rxlen + 2 ^ 64 - parsed)

/-- A frame as `pcap_next_ex` returns it. -/
structure Capture where
  bytes : Bytes
  fits : bytes.length < 2 ^ 64
  outcome : Outcome

/-- A datagram in the receive buffer: `mem` is what the buffer holds. -/
structure Datagram where
  mem : Bytes
  size : Nat
  src : Option Bytes
  outcome : Outcome

/-! ## rx_mirror_frame -/

/-- What the handlers are given: a header and, unless the frame is corrupt, its body. -/
def mirrored (node : RxNode) (buf : Bytes) (data : Option Nat) (size : Nat) : UdpContext × List Bytes :=
  let corrupt := decide (data = none ∨ size = 0)
  let udp := udpFrameBuild
    { node.udp with freq := node.rx.freq, dbm := node.rx.dbm, flags := if corrupt then udpFlagCorrupt else 0 }
  (udp, if corrupt then [udp.raw] else [udp.raw, (buf.drop (data.getD 0)).take size])

def rxMirrorFrame (node : RxNode) (buf : Bytes) (data : Option Nat) (size : Nat) : Traced NodeEv Fault RxNode :=
  if node.mirrorHandler = [] then ⟨[], .ok node⟩
  else
    let m := mirrored node buf data size
    ⟨node.mirrorHandler.map fun h => .mirror h m.2, .ok { node with udp := m.1 }⟩

/-! ## rx_frame_pcap -/

/-- `rx_frame_pcap` from `ieee80211_frame_parse` up to `wfb_frame_parse`: what is left of
    the buffer, or nothing if the frame was refused. -/
def rxPcapBody (node : RxNode) (buf : Bytes) (rxbuf rxlen : Nat) : Traced NodeEv Fault (RxNode × Option (Nat × Nat)) := do
  Traced.emit (.call .ieee80211FrameParse (some rxbuf) rxlen)
  let p ← (ieee80211FrameParse (buf.drop rxbuf) rxlen).lift .parse
  let node := { node with ieee80211 := p.1 }
  if p.2 < 0 then return (node, none)
  else do
    Traced.emit (.minus rxlen p.2.toNat)
    let rxbuf := rxbuf + p.2.toNat
    let rxlen := sizeMinus rxlen p.2.toNat
    if node.rx.channelId ≠ 0 ∧ node.rx.channelId ≠ p.1.channelId then return (node, none)
    else do
      Traced.emit (.call .rxMirrorFrame (some rxbuf) rxlen)
      let node ← rxMirrorFrame node buf (some rxbuf) rxlen
      return (node, some (rxbuf, rxlen))

/-- The FCS is stripped from the tail. -/
def stripFcs (hasFcs : Bool) (rxlen : Nat) : Traced NodeEv Fault Nat :=
  if hasFcs then do
    Traced.emit (.minus rxlen 4)
    return sizeMinus rxlen 4
  else return rxlen

/-- `rx_frame_pcap` up to `wfb_frame_parse`. -/
def rxPcapFrame (lib : RadiotapLib) (node : RxNode) (buf : Bytes) : Traced NodeEv Fault (RxNode × Option (Nat × Nat)) := do
  -- pcap_frame_parse takes nothing off
  Traced.emit (.minus buf.length 0)
  Traced.emit (.call .radiotapFrameParse (some 0) buf.length)
  let p ← (radiotapFrameParse lib buf buf.length).lift .parse
  let node := { node with rxSrc := none, radiotap := p.1 }
  if p.2 < 0 then return (node, none)
  else if p.1.badFcs = true then do
    Traced.emit (.call .rxMirrorFrame none 0)
    let node ← rxMirrorFrame node buf none 0
    return (node, none)
  else do
    Traced.emit (.minus buf.length p.2.toNat)
    let rxlen ← stripFcs p.1.hasFcs (sizeMinus buf.length p.2.toNat)
    rxPcapBody { node with rx := { node.rx with freq := p.1.freq, dbm := p.1.dbm } } buf p.2.toNat rxlen

/-- `rxlen -= parsed` after `wfb_frame_parse`, whose return value is the whole length. -/
def wfbTaken (size : Nat) : Except String WfbContext → List NodeEv
  | .ok w => [.minus size w.pktlen]
  | .error _ => []

/-- `wfb_frame_parse` and what follows it, for `size` bytes at `rxbuf`. -/
def rxFrameWfb (x : Externals) (node : RxNode) (mem : Bytes) (rxbuf size : Nat) (o : Outcome) :
    Traced NodeEv Fault (Int × RxNode) := do
  Traced.emit (.call .wfbFrameParse (some rxbuf) size)
  Traced.emitAll (wfbTaken size (wfbFrameParse (mem.drop rxbuf) size))
  match rxFrame x node.rx ⟨mem.drop rxbuf, size, node.rx.freq, node.rx.dbm, o⟩ with
  | .ok q => ⟨q.evs.map .rx, .ok (q.ret, { node with rx := q.ctx })⟩
  | .error e => Traced.fail e

/-- The rest of `rx_frame_pcap`, for a frame that was not refused. -/
def rxPcapRest (x : Externals) (cap : Capture) : RxNode × Option (Nat × Nat) → Traced NodeEv Fault (Int × RxNode)
  | (node, none) => return (-1, node)
  | (node, some s) => rxFrameWfb x node cap.bytes s.1 s.2 cap.outcome

def rxFramePcap (x : Externals) (lib : RadiotapLib) (node : RxNode) (cap : Capture) : Traced NodeEv Fault (Int × RxNode) := do
  let p ← rxPcapFrame lib node cap.bytes
  rxPcapRest x cap p

/-! ## rx_frame_udp -/

/-- `netinet_rx` and `rx_frame_udp` up to `wfb_frame_parse`, with what is left of the
    datagram. -/
def rxUdpFrame (node : RxNode) (mem : Bytes) (size : Nat) (src : Option Bytes) :
    Traced NodeEv Fault (RxNode × Nat × Nat) := do
  let udp := udpFrameParse mem
  Traced.emit (.minus size udp.hdrlen)
  Traced.emitAll (if udp.flags &&& udpFlagCorrupt ≠ 0 then [.logCorrupt] else [])
  return ({ node with rxSrc := src, udp := udp, rx := { node.rx with freq := udp.freq, dbm := udp.dbm } },
    udp.hdrlen, sizeMinus size udp.hdrlen)

def rxFrameUdp (x : Externals) (node : RxNode) (d : Datagram) : Traced NodeEv Fault (Int × RxNode) := do
  let p ← rxUdpFrame node d.mem d.size d.src
  rxFrameWfb x p.1 d.mem p.2.1 p.2.2 d.outcome

/-! ## The machine -/

inductive NodeInput where
  | capture (cap : Capture)
  | datagram (d : Datagram)
  | fecToggle

def nodeStep (x : Externals) (lib : RadiotapLib) (node : RxNode) : NodeInput → Except Fault (RxNode × List NodeEv)
  | .capture cap => do
    let p ← (rxFramePcap x lib node cap).out
    return (p.2, (rxFramePcap x lib node cap).evs)
  | .datagram d => do
    let p ← (rxFrameUdp x node d).out
    return (p.2, (rxFrameUdp x node d).evs)
  | .fecToggle => do
    let p ← rxStep x node.rx .fecToggle
    return ({ node with rx := p.1 }, p.2.map .rx)

end WfbYa.Rx
