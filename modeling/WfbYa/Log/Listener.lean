/-
  WfbYa.Log.Listener — a node with its log file: where the receiver calls `rx_log.c`.

  What a step of the node reports is done to the log, one event after the other. Messages
  may be printed at any of them; their texts are not modelled, so the hook gets any.

  - `listenerStep`: the listener as a machine.
  - `nodeStep_heard`: at most one frame of a step reaches the receiver.
  - `logEvs_keeps`, `logEvs_reaches`: what holds of the log after a step.
-/

import WfbYa.Rx.NodeSteps
import WfbYa.Rx.Accepting
import WfbYa.Log.LogSteps

namespace WfbYa.Log

open WfbYa.Frame WfbYa.Ring WfbYa.Rx WfbYa.Lib

/-! ## The listener -/

structure Listener where
  node : RxNode
  log : LogState
  /-- The session the open file was started for. -/
  started : Option Session

/-- A message, and what the hook makes of it. -/
abbrev Message := MsgHookType × Option Bytes

/-- An input, how the file operations go, and what is printed: before each event, and at
    the end. -/
structure Arrival where
  input : NodeInput
  create : CreateOutcome
  said : List (List Message)

def In6Addr.ofBytes (bs : Bytes) : In6Addr := ⟨(bs ++ In6Addr.zero.val).take 16, by simp [In6Addr.zero]⟩

/-- No call changes any of this between its calls of the log and its end. -/
def logContext (node : RxNode) : LogContext where
  fecType := UInt8.ofNat node.rx.fecType
  fecK := UInt8.ofNat node.rx.fecK
  fecN := UInt8.ofNat node.rx.fecN
  channelId := UInt32.ofNat node.ieee80211.channelId
  freq := UInt16.ofNat node.rx.freq
  dbm := Int16.ofInt node.rx.dbm
  family := if node.rxSrc.isSome then .inet6 else .unspec
  addr := .ofBytes (node.rxSrc.getD [])

variable (env : LogEnv)

def hooks (msgs : List Message) (st : LogState) : LogState := msgs.foldl (fun st m => (rxLogHook env m.1 m.2 st).2) st

/-- The call of the log an event stands for. -/
def logEv (node : RxNode) (o : CreateOutcome) (st : LogState) : NodeEv → LogState
  | .logCorrupt => rxLogCorrupt env (logContext node) st
  | .rx (.logFrame blockIdx fragmentIdx size) =>
    rxLogFrame env (logContext node) (UInt64.ofNat blockIdx) (UInt8.ofNat fragmentIdx) (UInt64.ofNat size) st
  | .rx (.logDecode blockIdx fragmentIdx data) =>
    rxLogDecode env (logContext node) (UInt64.ofNat blockIdx) (UInt8.ofNat fragmentIdx) (some data) st
  | .rx (.logCreate _ _ _) => rxLogCreate env (logContext node) o st
  | _ => st

def logEvs (node : RxNode) (o : CreateOutcome) : List NodeEv → List (List Message) → LogState → LogState
  | [], said, st => hooks env said.flatten st
  | e :: evs, said, st => logEvs node o evs said.tail (logEv env node o (hooks env (said.headD []) st) e)

/-- A call of `rx_log_create`. -/
def isCreate : NodeEv → Bool
  | .rx (.logCreate _ _ _) => true
  | _ => false

/-- `-- New Session --` is printed: the receiver has accepted a session. -/
def isAccept : NodeEv → Bool
  | .rx .sessionDump => true
  | _ => false

def listenerStep (x : Externals) (lib : RadiotapLib) (l : Listener) (a : Arrival) : Except Fault (Listener × List NodeEv) := do
  let p ← nodeStep x lib l.node a.input
  let log := logEvs env p.1 a.create p.2 a.said l.log
  let started := if p.2.any isCreate then log.log.fp.map fun _ => session p.1.rx else l.started
  if log.dead then .error .killed else return (⟨p.1, log, started⟩, p.2)

/-- The listener as `main` sets it up. -/
def listenerSetup (channelId : Nat) (crypto : CryptoWfbContext) (noFec : Bool) (handlers mirrors : List Nat) : Listener :=
  ⟨{ nodeSetup channelId crypto noFec handlers with mirrorHandler := mirrors }, .initial, none⟩

/-! ## What the receiver hears -/

/-- The frame an input hands to `wfb_frame_parse`. -/
def heard? (lib : RadiotapLib) (node : RxNode) : NodeInput → Option RxFrame
  | .capture cap => (rxPcapFrame lib node cap.bytes).out.toOption.bind fun q =>
    q.2.map fun s => ⟨cap.bytes.drop s.1, s.2, q.1.rx.freq, q.1.rx.dbm, cap.outcome⟩
  | .datagram d => (rxUdpFrame node d.mem d.size d.src).out.toOption.map fun q =>
    ⟨d.mem.drop q.2.1, q.2.2, q.1.rx.freq, q.1.rx.dbm, d.outcome⟩
  | .fecToggle => none

variable {x : Externals} {lib : RadiotapLib} {node node' : RxNode}

theorem rxMirrorFrame_rx {buf : Bytes} {data : Option Nat} {size : Nat} (h : (rxMirrorFrame node buf data size).out = .ok node') :
    node'.rx = node.rx := by
  obtain ⟨-, udp, hout⟩ := rxMirrorFrame_spec node buf data size
  cases h.symm.trans hout
  rfl

theorem rxPcapBody_rx {buf : Bytes} {rxbuf rxlen : Nat} {q : RxNode × Option (Nat × Nat)}
    (h : (rxPcapBody node buf rxbuf rxlen).out = .ok q) : q.1.rx = node.rx := by
  unfold rxPcapBody at h
  rw [Traced.emit_bind_out] at h
  obtain ⟨p, -, h⟩ := Traced.out_bind.mp h
  dsimp only at h
  split at h
  · cases h
    rfl
  · rw [Traced.emit_bind_out] at h
    split at h
    · cases h
      rfl
    · rw [Traced.emit_bind_out] at h
      obtain ⟨node', hm, h⟩ := Traced.out_bind.mp h
      cases h
      exact (rxMirrorFrame_rx hm).trans rfl

/-- Up to `wfb_frame_parse` only the frame's meta data change in the receiver. -/
theorem rxPcapFrame_rx {buf : Bytes} {q : RxNode × Option (Nat × Nat)} (h : (rxPcapFrame lib node buf).out = .ok q) :
    ∃ freq dbm, q.1.rx = { node.rx with freq := freq, dbm := dbm } := by
  unfold rxPcapFrame at h
  rw [Traced.emit_bind_out, Traced.emit_bind_out] at h
  obtain ⟨p, -, h⟩ := Traced.out_bind.mp h
  dsimp only at h
  split at h
  · cases h
    exact ⟨node.rx.freq, node.rx.dbm, rfl⟩
  · split at h
    · rw [Traced.emit_bind_out] at h
      obtain ⟨node', hm, h⟩ := Traced.out_bind.mp h
      cases h
      exact ⟨node.rx.freq, node.rx.dbm, (rxMirrorFrame_rx hm).trans rfl⟩
    · rw [Traced.emit_bind_out] at h
      obtain ⟨rxlen, -, h⟩ := Traced.out_bind.mp h
      exact ⟨p.1.freq, p.1.dbm, rxPcapBody_rx h⟩

theorem rxUdpFrame_rx {mem : Bytes} {size : Nat} {src : Option Bytes} {q : RxNode × Nat × Nat}
    (h : (rxUdpFrame node mem size src).out = .ok q) : ∃ freq dbm, q.1.rx = { node.rx with freq := freq, dbm := dbm } := by
  unfold rxUdpFrame at h
  rw [Traced.emit_bind_out, Traced.emitAll_bind_out] at h
  generalize udpFrameParse mem = udp at h
  cases h
  exact ⟨udp.freq, udp.dbm, rfl⟩

/-- A step hands one frame to the receiver, or only meta data and the FEC switch change. -/
theorem nodeStep_heard {i : NodeInput} {evs : List NodeEv} (h : nodeStep x lib node i = .ok (node', evs)) :
    (∃ f, heard? lib node i = some f ∧ rxStep x node.rx (.frame f) = .ok (node'.rx, rxEvs evs)) ∨
      (heard? lib node i = none ∧ Quiet (rxEvs evs) ∧
        ∃ freq dbm noFec, node'.rx = { node.rx with freq := freq, dbm := dbm, noFec := noFec }) := by
  cases i with
  | capture cap =>
    obtain ⟨p, hp, he⟩ := Machine.bind_ok_iff.mp h
    cases he
    unfold rxFramePcap at hp ⊢
    obtain ⟨⟨node1, seen⟩, hq, hrest⟩ := Traced.out_bind.mp hp
    obtain ⟨freq, dbm, hrx⟩ := rxPcapFrame_rx hq
    rw [(Traced.bind_ok hq).1, rxEvs_append, rxEvs_nil (rxPcapFrame_notRx lib node cap.bytes), List.nil_append]
    simp only [heard?, hq, Except.toOption, Option.bind_some]
    cases seen with
    | none =>
      cases hrest
      exact .inr ⟨rfl, rfl, freq, dbm, node.rx.noFec, hrx⟩
    | some s =>
      refine .inl ⟨_, rfl, ?_⟩
      have hstep := (rxFrameWfb_step hrest).1
      change node1.rx = _ at hrx
      rw [hrx] at hstep ⊢
      exact hstep
  | datagram d =>
    obtain ⟨p, hp, he⟩ := Machine.bind_ok_iff.mp h
    cases he
    unfold rxFrameUdp at hp ⊢
    obtain ⟨q, hq, hrest⟩ := Traced.out_bind.mp hp
    obtain ⟨freq, dbm, hrx⟩ := rxUdpFrame_rx hq
    have hnone : rxEvs (rxUdpFrame node d.mem d.size d.src).evs = [] := by
      unfold rxUdpFrame
      rw [Traced.emit_bind_evs, Traced.emitAll_bind_evs]
      split <;> rfl
    rw [(Traced.bind_ok hq).1, rxEvs_append, hnone, List.nil_append]
    simp only [heard?, hq, Except.toOption, Option.map_some]
    refine .inl ⟨_, rfl, ?_⟩
    have hstep := (rxFrameWfb_step hrest).1
    rw [hrx] at hstep ⊢
    exact hstep
  | fecToggle =>
    cases h
    exact .inr ⟨rfl, rfl, node.rx.freq, node.rx.dbm, !node.rx.noFec, rfl⟩

theorem mem_rxEvs {evs : List NodeEv} {e : Ev} : e ∈ rxEvs evs ↔ NodeEv.rx e ∈ evs := by
  unfold rxEvs
  rw [List.mem_filterMap]
  constructor
  · rintro ⟨e', he, hs⟩
    cases e' with
    | rx e' =>
      cases hs
      exact he
    | _ => cases hs
  · exact fun he => ⟨_, he, rfl⟩

/-- What a step of a node does to the session. -/
inductive SessionStep (x : Externals) (lib : RadiotapLib) (node : RxNode) (i : NodeInput)
    (node' : RxNode) (evs : List NodeEv) : Prop
  | started {f : RxFrame} {w : WfbContext} {hdr : WfbSessionHdr} {r : Rbuf} : heard? lib node i = some f →
      accepts? x node.rx f = some (sessionOf hdr) → Checked (withFrame node.rx f w) hdr →
      Starts (withFrame node.rx f w) node'.rx hdr r →
      rxEvs evs = (if hdr.epoch ≤ node.rx.epoch then [.logCreate hdr.fecType hdr.fecK hdr.fecN] else []) ++ [.sessionDump] →
      SessionStep x lib node i node' evs
  | kept : (∀ f, heard? lib node i = some f → accepts? x node.rx f = none) → session node'.rx = session node.rx →
      (∀ e ∈ rxEvs evs, e.ofSession = false) → SessionStep x lib node i node' evs

theorem nodeStep_session {i : NodeInput} {evs : List NodeEv} (h : nodeStep x lib node i = .ok (node', evs)) :
    SessionStep x lib node i node' evs := by
  rcases nodeStep_heard h with ⟨f, hf, hs⟩ | ⟨hf, hq, freq, dbm, noFec, hrx⟩
  · have hheard := rxStep_heard hs
    generalize hev : rxEvs evs = es at hheard
    generalize hrx : node'.rx = rx at hheard
    cases hheard with
    | started ha hc hst =>
      rw [← hrx] at hst
      exact .started hf ha hc hst hev
    | kept ha hses hno =>
      refine .kept (fun f' hf' => ?_) (hrx ▸ hses) (hev ▸ hno)
      cases hf.symm.trans hf'
      exact ha
  · refine .kept (fun f hf' => nomatch hf.symm.trans hf') ?_ (quiet_ofSession hq)
    rw [hrx]
    rfl

theorem isCreate_session {e : NodeEv} (h : isCreate e = true) : ∃ e', e = .rx e' ∧ e'.ofSession = true := by
  cases e with
  | rx e =>
    cases e with
    | logCreate _ _ _ => exact ⟨_, rfl, rfl⟩
    | _ => cases h
  | _ => cases h

theorem isAccept_session {e : NodeEv} (h : isAccept e = true) : ∃ e', e = .rx e' ∧ e'.ofSession = true := by
  cases e with
  | rx e =>
    cases e with
    | sessionDump => exact ⟨_, rfl, rfl⟩
    | _ => cases h
  | _ => cases h

/-- Without an event of a session there is no call of `rx_log_create`, and no session accepted. -/
theorem no_session {evs : List NodeEv} (h : ∀ e ∈ rxEvs evs, e.ofSession = false) :
    (∀ e ∈ evs, isCreate e = false) ∧ evs.any isAccept = false := by
  constructor
  · intro e he
    by_contra hc
    obtain ⟨e', rfl, hs⟩ := isCreate_session (Bool.not_eq_false _ ▸ hc)
    exact Bool.false_ne_true ((h e' (mem_rxEvs.mpr he)).symm.trans hs)
  · rw [List.any_eq_false]
    intro e he ha
    obtain ⟨e', rfl, hs⟩ := isAccept_session ha
    exact Bool.false_ne_true ((h e' (mem_rxEvs.mpr he)).symm.trans hs)

theorem listenerStep_ok {env : LogEnv} {l l' : Listener} {a : Arrival} {evs : List NodeEv}
    (h : listenerStep env x lib l a = .ok (l', evs)) : nodeStep x lib l.node a.input = .ok (l'.node, evs) ∧
      l'.log = logEvs env l'.node a.create evs a.said l.log ∧
      (l'.started = if evs.any isCreate then l'.log.log.fp.map fun _ => session l'.node.rx else l.started) ∧
      l'.log.dead = false := by
  obtain ⟨p, hp, he⟩ := Machine.bind_ok_iff.mp h
  dsimp only at he
  split at he
  · cases he
  · rename_i hlive
    cases he
    exact ⟨hp, rfl, rfl, Bool.not_eq_true _ ▸ hlive⟩

/-! ## What a step does to the log -/

/-- `C` holds of each event, and of the log as it is then. -/
def AtEach (C : LogState → NodeEv → Prop) (node : RxNode) (o : CreateOutcome) :
    List NodeEv → List (List Message) → LogState → Prop
  | [], _, _ => True
  | e :: evs, said, st =>
    C (hooks env (said.headD []) st) e ∧ AtEach C node o evs said.tail (logEv env node o (hooks env (said.headD []) st) e)

theorem atEach_of {C : LogState → NodeEv → Prop} (h : ∀ st e, C st e) (node : RxNode) (o : CreateOutcome) (evs : List NodeEv)
    (said : List (List Message)) (st : LogState) : AtEach env C node o evs said st := by
  induction evs generalizing said st with
  | nil => trivial
  | cons e evs ih => exact ⟨h _ e, ih _ _⟩

variable {env} {C : LogState → NodeEv → Prop} {J : LogState → Prop} {o : CreateOutcome} {evs : List NodeEv}
  {said : List (List Message)} {st : LogState}

theorem hooks_keeps (hhook : ∀ st type text, J st → J (rxLogHook env type text st).2) (msgs : List Message) (h : J st) :
    J (hooks env msgs st) := by
  induction msgs generalizing st with
  | nil => exact h
  | cons m msgs ih => exact ih (hhook st m.1 m.2 h)

theorem hooks_dead (msgs : List Message) (h : st.dead = true) : (hooks env msgs st).dead = true :=
  hooks_keeps (J := fun st => st.dead = true) (fun _ _ _ h => rxLogHook_dead _ _ h) msgs h

theorem logEv_dead (e : NodeEv) (h : st.dead = true) : (logEv env node o st e).dead = true := by
  cases e with
  | logCorrupt => exact rxLogCorrupt_dead _ h
  | rx e =>
    cases e with
    | logFrame _ _ _ => exact rxLogFrame_dead _ _ _ _ h
    | logDecode _ _ _ => exact rxLogDecode_dead _ _ _ _ h
    | logCreate _ _ _ => exact rxLogCreate_dead _ _ h
    | _ => exact h
  | _ => exact h

theorem logEvs_dead (h : st.dead = true) : (logEvs env node o evs said st).dead = true := by
  induction evs generalizing said st with
  | nil => exact hooks_dead _ h
  | cons e evs ih => exact ih (logEv_dead e (hooks_dead _ h))

/-- Who survives a step lived before each of its events. -/
theorem logEvs_live {e : NodeEv} (h : (logEvs env node o (e :: evs) said st).dead = false) :
    (hooks env (said.headD []) st).dead = false ∧ (logEv env node o (hooks env (said.headD []) st) e).dead = false := by
  constructor
  · by_contra hdead
    rw [Bool.not_eq_false] at hdead
    exact absurd (logEvs_dead (logEv_dead e hdead)) (Bool.not_eq_true _ ▸ h)
  · by_contra hdead
    rw [Bool.not_eq_false] at hdead
    exact absurd (logEvs_dead hdead) (Bool.not_eq_true _ ▸ h)

/-- What messages and the events keep, a step that is survived keeps. -/
theorem logEvs_keeps (hhook : ∀ st type text, J st → J (rxLogHook env type text st).2)
    (hev : ∀ e ∈ evs, ∀ st, st.dead = false → C st e → J st → J (logEv env node o st e))
    (hlive : (logEvs env node o evs said st).dead = false) (hc : AtEach env C node o evs said st) (h : J st) :
    J (logEvs env node o evs said st) := by
  induction evs generalizing said st with
  | nil => exact hooks_keeps hhook _ h
  | cons e evs ih =>
    have hsaid := hooks_keeps hhook (said.headD []) h
    have hfirst := hev e List.mem_cons_self _ (logEvs_live hlive).1 hc.1 hsaid
    exact ih (fun e' he' => hev e' (List.mem_cons_of_mem e he')) hlive hc.2 hfirst

/-- What a call of `rx_log_create` brings about and the rest keeps, holds at the end. -/
theorem logEvs_reaches (hhook : ∀ st type text, J st → J (rxLogHook env type text st).2)
    (hev : ∀ e ∈ evs, ∀ st, st.dead = false → C st e → J st → J (logEv env node o st e))
    (hcreate : ∀ e ∈ evs, ∀ st, st.dead = false → C st e → isCreate e = true → J (logEv env node o st e))
    (hlive : (logEvs env node o evs said st).dead = false) (hc : AtEach env C node o evs said st)
    (hany : evs.any isCreate = true) : J (logEvs env node o evs said st) := by
  induction evs generalizing said st with
  | nil => cases hany
  | cons e evs ih =>
    have hev' : ∀ e' ∈ evs, ∀ st, st.dead = false → C st e' → J st → J (logEv env node o st e') :=
      fun e' he' => hev e' (List.mem_cons_of_mem e he')
    show J (logEvs env node o evs said.tail _)
    by_cases he : isCreate e = true
    · exact logEvs_keeps hhook hev' hlive hc.2 (hcreate e List.mem_cons_self _ (logEvs_live hlive).1 hc.1 he)
    · refine ih hev' (fun e' he' => hcreate e' (List.mem_cons_of_mem e he')) hlive hc.2 ?_
      simpa [he] using hany

theorem logEv_create {e : NodeEv} (h : isCreate e = true) : logEv env node o st e = rxLogCreate env (logContext node) o st := by
  obtain ⟨e', rfl, -⟩ := isCreate_session h
  cases e' with
  | logCreate _ _ _ => rfl
  | _ => cases h

/-- The record an event has the log make. -/
def recordOf? (node : RxNode) (ts : TimeSpec) : NodeEv → Option LogRecord
  | .logCorrupt => some (corruptRecord (logContext node) ts)
  | .rx (.logFrame blockIdx fragmentIdx size) =>
    some (frameRecord (logContext node) ts (UInt64.ofNat blockIdx) (UInt8.ofNat fragmentIdx) (UInt64.ofNat size))
  | .rx (.logDecode blockIdx fragmentIdx data) =>
    some (decodeRecord (logContext node) ts (UInt64.ofNat blockIdx) (UInt8.ofNat fragmentIdx) data)
  | _ => none

theorem logEv_grows {P : LogRecord → Prop} (hsay : ∀ n text, Says P env n text) {e : NodeEv} (he : isCreate e = false)
    (hrec : ∀ ts n r, env.clock n = .ok ts → recordOf? node ts e = some r → P r) : Grows P st (logEv env node o st e) := by
  cases e with
  | logCorrupt => exact rxLogCorrupt_grows (fun ts hts => hrec ts _ _ hts rfl) fun _ _ => tells_of hsay _ _ _
  | rx e =>
    cases e with
    | logFrame b f size => exact rxLogFrame_grows (fun ts _ hts => hrec ts _ _ hts rfl) fun _ => callTells_of hsay _ _ _ _
    | logDecode b f data => exact rxLogDecode_grows (fun ts _ hts => hrec ts _ _ hts rfl) fun _ => callTells_of hsay _ _ _ _
    | logCreate _ _ _ => cases he
    | _ => exact .same rfl rfl
  | _ => exact .same rfl rfl

end WfbYa.Log
