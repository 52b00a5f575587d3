/-
  WfbYa.Ipc.IpcSteps — what a step of the receiver and its clients can do.

  - `ipcStep_cases`: one case for each effect on the connections, the server and the counters.
  - `nodeStep_noFec`: frames do not switch FEC.
-/

import WfbYa.Ipc.WfbIpc

namespace WfbYa.Ipc

open WfbYa.Lib WfbYa.Log WfbYa.Rx

variable {x : Externals} {lib : Frame.RadiotapLib} {s s' : IpcSystem} {e : List IpcEv} {i : Nat} {c c' : Conn}

/-! ## Clients -/

/-- A client's step keeps what is on its way in either direction in order. -/
structure Carries (c c' : Conn) : Prop where
  query : c'.query = c.query
  up : c.query ≠ none → c'.up ++ c'.left = c.up ++ c.left
  down : c'.got ++ c'.down = c.got ++ c.down

theorem clientStep_cases {f : Conn → Except Unit (Conn × List IpcEv)} (h : clientStep s i f = .ok (s', e)) :
    ∃ c c', s.conns[i]? = some c ∧ f c = .ok (c', e) ∧ s' = s.put i c' := by
  unfold clientStep at h
  split at h
  · cases h
  · rename_i c hc
    split at h
    · cases hf : f c with
      | error u =>
        rw [hf] at h
        cases h
      | ok p =>
        rw [hf] at h
        cases h
        exact ⟨c, p.1, hc, hf, rfl⟩
    · cases h

theorem toolStep_cases {f : Conn → UInt8 → Except Unit (Conn × List IpcEv)} (h : toolStep s i f = .ok (s', e)) :
    ∃ c c' q, s.conns[i]? = some c ∧ c.query = some q ∧ f c q = .ok (c', e) ∧ s' = s.put i c' := by
  obtain ⟨c, c', hc, hf, rfl⟩ := clientStep_cases h
  split at hf
  · rename_i q hq
    exact ⟨c, c', q, hc, hq, hf, rfl⟩
  · cases hf

theorem otherStep_cases {f : Conn → Except Unit Conn} (h : otherStep s i f = .ok (s', e)) :
    ∃ c c', s.conns[i]? = some c ∧ c.query = none ∧ f c = .ok c' ∧ e = [] ∧ s' = s.put i c' := by
  obtain ⟨c, c', hc, hf, rfl⟩ := clientStep_cases h
  split at hf
  · cases hf
  · rename_i hq
    cases hf' : f c with
    | error u =>
      rw [hf'] at hf
      cases hf
    | ok d =>
      rw [hf'] at hf
      cases hf
      exact ⟨c, _, hc, hq, hf', rfl, rfl⟩

theorem Carries.closed (c : Conn) : Carries c { c with live := false } := ⟨rfl, fun _ => rfl, rfl⟩

theorem Carries.ended (c : Conn) : Carries c { c with ended := true } := ⟨rfl, fun _ => rfl, rfl⟩

theorem Carries.recv (c : Conn) (n : Nat) (live : Bool) :
    Carries c { c with got := c.got ++ c.down.take n, down := c.down.drop n, live := live } :=
  ⟨rfl, fun _ => rfl, by rw [List.append_assoc, List.take_append_drop]⟩

theorem clientSend_carries {n : Nat} {ended : Bool} (h : clientSend n ended c = .ok (c', e)) : Carries c c' ∧ e = [] := by
  unfold clientSend at h
  split at h
  · cases h
    exact ⟨⟨rfl, fun _ => by rw [List.append_assoc, List.take_append_drop], rfl⟩, rfl⟩
  · cases h

theorem clientRecv_carries {n : Nat} (h : clientRecv i n c = .ok (c', e)) : Carries c c' ∧
    (e = [] ∨ (c'.got.length = ipcMsgSize ∧
    e = [.returned i (ipcTxDone (.ofBytes c'.got)).1 (ipcTxDone (.ofBytes c'.got)).2])) := by
  unfold clientRecv at h
  dsimp only at h
  split at h
  · split at h
    · rename_i hlen
      cases h
      exact ⟨.recv c n false, .inr ⟨hlen, rfl⟩⟩
    · cases h
      exact ⟨.recv c n c.live, .inl rfl⟩
  · cases h

theorem clientEof_cases {ended : Bool} {q : UInt8} (h : clientEof i ended c q = .ok (c', e)) :
    c' = { c with live := false } ∧ ∃ out, e = [.returned i (-1) out] := by
  unfold clientEof at h
  split at h
  · cases h
    exact ⟨rfl, _, rfl⟩
  · cases h

/-! ## The receiver's work -/

theorem rxStep_noFec {ctx ctx' : RxContext} {f : RxFrame} {evs : List Ev} (hs : rxStep x ctx (.frame f) = .ok (ctx', evs)) :
    ctx'.noFec = ctx.noFec := by
  cases rxStep_cases hs with
  | unparsed _ _ => rfl
  | session _ _ hsess =>
    cases rxSession_cases hsess with
    | ignored _ => rfl
    | ended _ => rfl
    | started _ _ _ _ hst _ => rw [hst.1]; rfl
  | data _ _ hcall =>
    obtain ⟨ring, key, he, -⟩ := hcall.ctx_eq
    rw [he]
    rfl

/-- Frames do not switch FEC. -/
theorem nodeStep_noFec {node node' : RxNode} {inp : NodeInput} (hinp : inp ≠ .fecToggle) {evs : List NodeEv}
    (h : nodeStep x lib node inp = .ok (node', evs)) : node'.rx.noFec = node.rx.noFec := by
  cases inp with
  | capture cap =>
    obtain ⟨p, hp, he⟩ := Machine.bind_ok_iff.mp h
    cases he
    unfold rxFramePcap at hp
    obtain ⟨⟨node1, seen⟩, hq, hrest⟩ := Traced.out_bind.mp hp
    obtain ⟨freq, dbm, hrx⟩ := rxPcapFrame_rx hq
    have hkeep : node1.rx.noFec = node.rx.noFec := by
      change node1.rx = _ at hrx
      rw [hrx]
    cases seen with
    | none =>
      cases hrest
      exact hkeep
    | some s => exact (rxStep_noFec (rxFrameWfb_step hrest).1).trans hkeep
  | datagram d =>
    obtain ⟨p, hp, he⟩ := Machine.bind_ok_iff.mp h
    cases he
    unfold rxFrameUdp at hp
    obtain ⟨q, hq, hrest⟩ := Traced.out_bind.mp hp
    obtain ⟨freq, dbm, hrx⟩ := rxUdpFrame_rx hq
    exact (rxStep_noFec (rxFrameWfb_step hrest).1).trans (by rw [hrx])
  | fecToggle => exact absurd rfl hinp

/-- Another callback ran: a frame was received, and counted. -/
structure Worked (x : Externals) (lib : Frame.RadiotapLib) (s s' : IpcSystem) (e : List IpcEv) (inp : NodeInput)
    (evs : List NodeEv) : Prop where
  frame : inp ≠ .fecToggle
  node : nodeStep x lib s.node inp = .ok (s'.node, evs)
  rest : ∃ stats : Statistics, s' = { s with
    node := s'.node
    stats := { stats with ipcSuccess := s.stats.ipcSuccess, ipcError := s.stats.ipcError } }
  seen : e = .heard inp :: evs.map .node

theorem work_cases {inp : NodeInput} {stats : Statistics} (h : ipcStep x lib s (.work inp stats) = .ok (s', e)) :
    ∃ evs, Worked x lib s s' e inp evs := by
  unfold ipcStep at h
  dsimp only at h
  split at h
  · cases h
  · rename_i p hnot hp
    split at h
    · cases h
      exact ⟨p.2, hnot, hp, ⟨stats, rfl⟩, rfl⟩
    · cases h
  · cases h

/-! ## Steps -/

theorem receivingStep_cases {f : Nat → Bytes → Conn → Except Unit (IpcSystem × List IpcEv)} {p : IpcSystem × List IpcEv}
    (h : receivingStep s f = .ok p) : ∃ i got c, s.server = .receiving i got ∧ s.conns[i]? = some c ∧ f i got c = .ok p := by
  unfold receivingStep at h
  split at h
  · rename_i i got hsrv
    split at h
    · rename_i c hc
      exact ⟨i, got, c, hsrv, hc, h⟩
    · cases h
  · cases h

theorem replyingStep_cases {f : Nat → Served → Bytes → Conn → Except Unit (IpcSystem × List IpcEv)} {p : IpcSystem × List IpcEv}
    (h : replyingStep s f = .ok p) :
    ∃ i served left c, s.server = .replying i served left ∧ s.conns[i]? = some c ∧ f i served left c = .ok p := by
  unfold replyingStep at h
  split at h
  · rename_i i served left hsrv
    split at h
    · rename_i c hc
      exact ⟨i, served, left, c, hsrv, hc, h⟩
    · cases h
  · cases h

theorem ipcConnect_ok {query : Option UInt8} {left : Bytes} (h : ipcConnect s query left = .ok (s', e)) :
    s' = { s with conns := s.conns ++ [newConn query left] } ∧ e = [.called s.conns.length query] := by
  unfold ipcConnect at h
  split at h <;> cases h
  exact ⟨rfl, rfl⟩

/-- What a step can do. -/
inductive Stepped (x : Externals) (lib : Frame.RadiotapLib) (s : IpcSystem) : IpcSystem → List IpcEv → Prop
  | connected {s' : IpcSystem} {e : List IpcEv} (query : Option UInt8) (left : Bytes) :
      (∀ q, query = some q → left = (ipcRequest q).bytes) → ipcConnect s query left = .ok (s', e) → Stepped x lib s s' e
  | carried {i : Nat} {c c' : Conn} : s.conns[i]? = some c → Carries c c' → Stepped x lib s (s.put i c') []
  | received {i n : Nat} {c c' : Conn} {e : List IpcEv} : s.conns[i]? = some c → clientRecv i n c = .ok (c', e) →
      Stepped x lib s (s.put i c') e
  | failed {i : Nat} {c : Conn} (out : List Message) : s.conns[i]? = some c →
      Stepped x lib s (s.put i { c with live := false }) [.returned i (-1) out]
  | accepted : s.server.isIdle = true → s.accepted < s.conns.length →
      Stepped x lib s { s with server := .receiving s.accepted [], accepted := s.accepted + 1 } []
  | refused (msgs : List Message) : Stepped x lib s { s with stats := s.stats.error } [.failed none, .printed msgs]
  | more {i : Nat} {got : Bytes} {c : Conn} (n : Nat) : s.server = .receiving i got → s.conns[i]? = some c →
      Stepped x lib s { s.put i { c with up := c.up.drop n } with server := .receiving i (got ++ c.up.take n) } []
  | executed {i : Nat} {got : Bytes} {c : Conn} (n : Nat) : s.server = .receiving i got → s.conns[i]? = some c →
      (got ++ c.up.take n).length = ipcMsgSize →
      Stepped x lib s (ipcExecute (s.put i { c with up := c.up.drop n }) i (.ofBytes (got ++ c.up.take n))).1
        (ipcExecute (s.put i { c with up := c.up.drop n }) i (.ofBytes (got ++ c.up.take n))).2
  | gaveUp {i : Nat} {got : Bytes} {c : Conn} (msgs : List Message) : s.server = .receiving i got → s.conns[i]? = some c →
      Stepped x lib s (ipcGiveUp s i c msgs).1 (ipcGiveUp s i c msgs).2
  | sent {i : Nat} {served : Served} {left : Bytes} {c : Conn} (n : Nat) : s.server = .replying i served left →
      s.conns[i]? = some c →
      Stepped x lib s { s.put i { c with down := c.down ++ left.take n } with server := .replying i served (left.drop n) } []
  | finished {i : Nat} {served : Served} {left : Bytes} {c : Conn} (n : Nat) (msgs : List Message) :
      s.server = .replying i served left → s.conns[i]? = some c →
      Stepped x lib s (ipcFinish s i { c with down := c.down ++ left.take n } served msgs).1
        (ipcFinish s i { c with down := c.down ++ left.take n } served msgs).2
  | gone : Stepped x lib s { s with server := .gone } []
  | worked {s' : IpcSystem} {e : List IpcEv} {inp : NodeInput} {evs : List NodeEv} :
    Worked x lib s s' e inp evs → Stepped x lib s s' e

theorem serverRecv_cases {n : Nat} {got : Bytes} (hsrv : s.server = .receiving i got) (hc : s.conns[i]? = some c)
    (hs : serverRecv s n i got c = .ok (s', e)) : Stepped x lib s s' e := by
  unfold serverRecv at hs
  dsimp only at hs
  split at hs
  · split at hs
    · rename_i hlen
      cases hs
      exact .executed n hsrv hc hlen
    · cases hs
      exact .more n hsrv hc
  · cases hs

theorem serverSend_cases {n : Nat} {served : Served} {left : Bytes} (hsrv : s.server = .replying i served left)
    (hc : s.conns[i]? = some c) (hs : serverSend s n i served left c = .ok (s', e)) : Stepped x lib s s' e := by
  unfold serverSend at hs
  dsimp only at hs
  split at hs
  · split at hs
    · cases hs
      exact .finished n [] hsrv hc
    · cases hs
      exact .sent n hsrv hc
  · cases hs

/-- A reply that fails: nothing more of it is sent. -/
theorem stepped_finish {served : Served} {left : Bytes} (hsrv : s.server = .replying i served left) (hc : s.conns[i]? = some c)
    (msgs : List Message) : Stepped x lib s (ipcFinish s i c served msgs).1 (ipcFinish s i c served msgs).2 := by
  have h : Stepped x lib s (ipcFinish s i { c with down := c.down ++ left.take 0 } served msgs).1 _ := .finished 0 msgs hsrv hc
  rw [List.take_zero, List.append_nil] at h
  exact h

theorem ipcStep_cases {inp : IpcInput} (hs : ipcStep x lib s inp = .ok (s', e)) : Stepped x lib s s' e := by
  cases inp with
  | connect param =>
    simp only [ipcStep] at hs
    split at hs
    · exact .connected _ _ (fun q' hq' => by cases hq'; rfl) hs
    · cases hs
  | connectOther => exact .connected none [] (fun q hq => by cases hq) hs
  | clientSend i n =>
    obtain ⟨c, c', q, hc, -, hf, rfl⟩ := toolStep_cases hs
    obtain ⟨hk, rfl⟩ := clientSend_carries hf
    exact .carried hc hk
  | clientRecv i n =>
    obtain ⟨c, c', q, hc, -, hf, rfl⟩ := toolStep_cases hs
    exact .received hc hf
  | clientEof i =>
    obtain ⟨c, c', q, hc, -, hf, rfl⟩ := toolStep_cases hs
    obtain ⟨rfl, out, rfl⟩ := clientEof_cases hf
    exact .failed out hc
  | clientFail i t errno =>
    obtain ⟨c, c', q, hc, -, hf, rfl⟩ := toolStep_cases hs
    cases hf
    exact .failed _ hc
  | clientKilled i =>
    obtain ⟨c, c', q, hc, -, hf, rfl⟩ := toolStep_cases hs
    cases hf
    exact .carried hc (.closed c)
  | otherSend i bs =>
    obtain ⟨c, c', hc, hq, hf, rfl, rfl⟩ := otherStep_cases hs
    cases hf
    exact .carried hc ⟨rfl, fun hne => absurd hq hne, rfl⟩
  | otherRecv i n =>
    obtain ⟨c, c', hc, hq, hf, rfl, rfl⟩ := otherStep_cases hs
    split at hf
    · cases hf
      exact .carried hc (.recv c n c.live)
    · cases hf
  | otherClose i =>
    obtain ⟨c, c', hc, hq, hf, rfl, rfl⟩ := otherStep_cases hs
    cases hf
    exact .carried hc (.closed c)
  | accept =>
    simp only [ipcStep] at hs
    split at hs
    · rename_i hcan
      cases hs
      exact .accepted hcan.1 hcan.2
    · cases hs
  | acceptFail why =>
    simp only [ipcStep] at hs
    split at hs
    · cases hs
      exact .refused _
    · cases hs
  | serverRecv n =>
    obtain ⟨i, got, c, hsrv, hc, hf⟩ := receivingStep_cases hs
    exact serverRecv_cases hsrv hc hf
  | serverEof =>
    obtain ⟨i, got, c, hsrv, hc, hf⟩ := receivingStep_cases hs
    split at hf
    · cases hf
      exact .gaveUp _ hsrv hc
    · cases hf
  | serverFail t =>
    simp only [ipcStep] at hs
    split at hs
    · obtain ⟨i, got, c, hsrv, hc, hf⟩ := receivingStep_cases hs
      cases hf
      exact .gaveUp _ hsrv hc
    · obtain ⟨i, served, left, c, hsrv, hc, hf⟩ := replyingStep_cases hs
      cases hf
      exact stepped_finish hsrv hc _
  | serverSend n =>
    obtain ⟨i, served, left, c, hsrv, hc, hf⟩ := replyingStep_cases hs
    exact serverSend_cases hsrv hc hf
  | serverPipe why =>
    obtain ⟨i, served, left, c, hsrv, hc, hf⟩ := replyingStep_cases hs
    split at hf
    · split at hf
      · cases hf
        exact stepped_finish hsrv hc _
      · cases hf
        exact .gone
    · cases hf
  | work inp stats =>
    obtain ⟨evs, hw⟩ := work_cases hs
    exact .worked hw
  | stop =>
    cases hs
    exact .gone

end WfbYa.Ipc
