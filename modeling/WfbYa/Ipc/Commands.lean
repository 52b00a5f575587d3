/-
  WfbYa.Ipc.Commands — any number of clients of one receiver.

  Clients connect, send and receive in pieces of any size and at any time, fail, time out or
  are killed; other programs send whatever they like. The receiver serves one connection at a
  time and works on frames in between.

  - `Consistent`: what holds between a connection's two ends, and of what was served so far.
  - `commands_linearize`: the commands amount to commands given one after the other.
  - `connections_settled`: every connection taken is counted once.
-/

import WfbYa.Ipc.Messages
import WfbYa.Ipc.IpcSteps
import WfbYa.Lib.Linearization
import WfbYa.Rx.Mirroring

namespace WfbYa.Ipc

open WfbYa.Lib WfbYa.Lib.Linearization WfbYa.Frame WfbYa.Log WfbYa.Rx

/-! ## What is seen of a run -/

/-- What a connection's client asks for. -/
def asks : Option UInt8 → UInt8 → Prop
  | some q => fun op => op = q
  | none => fun _ => True

def IpcEv.mark : IpcEv → Option (Mark Nat UInt8 (List Message))
  | .called i query => some (.call i (asks query))
  | .executed i msg reply => some (.point ⟨i, msg.query, (ipcTxDone reply).2⟩)
  | .returned i ret out => if ret = 0 then some (.ret i out) else none
  | _ => none

/-- The calls of `ipc_tx`, the requests carried out, and the calls that returned 0. -/
def marks (tr : List IpcEv) : List (Mark Nat UInt8 (List Message)) := tr.filterMap IpcEv.mark

/-- The reply to a connection's request. -/
def replyOf (tr : List IpcEv) (i : Nat) : Option IpcMsg :=
  tr.findSome? fun e => match e with
    | .executed j _ reply => if j = i then some reply else none
    | _ => none

/-- What the receiver was given. -/
def heardBy (tr : List IpcEv) : List NodeInput :=
  tr.filterMap fun e => match e with
    | .heard i => some i
    | _ => none

/-- The connections whose request was carried out, or that were given up. -/
def settled (tr : List IpcEv) : List Nat :=
  tr.filterMap fun e => match e with
    | .executed i _ _ => some i
    | .failed i => i
    | _ => none

@[simp] theorem marks_append (t t' : List IpcEv) : marks (t ++ t') = marks t ++ marks t' := List.filterMap_append ..

@[simp] theorem settled_append (t t' : List IpcEv) : settled (t ++ t') = settled t ++ settled t' := List.filterMap_append ..

theorem replyOf_append (t t' : List IpcEv) (i : Nat) : replyOf (t ++ t') i = (replyOf t i).or (replyOf t' i) :=
  List.findSome?_append ..

/-- Nothing takes effect when a command returns. -/
theorem points_returned (i : Nat) (ret : Int) (out : List Message) : points (marks [.returned i ret out]) = [] := by
  by_cases h : ret = 0 <;> simp [marks, IpcEv.mark, points, Mark.done, h]

/-- Events that are no calls, and about no connection. -/
def Aside (e : List IpcEv) : Prop := marks e = [] ∧ settled e = [] ∧ ∀ i, replyOf e i = none

theorem aside_nil : Aside [] := ⟨rfl, rfl, fun _ => rfl⟩

theorem aside_printed (msgs : List Message) : Aside [.printed msgs] := ⟨rfl, rfl, fun _ => rfl⟩

theorem aside_node (i : NodeInput) (evs : List NodeEv) : Aside (.heard i :: evs.map .node) := by
  induction evs with
  | nil => exact ⟨rfl, rfl, fun _ => rfl⟩
  | cons e evs ih => exact ih

/-! ## The state of a connection -/

def Server.awaits : Server → Nat → Option Bytes
  | .receiving j got, i => if j = i then some got else none
  | _, _ => none

def Server.owes : Server → Nat → Option Bytes
  | .replying j _ left, i => if j = i then some left else none
  | _, _ => none

/-- What the server has of a request, unless it takes no more of it. -/
def IpcSystem.awaited (s : IpcSystem) (i : Nat) : Option Bytes := if s.accepted ≤ i then some [] else s.server.awaits i

def replyBytes (reply : Option IpcMsg) : Bytes := (reply.map IpcMsg.bytes).getD []

/-- A connection's two directions: `ipc_tx` has sent of its request what the server has of it
    and what is on the way; of the reply the client has a first part, another is on the way. -/
structure ConnOk (h : List (Act Nat UInt8 (List Message))) (awaited owed : Option Bytes) (reply : Option IpcMsg) (i : Nat)
    (c : Conn) : Prop where
  called : Act.call i (asks c.query) ∈ h
  up : ∀ q got, c.query = some q → awaited = some got → got ++ (c.up ++ c.left) = (ipcRequest q).bytes
  down : c.got ++ c.down <+: replyBytes reply
  owed : ∀ left, owed = some left → (c.got ++ c.down) ++ left = replyBytes reply

theorem ConnOk.frame {h h' : List (Act Nat UInt8 (List Message))} {aw aw' ow ow' : Option Bytes} {reply : Option IpcMsg} {i : Nat}
    {c : Conn} (hc : ConnOk h aw ow reply i c) (hh : ∀ a ∈ h, a ∈ h') (haw : aw' = none ∨ aw' = aw)
    (how : ow' = none ∨ ow' = ow) :
    ConnOk h' aw' ow' reply i c := by
  refine ⟨hh _ hc.called, fun q got hq hg => ?_, hc.down, fun left hl => ?_⟩
  · rcases haw with haw | haw
    · cases haw.symm.trans hg
    · exact hc.up q got hq (haw ▸ hg)
  · rcases how with how | how
    · cases how.symm.trans hl
    · exact hc.owed left (how ▸ hl)

/-! ## The state of a run -/

def IpcSystem.control (s : IpcSystem) : Control := ⟨s.node.rx.noFec, s.stats.ipcSuccess⟩

/-- How many connections are settled, by what the server does. -/
def Server.Past (accepted n : Nat) : Server → Prop
  | .idle => n = accepted
  | .receiving i _ => n = i ∧ i + 1 = accepted
  | .replying i _ _ => n = accepted ∧ i + 1 = accepted
  | .gone => n ≤ accepted ∧ accepted ≤ n + 1

structure Consistent (s0 s : IpcSystem) (tr : List IpcEv) : Prop where
  marked : Marked (marks tr)
  legal : Legal Serves s0.control (points (marks tr)) s.control
  fresh : ∀ i a, Act.call i a ∈ history (marks tr) → i < s.conns.length
  accepted : s.accepted ≤ s.conns.length
  conns : ∀ i c, s.conns[i]? = some c → ConnOk (history (marks tr)) (s.awaited i) (s.server.owes i) (replyOf tr i) i c
  replied : ∀ i reply, replyOf tr i = some reply → ∃ d ∈ points (marks tr), d.id = i ∧ d.res = (ipcTxDone reply).2
  past : ∃ n, settled tr = List.range n ∧ s.server.Past s.accepted n
  ids : ((points (marks tr)).map Done.id).Sublist (settled tr)

variable {x : Externals} {lib : RadiotapLib} {s0 s s' : IpcSystem} {tr e : List IpcEv} {i : Nat} {c c' : Conn}

theorem getElem?_put {s : IpcSystem} {i j : Nat} {c d : Conn} (h : (s.put i c).conns[j]? = some d) :
    (j = i ∧ d = c) ∨ (j ≠ i ∧ s.conns[j]? = some d) := by
  change (s.conns.set i c)[j]? = some d at h
  rw [List.getElem?_set] at h
  split at h
  · rename_i hij
    split at h
    · cases h
      exact .inl ⟨hij.symm, rfl⟩
    · cases h
  · rename_i hij
    exact .inr ⟨fun he => hij he.symm, h⟩

/-- Nothing has been replied to a connection that is not settled. -/
theorem Consistent.unreplied (h : Consistent s0 s tr) {n : Nat} (hn : settled tr = List.range n) (hi : n ≤ i) :
    replyOf tr i = none := by
  cases hr : replyOf tr i with
  | none => rfl
  | some reply =>
    obtain ⟨d, hd, hid, -⟩ := h.replied i reply hr
    have hmem := h.ids.subset (List.mem_map_of_mem hd)
    rw [hn, List.mem_range, hid] at hmem
    exact absurd hmem (Nat.not_lt.mpr hi)

/-- Events that settle nothing and call for nothing. -/
theorem Consistent.says (h : Consistent s0 s tr) (hm : Marked (marks (tr ++ e))) (hp : points (marks e) = [])
    (hcall : ∀ i a, Act.call i a ∉ history (marks e)) (hs : settled e = []) (hr : ∀ i, replyOf e i = none) :
    Consistent s0 s (tr ++ e) := by
  have hpoints : points (marks (tr ++ e)) = points (marks tr) := by rw [marks_append, points_append, hp, List.append_nil]
  have hhist : history (marks (tr ++ e)) = history (marks tr) ++ history (marks e) := by rw [marks_append, history_append]
  have hreply : ∀ i, replyOf (tr ++ e) i = replyOf tr i := fun i => by rw [replyOf_append, hr i, Option.or_none]
  have hset : settled (tr ++ e) = settled tr := by rw [settled_append, hs, List.append_nil]
  refine ⟨hm, hpoints ▸ h.legal, fun i a ha => ?_, h.accepted, fun i c hc => ?_, fun i reply hi => ?_, hset ▸ h.past, ?_⟩
  · rw [hhist] at ha
    rcases List.mem_append.mp ha with ha | ha
    · exact h.fresh i a ha
    · exact absurd ha (hcall i a)
  · rw [hhist, hreply]
    exact (h.conns i c hc).frame (fun _ ha => List.mem_append_left _ ha) (.inr rfl) (.inr rfl)
  · rw [hpoints]
    rw [hreply] at hi
    exact h.replied i reply hi
  · rw [hpoints, hset]
    exact h.ids

theorem Consistent.aside (h : Consistent s0 s tr) (he : Aside e) : Consistent s0 s (tr ++ e) := by
  have hm : marks (tr ++ e) = marks tr := by rw [marks_append, he.1, List.append_nil]
  have hnil : history (marks e) = [] := by rw [he.1]; rfl
  exact h.says (hm ▸ h.marked) (by rw [he.1]; rfl) (fun i a ha => by rw [hnil] at ha; cases ha) he.2.1 he.2.2

/-- A step at one connection, without events. -/
theorem Consistent.touch (h : Consistent s0 s tr) (hconns : s'.conns = s.conns.set i c') (hctl : s'.control = s.control)
    (hacc : s'.accepted = s.accepted)
    (hc' : ConnOk (history (marks tr)) (s'.awaited i) (s'.server.owes i) (replyOf tr i) i c')
    (haw : ∀ j, j ≠ i → s'.server.awaits j = none ∨ s'.server.awaits j = s.server.awaits j)
    (how : ∀ j, j ≠ i → s'.server.owes j = none ∨ s'.server.owes j = s.server.owes j)
    (hpast : ∀ n, s.server.Past s.accepted n → s'.server.Past s.accepted n) : Consistent s0 s' tr := by
  have hlen : s'.conns.length = s.conns.length := by rw [hconns, List.length_set]
  refine ⟨h.marked, hctl ▸ h.legal, hlen ▸ h.fresh, by rw [hacc, hlen]; exact h.accepted, fun j d hd => ?_, h.replied, ?_, h.ids⟩
  · rw [hconns] at hd
    rcases @getElem?_put s i j c' d hd with ⟨rfl, rfl⟩ | ⟨hj, hd⟩
    · exact hc'
    · refine (h.conns j d hd).frame (fun _ ha => ha) ?_ (how j hj)
      unfold IpcSystem.awaited
      rw [hacc]
      split
      · exact .inr rfl
      · exact haw j hj
  · obtain ⟨n, hn, hp⟩ := h.past
    exact ⟨n, hn, hacc ▸ hpast n hp⟩

/-- A step away from the connections. -/
theorem Consistent.apart (h : Consistent s0 s tr) (hconns : s'.conns = s.conns) (hctl : s'.control = s.control)
    (hacc : s'.accepted = s.accepted) (haw : ∀ j, s'.server.awaits j = none ∨ s'.server.awaits j = s.server.awaits j)
    (how : ∀ j, s'.server.owes j = none ∨ s'.server.owes j = s.server.owes j)
    (hpast : ∀ n, s.server.Past s.accepted n → s'.server.Past s.accepted n) : Consistent s0 s' tr := by
  refine ⟨h.marked, hctl ▸ h.legal,
    hconns ▸ h.fresh, by rw [hacc, hconns]; exact h.accepted, fun j d hd => ?_, h.replied, ?_, h.ids⟩
  · rw [hconns] at hd
    refine (h.conns j d hd).frame (fun _ ha => ha) ?_ (how j)
    unfold IpcSystem.awaited
    rw [hacc]
    split
    · exact .inr rfl
    · exact haw j
  · obtain ⟨n, hn, hp⟩ := h.past
    exact ⟨n, hn, hacc ▸ hpast n hp⟩

/-! ## The clients' steps -/

theorem Carries.ok {h : List (Act Nat UInt8 (List Message))} {aw ow : Option Bytes} {reply : Option IpcMsg} (hk : Carries c c')
    (hc : ConnOk h aw ow reply i c) : ConnOk h aw ow reply i c' := by
  refine ⟨hk.query ▸ hc.called, fun q got hq hg => ?_, hk.down ▸ hc.down, fun left hl => hk.down ▸ hc.owed left hl⟩
  rw [hk.query] at hq
  rw [hk.up (by rw [hq]; exact Option.some_ne_none q)]
  exact hc.up q got hq hg

theorem Consistent.carries (h : Consistent s0 s tr) (hc : s.conns[i]? = some c) (hk : Carries c c') :
    Consistent s0 (s.put i c') tr :=
  h.touch rfl rfl rfl (hk.ok (h.conns i c hc)) (fun _ _ => .inr rfl) (fun _ _ => .inr rfl) (fun _ hn => hn)

/-- `ipc_tx` returns; if with 0, then what it prints is what the reply comes to. -/
theorem Consistent.returns (h : Consistent s0 s tr) {ret : Int} {out : List Message}
    (hret : ret = 0 → ∃ reply, replyOf tr i = some reply ∧ out = (ipcTxDone reply).2) :
    Consistent s0 s (tr ++ [.returned i ret out]) := by
  by_cases h0 : ret = 0
  · obtain ⟨reply, hrep, rfl⟩ := hret h0
    obtain ⟨d, hd, rfl, hres⟩ := h.replied i reply hrep
    have hm : marks [.returned d.id ret (ipcTxDone reply).2] = [.ret d.id d.res] := by simp [marks, IpcEv.mark, h0, hres]
    refine h.says ?_ (by rw [hm]; rfl) (fun j a ha => ?_) rfl (fun _ => rfl)
    · rw [marks_append, hm]
      exact h.marked.ret hd
    · rw [hm] at ha
      cases List.mem_singleton.mp ha
  · exact h.aside ⟨by simp [marks, IpcEv.mark, h0], rfl, fun _ => rfl⟩

/-- A whole response is the reply. -/
theorem Consistent.response (h : Consistent s0 s tr) (hc : s.conns[i]? = some c) (hlen : c.got.length = ipcMsgSize) :
    ∃ reply, replyOf tr i = some reply ∧ IpcMsg.ofBytes c.got = reply := by
  have hdown := (h.conns i c hc).down
  cases hr : replyOf tr i with
  | none =>
    rw [hr] at hdown
    have hnil := List.prefix_nil.mp hdown
    rw [(List.append_eq_nil_iff.mp hnil).1] at hlen
    exact absurd hlen (by decide)
  | some reply =>
    rw [hr] at hdown
    have hgot : c.got = reply.bytes :=
      ((List.prefix_append c.got c.down).trans hdown).eq_of_length (hlen.trans reply.bytes_length.symm)
    exact ⟨reply, rfl, by rw [hgot, IpcMsg.ofBytes_bytes]⟩

theorem Consistent.received (h : Consistent s0 s tr) (hc : s.conns[i]? = some c) {n : Nat} (hf : clientRecv i n c = .ok (c', e)) :
    Consistent s0 (s.put i c') (tr ++ e) := by
  obtain ⟨hk, he⟩ := clientRecv_carries hf
  have hput := h.carries hc hk
  rcases he with rfl | ⟨hlen, rfl⟩
  · rw [List.append_nil]
    exact hput
  · have hi : i < s.conns.length := (List.getElem?_eq_some_iff.mp hc).1
    have hc' : (s.put i c').conns[i]? = some c' := List.getElem?_set_self hi
    obtain ⟨reply, hrep, hof⟩ := hput.response hc' hlen
    exact hput.returns fun _ => ⟨reply, hrep, by rw [hof]⟩

theorem Consistent.fails (h : Consistent s0 s tr) (hc : s.conns[i]? = some c) (out : List Message) :
    Consistent s0 (s.put i { c with live := false }) (tr ++ [.returned i (-1) out]) :=
  (h.carries hc (.closed c)).returns fun h0 => absurd h0 (by decide)

/-! ## The server's steps -/

theorem Server.Past.receiving {accepted n : Nat} {got : Bytes} {srv : Server} (h : srv.Past accepted n)
    (hs : srv = .receiving i got) : n = i ∧ i + 1 = accepted := by
  rw [hs] at h
  exact h

/-- Of connections not accepted none is settled, none replied to. -/
theorem Server.Past.bound {accepted n : Nat} {srv : Server} (h : srv.Past accepted n) :
    n ≤ accepted ∧ ∀ i, accepted ≤ i → srv.owes i = none := by
  cases srv with
  | idle => exact ⟨Nat.le_of_eq h, fun _ _ => rfl⟩
  | receiving j got => exact ⟨by have := h.1; have := h.2; omega, fun _ _ => rfl⟩
  | replying j served left =>
    refine ⟨Nat.le_of_eq h.1, fun i hi => if_neg ?_⟩
    have := h.2
    omega
  | gone => exact ⟨h.1, fun _ _ => rfl⟩

/-- One connection is open at most. -/
theorem Server.Past.open_one {accepted n : Nat} {srv : Server} (h : srv.Past accepted n) : accepted ≤ n + 1 := by
  cases srv with
  | idle => exact Nat.le_succ_of_le (Nat.le_of_eq h.symm)
  | receiving j got => exact Nat.le_of_eq (h.1 ▸ h.2.symm)
  | replying j served left => exact Nat.le_succ_of_le (Nat.le_of_eq h.1.symm)
  | gone => exact h.2

theorem awaited_serving {got : Bytes} (hs : s.server = .receiving i got) (hi : i + 1 = s.accepted) : s.awaited i = some got := by
  unfold IpcSystem.awaited
  rw [if_neg (by omega), hs]
  exact if_pos rfl

theorem Consistent.connect (h : Consistent s0 s tr) {query : Option UInt8} {left : Bytes}
    (hleft : ∀ q, query = some q → left = (ipcRequest q).bytes) (hs : ipcConnect s query left = .ok (s', e)) :
    Consistent s0 s' (tr ++ e) := by
  obtain ⟨rfl, rfl⟩ := ipcConnect_ok hs
  have hm : marks (tr ++ [.called s.conns.length query]) = marks tr ++ [.call s.conns.length (asks query)] := marks_append ..
  have hr : ∀ i, replyOf (tr ++ [.called s.conns.length query]) i = replyOf tr i := fun i => by
    rw [replyOf_append]
    exact Option.or_none
  have hset : settled (tr ++ [.called s.conns.length query]) = settled tr := by
    rw [settled_append]
    exact List.append_nil _
  refine ⟨?_, ?_, ?_, ?_, ?_, ?_, hset ▸ h.past, ?_⟩
  · rw [hm]
    exact h.marked.call fun a ha => absurd (h.fresh _ a ha) (Nat.lt_irrefl _)
  · rw [hm, points_call]
    exact h.legal
  · intro i a ha
    rw [hm, history_call] at ha
    show i < (s.conns ++ [newConn query left]).length
    rw [List.length_append, List.length_singleton]
    rcases List.mem_append.mp ha with ha | ha
    · exact Nat.lt_succ_of_lt (h.fresh i a ha)
    · cases List.mem_singleton.mp ha
      exact Nat.lt_succ_self _
  · show s.accepted ≤ (s.conns ++ [newConn query left]).length
    rw [List.length_append]
    exact Nat.le_trans h.accepted (Nat.le_add_right _ _)
  · intro i c hc
    rw [hm, hr, history_call]
    change (s.conns ++ [newConn query left])[i]? = some c at hc
    change ConnOk _ (s.awaited i) (s.server.owes i) _ i c
    by_cases hi : i < s.conns.length
    · rw [List.getElem?_append_left hi] at hc
      exact (h.conns i c hc).frame (fun _ ha => List.mem_append_left _ ha) (.inr rfl) (.inr rfl)
    · rw [List.getElem?_append_right (Nat.not_lt.mp hi)] at hc
      obtain ⟨hz, hget⟩ := List.getElem?_eq_some_iff.mp hc
      rw [List.length_singleton] at hz
      have hlen : i = s.conns.length := by omega
      rw [List.getElem_singleton] at hget
      subst hget hlen
      obtain ⟨n, hn, hp⟩ := h.past
      obtain ⟨hbound, howes⟩ := hp.bound
      refine ⟨List.mem_append_right _ List.mem_cons_self, fun q got hq hg => ?_, ?_, fun l hl => ?_⟩
      · unfold IpcSystem.awaited at hg
        rw [if_pos h.accepted] at hg
        cases hg
        exact hleft q hq
      · rw [h.unreplied hn (Nat.le_trans hbound h.accepted)]
        exact List.prefix_rfl
      · cases (howes _ h.accepted).symm.trans hl
  · intro i reply hi
    rw [hm, points_call]
    rw [hr] at hi
    exact h.replied i reply hi
  · rw [hm, hset, points_call]
    exact h.ids

theorem isIdle_iff {srv : Server} : srv.isIdle = true ↔ srv = .idle := by
  cases srv <;> simp [Server.isIdle]

theorem Consistent.accept (h : Consistent s0 s tr) (hidle : s.server.isIdle = true) (hlt : s.accepted < s.conns.length) :
    Consistent s0 { s with server := .receiving s.accepted [], accepted := s.accepted + 1 } tr := by
  have hsrv := isIdle_iff.mp hidle
  refine ⟨h.marked, h.legal, h.fresh, hlt, fun i c hc => ?_, h.replied, ?_, h.ids⟩
  · refine (h.conns i c hc).frame (fun _ ha => ha) ?_ (.inl rfl)
    unfold IpcSystem.awaited
    dsimp only
    by_cases hi : s.accepted + 1 ≤ i
    · rw [if_pos hi, if_pos (Nat.le_of_succ_le hi)]
      exact .inr rfl
    · rw [if_neg hi]
      by_cases he : s.accepted = i
      · rw [if_pos (Nat.le_of_eq he)]
        exact .inr (if_pos he)
      · exact .inl (if_neg he)
  · obtain ⟨n, hn, hp⟩ := h.past
    rw [hsrv] at hp
    exact ⟨n, hn, hp, rfl⟩

/-- The connection being served, and what of its message the server has. -/
theorem Consistent.receiving (h : Consistent s0 s tr) {got : Bytes} (hsrv : s.server = .receiving i got) :
    i + 1 = s.accepted ∧ settled tr = List.range i ∧ s.awaited i = some got := by
  obtain ⟨n, hn, hp⟩ := h.past
  obtain ⟨rfl, hi⟩ := hp.receiving hsrv
  exact ⟨hi, hn, awaited_serving hsrv hi⟩

theorem Consistent.more (h : Consistent s0 s tr) {got : Bytes} (hsrv : s.server = .receiving i got) (hc : s.conns[i]? = some c)
    (n : Nat) : Consistent s0 { s.put i { c with up := c.up.drop n } with server := .receiving i (got ++ c.up.take n) } tr := by
  obtain ⟨hi, -, haw⟩ := h.receiving hsrv
  have hok := h.conns i c hc
  refine @Consistent.touch s0 s _ tr i { c with up := c.up.drop n } h rfl rfl rfl ?_ (fun j hj => ?_)
    (fun j hj => ?_) (fun m hm => ?_)
  · have haw' : ({ s.put i { c with up := c.up.drop n } with server := .receiving i (got ++ c.up.take n) } :
      IpcSystem).awaited i =
        some (got ++ c.up.take n) := awaited_serving rfl hi
    rw [haw']
    refine ⟨hok.called, fun q g hq hg => ?_, hok.down, fun l hl => (nomatch hl)⟩
    cases hg
    have hup := hok.up q got hq haw
    rw [List.append_assoc, ← List.append_assoc (c.up.take n), List.take_append_drop]
    exact hup
  · exact .inl (if_neg (Ne.symm hj))
  · exact .inl rfl
  · rw [hsrv] at hm
    exact hm

theorem ipcExecute_seen (s : IpcSystem) (i : Nat) (msg : IpcMsg) : ∃ reply,
    reply = (ipcSwitch s.stats.success s.node.rx.noFec msg).reply ∧
      marks (ipcExecute s i msg).2 = [.point ⟨i, msg.query, (ipcTxDone reply).2⟩] ∧ settled (ipcExecute s i msg).2 = [i] ∧
        ∀ j, replyOf (ipcExecute s i msg).2 j = if i = j then some reply else none := by
  refine ⟨_, rfl, ?_⟩
  unfold ipcExecute
  dsimp only
  split
  · refine ⟨rfl, rfl, fun j => ?_⟩
    by_cases hj : i = j <;> simp [replyOf, hj]
  · refine ⟨rfl, rfl, fun j => ?_⟩
    by_cases hj : i = j <;> simp [replyOf, hj]

/-- A whole message is carried out: here its command takes effect. -/
theorem Consistent.execute (h : Consistent s0 s tr) {got : Bytes} (hsrv : s.server = .receiving i got)
    (hlen : got.length = ipcMsgSize) (hc : s.conns[i]? = some c) :
    Consistent s0 (ipcExecute s i (.ofBytes got)).1 (tr ++ (ipcExecute s i (.ofBytes got)).2) := by
  obtain ⟨hi, hset, haw⟩ := h.receiving hsrv
  obtain ⟨reply, hreply, hmarks, hsettled, hreplies⟩ := ipcExecute_seen s i (.ofBytes got)
  have hok := h.conns i c hc
  have hnone : replyOf tr i = none := h.unreplied hset (Nat.le_refl i)
  have hm : marks (tr ++ (ipcExecute s i (.ofBytes got)).2) =
      marks tr ++ [.point ⟨i, (IpcMsg.ofBytes got).query, (ipcTxDone reply).2⟩] := by rw [marks_append, hmarks]
  have hr : ∀ j, replyOf (tr ++ (ipcExecute s i (.ofBytes got)).2) j = if i = j then some reply else replyOf tr j := by
    intro j
    rw [replyOf_append, hreplies]
    by_cases hj : i = j
    · rw [if_pos hj, if_pos hj, ← hj, hnone]
      rfl
    · rw [if_neg hj, if_neg hj, Option.or_none]
  have hs : settled (tr ++ (ipcExecute s i (.ofBytes got)).2) = List.range (i + 1) := by
    rw [settled_append, hset, hsettled, List.range_succ]
  -- what was received is what `ipc_tx` sent
  have hasks : asks c.query (IpcMsg.ofBytes got).query := by
    cases hq : c.query with
    | none => trivial
    | some q =>
      have hup := hok.up q got hq haw
      have hgot : got = (ipcRequest q).bytes :=
        (hup ▸ List.prefix_append got _).eq_of_length (hlen.trans (ipcRequest q).bytes_length.symm)
      rw [hgot, IpcMsg.ofBytes_bytes]
      rfl
  have hctl : (ipcExecute s i (.ofBytes got)).1.control =
      ⟨(ipcSwitch s.stats.success s.node.rx.noFec (.ofBytes got)).noFec,
        s.stats.ipcSuccess + 1⟩ := rfl
  have hserves := served_prints s.control s.stats.success rfl (.ofBytes got)
  refine ⟨?_, ?_, ?_, h.accepted, ?_, ?_, ⟨i + 1, hs, hi, hi⟩, ?_⟩
  · rw [hm]
    refine h.marked.point hok.called hasks fun d hd hid => ?_
    have hmem := h.ids.subset (List.mem_map_of_mem hd)
    rw [hset, List.mem_range] at hmem
    exact Nat.ne_of_lt hmem hid
  · rw [hm, points_point, hctl]
    refine h.legal.snoc ?_
    rw [hreply]
    exact hserves
  · rw [hm, history_point]
    exact h.fresh
  · intro j d hd
    rw [hm, history_point, hr]
    by_cases hj : i = j
    · subst hj
      have hd' : d = c := Option.some.inj (hd.symm.trans hc)
      subst hd'
      have hempty : d.got ++ d.down = [] := by
        have hdown := hok.down
        rw [hnone] at hdown
        exact List.prefix_nil.mp hdown
      rw [if_pos rfl]
      refine ⟨hok.called, fun q g hq hg => ?_, ?_, fun left hl => ?_⟩
      · change (if s.accepted ≤ i then some [] else none) = some g at hg
        rw [if_neg (by omega)] at hg
        cases hg
      · rw [hempty]
        exact List.nil_prefix
      · have howes : some reply.bytes = some left := by
          rw [hreply]
          exact (if_pos rfl).symm.trans hl
        cases howes
        rw [hempty]
        rfl
    · rw [if_neg hj]
      refine (h.conns j d hd).frame (fun _ ha => ha) ?_ (.inl (if_neg hj))
      unfold IpcSystem.awaited
      show (if s.accepted ≤ j then _ else none) = none ∨ (if s.accepted ≤ j then _ else none) = _
      split
      · exact .inr rfl
      · exact .inl rfl
  · intro j r hj
    rw [hr] at hj
    rw [hm, points_point]
    by_cases hij : i = j
    · rw [if_pos hij] at hj
      cases hj
      exact ⟨_, List.mem_append_right _ List.mem_cons_self, hij, rfl⟩
    · rw [if_neg hij] at hj
      obtain ⟨d, hd, hid⟩ := h.replied j r hj
      exact ⟨d, List.mem_append_left _ hd, hid⟩
  · rw [hm, points_point, List.map_append, hs, List.range_succ, ← hset]
    exact h.ids.append (List.Sublist.refl _)

theorem Consistent.giveUp (h : Consistent s0 s tr) {got : Bytes} (hsrv : s.server = .receiving i got) (hc : s.conns[i]? = some c)
    (msgs : List Message) : Consistent s0 (ipcGiveUp s i c msgs).1 (tr ++ (ipcGiveUp s i c msgs).2) := by
  obtain ⟨hi, hset, -⟩ := h.receiving hsrv
  have hm : marks (tr ++ (ipcGiveUp s i c msgs).2) = marks tr := by
    rw [marks_append]
    exact List.append_nil _
  have hr : ∀ j, replyOf (tr ++ (ipcGiveUp s i c msgs).2) j = replyOf tr j := fun j => by
    rw [replyOf_append]
    exact Option.or_none
  have hs : settled (tr ++ (ipcGiveUp s i c msgs).2) = List.range (i + 1) := by
    rw [settled_append, hset, List.range_succ]
    rfl
  have hlen : (ipcGiveUp s i c msgs).1.conns.length = s.conns.length := List.length_set
  refine ⟨hm ▸ h.marked, hm ▸ h.legal, ?_, ?_, ?_, ?_, ⟨i + 1, hs, hi⟩, ?_⟩
  · rw [hm, hlen]
    exact h.fresh
  · rw [hlen]
    exact h.accepted
  · intro j d hd
    rw [hm, hr]
    have haw : ∀ j, (ipcGiveUp s i c msgs).1.awaited j = none ∨ (ipcGiveUp s i c msgs).1.awaited j = s.awaited j := by
      intro j
      unfold IpcSystem.awaited
      show (if s.accepted ≤ j then some [] else none) = none ∨ (if s.accepted ≤ j then some [] else none) = _
      split
      · exact .inr rfl
      · exact .inl rfl
    rcases getElem?_put hd with ⟨rfl, rfl⟩ | ⟨-, hd⟩
    · exact ((Carries.ended c).ok (h.conns j c hc)).frame (fun _ ha => ha) (haw j) (.inl rfl)
    · exact (h.conns j d hd).frame (fun _ ha => ha) (haw j) (.inl rfl)
  · intro j reply hj
    rw [hm]
    rw [hr] at hj
    exact h.replied j reply hj
  · rw [hm, hs, List.range_succ, ← hset]
    exact h.ids.trans (List.sublist_append_left _ _)

/-- The connection being replied to, and what of the reply is still owed. -/
theorem Consistent.replying (h : Consistent s0 s tr) {served : Served} {left : Bytes}
    (hsrv : s.server = .replying i served left) :
    i + 1 = s.accepted ∧ s.awaited i = none ∧ ∀ c, s.conns[i]? = some c →
    (c.got ++ c.down) ++ left = replyBytes (replyOf tr i) := by
  obtain ⟨n, -, hp⟩ := h.past
  rw [hsrv] at hp
  have hi : i + 1 = s.accepted := hp.2
  refine ⟨hi, ?_, fun c hc => (h.conns i c hc).owed left ?_⟩
  · unfold IpcSystem.awaited
    rw [if_neg (by omega), hsrv]
    rfl
  · rw [hsrv]
    exact if_pos rfl

/-- More of the reply is sent. -/
theorem Consistent.sent (h : Consistent s0 s tr) {served : Served} {left : Bytes} (hsrv : s.server = .replying i served left)
    (hc : s.conns[i]? = some c) (n : Nat) :
    Consistent s0 { s.put i { c with down := c.down ++ left.take n } with server := .replying i served (left.drop n) } tr := by
  obtain ⟨hi, haw, howed⟩ := h.replying hsrv
  have hok := h.conns i c hc
  have hsplit : (c.got ++ (c.down ++ left.take n)) ++ left.drop n = replyBytes (replyOf tr i) := by
    rw [← howed c hc, ← List.append_assoc, List.append_assoc (c.got ++ c.down), List.take_append_drop]
  have haw' : ({ s.put i { c with down := c.down ++ left.take n } with server := .replying i served (left.drop n) } :
    IpcSystem).awaited i =
      none := by
    change (if s.accepted ≤ i then some [] else none) = none
    rw [if_neg (by omega)]
  refine @Consistent.touch s0 s _ tr i { c with down := c.down ++ left.take n } h rfl rfl rfl ?_
    (fun j _ => .inl rfl) (fun j hj => ?_)
    (fun m hm => ?_)
  · rw [haw']
    refine ⟨hok.called, fun q g _ hg => (nomatch hg), hsplit ▸ List.prefix_append _ _, fun l hl => ?_⟩
    have hl' : some (left.drop n) = some l := (if_pos rfl).symm.trans hl
    cases hl'
    exact hsplit
  · exact .inl (if_neg (Ne.symm hj))
  · rw [hsrv] at hm
    exact hm

/-- The end of `ipc_rx`. -/
theorem Consistent.finish (h : Consistent s0 s tr) {served : Served} {left : Bytes} (hsrv : s.server = .replying i served left)
    (hc : s.conns[i]? = some c) (msgs : List Message) :
    Consistent s0 (ipcFinish s i c served msgs).1 (tr ++ (ipcFinish s i c served msgs).2) := by
  obtain ⟨hi, -, -⟩ := h.replying hsrv
  have hok := h.conns i c hc
  refine Consistent.aside ?_ (aside_printed _)
  refine @Consistent.touch s0 s _ tr i { c with ended := true } h rfl rfl rfl ?_ (fun j _ => .inl rfl)
    (fun j _ => .inl rfl) (fun m hm => ?_)
  · have haw' : (ipcFinish s i c served msgs).1.awaited i = none := by
      change (if s.accepted ≤ i then some [] else none) = none
      rw [if_neg (by omega)]
    rw [haw']
    exact ((Carries.ended c).ok hok).frame (fun _ ha => ha) (.inl rfl) (.inl rfl)
  · rw [hsrv] at hm
    exact hm.1

theorem Consistent.gone (h : Consistent s0 s tr) : Consistent s0 { s with server := .gone } tr := by
  refine h.apart rfl rfl rfl (fun _ => .inl rfl) (fun _ => .inl rfl) fun n hn => ?_
  exact ⟨hn.bound.1, hn.open_one⟩

theorem Consistent.worked (h : Consistent s0 s tr) {inp : NodeInput} {evs : List NodeEv} (hw : Worked x lib s s' e inp evs) :
    Consistent s0 s' (tr ++ e) := by
  obtain ⟨hnot, hnode, ⟨stats, hs⟩, rfl⟩ := hw
  refine Consistent.aside ?_ (aside_node _ _)
  have hctl : s'.control = s.control := by
    unfold IpcSystem.control
    rw [nodeStep_noFec hnot hnode, hs]
  exact h.apart (by rw [hs]) hctl (by rw [hs]) (fun j => .inr (by rw [hs])) (fun j => .inr (by rw [hs])) fun n hn => by
    rw [hs]
    exact hn

theorem ipcFinish_sent {served : Served} {left : Bytes} {n : Nat} {c' : Conn} (msgs : List Message) :
    ipcFinish { s.put i c' with server := .replying i served (left.drop n) } i c' served msgs = ipcFinish s i c' served msgs := by
  unfold ipcFinish IpcSystem.put
  simp only [List.set_set]

theorem Consistent.step (h : Consistent s0 s tr) (hs : Stepped x lib s s' e) : Consistent s0 s' (tr ++ e) := by
  cases hs with
  | connected query left hleft hcon => exact h.connect hleft hcon
  | carried hc hk => exact (h.carries hc hk).aside aside_nil
  | received hc hf => exact h.received hc hf
  | failed out hc => exact h.fails hc out
  | accepted hidle hlt => exact (h.accept hidle hlt).aside aside_nil
  | refused msgs =>
    refine Consistent.aside ?_ ⟨rfl, rfl, fun _ => rfl⟩
    exact h.apart rfl rfl rfl (fun _ => .inr rfl) (fun _ => .inr rfl) fun _ hn => hn
  | more n hsrv hc => exact (h.more hsrv hc n).aside aside_nil
  | executed n hsrv hc hlen =>
    have hi := (List.getElem?_eq_some_iff.mp hc).1
    exact (h.more hsrv hc n).execute rfl hlen (List.getElem?_set_self hi)
  | gaveUp msgs hsrv hc => exact h.giveUp hsrv hc msgs
  | sent n hsrv hc => exact (h.sent hsrv hc n).aside aside_nil
  | finished n msgs hsrv hc =>
    have hi := (List.getElem?_eq_some_iff.mp hc).1
    have hfin := (h.sent hsrv hc n).finish rfl (List.getElem?_set_self hi) msgs
    rw [ipcFinish_sent] at hfin
    exact hfin
  | gone => exact h.gone.aside aside_nil
  | worked hw => exact h.worked hw

theorem consistent_fresh (h0 : s0.Fresh) : Consistent s0 s0 [] := by
  obtain ⟨hconns, hacc, hidle⟩ := h0
  refine ⟨.nil, .nil, fun i a ha => (nomatch ha), ?_, fun i c hc => ?_, fun i reply hi => (nomatch hi), ⟨0, rfl, ?_⟩,
    List.Sublist.refl _⟩
  · rw [hacc]
    exact Nat.zero_le _
  · rw [hconns] at hc
    cases hc
  · rw [isIdle_iff.mp hidle]
    exact hacc.symm

theorem consistent_run (h0 : s0.Fresh) {is : List IpcInput} (h : Machine.Run (ipcStep x lib) (fun _ _ => True) s0 is s tr) :
    Consistent s0 s tr :=
  h.inv (fun _ s tr => Consistent s0 s tr) (consistent_fresh h0) fun _ _ _ _ _ _ hi _ hs => hi.step (ipcStep_cases hs)

/-- Over every interleaving of any number of clients, of frames and of failures, the commands
    amount to commands given one after the other in the order of their `connect`: each at most
    once, each that returned 0 with what it printed, between its `connect` and its return. -/
theorem commands_linearize (h0 : s0.Fresh) {is : List IpcInput} (h : Machine.Run (ipcStep x lib) (fun _ _ => True) s0 is s tr) :
    Linearizes Serves s0.control s.control (history (marks tr)) (points (marks tr)) ∧
      ((points (marks tr)).map Done.id).Pairwise (· < ·) := by
  have hc := consistent_run h0 h
  obtain ⟨n, hn, -⟩ := hc.past
  exact ⟨hc.marked.linearizes hc.legal, (hn ▸ List.pairwise_lt_range).sublist hc.ids⟩

/-- A receiver without clients. -/
def quietReceiver : IpcSystem := ⟨someNode, .zero, true, false, [], 0, .idle⟩

/-- A command returned 0 and printed this. -/
def printedBy (i : Nat) (out : List Message) : IpcEv → Bool
  | .returned j ret out' => decide (j = i ∧ ret = 0 ∧ out' = out)
  | _ => false

/-- Two commands at once, the first in pieces, with a frame before the second is served. -/
theorem quietReceiver_run : ∃ is s tr,
    Machine.Run (ipcStep (numbered 1 1).externals basicIterator) (fun _ _ => True) quietReceiver is s tr ∧
      tr.any (printedBy 1 (fecPrinted true)) = true ∧ heardBy tr ≠ [] := by
  obtain ⟨s, tr, hrun, hq⟩ := Machine.exists_run (ipcStep (numbered 1 1).externals basicIterator) (fun _ _ => True) quietReceiver
    [.connect (ascii "FEC_Toggle"), .clientSend 0 100, .accept, .connect (ascii "fec"), .serverRecv 60,
      .clientSend 1 144, .clientSend 0 44,
      .serverRecv 84, .serverSend 7, .clientRecv 0 5, .serverSend 137, .work (.capture airSession) .zero,
        .clientRecv 0 139, .accept,
      .serverRecv 144, .serverSend 144, .clientRecv 1 144]
    (fun p => p.2.any (printedBy 1 (fecPrinted true)) && !(heardBy p.2).isEmpty) (by decide +kernel)
  rw [Bool.and_eq_true, Bool.not_eq_true', List.isEmpty_eq_false_iff] at hq
  exact ⟨_, s, tr, hrun, hq⟩

theorem commands_linearize_run : ∃ (is : List IpcInput) (s : IpcSystem) (tr : List IpcEv),
    Machine.Run (ipcStep (numbered 1 1).externals basicIterator) (fun _ _ => True) quietReceiver is s tr ∧
      tr.any (printedBy 1 (fecPrinted true)) = true ∧
        Linearizes Serves quietReceiver.control s.control (history (marks tr)) (points (marks tr)) ∧
          ((points (marks tr)).map Done.id).Pairwise (· < ·) := by
  obtain ⟨is, s, tr, hrun, hprinted, -⟩ := quietReceiver_run
  exact ⟨is, s, tr, hrun, hprinted, commands_linearize ⟨rfl, rfl, rfl⟩ hrun⟩

/-! ## What becomes of connections -/

def IpcEv.isFailed : IpcEv → Bool
  | .failed _ => true
  | _ => false

/-- The counters of `wfb_stats` count what was carried out and what failed. -/
structure Counted (s0 s : IpcSystem) (tr : List IpcEv) : Prop where
  success : s.stats.ipcSuccess = s0.stats.ipcSuccess + UInt64.ofNat (points (marks tr)).length
  error : s.stats.ipcError = s0.stats.ipcError + UInt64.ofNat (tr.countP IpcEv.isFailed)

theorem Counted.refl (s : IpcSystem) : Counted s s [] := ⟨(UInt64.add_zero _).symm, (UInt64.add_zero _).symm⟩

theorem Counted.trans (h : Counted s0 s tr) (h' : Counted s s' e) : Counted s0 s' (tr ++ e) := by
  refine ⟨?_, ?_⟩
  · rw [h'.success, h.success, marks_append, points_append, List.length_append, UInt64.ofNat_add, UInt64.add_assoc]
  · rw [h'.error, h.error, List.countP_append, UInt64.ofNat_add, UInt64.add_assoc]

theorem Counted.same (hs : s'.stats = s.stats) (hp : points (marks e) = []) (hf : e.countP IpcEv.isFailed = 0) :
    Counted s s' e := by
  refine ⟨?_, ?_⟩
  · rw [hs, hp]
    exact (UInt64.add_zero _).symm
  · rw [hs, hf]
    exact (UInt64.add_zero _).symm

theorem Stepped.counted (hs : Stepped x lib s s' e) : Counted s s' e := by
  cases hs with
  | connected query left _ hcon =>
    obtain ⟨rfl, rfl⟩ := ipcConnect_ok hcon
    exact .same rfl rfl rfl
  | carried _ _ => exact .same rfl rfl rfl
  | received _ hf =>
    rcases (clientRecv_carries hf).2 with rfl | ⟨-, rfl⟩
    · exact .same rfl rfl rfl
    · exact .same rfl (points_returned _ _ _) rfl
  | failed _ _ => exact .same rfl rfl rfl
  | accepted _ _ => exact .same rfl rfl rfl
  | refused _ => exact ⟨(UInt64.add_zero _).symm, rfl⟩
  | more _ _ _ => exact .same rfl rfl rfl
  | @executed i got c n _ _ _ =>
    obtain ⟨reply, -, hmarks, -, -⟩ := ipcExecute_seen (s.put i { c with up := c.up.drop n }) i (.ofBytes (got ++ c.up.take n))
    refine ⟨?_, ?_⟩
    · rw [hmarks]
      rfl
    · unfold ipcExecute
      dsimp only
      split <;> exact (UInt64.add_zero _).symm
  | gaveUp _ _ _ => exact ⟨(UInt64.add_zero _).symm, rfl⟩
  | sent _ _ _ => exact .same rfl rfl rfl
  | finished _ _ _ _ => exact .same rfl rfl rfl
  | gone => exact .same rfl rfl rfl
  | worked hw =>
    obtain ⟨-, -, ⟨stats, hs⟩, rfl⟩ := hw
    rw [hs]
    have hnone : ∀ evs : List NodeEv, (evs.map IpcEv.node).countP IpcEv.isFailed = 0 := by
      intro evs
      rw [List.countP_eq_zero]
      intro v hv
      obtain ⟨w, -, rfl⟩ := List.mem_map.mp hv
      exact Bool.false_ne_true
    refine ⟨?_, ?_⟩
    · rw [(aside_node _ _).1]
      exact (UInt64.add_zero _).symm
    · rw [List.countP_cons, hnone]
      exact (UInt64.add_zero _).symm

/-- Every connection the receiver takes is settled once, in order: its request is carried out
    and counted as a success, or it is given up and counted as an error. At most the last one
    is open. -/
theorem connections_settled (h0 : s0.Fresh) {is : List IpcInput} (h : Machine.Run (ipcStep x lib) (fun _ _ => True) s0 is s tr) :
    ∃ n, settled tr = List.range n ∧ n ≤ s.accepted ∧ s.accepted ≤ n + 1 ∧ (s.server.isIdle = true → n = s.accepted) ∧
      Counted s0 s tr := by
  have hcount : Counted s0 s tr := h.inv (fun _ s tr => Counted s0 s tr) (.refl s0) fun _ _ _ _ _ _ hi _ hs =>
    hi.trans (ipcStep_cases hs).counted
  obtain ⟨n, hn, hp⟩ := (consistent_run h0 h).past
  refine ⟨n, hn, hp.bound.1, hp.open_one, fun hidle => ?_, hcount⟩
  rw [isIdle_iff.mp hidle] at hp
  exact hp

theorem connections_settled_run : ∃ (is : List IpcInput) (s : IpcSystem) (tr : List IpcEv),
    Machine.Run (ipcStep (numbered 1 1).externals basicIterator) (fun _ _ => True) quietReceiver is s tr ∧
      ∃ n, settled tr = List.range n ∧ n ≤ s.accepted ∧ s.accepted ≤ n + 1 ∧ (s.server.isIdle = true → n = s.accepted) ∧
        Counted quietReceiver s tr := by
  obtain ⟨is, s, tr, hrun, -, -⟩ := quietReceiver_run
  exact ⟨is, s, tr, hrun, connections_settled ⟨rfl, rfl, rfl⟩ hrun⟩

/-! ## The receiver behind the socket -/

def isToggle : NodeInput → Bool
  | .fecToggle => true
  | _ => false

/-- The requests to switch FEC that were carried out. -/
def toggles (tr : List IpcEv) : Nat := (points (marks tr)).countP fun d => d.op = wfbIpcFecToggle

@[simp] theorem heardBy_append (t t' : List IpcEv) : heardBy (t ++ t') = heardBy t ++ heardBy t' := List.filterMap_append ..

theorem heardBy_node (inp : NodeInput) (evs : List NodeEv) : heardBy (.heard inp :: evs.map .node) = [inp] := by
  show inp :: heardBy (evs.map .node) = [inp]
  congr 1
  induction evs with
  | nil => rfl
  | cons e evs ih => exact ih

/-- What the receiver does and says, FEC switched included. -/
def IpcEv.reported : IpcEv → List NodeEv
  | .node e => [e]
  | .heard .fecToggle => [.rx (.msg .info "Execute IPC FEC_TOGGLE.\n")]
  | _ => []

def reportedBy (tr : List IpcEv) : List NodeEv := tr.flatMap IpcEv.reported

@[simp] theorem reportedBy_append (t t' : List IpcEv) : reportedBy (t ++ t') = reportedBy t ++ reportedBy t' :=
  List.flatMap_append

theorem reportedBy_node {inp : NodeInput} (h : inp ≠ .fecToggle) (evs : List NodeEv) :
    reportedBy (.heard inp :: evs.map .node) = evs := by
  have hheard : IpcEv.reported (.heard inp) = [] := by
    cases inp with
    | fecToggle => exact absurd rfl h
    | capture c => rfl
    | datagram d => rfl
  have hnodes : reportedBy (evs.map .node) = evs := by simp [reportedBy, List.flatMap_map, IpcEv.reported]
  unfold reportedBy at hnodes ⊢
  rw [List.flatMap_cons, hheard, hnodes]
  rfl

/-- A step is none of the receiver's, or one of its steps. -/
structure NodeStepped (x : Externals) (lib : RadiotapLib) (node node' : RxNode) (e : List IpcEv) : Prop where
  run : Machine.Run (nodeStep x lib) (fun _ _ => True) node (heardBy e) node' (reportedBy e)
  toggles : (heardBy e).countP isToggle = toggles e

theorem NodeStepped.none {node : RxNode} (hh : heardBy e = []) (hr : reportedBy e = []) (hp : points (marks e) = []) :
    NodeStepped x lib node node e := by
  refine ⟨by rw [hh, hr]; exact .nil, ?_⟩
  unfold WfbYa.Ipc.toggles
  rw [hh, hp]
  rfl

theorem NodeStepped.trans {n1 n2 n3 : RxNode} (h : NodeStepped x lib n1 n2 tr) (h' : NodeStepped x lib n2 n3 e) :
    NodeStepped x lib n1 n3 (tr ++ e) := by
  refine ⟨by rw [heardBy_append, reportedBy_append]; exact h.run.append h'.run, ?_⟩
  have ht := h.toggles
  have ht' := h'.toggles
  unfold WfbYa.Ipc.toggles at ht ht' ⊢
  rw [heardBy_append, List.countP_append, ht, ht', marks_append, points_append, List.countP_append]

theorem ipcSwitch_noFec (stats : Statistics) (noFec : Bool) (msg : IpcMsg) :
    (ipcSwitch stats noFec msg).noFec = if msg.query = wfbIpcFecToggle then !noFec else noFec := by
  unfold ipcSwitch
  by_cases h : msg.query = wfbIpcFecToggle
  · rw [if_pos h, h]
    rfl
  · rw [if_neg h, if_neg h]
    repeat' split
    all_goals rfl

theorem executed_node (s : IpcSystem) (i : Nat) (msg : IpcMsg) :
    NodeStepped x lib s.node (ipcExecute s i msg).1.node (ipcExecute s i msg).2 := by
  obtain ⟨reply, -, hmarks, -, -⟩ := ipcExecute_seen s i msg
  have hno := ipcSwitch_noFec s.stats.success s.node.rx.noFec msg
  have hnode : (ipcExecute s i msg).1.node =
      { s.node with rx := { s.node.rx with noFec := (ipcSwitch s.stats.success s.node.rx.noFec msg).noFec } } := rfl
  have hheard : heardBy (ipcExecute s i msg).2 = (if msg.query = wfbIpcFecToggle then [.fecToggle] else []) ∧
      reportedBy (ipcExecute s i msg).2 = if msg.query = wfbIpcFecToggle then
        [.rx (.msg .info "Execute IPC FEC_TOGGLE.\n")] else [] := by
    unfold ipcExecute
    dsimp only
    rw [hno]
    by_cases h : msg.query = wfbIpcFecToggle
    · rw [if_pos h, if_pos h, if_pos h, if_pos (by simp)]
      exact ⟨rfl, rfl⟩
    · rw [if_neg h, if_neg h, if_neg h, if_neg (by simp)]
      exact ⟨rfl, rfl⟩
  have htoggles : toggles (ipcExecute s i msg).2 = if msg.query = wfbIpcFecToggle then 1 else 0 := by
    unfold toggles
    rw [hmarks]
    by_cases h : msg.query = wfbIpcFecToggle <;> simp [points, Mark.done, h]
  by_cases h : msg.query = wfbIpcFecToggle
  · rw [if_pos h, if_pos h] at hheard
    rw [if_pos h] at hno htoggles
    refine ⟨?_, by rw [hheard.1, htoggles]; rfl⟩
    rw [hheard.1, hheard.2, hnode, hno]
    exact .single trivial rfl
  · rw [if_neg h, if_neg h] at hheard
    rw [if_neg h] at hno htoggles
    refine ⟨?_, by rw [hheard.1, htoggles]; rfl⟩
    rw [hheard.1, hheard.2, hnode, hno]
    exact .nil

theorem Stepped.node (hs : Stepped x lib s s' e) : NodeStepped x lib s.node s'.node e := by
  cases hs with
  | connected query left _ hcon =>
    obtain ⟨rfl, rfl⟩ := ipcConnect_ok hcon
    exact .none rfl rfl rfl
  | carried _ _ => exact .none rfl rfl rfl
  | received _ hf =>
    rcases (clientRecv_carries hf).2 with rfl | ⟨-, rfl⟩
    · exact .none rfl rfl rfl
    · exact .none rfl rfl (points_returned _ _ _)
  | failed _ _ => exact .none rfl rfl rfl
  | accepted _ _ => exact .none rfl rfl rfl
  | refused _ => exact .none rfl rfl rfl
  | more _ _ _ => exact .none rfl rfl rfl
  | @executed i got c n _ _ _ => exact executed_node (s.put i { c with up := c.up.drop n }) i _
  | gaveUp _ _ _ => exact .none rfl rfl rfl
  | sent _ _ _ => exact .none rfl rfl rfl
  | finished _ _ _ _ => exact .none rfl rfl rfl
  | gone => exact .none rfl rfl rfl
  | worked hw =>
    obtain ⟨hnot, hnode, -, rfl⟩ := hw
    refine ⟨by rw [heardBy_node, reportedBy_node hnot]; exact .single trivial hnode, ?_⟩
    unfold toggles
    rw [heardBy_node, (aside_node _ _).1, List.countP_singleton]
    cases hinp : isToggle _ with
    | false => rfl
    | true =>
      exfalso
      apply hnot
      unfold isToggle at hinp
      split at hinp
      · rfl
      · cases hinp

/-! ## How the receiver ends -/

/-- A request of this kind was carried out. -/
def CarriedOut (q : UInt8) (tr : List IpcEv) : Prop := ∃ i msg reply, .executed i msg reply ∈ tr ∧ msg.query = q

theorem CarriedOut.append {q : UInt8} (h : CarriedOut q tr) (e : List IpcEv) : CarriedOut q (tr ++ e) := by
  obtain ⟨i, msg, reply, hmem, hq⟩ := h
  exact ⟨i, msg, reply, List.mem_append_left e hmem, hq⟩

/-- The event loop was left, or will be behind this reply. -/
def IpcSystem.leaving (s : IpcSystem) : Bool :=
  s.exiting || match s.server with
    | .replying _ served _ => served.exits
    | _ => false

theorem ipcSwitch_exits (stats : Statistics) (noFec : Bool) (msg : IpcMsg) :
    (ipcSwitch stats noFec msg).exits = true → msg.query = wfbIpcExit := by
  unfold ipcSwitch
  repeat' split
  all_goals first | exact fun _ => by assumption | exact fun h => by cases h

theorem ipcExecute_mem (s : IpcSystem) (i : Nat) (msg : IpcMsg) : ∃ reply, .executed i msg reply ∈ (ipcExecute s i msg).2 :=
  ⟨_, List.mem_append_left _ (List.mem_cons_of_mem _ List.mem_cons_self)⟩

/-- Only an exit command has the event loop left. -/
theorem Stepped.leaving (hs : Stepped x lib s s' e) (h : s'.leaving = true) : s.leaving = true ∨ CarriedOut wfbIpcExit e := by
  cases hs with
  | connected query left _ hcon =>
    obtain ⟨rfl, rfl⟩ := ipcConnect_ok hcon
    exact .inl h
  | carried _ _ | received _ _ | failed _ _ | refused _ => exact .inl h
  | accepted _ _ | more _ _ _ | gaveUp _ _ _ | gone =>
    have hexit : s.exiting = true := by simpa [IpcSystem.leaving, ipcGiveUp, IpcSystem.put] using h
    exact .inl (by simp [IpcSystem.leaving, hexit])
  | @executed i got c n _ _ _ =>
    unfold IpcSystem.leaving at h ⊢
    rcases (Bool.or_eq_true _ _).mp h with hexit | hserved
    · rw [show s.exiting = true from hexit]
      exact .inl rfl
    · obtain ⟨reply, hmem⟩ := ipcExecute_mem (s.put i { c with up := c.up.drop n }) i (.ofBytes (got ++ c.up.take n))
      exact .inr ⟨i, _, reply, hmem, ipcSwitch_exits _ _ _ hserved⟩
  | @sent i served left c n hsrv _ =>
    refine .inl ?_
    unfold IpcSystem.leaving at h ⊢
    rw [hsrv]
    exact h
  | @finished i served left c n msgs hsrv _ =>
    refine .inl ?_
    unfold IpcSystem.leaving at h ⊢
    rw [hsrv]
    simpa [ipcFinish] using h
  | worked hw =>
    obtain ⟨-, -, ⟨stats, hrest⟩, -⟩ := hw
    rw [hrest] at h
    exact .inl h

theorem ipcStep_daemon {inp : IpcInput} (hs : ipcStep x lib s inp = .ok (s', e)) : s'.daemon = s.daemon := by
  cases ipcStep_cases hs with
  | connected query left _ hcon =>
    obtain ⟨rfl, rfl⟩ := ipcConnect_ok hcon
    rfl
  | worked hw =>
    obtain ⟨-, -, ⟨stats, hrest⟩, -⟩ := hw
    rw [hrest]
  | _ => rfl

/-- A receiver that is gone was stopped, or is no daemon and replied to a client that had gone. -/
theorem ipcStep_gone {inp : IpcInput} (hs : ipcStep x lib s inp = .ok (s', e)) (h : s'.server.isGone = true) :
    s.server.isGone = true ∨ inp = .stop ∨ s.daemon = false ∧ ∃ why, inp = .serverPipe why := by
  cases inp with
  | stop => exact .inr (.inl rfl)
  | connect param =>
    simp only [ipcStep] at hs
    split at hs
    · obtain ⟨rfl, rfl⟩ := ipcConnect_ok hs
      exact .inl h
    · cases hs
  | connectOther =>
    obtain ⟨rfl, rfl⟩ := ipcConnect_ok hs
    exact .inl h
  | clientSend i n | clientRecv i n | clientEof i | clientFail i t errno | clientKilled i =>
    obtain ⟨c, c', q, -, -, -, rfl⟩ := toolStep_cases hs
    exact .inl h
  | otherSend i bs | otherRecv i n | otherClose i =>
    obtain ⟨c, c', -, -, -, -, rfl⟩ := otherStep_cases hs
    exact .inl h
  | accept =>
    simp only [ipcStep] at hs
    split at hs <;> cases hs
    cases h
  | acceptFail why =>
    simp only [ipcStep] at hs
    split at hs <;> cases hs
    exact .inl h
  | serverRecv n =>
    obtain ⟨i, got, c, -, -, hs⟩ := receivingStep_cases hs
    unfold serverRecv at hs
    split at hs
    · dsimp only at hs
      split at hs <;> cases hs <;> cases h
    · cases hs
  | serverEof =>
    obtain ⟨i, got, c, -, -, hs⟩ := receivingStep_cases hs
    split at hs <;> cases hs
    cases h
  | serverFail t =>
    simp only [ipcStep] at hs
    split at hs
    · obtain ⟨i, got, c, -, -, hs⟩ := receivingStep_cases hs
      cases hs
      cases h
    · obtain ⟨i, served, left, c, -, -, hs⟩ := replyingStep_cases hs
      cases hs
      cases h
  | serverSend n =>
    obtain ⟨i, served, left, c, -, -, hs⟩ := replyingStep_cases hs
    unfold serverSend at hs
    split at hs
    · dsimp only at hs
      split at hs <;> cases hs <;> cases h
    · cases hs
  | serverPipe why =>
    obtain ⟨i, served, left, c, -, -, hs⟩ := replyingStep_cases hs
    split at hs
    · split at hs
      · cases hs
        cases h
      · rename_i hdaemon
        exact .inr (.inr ⟨Bool.eq_false_iff.mpr hdaemon, why, rfl⟩)
    · cases hs
  | work inp stats =>
    obtain ⟨evs, -, -, ⟨stats', hrest⟩, -⟩ := work_cases hs
    rw [hrest] at h
    exact .inl h

/-- Who ended the receiver. -/
structure Ended (s0 s : IpcSystem) (is : List IpcInput) (tr : List IpcEv) : Prop where
  daemon : s.daemon = s0.daemon
  leaving : s.leaving = true → CarriedOut wfbIpcExit tr
  gone : s.server.isGone = true → .stop ∈ is ∨ s0.daemon = false ∧ ∃ why, .serverPipe why ∈ is

end WfbYa.Ipc
