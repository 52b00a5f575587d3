/-
  WfbYa.Ipc.Messages — what a command comes to: from the request to the lines `ipc_tx` prints.

  `Serves` says what a receiver is for, seen through its socket: a switch for FEC and a count
  of the requests served. The code keeps the one in `wfb_options`, the other in `wfb_stats`,
  and the answer in 144 bytes.

  - `ofBytes_bytes`: a message read back from its bytes; likewise the counters.
  - `served_prints`: what the client prints of the reply is what the command is for.
-/

import WfbYa.Ipc.WfbIpc

namespace WfbYa.Ipc

open WfbYa.Lib.BigEndian WfbYa.Lib.LittleEndian WfbYa.Lib.CStrings WfbYa.Log WfbYa.Rx

/-! ## Bytes -/

theorem word_fields {fs : List UInt64} {k : Nat} (h : k < fs.length) (rest : Bytes) :
    word (fs.flatMap (fun v => le 8 v.toNat) ++ rest) k = fs.getD k 0 := by
  induction fs generalizing k with
  | nil => exact absurd h (Nat.not_lt_zero k)
  | cons v fs ih =>
    have hlen : (le 8 v.toNat).length = 8 := le_length ..
    rw [List.flatMap_cons, List.append_assoc]
    cases k with
    | zero =>
      have hfit : v.toNat < 256 ^ 8 := v.toNat_lt
      unfold word
      rw [Nat.mul_zero, List.drop_zero, List.take_left' hlen, ofLe_le hfit, UInt64.ofNat_toNat]
      rfl
    | succ k =>
      have hdrop : (le 8 v.toNat ++ (fs.flatMap (fun v => le 8 v.toNat) ++ rest)).drop (8 * (k + 1)) =
          (fs.flatMap (fun v => le 8 v.toNat) ++ rest).drop (8 * k) := by
        rw [Nat.mul_succ, Nat.add_comm, ← List.drop_drop, List.drop_left' hlen]
      have hih := ih (Nat.lt_of_succ_lt_succ h)
      unfold word at hih ⊢
      rw [hdrop, hih]
      rfl

@[simp] theorem Statistics.bytes_length (st : Statistics) : st.bytes.length = statisticsLen := by
  simp [Statistics.bytes, Statistics.fields, statisticsLen]

theorem Statistics.ofBytes_bytes (st : Statistics) (rest : Bytes) : Statistics.ofBytes (st.bytes ++ rest) = st := by
  have hword : ∀ k, k < 17 → word (st.bytes ++ rest) k = st.fields.getD k 0 := fun k hk => word_fields hk rest
  unfold Statistics.ofBytes
  rw [hword 0 (by decide), hword 1 (by decide), hword 2 (by decide), hword 3 (by decide),
    hword 4 (by decide), hword 5 (by decide),
    hword 6 (by decide), hword 7 (by decide), hword 8 (by decide), hword 9 (by decide),
      hword 10 (by decide), hword 11 (by decide),
    hword 12 (by decide), hword 13 (by decide), hword 14 (by decide), hword 15 (by decide), hword 16 (by decide)]
  rfl

@[simp] theorem IpcMsg.bytes_length (m : IpcMsg) : m.bytes.length = ipcMsgSize := by
  simp [IpcMsg.bytes, m.pad_length, m.u_length, ipcMsgSize]
  omega

theorem IpcMsg.ofBytes_bytes (m : IpcMsg) : IpcMsg.ofBytes m.bytes = m := by
  have hpad : slice m.bytes 2 6 = m.pad := @slice_middle [m.query, m.result] m.pad m.u 2 6 rfl m.pad_length
  have hu : slice m.bytes 8 statisticsLen = m.u := by
    have hlen : (m.query :: m.result :: m.pad).length = 8 := by simp [m.pad_length]
    have h := @slice_middle (m.query :: m.result :: m.pad) m.u [] 8 statisticsLen hlen m.u_length
    rwa [List.append_nil] at h
  unfold IpcMsg.ofBytes
  simp only [hpad, hu]
  rfl

theorem IpcMsg.setU_u (m : IpcMsg) {bs : Bytes} (h : bs.length ≤ statisticsLen) : (m.setU bs).u = bs ++ m.u.drop bs.length := by
  have hlen : (bs ++ m.u.drop bs.length).length = statisticsLen := by
    rw [List.length_append, List.length_drop, m.u_length]
    omega
  have hfront := @slice_front (bs ++ m.u.drop bs.length) [] statisticsLen hlen
  rwa [List.append_nil] at hfront

theorem boolByte_ne_zero (b : Bool) : decide (boolByte b ≠ 0) = b := by cases b <;> rfl

/-- The text of a refusal fits, with its NUL. -/
theorem invalidText_fits (q : UInt8) : (invalidText q).length < ipcMsgLen ∧ (0 : UInt8) ∉ invalidText q := by
  have hall : ∀ n < 256, (invalidText (UInt8.ofNat n)).length < ipcMsgLen ∧ (0 : UInt8) ∉ invalidText (UInt8.ofNat n) := by
    decide +kernel
  have h := hall q.toNat q.toNat_lt
  rwa [UInt8.ofNat_toNat] at h

/-! ## Commands -/

/-- What a receiver's socket is for: FEC is switched, requests are counted. -/
structure Control where
  disabled : Bool
  served : UInt64

def Control.next (c : Control) : Control := { c with served := c.served + 1 }

/-- What a command prints when it is obeyed, and what that leaves. -/
inductive Serves (c : Control) : UInt8 → List Message → Control → Prop
  | ping : Serves c wfbIpcPing [] c.next
  | exit : Serves c wfbIpcExit [] c.next
  /-- The counters, among them the requests up to this one. -/
  | stat (st : Statistics) : st.ipcSuccess = c.served + 1 → Serves c wfbIpcStat (ipcDumpStat st) c.next
  | get : Serves c wfbIpcFecGet (fecPrinted c.disabled) c.next
  | toggle : Serves c wfbIpcFecToggle (fecPrinted !c.disabled) ⟨!c.disabled, c.served + 1⟩
  | invalid (q : UInt8) : q ∉ [wfbIpcPing, wfbIpcExit, wfbIpcStat, wfbIpcFecGet, wfbIpcFecToggle] →
      Serves c q (pInfo (ascii "IPC failure: Invalid IPC query(" ++ decimal q.toNat ++ ascii ").\n.\n")) c.next

variable {stats : Statistics} {noFec : Bool} {msg : IpcMsg}

/-- A success is printed by its query. -/
theorem success_prints (m : IpcMsg) : ipcTxDone (m.replied true) = (0, ipcDumpQuery m) := by
  have hok : (m.replied true).result = wfbIpcOk := rfl
  have hdump : ipcDump (m.replied true) = (0, ipcDumpQuery m) := by
    unfold ipcDump
    rw [hok, if_neg (by decide), if_neg (by decide)]
    rfl
  unfold ipcTxDone
  rw [if_pos hok, hdump]

theorem ping_prints (m : IpcMsg) (h : m.query = wfbIpcPing ∨ m.query = wfbIpcExit) : ipcDumpQuery m = [] := if_pos h

theorem stat_prints (m : IpcMsg) (h : m.query = wfbIpcStat) : ipcDumpQuery (m.setU stats.bytes) = ipcDumpStat stats := by
  have hq : (m.setU stats.bytes).query = wfbIpcStat := h
  unfold ipcDumpQuery
  rw [hq, if_neg (by decide), if_pos rfl, m.setU_u (Nat.le_of_eq stats.bytes_length), Statistics.ofBytes_bytes]

theorem fec_prints (m : IpcMsg) (b : Bool) (h : m.query = wfbIpcFecGet ∨ m.query = wfbIpcFecToggle) :
    ipcDumpQuery (m.setU [boolByte b]) = fecPrinted b := by
  have hu : (m.setU [boolByte b]).u = [boolByte b] ++ m.u.drop 1 := m.setU_u (show 1 ≤ statisticsLen by decide)
  have hq : (m.setU [boolByte b]).query = m.query := rfl
  have hbit : decide (([boolByte b] ++ m.u.drop 1).getD 0 0 ≠ 0) = b := boolByte_ne_zero b
  unfold ipcDumpQuery
  rw [hu, hq, hbit]
  rcases h with h | h
  · rw [h, if_neg (by decide), if_neg (by decide), if_pos (.inl rfl)]
  · rw [h, if_neg (by decide), if_neg (by decide), if_pos (.inr (.inr rfl))]

theorem invalid_prints (m : IpcMsg) (q : UInt8) : ipcTxDone ((m.setU (snprintf ipcMsgLen (invalidText q))).replied false) =
    (-1, pInfo (ascii "IPC failure: Invalid IPC query(" ++ decimal q.toNat ++ ascii ").\n.\n")) := by
  obtain ⟨hfit, hnul⟩ := invalidText_fits q
  have hlen : (snprintf ipcMsgLen (invalidText q)).length ≤ statisticsLen := by
    unfold snprintf
    rw [List.length_append, List.length_take, List.length_singleton]
    unfold ipcMsgLen statisticsLen
    omega
  have hu : ((m.setU (snprintf ipcMsgLen (invalidText q))).replied false).u =
      snprintf ipcMsgLen (invalidText q) ++ m.u.drop (snprintf ipcMsgLen (invalidText q)).length := m.setU_u hlen
  have herr : ((m.setU (snprintf ipcMsgLen (invalidText q))).replied false).result = wfbIpcErr := rfl
  have hpre : ascii "IPC failure: " ++ ascii "Invalid IPC query(" = ascii "IPC failure: Invalid IPC query(" := by decide
  have hpost : ascii ").\n" ++ ascii ".\n" = ascii ").\n.\n" := by decide
  unfold ipcTxDone ipcFailure
  rw [herr, if_neg (by decide), hu, cText_snprintf hfit hnul]
  unfold invalidText
  simp only [← hpre, ← hpost, List.append_assoc]

/-- What the client prints of the reply to a request. -/
theorem served_prints (c : Control) (stats : Statistics) (hs : stats.ipcSuccess = c.served + 1) (msg : IpcMsg) :
    Serves c msg.query (ipcTxDone (ipcSwitch stats c.disabled msg).reply).2
      ⟨(ipcSwitch stats c.disabled msg).noFec, stats.ipcSuccess⟩ := by
  have hnext : (⟨c.disabled, stats.ipcSuccess⟩ : Control) = c.next := by rw [hs]; rfl
  unfold ipcSwitch
  by_cases hping : msg.query = wfbIpcPing
  · rw [if_pos hping]
    dsimp only
    rw [success_prints, ping_prints msg (.inl hping), hnext, hping]
    exact .ping
  rw [if_neg hping]
  by_cases hstat : msg.query = wfbIpcStat
  · rw [if_pos hstat]
    dsimp only
    rw [success_prints, stat_prints msg hstat, hnext, hstat]
    exact .stat stats hs
  rw [if_neg hstat]
  by_cases hexit : msg.query = wfbIpcExit
  · rw [if_pos hexit]
    dsimp only
    rw [success_prints, ping_prints msg (.inr hexit), hnext, hexit]
    exact .exit
  rw [if_neg hexit]
  by_cases htoggle : msg.query = wfbIpcFecToggle
  · rw [if_pos htoggle]
    dsimp only
    rw [success_prints, fec_prints msg _ (.inr htoggle), hs, htoggle]
    exact .toggle
  rw [if_neg htoggle]
  by_cases hget : msg.query = wfbIpcFecGet
  · rw [if_pos hget]
    dsimp only
    rw [success_prints, fec_prints msg _ (.inl hget), hnext, hget]
    exact .get
  rw [if_neg hget]
  dsimp only
  rw [invalid_prints, hnext]
  exact .invalid msg.query (by simp [hping, hstat, hexit, htoggle, hget])

end WfbYa.Ipc
