/-
  WfbYa.Rx.Accepting — which frame starts which session.

  - `accepts?`: the session a frame starts, by the checks of `rx_session` and the outcome of
    its allocations.
  - `rxStep_heard`: the receiver starts that session and says so, with a call of
    `rx_log_create` if the epoch did not grow; any other frame leaves the session's
    parameters and says nothing of a session.
-/

import WfbYa.Rx.SessionInv

namespace WfbYa.Rx

open WfbYa.Frame WfbYa.Ring WfbYa.Lib

/-- What the receiver keeps of a session. -/
structure Session where
  epoch : Nat
  fecType : Nat
  fecK : Nat
  fecN : Nat
  sessionKey : Bytes

theorem Session.eq_iff {s t : Session} : s = t ↔ s.epoch = t.epoch ∧ s.fecType = t.fecType ∧ s.fecK = t.fecK ∧
    s.fecN = t.fecN ∧ s.sessionKey = t.sessionKey := by
  cases s
  cases t
  simp

instance : DecidableEq Session := fun _ _ => decidable_of_iff' _ Session.eq_iff

def session (ctx : RxContext) : Session := ⟨ctx.epoch, ctx.fecType, ctx.fecK, ctx.fecN, ctx.sessionKey⟩

def sessionOf (hdr : WfbSessionHdr) : Session := ⟨hdr.epoch, hdr.fecType, hdr.fecK, hdr.fecN, hdr.sessionKey⟩

/-- The header of a session frame that is long enough and decrypted. -/
def announced? (x : Externals) (ctx : RxContext) (f : RxFrame) : Option WfbSessionHdr :=
  match wfbFrameParse f.data f.size with
  | .error _ => none
  | .ok w =>
    if w.packetType = wfbPacketSession ∧ minSessionPacketLen ≤ w.pktlen then
      match cryptoWfbSessionDecrypt x ctx.crypto (w.cipher.take w.cipherlen) w.nonce with
      | .error _ => none
      | .ok plain => some (sessionHdr w plain)
    else none

/-- The session is not the one in use, and passes the checks; its codec and its ring can be
    allocated. -/
def Acceptable (ctx : RxContext) (o : Outcome) (hdr : WfbSessionHdr) : Prop :=
  sameSession ctx hdr = false ∧ sessionCheck ctx hdr = none ∧ o.fecNew = true ∧ o.rbufAlloc = true

instance (ctx : RxContext) (o : Outcome) (hdr : WfbSessionHdr) : Decidable (Acceptable ctx o hdr) :=
  inferInstanceAs (Decidable (_ ∧ _ ∧ _ ∧ _))

def accepts? (x : Externals) (ctx : RxContext) (f : RxFrame) : Option Session :=
  (announced? x ctx f).bind fun hdr => if Acceptable ctx f.outcome hdr then some (sessionOf hdr) else none

/-- The events of an accepted session. -/
def Ev.ofSession : Ev → Bool
  | .logCreate _ _ _ => true
  | .sessionDump => true
  | _ => false

/-- What a frame does to the session. -/
inductive Heard (x : Externals) (ctx : RxContext) (f : RxFrame) : RxContext → List Ev → Prop
  | started {w : WfbContext} {hdr : WfbSessionHdr} {r : Rbuf} {ctx' : RxContext} : accepts? x ctx f = some (sessionOf hdr) →
      Checked (withFrame ctx f w) hdr → Starts (withFrame ctx f w) ctx' hdr r →
      Heard x ctx f ctx' ((if hdr.epoch ≤ ctx.epoch then [.logCreate hdr.fecType hdr.fecK hdr.fecN] else []) ++ [.sessionDump])
  | kept {ctx' : RxContext} {evs : List Ev} : accepts? x ctx f = none → session ctx' = session ctx →
      (∀ e ∈ evs, e.ofSession = false) → Heard x ctx f ctx' evs

theorem Starts.session_eq {ctx ctx' : RxContext} {hdr : WfbSessionHdr} {r : Rbuf} (h : Starts ctx ctx' hdr r) :
    session ctx' = sessionOf hdr := by
  rw [h.1]
  rfl

/-! ## Data frames -/

variable {x : Externals} {ctx : RxContext}

theorem fragment_ofSession {e : Ev} {i : Nat} (h : e.fragment? = some i) : e.ofSession = false := by
  cases e <;> first | rfl | cases h

theorem effects_ofSession {evs : List Ev} (h : ∀ e ∈ effects evs, e.ofSession = false) : ∀ e ∈ evs, e.ofSession = false := by
  intro e he
  cases hm : e.isMsg with
  | false => exact h e (mem_effects.mpr ⟨he, hm⟩)
  | true =>
    cases e with
    | msg t fmt => rfl
    | _ => cases hm

theorem quiet_ofSession {evs : List Ev} (h : Quiet evs) : ∀ e ∈ evs, e.ofSession = false := by
  apply effects_ofSession
  rw [show effects evs = [] from h]
  exact fun _ he => nomatch he

theorem sendDataAny_ofSession (r : Rbuf) (slot : Nat) (stale recovered : Bool) :
    ∀ e ∈ (sendDataAny ctx r slot stale recovered).2, e.ofSession = false := by
  apply effects_ofSession
  intro e he
  rw [(sendDataAny_eq ctx r slot stale recovered).2, List.mem_flatMap] at he
  obtain ⟨i, -, hi⟩ := he
  exact fragment_ofSession (handOver_fragment hi)

theorem purgeLoop_ofSession {slot n : Nat} {r r' : Rbuf} {evs : List Ev} (h : purgeLoop ctx slot n r = .ok (r', evs)) :
    ∀ e ∈ evs, e.ofSession = false := by
  induction n generalizing r r' evs with
  | zero =>
    unfold purgeLoop at h
    split at h
    · cases h
      intro e he
      cases he
    · cases h
  | succ n ih =>
    unfold purgeLoop at h
    split at h
    · cases h
      intro e he
      cases he
    · obtain ⟨⟨r1, e1⟩, h1, h2⟩ := Machine.bind_ok_iff.mp h
      cases h2
      intro e he
      rcases List.mem_append.mp he with he | he
      · exact sendDataAny_ofSession _ _ true false e he
      · rcases List.mem_cons.mp he with rfl | he
        · rfl
        · exact ih h1 e he

theorem dataFec_ofSession {slot : Nat} {r r' : Rbuf} {evs : List Ev} (h : dataFec x ctx r slot = .ok (r', evs)) :
    ∀ e ∈ evs, e.ofSession = false := by
  obtain ⟨-, ⟨-, -, rfl⟩ | ⟨-, blk, e1, hrec, -, rfl⟩⟩ := dataFec_cases h
  · exact fun _ he => nomatch he
  · have hrecovered : ∀ e ∈ e1, e.ofSession = false := by
      intro e he
      cases hrec with
      | complete _ => cases he
      | decoded _ _ _ =>
        rcases List.mem_cons.mp he with rfl | he
        · rfl
        · rw [List.mem_singleton.mp he]
          rfl
    have hfinished : ∀ e ∈ (finish ctx r slot blk).2, e.ofSession = false := by
      intro e he
      rcases List.mem_append.mp he with he | he
      · exact sendDataAny_ofSession _ _ false true e he
      · rw [List.mem_singleton.mp he]
        rfl
    intro e he
    exact (List.mem_append.mp he).elim (hrecovered e) (hfinished e)

theorem dataAdd_ofSession {slot : Nat} {r r' : Rbuf} {evs : List Ev} (h : dataAdd x ctx r slot = .ok (r', evs)) :
    ∀ e ∈ evs, e.ofSession = false := by
  have hsent : ∀ e ∈ (sendDataSeq ctx r slot).2, e.ofSession = false := sendDataAny_ofSession r slot false false
  rcases dataAdd_cases h with ⟨-, ⟨-, -, rfl⟩ | ⟨-, e1, hfec, rfl⟩⟩ | ⟨-, r1, e1, e2, hp, hfec, rfl⟩
  · intro e he
    rcases List.mem_append.mp he with he | he
    · exact hsent e he
    · rw [List.mem_singleton.mp he]
      rfl
  · intro e he
    exact (List.mem_append.mp he).elim (hsent e) (dataFec_ofSession hfec e)
  · obtain ⟨⟨r2, e3⟩, hl, h2⟩ := Machine.bind_ok_iff.mp hp
    cases h2
    intro e he
    rcases List.mem_append.mp he with he | he
    · rcases List.mem_append.mp he with he | he
      · exact purgeLoop_ofSession hl e he
      · rw [List.mem_singleton.mp he]
        rfl
    · exact dataFec_ofSession hfec e he

theorem DataCall.ofSession {q : Ret} (h : DataCall x ctx q) : ∀ e ∈ q.evs, e.ofSession = false := by
  have hfound : ∀ (evs : List RingEv), ∀ e ∈ (Ev.logFrame ctx.wfb.blockIdx ctx.wfb.fragmentIdx ctx.wfb.pktlen :: evs.map Ev.ring),
      e.ofSession = false := by
    intro evs e he
    rcases List.mem_cons.mp he with rfl | he
    · rfl
    · obtain ⟨a, -, rfl⟩ := List.mem_map.mp he
      rfl
  cases h with
  | refused _ hq => exact quiet_ofSession hq
  | outside _ _ => exact hfound _
  | filed _ _ hf =>
    intro e he
    rcases List.mem_append.mp he with he | he
    · exact hfound _ e he
    · cases hf with
      | duplicate _ => cases he
      | @forged _ fmt _ _ =>
        have hev : e = .contextDump ∨ e ∈ errEvs fmt := by simpa [or_comm] using he
        rcases hev with rfl | he
        · rfl
        · cases fmt with
          | none => cases he
          | some fmt =>
            rw [List.mem_singleton.mp he]
            rfl
      | stored _ _ _ hadd =>
        rcases List.mem_cons.mp he with rfl | he
        · rfl
        · exact dataAdd_ofSession hadd e he

theorem DataCall.session_eq {q : Ret} (h : DataCall x ctx q) : session q.ctx = session ctx := by
  obtain ⟨ring, key, he, -⟩ := h.ctx_eq
  rw [he]
  rfl

/-! ## Session frames -/

theorem announced?_session {f : RxFrame} {w : WfbContext} (hp : wfbFrameParse f.data f.size = .ok w)
    (ht : w.packetType = wfbPacketSession) {plain : Bytes} (hl : minSessionPacketLen ≤ w.pktlen)
    (hd : cryptoWfbSessionDecrypt x ctx.crypto (w.cipher.take w.cipherlen) w.nonce = .ok plain) :
    announced? x ctx f = some (sessionHdr w plain) := by
  simp [announced?, hp, ht, hl, hd]

theorem accepts?_none {f : RxFrame} {hdr : WfbSessionHdr} (h : announced? x ctx f = some hdr)
    (hno : ¬ Acceptable ctx f.outcome hdr) : accepts? x ctx f = none := by
  simp [accepts?, h, hno]

theorem rekey_heard {f : RxFrame} {w : WfbContext} {plain : Bytes} {q : Ret}
    (ha : announced? x ctx f = some (sessionHdr w plain)) (hs : sameSession ctx (sessionHdr w plain) = false)
    (h : rekey f.outcome (withFrame ctx f w) (sessionHdr w plain) = .ok q) : Heard x ctx f q.ctx q.evs := by
  unfold rekey at h
  dsimp only at h
  split at h
  · rename_i fmt hc
    cases h
    have hno : ¬ Acceptable ctx f.outcome (sessionHdr w plain) := fun hok => Option.some_ne_none fmt (hc.symm.trans hok.2.1)
    exact .kept (accepts?_none ha hno) rfl (quiet_ofSession rfl)
  · rename_i hc
    have hck := sessionCheck_none hc
    cases hf : f.outcome.fecNew with
    | false =>
      simp only [fecWfbNew, hf, hck.fecType, if_true] at h
      cases h
      have hno : ¬ Acceptable ctx f.outcome (sessionHdr w plain) := fun hok => Bool.false_ne_true (hf.symm.trans hok.2.2.1)
      exact .kept (accepts?_none ha hno) rfl (quiet_ofSession rfl)
    | true =>
      simp only [fecWfbNew, hf, hck.fecType, if_true] at h
      rw [if_neg (by decide)] at h
      obtain ⟨ring, hr, h1⟩ := Machine.bind_ok_iff.mp h
      cases hok : f.outcome.rbufAlloc with
      | false =>
        rw [hok] at hr
        cases hr
        cases h1
        have hno : ¬ Acceptable ctx f.outcome (sessionHdr w plain) := fun h => Bool.false_ne_true (hok.symm.trans h.2.2.2)
        exact .kept (accepts?_none ha hno) rfl (quiet_ofSession rfl)
      | true =>
        rw [hok] at hr
        obtain ⟨r, rfl⟩ : ∃ r, ring = some r := by
          unfold rbufAlloc at hr
          simp only [Bool.true_eq_false, if_false] at hr
          split at hr
          · split at hr
            · cases hr
              exact ⟨_, rfl⟩
            · cases hr
          · cases hr
        obtain ⟨hpos, hint, hnew⟩ := rbufAlloc_some hr
        cases h1
        have hacc : accepts? x ctx f = some (sessionOf (sessionHdr w plain)) := by
          unfold accepts?
          rw [ha, Option.bind_some, if_pos ⟨hs, hc, hf, hok⟩]
        have hck' : Checked (withFrame ctx f w) (sessionHdr w plain) :=
          ⟨hck.channelId, hck.fecType, hck.fecK, hck.fecN, hck.sessionKey⟩
        have hheard := Heard.started hacc hck' ⟨rfl, f.outcome.heap, hpos, hint, hnew⟩
        have hepoch : (withFrame ctx f w).epoch = ctx.epoch := rfl
        rw [hck.fecType] at hheard
        simpa only [decide_eq_true_eq, hepoch] using hheard

theorem rxSession_heard {f : RxFrame} {w : WfbContext} {q : Ret} (hp : wfbFrameParse f.data f.size = .ok w)
    (ht : w.packetType = wfbPacketSession) (h : rxSession x f.outcome (withFrame ctx f w) = .ok q) :
    Heard x ctx f q.ctx q.evs := by
  unfold rxSession at h
  split at h
  · rename_i hl
    cases h
    have hlt : w.pktlen < minSessionPacketLen := hl
    refine .kept ?_ rfl (quiet_ofSession rfl)
    simp [accepts?, announced?, hp, Nat.not_le.mpr hlt]
  · rename_i hl
    split at h
    · rename_i fmt hd
      cases h
      have hd' : cryptoWfbSessionDecrypt x ctx.crypto (w.cipher.take w.cipherlen) w.nonce = .error fmt := hd
      refine .kept ?_ rfl (quiet_ofSession (by cases fmt <;> rfl))
      simp [accepts?, announced?, hp, hd']
    · rename_i plain hd
      have ha := announced?_session hp ht (Nat.not_lt.mp hl) hd
      dsimp only at h
      split at h
      · rename_i hs
        cases h
        have hno : ¬ Acceptable ctx f.outcome (sessionHdr w plain) := fun hok => Bool.false_ne_true (hok.1.symm.trans hs)
        exact .kept (accepts?_none ha hno) rfl (quiet_ofSession rfl)
      · rename_i hs
        exact rekey_heard ha (Bool.eq_false_iff.mpr hs) h

theorem rxStep_heard {f : RxFrame} {ctx' : RxContext} {evs : List Ev} (h : rxStep x ctx (.frame f) = .ok (ctx', evs)) :
    Heard x ctx f ctx' evs := by
  cases rxStep_cases h with
  | unparsed hp hq =>
    refine .kept ?_ rfl (quiet_ofSession hq)
    simp [accepts?, announced?, hp]
  | session hp ht hx => exact rxSession_heard hp ht hx
  | @data _ w _ hp ht hd =>
    refine .kept ?_ hd.session_eq hd.ofSession
    have hne : w.packetType ≠ wfbPacketSession := by
      rw [ht]
      decide
    simp [accepts?, announced?, hp, hne]

end WfbYa.Rx
