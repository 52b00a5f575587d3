/-
  WfbYa.Rx.Rejection — what a rejected frame leaves behind.

  A frame that is turned away before it is opened changes nothing but the frame at hand
  (`Idle`), and what is at hand decides nothing. A frame that is opened and then rejected
  ends the session: `has_session_key` is cleared before the checks of a new session, and
  when a fragment does not authenticate.

  - `Idle.run`: receivers that differ in the frame at hand alone report the same.
  - `rejected_frame`: the two ways of a rejected frame.
  - `forged_ends_session`: one forged DATA frame and the session is given up.
-/

import WfbYa.Rx.DeskRun

namespace WfbYa.Rx

open WfbYa.Frame WfbYa.Ring WfbYa.Lib

variable {x : Externals} {ctx : RxContext}

/-! ## The frame at hand -/

/-- The receivers differ in the frame at hand alone. -/
def Idle (ctx ctx' : RxContext) : Prop := ∃ w freq dbm, ctx' = { ctx with wfb := w, freq := freq, dbm := dbm }

theorem Idle.refl (ctx : RxContext) : Idle ctx ctx := ⟨ctx.wfb, ctx.freq, ctx.dbm, rfl⟩

theorem Idle.symm {a b : RxContext} (h : Idle a b) : Idle b a := by
  obtain ⟨w, freq, dbm, rfl⟩ := h
  exact ⟨a.wfb, a.freq, a.dbm, rfl⟩

theorem Idle.trans {a b c : RxContext} (h : Idle a b) (h' : Idle b c) : Idle a c := by
  obtain ⟨w, freq, dbm, rfl⟩ := h
  obtain ⟨w', freq', dbm', rfl⟩ := h'
  exact ⟨w', freq', dbm', rfl⟩

theorem idle_withFrame (ctx : RxContext) (f : RxFrame) (w : WfbContext) : Idle ctx (withFrame ctx f w) :=
  ⟨w, f.freq, f.dbm, rfl⟩

theorem Idle.framed {a b : RxContext} (h : Idle a b) (f : RxFrame) (w : WfbContext) : withFrame a f w = withFrame b f w := by
  obtain ⟨w', freq, dbm, rfl⟩ := h
  rfl

theorem rxStep_parsed {f : RxFrame} {w : WfbContext} (hp : wfbFrameParse f.data f.size = .ok w) (ctx : RxContext) :
    rxStep x ctx (.frame f) = (rxWfb x f.outcome (withFrame ctx f w) >>= fun q => .ok (q.ctx, q.evs)) := by
  unfold rxStep rxFrame
  simp only [hp]
  rfl

theorem rxStep_unparsed {f : RxFrame} {fmt : String} (hp : wfbFrameParse f.data f.size = .error fmt) (ctx : RxContext) :
    rxStep x ctx (.frame f) = .ok ({ ctx with freq := f.freq, dbm := f.dbm }, [.msg .err fmt]) := by
  unfold rxStep rxFrame
  simp only [hp]
  rfl

/-- An input makes receivers that differ in the frame at hand report the same. -/
theorem Idle.step {a a' b : RxContext} {i : Input} {e : List Ev} (h : Idle a b) (hs : rxStep x a i = .ok (a', e)) :
    ∃ b', rxStep x b i = .ok (b', e) ∧ Idle a' b' := by
  cases i with
  | fecToggle =>
    obtain ⟨w, freq, dbm, rfl⟩ := h
    cases hs
    exact ⟨_, rfl, w, freq, dbm, rfl⟩
  | frame f =>
    cases hp : wfbFrameParse f.data f.size with
    | error fmt =>
      rw [rxStep_unparsed hp] at hs ⊢
      cases hs
      obtain ⟨w, freq, dbm, rfl⟩ := h
      exact ⟨_, rfl, w, f.freq, f.dbm, rfl⟩
    | ok w =>
      rw [rxStep_parsed hp, h.framed f w] at hs
      rw [rxStep_parsed hp, hs]
      exact ⟨a', rfl, .refl a'⟩

/-- Any input in any state. -/
def Free (_ : RxContext) (_ : Input) : Prop := True

theorem Idle.run {a a' b : RxContext} {is : List Input} {tr : List Ev} (h : Idle a b)
    (hr : Machine.Run (rxStep x) Free a is a' tr) : ∃ b', Machine.Run (rxStep x) Free b is b' tr ∧ Idle a' b' := by
  induction hr with
  | nil => exact ⟨b, .nil, h⟩
  | snoc _ hg hst ih =>
    obtain ⟨b1, hr, hi⟩ := ih
    obtain ⟨b', hst', hi'⟩ := hi.step hst
    exact ⟨b', hr.snoc hg hst', hi'⟩

/-! ## Rejected frames -/

/-- `rx_session` or `rx_data` returns -1 for the frame. -/
def Rejected (x : Externals) (ctx : RxContext) (f : RxFrame) (w : WfbContext) (q : Ret) : Prop :=
  wfbFrameParse f.data f.size = .ok w ∧ rxWfb x f.outcome (withFrame ctx f w) = .ok q ∧ q.ret = -1

/-- The frame at hand gets as far as being opened: `crypto_box_open_easy` opens it, or it
    is a fragment in range. -/
def Opens (x : Externals) (ctx : RxContext) : Prop :=
  (ctx.wfb.packetType = wfbPacketSession ∧ minSessionPacketLen ≤ ctx.wfb.pktlen ∧ ∃ plain,
    cryptoWfbSessionDecrypt x ctx.crypto (ctx.wfb.cipher.take ctx.wfb.cipherlen) ctx.wfb.nonce = .ok plain) ∨
  (ctx.wfb.packetType = wfbPacketData ∧ ∃ r, Admitted ctx r)

/-- The session in use is given up; what was agreed on in it is left where it was. -/
def GivenUp (ctx ctx' : RxContext) : Prop :=
  ∃ fec ring, ctx' = { ctx with hasSessionKey := false, fec := fec, rxRing := ring }

theorem rekey_rejects {o : Outcome} {hdr : WfbSessionHdr} {q : Ret} (h : rekey o ctx hdr = .ok q) (hr : q.ret = -1) :
    GivenUp ctx q.ctx := by
  unfold rekey at h
  dsimp only at h
  split at h
  · cases h
    exact ⟨ctx.fec, ctx.rxRing, rfl⟩
  · split at h
    · cases h
      exact ⟨_, ctx.rxRing, rfl⟩
    · obtain ⟨ring, -, h1⟩ := Machine.bind_ok_iff.mp h
      cases ring with
      | none =>
        cases h1
        exact ⟨_, none, rfl⟩
      | some r =>
        cases h1
        exact absurd (show (0 : Int) = -1 from hr) (by decide)

theorem rxSession_rejects {o : Outcome} {q : Ret} (h : rxSession x o ctx = .ok q) (hr : q.ret = -1)
    (ht : ctx.wfb.packetType = wfbPacketSession) : (¬ Opens x ctx ∧ q.ctx = ctx) ∨ (Opens x ctx ∧ GivenUp ctx q.ctx) := by
  have hdata : ¬ ctx.wfb.packetType = wfbPacketData := by rw [ht]; decide
  unfold rxSession at h
  split at h
  · rename_i hl
    cases h
    refine .inl ⟨?_, rfl⟩
    rintro (⟨-, hl', -⟩ | ⟨ht', -⟩)
    · exact absurd hl (Nat.not_lt.mpr hl')
    · exact hdata ht'
  · rename_i hl
    split at h
    · rename_i fmt hd
      cases h
      refine .inl ⟨?_, rfl⟩
      rintro (⟨-, -, plain, hd'⟩ | ⟨ht', -⟩)
      · rw [hd] at hd'
        cases hd'
      · exact hdata ht'
    · rename_i plain hd
      dsimp only at h
      split at h
      · cases h
        exact absurd (show (0 : Int) = -1 from hr) (by decide)
      · exact .inr ⟨.inl ⟨ht, Nat.not_lt.mp hl, plain, hd⟩, rekey_rejects h hr⟩

theorem DataCall.rejects {q : Ret} (h : DataCall x ctx q) (hr : q.ret = -1) (ht : ctx.wfb.packetType = wfbPacketData) :
    (¬ Opens x ctx ∧ q.ctx = ctx) ∨ (Opens x ctx ∧ GivenUp ctx q.ctx) := by
  cases h with
  | refused hn _ =>
    refine .inl ⟨?_, rfl⟩
    rintro (⟨ht', -⟩ | ⟨-, r, ha⟩)
    · rw [ht] at ht'
      exact absurd ht' (by decide)
    · exact hn r ha
  | outside _ _ => exact absurd (show (0 : Int) = -1 from hr) (by decide)
  | filed ha _ hf =>
    cases hf with
    | duplicate _ => exact absurd (show (0 : Int) = -1 from hr) (by decide)
    | forged _ _ => exact .inr ⟨.inr ⟨ht, _, ha⟩, ctx.fec, _, rfl⟩
    | stored _ _ _ _ => exact absurd (show (0 : Int) = -1 from hr) (by decide)

theorem Rejected.cases {f : RxFrame} {w : WfbContext} {q : Ret} (h : Rejected x ctx f w q) :
    (¬ Opens x (withFrame ctx f w) ∧ q.ctx = withFrame ctx f w) ∨
      (Opens x (withFrame ctx f w) ∧ GivenUp (withFrame ctx f w) q.ctx) := by
  obtain ⟨-, hq, hr⟩ := h
  unfold rxWfb at hq
  split at hq
  · rename_i ht
    exact rxSession_rejects hq hr ht
  · split at hq
    · rename_i ht
      exact (rxData_cases hq).rejects hr ht
    · cases hq
      exact absurd (show (0 : Int) = -1 from hr) (by decide)

/-! ## Without a session -/

/-- The input does not start a session. -/
def Shut (x : Externals) (ctx : RxContext) (i : Input) : Prop :=
  ∀ ctx' e, rxStep x ctx i = .ok (ctx', e) → ctx'.hasSessionKey = false

/-- Without a session nothing is stored, recovered or handed over. -/
theorem shut_quiet {ctx ctx' : RxContext} {i : Input} {e : List Ev} (h : ctx.hasSessionKey = false) (hg : Shut x ctx i)
    (hs : rxStep x ctx i = .ok (ctx', e)) : effects e = [] := by
  have h' := hg _ _ hs
  cases rxStep_cases hs with
  | toggle hq => exact hq
  | unparsed _ hq => exact hq
  | session _ _ hx =>
    cases rxSession_cases hx with
    | ignored hq => exact hq
    | ended hq => exact hq
    | started _ _ _ _ hst _ =>
      obtain ⟨he, -⟩ := hst
      rw [he] at h'
      cases h'
  | data _ _ hd => exact (hd.closed h).2

theorem shut_run {ctx ctx' : RxContext} (h : ctx.hasSessionKey = false) {is : List Input} {tr : List Ev}
    (hr : Machine.Run (rxStep x) (Shut x) ctx is ctx' tr) : ctx'.hasSessionKey = false ∧ effects tr = [] := by
  refine hr.inv (fun _ s tr => s.hasSessionKey = false ∧ effects tr = []) ⟨h, rfl⟩ ?_
  rintro is s tr i s' e ⟨hk, htr⟩ hg hs
  refine ⟨hg _ _ hs, ?_⟩
  rw [effects_append, htr, shut_quiet hk hg hs, List.append_nil]

/-- A rejected frame leaves the session's key, epoch and parameters. One that was not opened
    leaves everything, and every later run is the same. One that was opened ends the session:
    until another is accepted nothing comes out. -/
theorem rejected_frame {f : RxFrame} {w : WfbContext} {q : Ret} (h : Rejected x ctx f w q) :
    (q.ctx.sessionKey = ctx.sessionKey ∧ q.ctx.epoch = ctx.epoch ∧ q.ctx.fecType = ctx.fecType ∧ q.ctx.fecK = ctx.fecK ∧
      q.ctx.fecN = ctx.fecN) ∧
    (¬ Opens x (withFrame ctx f w) → Idle ctx q.ctx ∧ ∀ is s tr, Machine.Run (rxStep x) Free ctx is s tr →
      ∃ s', Machine.Run (rxStep x) Free q.ctx is s' tr ∧ Idle s s') ∧
    (Opens x (withFrame ctx f w) → q.ctx.hasSessionKey = false ∧ ∀ is s tr, Machine.Run (rxStep x) (Shut x) q.ctx is s tr →
      effects tr = []) := by
  rcases h.cases with ⟨hn, he⟩ | ⟨ho, fec, ring, he⟩
  · have hidle : Idle ctx q.ctx := by
      rw [he]
      exact idle_withFrame ctx f w
    refine ⟨by rw [he]; exact ⟨rfl, rfl, rfl, rfl, rfl⟩, fun _ => ⟨hidle, fun is s tr hr => ?_⟩, fun ho => absurd ho hn⟩
    exact hidle.run hr
  · have hk : q.ctx.hasSessionKey = false := by rw [he]
    refine ⟨by rw [he]; exact ⟨rfl, rfl, rfl, rfl, rfl⟩, fun hn => absurd ho hn, fun _ => ⟨hk, fun is s tr hr => ?_⟩⟩
    exact (shut_run hk hr).2

/-- A DATA frame no sender made: block 0, fragment 0, and nothing but a tag. -/
def forgery : RxFrame := dataFrame 0 0 [] (-50)

theorem forgery_rejected {S : Sender} {ctx : RxContext}
    (h : Machine.returns (rxFrame S.externals ctx forgery) (fun q => decide (q.ret = -1)) = true) :
    ∃ w q, Rejected S.externals ctx forgery w q := by
  obtain ⟨w, hp, -⟩ := @dataFrame_parse 0 0 [] (-50) (by decide) (by decide) (by decide)
  obtain ⟨q, hq, hr⟩ := Machine.returns_iff.mp h
  unfold rxFrame at hq
  rw [show wfbFrameParse forgery.data forgery.size = .ok w from hp] at hq
  exact ⟨w, q, hp, hq, of_decide_eq_true hr⟩

theorem rejected_frame_run : ∃ ctx w q, Opened (numbered 1 1).externals ctx ∧
    Rejected (numbered 1 1).externals ctx forgery w q ∧
    (q.ctx.sessionKey = ctx.sessionKey ∧ q.ctx.epoch = ctx.epoch ∧ q.ctx.fecType = ctx.fecType ∧ q.ctx.fecK = ctx.fecK ∧
      q.ctx.fecN = ctx.fecN) ∧
    (¬ Opens (numbered 1 1).externals (withFrame ctx forgery w) → Idle ctx q.ctx ∧
      ∀ is s tr, Machine.Run (rxStep (numbered 1 1).externals) Free ctx is s tr →
        ∃ s', Machine.Run (rxStep (numbered 1 1).externals) Free q.ctx is s' tr ∧ Idle s s') ∧
    (Opens (numbered 1 1).externals (withFrame ctx forgery w) → q.ctx.hasSessionKey = false ∧
      ∀ is s tr, Machine.Run (rxStep (numbered 1 1).externals) (Shut (numbered 1 1).externals) q.ctx is s tr →
        effects tr = []) := by
  obtain ⟨ctx0, ctx, tr, h0, hrun, hq⟩ := (numbered 1 1).exists_session (Authentic (numbered 1 1).externals) []
    (fun _ p => Machine.returns (rxFrame (numbered 1 1).externals p.1 forgery) fun q => decide (q.ret = -1)) (by decide +kernel)
  obtain ⟨rfl, rfl⟩ := hrun.nil_inv
  obtain ⟨w, q, hrej⟩ := forgery_rejected hq
  exact ⟨ctx, w, q, h0, hrej, rejected_frame hrej⟩

example : effects ((numbered 1 1).report [.frame forgery, (numbered 1 1).input 7 0]) =
    [.logFrame 0 0 25, .ring (.alloc 0 0), .contextDump] := by decide +kernel

/-- One forged DATA frame, and the session is given up. -/
theorem forged_ends_session : ¬ ∀ (x : Externals) (chan : Nat) (crypto : CryptoWfbContext) (noFec : Bool) (handlers : List Nat)
    (is : List Input) (ctx : RxContext) (tr : List Ev) (f : RxFrame) (w : WfbContext) (q : Ret),
      Machine.Run (rxStep x) Free (rxSetup chan crypto noFec handlers) is ctx tr → Rejected x ctx f w q →
        q.ctx.hasSessionKey = ctx.hasSessionKey := by
  intro hclaim
  obtain ⟨ctx, tr, hrun, hq⟩ := Machine.exists_run (rxStep (numbered 1 1).externals) (fun _ _ => True)
    (rxSetup 0 loaded false [0]) [(numbered 1 1).opening]
    (fun p => p.1.hasSessionKey && Machine.returns (rxFrame (numbered 1 1).externals p.1 forgery) fun q =>
      decide (q.ret = -1) && !q.ctx.hasSessionKey) (by decide +kernel)
  rw [Bool.and_eq_true, Machine.returns_iff] at hq
  obtain ⟨hk, q, hs, hq⟩ := hq
  rw [Bool.and_eq_true, decide_eq_true_eq, Bool.not_eq_true'] at hq
  obtain ⟨w, hp, -⟩ := @dataFrame_parse 0 0 [] (-50) (by decide) (by decide) (by decide)
  unfold rxFrame at hs
  rw [show wfbFrameParse forgery.data forgery.size = .ok w from hp] at hs
  have := hclaim _ _ _ _ _ _ ctx tr forgery w q hrun ⟨hp, hs, hq.1⟩
  rw [hk, hq.2] at this
  cases this

end WfbYa.Rx
