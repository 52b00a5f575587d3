/-
  WfbYa.Rx.DeskRun — one session of the receiver as a run of the desk (see
  `WfbYa.Rx.Desk`).

  A session begins with `Opened`: `rx_session` has just accepted a header. Then come DATA
  frames, FEC toggles, and session frames that start no other session. `Steady` inputs
  skip no block.

  - `desk_step`: a steady input in the session does nothing, or is a step of the desk, or
    ends the session.
  - `DeskRules.run`: what the steps of the desk keep of the desk and the effects so far
    holds of every run.
-/

import WfbYa.Rx.Desk

namespace WfbYa.Rx

open WfbYa.Frame WfbYa.Ring WfbYa.Lib

/-! ## A session -/

/-- A session header has just been decrypted and accepted. -/
def Opened (x : Externals) (ctx : RxContext) : Prop := ∃ ctx0 plain r,
  cryptoWfbSessionDecrypt x ctx0.crypto (ctx0.wfb.cipher.take ctx0.wfb.cipherlen) ctx0.wfb.nonce = .ok plain ∧
    Checked ctx0 (sessionHdr ctx0.wfb plain) ∧ Starts ctx0 ctx (sessionHdr ctx0.wfb plain) r

/-- Whatever sets the session flag has opened a session. -/
theorem opened_of_step {x : Externals} {ctx ctx' : RxContext} {i : Input} {evs : List Ev}
    (h : ctx.hasSessionKey = false) (hs : rxStep x ctx i = .ok (ctx', evs)) (h' : ctx'.hasSessionKey = true) : Opened x ctx' := by
  cases rxStep_cases hs with
  | toggle _ => exact absurd h' (by rw [Bool.not_eq_true]; exact h)
  | unparsed _ _ => exact absurd h' (by rw [Bool.not_eq_true]; exact h)
  | session _ _ hx =>
    cases rxSession_cases hx with
    | ignored _ => exact absurd h' (by rw [Bool.not_eq_true]; exact h)
    | ended _ => cases h'
    | started hd _ _ hc hst _ => exact ⟨_, _, _, hd, hc, hst⟩
  | data _ _ hd =>
    obtain ⟨ring, key, he, hk⟩ := hd.ctx_eq
    rw [he] at h'
    exact absurd (hk h') (by rw [Bool.not_eq_true]; exact h)

/-- The input starts no session. -/
def keepsSession (x : Externals) (ctx : RxContext) : Input → Bool
  | .fecToggle => true
  | .frame f => match wfbFrameParse f.data f.size with
    | .error _ => true
    | .ok w =>
      if w.packetType = wfbPacketData then true
      else if w.pktlen < minSessionPacketLen then true
      else match cryptoWfbSessionDecrypt x ctx.crypto (w.cipher.take w.cipherlen) w.nonce with
        | .error _ => true
        | .ok plain => sameSession ctx (sessionHdr w plain)

theorem keepsSession_data {x : Externals} {ctx : RxContext} {f : RxFrame} {w : WfbContext}
    (hp : wfbFrameParse f.data f.size = .ok w) (ht : w.packetType = wfbPacketData) : keepsSession x ctx (.frame f) = true := by
  simp only [keepsSession, hp]
  exact if_pos ht

/-- The input starts no session and skips no block. -/
def Steady (x : Externals) (ctx : RxContext) (i : Input) : Prop :=
  keepsSession x ctx i = true ∧ ∀ p ∈ asked? ctx i, Next p.1 p.2

instance (x : Externals) (ctx : RxContext) (i : Input) : Decidable (Steady x ctx i) := by unfold Steady; infer_instance

theorem rxSession_keeps {x : Externals} {ctx : RxContext} {f : RxFrame} {w : WfbContext} {q : Ret}
    (hp : wfbFrameParse f.data f.size = .ok w) (ht : w.packetType = wfbPacketSession) (hg : keepsSession x ctx (.frame f) = true)
    (h : rxSession x f.outcome (withFrame ctx f w) = .ok q) : q.ctx = withFrame ctx f w ∧ Quiet q.evs := by
  simp only [keepsSession, hp] at hg
  rw [if_neg (by rw [ht]; decide)] at hg
  unfold rxSession at h
  split at h
  · cases h
    exact ⟨rfl, rfl⟩
  · rename_i hl
    rw [if_neg (show ¬ w.pktlen < minSessionPacketLen from hl)] at hg
    split at h
    · rename_i fmt hd
      cases h
      exact ⟨rfl, by cases fmt <;> rfl⟩
    · rename_i plain hd
      change cryptoWfbSessionDecrypt x ctx.crypto (w.cipher.take w.cipherlen) w.nonce = .ok plain at hd
      rw [hd] at hg
      dsimp only at h
      rw [if_pos (show sameSession (withFrame ctx f w) (sessionHdr (withFrame ctx f w).wfb plain) = true from hg)] at h
      cases h
      exact ⟨rfl, rfl⟩

/-! ## Steps -/

/-- The session's parameters and its desk. -/
structure DeskInv (ctx0 ctx : RxContext) (d : Desk) : Prop where
  session : SessionInv ctx
  fecK : ctx.fecK = ctx0.fecK
  fecN : ctx.fecN = ctx0.fecN
  sessionKey : ctx.sessionKey = ctx0.sessionKey
  desk : ∃ r, ctx.rxRing = some r ∧ Desked r d

theorem DeskInv.idle {ctx0 ctx : RxContext} {d : Desk} (h : DeskInv ctx0 ctx d) (w : WfbContext) (freq : Nat) (dbm : Int)
    (noFec : Bool) : DeskInv ctx0 { ctx with wfb := w, freq := freq, dbm := dbm, noFec := noFec } d :=
  ⟨h.session.idle w freq dbm noFec, h.fecK, h.fecN, h.sessionKey, h.desk⟩

theorem DeskInv.index {ctx0 ctx : RxContext} {d : Desk} (h : DeskInv ctx0 ctx d) :
    ∀ blk, d.cur = some blk → blk.index = d.last ∧ d.last ≠ blockInval := by
  obtain ⟨r, -, hd⟩ := h.desk
  exact fun blk hb => (hd.cur blk hb).2

def emptyDesk : Desk := ⟨0, blockInval, none⟩

theorem Opened.inv {x : Externals} {ctx : RxContext} (h : Opened x ctx) :
    ctx.hasSessionKey = true ∧ DeskInv ctx ctx emptyDesk := by
  obtain ⟨ctx0, plain, r, -, hc, hst⟩ := h
  have hinv := hst.inv hc
  obtain ⟨rfl, heap, hpos, hint, rfl⟩ := hst
  exact ⟨rfl, hinv, rfl, rfl, rfl, _, rfl, newRing_desked ..⟩

theorem closed_step {x : Externals} {ctx ctx' : RxContext} {i : Input} {evs : List Ev} (h : ctx.hasSessionKey = false)
    (hg : keepsSession x ctx i = true) (hs : rxStep x ctx i = .ok (ctx', evs)) :
    ctx'.hasSessionKey = false ∧ effects evs = [] := by
  cases rxStep_cases hs with
  | toggle hq => exact ⟨h, hq⟩
  | unparsed _ hq => exact ⟨h, hq⟩
  | session hp ht hx =>
    obtain ⟨he, hq⟩ := rxSession_keeps hp ht hg hx
    exact ⟨by rw [he]; exact h, hq⟩
  | data _ _ hd =>
    obtain ⟨he, hq⟩ := hd.closed h
    exact ⟨by rw [he]; exact h, hq⟩

/-- What a steady input does in a session. -/
inductive DeskInput (x : Externals) (ctx0 ctx : RxContext) (d : Desk) : Input → RxContext → List Ev → Prop
  | idle {i : Input} {ctx' : RxContext} : ctx'.hasSessionKey = true → DeskInv ctx0 ctx' d → DeskInput x ctx0 ctx d i ctx' []
  | lost {f : RxFrame} {w : WfbContext} {ctx' : RxContext} {e : List Ev} : wfbFrameParse f.data f.size = .ok w →
      w.packetType = wfbPacketData → ctx'.hasSessionKey = false → DeskLost x (withFrame ctx f w) d e →
      DeskInput x ctx0 ctx d (.frame f) ctx' e
  | step {f : RxFrame} {w : WfbContext} {ctx' : RxContext} {d' : Desk} {e : List Ev} :
      wfbFrameParse f.data f.size = .ok w → w.packetType = wfbPacketData → ctx'.hasSessionKey = true →
      DeskInv ctx0 ctx' d' → DeskStep x (withFrame ctx f w) d d' e → DeskInput x ctx0 ctx d (.frame f) ctx' e

/-- A DATA frame in a session. -/
theorem data_step {x : Externals} {ctx0 ctx : RxContext} {d : Desk} {f : RxFrame} {w : WfbContext} {q : Ret}
    (h : DeskInv ctx0 ctx d) (hg : ∀ p ∈ asked? ctx (.frame f), Next p.1 p.2) (hp : wfbFrameParse f.data f.size = .ok w)
    (ht : w.packetType = wfbPacketData) (hd : DataCall x (withFrame ctx f w) q) :
    ((∀ r, ¬ Admitted (withFrame ctx f w) r) ∧ q.ctx = withFrame ctx f w ∧ Quiet q.evs) ∨
      (q.ctx.hasSessionKey = false ∧ DeskLost x (withFrame ctx f w) d (effects q.evs)) ∨
        ∃ d', q.ctx.hasSessionKey = ctx.hasSessionKey ∧ DeskInv ctx0 q.ctx d' ∧
          DeskStep x (withFrame ctx f w) d d' (effects q.evs) := by
  have hi := h.idle w f.freq f.dbm ctx.noFec
  obtain ⟨r, hr, hdesk⟩ := h.desk
  rcases hd.desk hi.session.ok hr hdesk fun r ha => hg (r, w.blockIdx) (asked?_data hp ht ha) with
    hn | hlost | ⟨r', d', he, hsh, hdesk', hstep⟩
  · exact .inl hn
  · exact .inr (.inl hlost)
  · have hs' := (hd.inv hi.session).1
    refine .inr (.inr ⟨d', by rw [he]; rfl, ⟨hs', ?_, ?_, ?_, r', by rw [he], hdesk'⟩, hstep⟩)
    · rw [he]; exact h.fecK
    · rw [he]; exact h.fecN
    · rw [he]; exact h.sessionKey

theorem desk_step {x : Externals} {ctx0 ctx ctx' : RxContext} {d : Desk} {i : Input} {evs : List Ev}
    (h : DeskInv ctx0 ctx d) (hk : ctx.hasSessionKey = true) (hg : Steady x ctx i) (hs : rxStep x ctx i = .ok (ctx', evs)) :
    DeskInput x ctx0 ctx d i ctx' (effects evs) := by
  cases rxStep_cases hs with
  | toggle hq =>
    rw [show effects evs = [] from hq]
    exact .idle hk (h.idle ctx.wfb ctx.freq ctx.dbm _)
  | @unparsed f _ _ _ hq =>
    rw [show effects evs = [] from hq]
    exact .idle hk (h.idle ctx.wfb f.freq f.dbm ctx.noFec)
  | @session f w _ hp ht hx =>
    obtain ⟨he, hq⟩ := rxSession_keeps hp ht hg.1 hx
    rw [he, show effects _ = [] from hq]
    exact .idle hk (h.idle w f.freq f.dbm ctx.noFec)
  | @data f w q hp ht hd =>
    rcases data_step h hg.2 hp ht hd with ⟨-, he, hq⟩ | ⟨hkey, hlost⟩ | ⟨d', hkey, hinv, hstep⟩
    · rw [he, show effects _ = [] from hq]
      exact .idle hk (h.idle w f.freq f.dbm ctx.noFec)
    · exact .lost hp ht hkey hlost
    · exact .step hp ht (hkey.trans hk) hinv hstep

/-! ## Runs -/

/-- `J` of the desk and the effects so far is kept by the desk's steps in the session
    opened in `ctx0`; `K` is what is left of it when the session ends. -/
structure DeskRules (x : Externals) (G : RxContext → Input → Prop) (ctx0 : RxContext) (J : Desk → List Ev → Prop)
    (K : List Ev → Prop) : Prop where
  guard : ∀ ctx i, G ctx i → Steady x ctx i
  start : J emptyDesk []
  step : ∀ ctx d d' f w tr e, DeskInv ctx0 ctx d → G ctx (.frame f) → wfbFrameParse f.data f.size = .ok w →
    w.packetType = wfbPacketData → J d tr → DeskStep x (withFrame ctx f w) d d' e → J d' (tr ++ e)
  lost : ∀ ctx d f w tr e, DeskInv ctx0 ctx d → J d tr → DeskLost x (withFrame ctx f w) d e → K (tr ++ e)
  keep : ∀ d tr, J d tr → K tr

/-- In a session, a desk with `J`; after it, `K`. -/
def DeskRun (ctx0 : RxContext) (J : Desk → List Ev → Prop) (K : List Ev → Prop) (ctx : RxContext) (tr : List Ev) : Prop :=
  (ctx.hasSessionKey = true ∧ ∃ d, DeskInv ctx0 ctx d ∧ J d (effects tr)) ∨ (ctx.hasSessionKey = false ∧ K (effects tr))

theorem DeskRules.next {x : Externals} {G : RxContext → Input → Prop} {ctx0 ctx ctx' : RxContext} {J : Desk → List Ev → Prop}
    {K : List Ev → Prop} (hr : DeskRules x G ctx0 J K) {i : Input} {tr evs : List Ev} (h : DeskRun ctx0 J K ctx tr)
    (hg : G ctx i) (hs : rxStep x ctx i = .ok (ctx', evs)) : DeskRun ctx0 J K ctx' (tr ++ evs) := by
  rcases h with ⟨hk, d, hd, hj⟩ | ⟨hk, hK⟩
  · have hin := desk_step hd hk (hr.guard _ _ hg) hs
    unfold DeskRun
    rw [effects_append]
    generalize effects evs = e at hin
    cases hin with
    | idle hk' hd' => exact .inl ⟨hk', d, hd', by rwa [List.append_nil]⟩
    | lost _ _ hk' hl => exact .inr ⟨hk', hr.lost _ _ _ _ _ _ hd hj hl⟩
    | step hp ht hk' hd' hst => exact .inl ⟨hk', _, hd', hr.step _ _ _ _ _ _ _ hd hg hp ht hj hst⟩
  · obtain ⟨hk', he⟩ := closed_step hk (hr.guard _ _ hg).1 hs
    exact .inr ⟨hk', by rw [effects_append, he, List.append_nil]; exact hK⟩

theorem DeskRules.run {x : Externals} {G : RxContext → Input → Prop} {ctx0 ctx : RxContext} {J : Desk → List Ev → Prop}
    {K : List Ev → Prop} (hr : DeskRules x G ctx0 J K) (h0 : Opened x ctx0) {is : List Input} {tr : List Ev}
    (h : Machine.Run (rxStep x) G ctx0 is ctx tr) : DeskRun ctx0 J K ctx tr :=
  h.inv (fun _ ctx tr => DeskRun ctx0 J K ctx tr) (.inl ⟨h0.inv.1, emptyDesk, h0.inv.2, hr.start⟩)
    fun _ _ _ _ _ _ hi hg hs => hr.next hi hg hs

theorem DeskRun.keep {x : Externals} {G : RxContext → Input → Prop} {ctx0 ctx : RxContext} {J : Desk → List Ev → Prop}
    {K : List Ev → Prop} {tr : List Ev} (hr : DeskRules x G ctx0 J K) (h : DeskRun ctx0 J K ctx tr) : K (effects tr) := by
  rcases h with ⟨-, d, -, hj⟩ | ⟨-, hK⟩
  · exact hr.keep d _ hj
  · exact hK

/-! ## Computed sessions -/

/-- The input is an authentic DATA frame of the session. -/
def Authentic (x : Externals) (ctx : RxContext) (i : Input) : Prop := (plaintext? x ctx.crypto i).isSome

instance (x : Externals) (ctx : RxContext) (i : Input) : Decidable (Authentic x ctx i) := by unfold Authentic; infer_instance

/-- The context once a sender's session is open. -/
def Sender.session? (S : Sender) : Option RxContext :=
  match rxStep S.externals (rxSetup 0 loaded false [0]) S.opening with
  | .ok p => if p.1.hasSessionKey then some p.1 else none
  | .error _ => none

theorem Sender.session?_opened {S : Sender} {ctx : RxContext} (h : S.session? = some ctx) : Opened S.externals ctx := by
  unfold Sender.session? at h
  split at h
  · rename_i p hs
    split at h
    · rename_i hk
      cases h
      exact opened_of_step (rxSetup_closed ..) hs hk
    · cases h
  · cases h

/-- A computed run of a sender's session. -/
theorem Sender.exists_session (S : Sender) (G : RxContext → Input → Prop) [∀ ctx i, Decidable (G ctx i)] (is : List Input)
    (Q : RxContext → RxContext × List Ev → Bool)
    (h : (S.session?.any fun ctx => (Machine.exec (rxStep S.externals) G is ctx).any (Q ctx)) = true) :
    ∃ ctx0 ctx tr, Opened S.externals ctx0 ∧ Machine.Run (rxStep S.externals) G ctx0 is ctx tr ∧ Q ctx0 (ctx, tr) = true := by
  cases hs : S.session? with
  | none => rw [hs] at h; cases h
  | some ctx0 =>
    rw [hs] at h
    obtain ⟨ctx, tr, hrun, hq⟩ := Machine.exists_run (rxStep S.externals) G ctx0 is (Q ctx0) h
    exact ⟨ctx0, ctx, tr, S.session?_opened hs, hrun, hq⟩

/-- What a sender's session reports of some inputs. -/
def Sender.report (S : Sender) (is : List Input) : List Ev :=
  match S.session? with
  | none => []
  | some ctx => ((Machine.exec (rxStep S.externals) (fun _ _ => True) is ctx).map Prod.snd).getD []

example : Ev.store 0 7 1 12 ∈ (numbered 2 3).report [(numbered 2 3).input 7 1] := by decide +kernel

end WfbYa.Rx
