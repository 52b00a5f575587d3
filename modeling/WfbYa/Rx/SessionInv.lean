/-
  WfbYa.Rx.SessionInv — the session across every run of the receiver.

  The session is in four places: the flag and the parameters in the context, the ring, the
  codec, the crypto module. A session frame replaces them one after another and may fail
  in between, always with the flag cleared.

  - `rxSession_cases`: a session frame changes nothing, or ends the session, or starts one.
  - `SessionRules` / `SessionRules.run`: an invariant of the context that a starting session
    establishes and DATA frames keep holds whenever the flag is set.
  - `sessionRules`: while the flag is set the four agree, and no DATA frame reports a fragment
    index outside the ring's arrays.
-/

import WfbYa.Rx.Slots
import WfbYa.Rx.Sender

namespace WfbYa.Rx

open WfbYa.Frame WfbYa.Ring WfbYa.Lib

/-! ## rx_session -/

/-- A header that passed the checks of a new session. -/
structure Checked (ctx : RxContext) (hdr : WfbSessionHdr) : Prop where
  channelId : ctx.channelId = 0 ∨ ctx.channelId = hdr.channelId
  fecType : hdr.fecType = wfbFecVdmRs
  fecK : 1 ≤ hdr.fecK ∧ hdr.fecK ≤ hdr.fecN
  fecN : hdr.fecN ≤ 255
  sessionKey : hdr.sessionKey.length = crypto_aead_chacha20poly1305_KEYBYTES

theorem sessionCheck_none {ctx : RxContext} {w : WfbContext} {plain : Bytes}
    (h : sessionCheck ctx (sessionHdr w plain) = none) : Checked ctx (sessionHdr w plain) := by
  have hn : (sessionHdr w plain).fecN ≤ 255 := by
    have := (((plain ++ w.cipher.drop plain.length).getD 14 0)).toNat_lt
    show ((plain ++ w.cipher.drop plain.length).getD 14 0).toNat ≤ 255
    omega
  unfold sessionCheck at h
  split at h
  · cases h
  · rename_i hc
    split at h
    · cases h
    · rename_i ht
      split at h
      · cases h
      · rename_i h1
        split at h
        · cases h
        · rename_i hk
          refine ⟨?_, not_not.mp ht, ⟨by omega, by omega⟩, hn, BigEndian.slice_length ..⟩
          by_contra hne
          push Not at hne
          exact hc hne

/-- The context a new session starts in: its header, its codec, its key, and an empty ring. -/
def Starts (ctx ctx' : RxContext) (hdr : WfbSessionHdr) (r : Rbuf) : Prop :=
  ctx' = acceptSession { ctx with hasSessionKey := false, fec := ⟨wfbFecVdmRs, some (hdr.fecK, hdr.fecN)⟩ } hdr r ∧
    ∃ heap hpos hint, r = newRing heap rxRingSize maxFecPayload hdr.fecN hpos hint

inductive SessionCall (x : Externals) (ctx : RxContext) : Ret → Prop
  | ignored {ret : Int} {evs : List Ev} : Quiet evs → SessionCall x ctx ⟨ret, ctx, evs⟩
  | ended {ret : Int} {fec : FecContext} {ring : Option Rbuf} {evs : List Ev} : Quiet evs →
      SessionCall x ctx ⟨ret, { ctx with hasSessionKey := false, fec := fec, rxRing := ring }, evs⟩
  | started {ret : Int} {plain : Bytes} {r : Rbuf} {ctx' : RxContext} {evs : List Ev} :
      cryptoWfbSessionDecrypt x ctx.crypto (ctx.wfb.cipher.take ctx.wfb.cipherlen) ctx.wfb.nonce = .ok plain →
      minSessionPacketLen ≤ ctx.wfb.pktlen → sameSession ctx (sessionHdr ctx.wfb plain) = false →
      Checked ctx (sessionHdr ctx.wfb plain) → Starts ctx ctx' (sessionHdr ctx.wfb plain) r →
      (∀ e ∈ evs, e.isOutput = false ∧ e.fragment? = none) → SessionCall x ctx ⟨ret, ctx', evs⟩

theorem rekey_cases {x : Externals} {o : Outcome} {ctx : RxContext} {plain : Bytes} {q : Ret}
    (hd : cryptoWfbSessionDecrypt x ctx.crypto (ctx.wfb.cipher.take ctx.wfb.cipherlen) ctx.wfb.nonce = .ok plain)
    (hl : minSessionPacketLen ≤ ctx.wfb.pktlen) (hs : sameSession ctx (sessionHdr ctx.wfb plain) = false)
    (h : rekey o ctx (sessionHdr ctx.wfb plain) = .ok q) : SessionCall x ctx q := by
  unfold rekey at h
  dsimp only at h
  split at h
  · cases h
    exact .ended rfl
  · rename_i hc
    have hck := sessionCheck_none hc
    have hck' : Checked ctx (sessionHdr ctx.wfb plain) := ⟨hck.channelId, hck.fecType, hck.fecK, hck.fecN, hck.sessionKey⟩
    cases hf : o.fecNew with
    | false =>
      simp only [fecWfbNew, hf, hck.fecType, if_true] at h
      cases h
      exact .ended rfl
    | true =>
      simp only [fecWfbNew, hf, hck.fecType, if_true] at h
      rw [if_neg (by decide)] at h
      obtain ⟨ring, hr, h1⟩ := Machine.bind_ok_iff.mp h
      cases ring with
      | none =>
        cases h1
        exact .ended rfl
      | some r =>
        cases h1
        obtain ⟨hpos, hint, hr⟩ :
          ∃ hpos hint, r = newRing o.heap rxRingSize maxFecPayload (sessionHdr ctx.wfb plain).fecN hpos hint := by
          cases hok : o.rbufAlloc with
          | false => rw [hok] at hr; cases hr
          | true => rw [hok] at hr; exact rbufAlloc_some hr
        refine .started hd hl hs hck' ⟨rfl, o.heap, hpos, hint, hr⟩ fun e he => ?_
        rcases List.mem_append.mp he with he | he
        · split at he
          · rw [List.mem_singleton] at he; subst he; exact ⟨rfl, rfl⟩
          · cases he
        · rw [List.mem_singleton] at he; subst he; exact ⟨rfl, rfl⟩

theorem rxSession_cases {x : Externals} {o : Outcome} {ctx : RxContext} {q : Ret} (h : rxSession x o ctx = .ok q) :
    SessionCall x ctx q := by
  unfold rxSession at h
  split at h
  · cases h
    exact .ignored rfl
  · rename_i hl
    split at h
    · rename_i fmt hd
      cases h
      exact .ignored (by cases fmt <;> rfl)
    · rename_i plain hd
      dsimp only at h
      split at h
      · cases h
        exact .ignored rfl
      · rename_i hs
        exact rekey_cases hd (Nat.not_lt.mp hl) (by simpa using hs) h

/-! ## The session -/

structure SessionOk (ctx : RxContext) : Prop where
  ring : ∃ r, ctx.rxRing = some r ∧ r.ringSize = rxRingSize ∧ r.fragmentNof = ctx.fecN ∧ r.fragmentSize = maxFecPayload
  fecK : 1 ≤ ctx.fecK ∧ ctx.fecK ≤ ctx.fecN
  fecN : ctx.fecN ≤ 255
  fec : ctx.fec = ⟨wfbFecVdmRs, some (ctx.fecK, ctx.fecN)⟩
  crypto : ctx.crypto.hasSessionKey = true ∧ ctx.crypto.sessionKey = ctx.sessionKey

/-- What the session needs from the ring it reads. -/
theorem SessionOk.shape_eq {ctx : RxContext} (h : SessionOk ctx) {r : Rbuf} (hr : ctx.rxRing = some r) :
    shape r = (rxRingSize, ctx.fecN, maxFecPayload) := by
  obtain ⟨r', hr', h1, h2, h3⟩ := h.ring
  cases hr.symm.trans hr'
  simp [shape, h1, h2, h3]

theorem SessionOk.withRing {ctx : RxContext} (h : SessionOk ctx) {r r' : Rbuf} (hr : ctx.rxRing = some r)
    (hs : shape r' = shape r) (key : Bool) : SessionOk { ctx with rxRing := some r', hasSessionKey := key } := by
  have he := hs.trans (h.shape_eq hr)
  simp only [shape, Prod.mk.injEq] at he
  exact ⟨⟨r', rfl, he.1, he.2.1, he.2.2⟩, h.fecK, h.fecN, h.fec, h.crypto⟩

theorem Starts.ok {ctx ctx' : RxContext} {hdr : WfbSessionHdr} {r : Rbuf} (hc : Checked ctx hdr)
    (h : Starts ctx ctx' hdr r) : SessionOk ctx' := by
  obtain ⟨rfl, heap, hpos, hint, rfl⟩ := h
  have hkey : cryptoWfbSessionKeySet ctx.crypto hdr.sessionKey =
      (0, { ctx.crypto with sessionKey := hdr.sessionKey, hasSessionKey := true }) := by
    unfold cryptoWfbSessionKeySet
    rw [if_neg (fun h => h hc.sessionKey)]
  refine ⟨⟨_, rfl, rfl, rfl, rfl⟩, hc.fecK, hc.fecN, rfl, ?_⟩
  show (cryptoWfbSessionKeySet ctx.crypto hdr.sessionKey).2.hasSessionKey = true ∧
    (cryptoWfbSessionKeySet ctx.crypto hdr.sessionKey).2.sessionKey = hdr.sessionKey
  rw [hkey]
  exact ⟨rfl, rfl⟩

/-! ## Rules for an invariant of the session -/

/-- Without a session a DATA frame is refused. -/
theorem DataCall.closed {x : Externals} {ctx : RxContext} {q : Ret} (h : DataCall x ctx q)
    (hs : ctx.hasSessionKey = false) : q.ctx = ctx ∧ Quiet q.evs := by
  cases h with
  | refused _ hq => exact ⟨rfl, hq⟩
  | outside ha _ => rw [ha.session] at hs; cases hs
  | filed ha _ _ => rw [ha.session] at hs; cases hs

theorem quiet_msg {evs : List Ev} (h : Quiet evs) {e : Ev} (he : e ∈ evs) : e.isOutput = false ∧ e.fragment? = none := by
  have hm : ¬ e.isMsg = false := fun hm => by
    have : e ∈ effects evs := mem_effects.mpr ⟨he, hm⟩
    rw [show effects evs = [] from h] at this
    cases this
  cases e with
  | msg t fmt => exact ⟨rfl, rfl⟩
  | _ => exact absurd rfl hm

/-- `I` holds of a session that starts and is kept by its DATA frames, whose reports
    satisfy `Q`. -/
structure SessionRules (x : Externals) (G : RxContext → Input → Prop) (I : RxContext → Prop)
    (Q : RxContext → Ev → Prop) : Prop where
  idle : ∀ (ctx : RxContext) w freq dbm noFec, I ctx → I { ctx with wfb := w, freq := freq, dbm := dbm, noFec := noFec }
  start : ∀ ctx ctx' plain r,
    cryptoWfbSessionDecrypt x ctx.crypto (ctx.wfb.cipher.take ctx.wfb.cipherlen) ctx.wfb.nonce = .ok plain →
    Checked ctx (sessionHdr ctx.wfb plain) → Starts ctx ctx' (sessionHdr ctx.wfb plain) r → I ctx'
  data : ∀ (ctx : RxContext) f w q, G ctx (.frame f) → wfbFrameParse f.data f.size = .ok w → w.packetType = wfbPacketData →
    I (withFrame ctx f w) → DataCall x (withFrame ctx f w) q → I q.ctx ∧ ∀ e ∈ q.evs, Q ctx e
  other : ∀ ctx (e : Ev), e.isOutput = false → e.fragment? = none → Q ctx e

theorem SessionRules.step {x : Externals} {G : RxContext → Input → Prop} {I : RxContext → Prop} {Q : RxContext → Ev → Prop}
    (hr : SessionRules x G I Q) {ctx ctx' : RxContext} {i : Input} {evs : List Ev}
    (h : ctx.hasSessionKey = true → I ctx) (hg : G ctx i) (hs : rxStep x ctx i = .ok (ctx', evs)) :
    (ctx'.hasSessionKey = true → I ctx') ∧ ∀ e ∈ evs, Q ctx e := by
  have hquiet : ∀ {evs : List Ev}, Quiet evs → ∀ e ∈ evs, Q ctx e := fun hq e he =>
    hr.other ctx e (quiet_msg hq he).1 (quiet_msg hq he).2
  cases rxStep_cases hs with
  | toggle hq => exact ⟨fun hk => hr.idle ctx ctx.wfb ctx.freq ctx.dbm _ (h hk), hquiet hq⟩
  | @unparsed f _ _ _ hq => exact ⟨fun hk => hr.idle ctx ctx.wfb f.freq f.dbm ctx.noFec (h hk), hquiet hq⟩
  | @session f w _ _ _ hx =>
    have hidle : ctx.hasSessionKey = true → I (withFrame ctx f w) := fun hk => hr.idle ctx w f.freq f.dbm ctx.noFec (h hk)
    cases rxSession_cases hx with
    | ignored hq => exact ⟨hidle, hquiet hq⟩
    | ended hq => exact ⟨fun hk => (nomatch hk), hquiet hq⟩
    | started hd _ _ hc hst hev =>
      exact ⟨fun _ => hr.start _ _ _ _ hd hc hst, fun e he => hr.other ctx e (hev e he).1 (hev e he).2⟩
  | @data f w _ hp ht hd =>
    by_cases hk : ctx.hasSessionKey = true
    · obtain ⟨h1, h2⟩ := hr.data ctx f w _ hg hp ht (hr.idle ctx w f.freq f.dbm ctx.noFec (h hk)) hd
      exact ⟨fun _ => h1, h2⟩
    · obtain ⟨he, hq⟩ := hd.closed (Bool.eq_false_iff.mpr hk)
      exact ⟨fun hk' => by rw [he] at hk'; exact absurd hk' hk, hquiet hq⟩

theorem rxSetup_closed (chan : Nat) (crypto : CryptoWfbContext) (noFec : Bool) (handlers : List Nat) :
    (rxSetup chan crypto noFec handlers).hasSessionKey = false := by
  have h : ∀ ctx : RxContext, ctx.hasSessionKey = false →
      (handlers.foldl (fun ctx h => (rxContextSetDecode ctx h).2) ctx).hasSessionKey = false := by
    induction handlers with
    | nil => exact fun _ h => h
    | cons a handlers ih =>
      refine fun ctx h => ih _ ?_
      show (rxContextSetDecode ctx a).2.hasSessionKey = false
      unfold rxContextSetDecode
      split <;> exact h
  exact h _ rfl

theorem SessionRules.run_from {x : Externals} {G : RxContext → Input → Prop} {I : RxContext → Prop}
    {Q : RxContext → Ev → Prop} (hr : SessionRules x G I Q) {ctx0 ctx : RxContext} (h0 : ctx0.hasSessionKey = true → I ctx0)
    {is : List Input} {tr : List Ev} (h : Machine.Run (rxStep x) G ctx0 is ctx tr) : ctx.hasSessionKey = true → I ctx :=
  h.inv (fun _ ctx _ => ctx.hasSessionKey = true → I ctx) h0 fun _ _ _ _ _ _ hi hg hs => (hr.step hi hg hs).1

theorem SessionRules.run {x : Externals} {G : RxContext → Input → Prop} {I : RxContext → Prop} {Q : RxContext → Ev → Prop}
    (hr : SessionRules x G I Q) {chan : Nat} {crypto : CryptoWfbContext} {noFec : Bool} {handlers : List Nat}
    {is : List Input} {ctx : RxContext} {tr : List Ev}
    (h : Machine.Run (rxStep x) G (rxSetup chan crypto noFec handlers) is ctx tr) : ctx.hasSessionKey = true → I ctx :=
  hr.run_from (fun hk => by rw [rxSetup_closed] at hk; cases hk) h

/-! ## Fragment indices -/

/-- An event uses no fragment index from `n` on. -/
def Below (n : Nat) (e : Ev) : Prop := ∀ f, e.fragment? = some f → f < n

theorem handOver_fragment {ctx : RxContext} {blk : RbufBlock} {i : Nat} {e : Ev} (h : e ∈ handOver ctx blk i) :
    e.fragment? = some i := by
  rcases List.mem_cons.mp h with rfl | h
  · rfl
  · obtain ⟨hm, hmsg⟩ := mem_effects.mp h
    unfold deliver at hm
    dsimp only at hm
    split at hm
    · cases hm
    · split at hm
      · rw [List.mem_singleton] at hm; subst hm; cases hmsg
      · rcases List.mem_append.mp hm with hm | hm
        · split at hm
          · rw [List.mem_singleton] at hm; subst hm; cases hmsg
          · obtain ⟨a, -, rfl⟩ := List.mem_map.mp hm; rfl
        · rw [List.mem_singleton] at hm; subst hm; rfl

/-- The cursor of every slot stays within the primaries, and nothing reported uses a
    fragment index the block does not have. -/
theorem cursorRules {ctx : RxContext} (x : Externals) (nof : Nat) (hk : ctx.fecK ≤ ctx.fecN) :
    SlotRules x ctx nof (fun blk => blk.fragmentToSend ≤ ctx.fecK) (Below ctx.fecN) where
  toSend := fun _ h => h
  send := fun blk h => by
    have := (sendPlan_spec blk.fragmentLen false false (ctx.fecK - blk.fragmentToSend) blk.fragmentToSend).bounds
    show (sendPlan _ _ _ _ _).2 ≤ _
    omega
  handed := fun blk i _ _ hi _ e he f hf => by
    rw [handOver_fragment he] at hf
    cases hf
    omega
  flush := fun _ _ => le_refl _
  recovered := fun blk blk' evs _ _ hrec => by
    refine ⟨le_refl _, fun e he f hf => ?_, fun i _ hi e he f hf => ?_⟩
    · cases hrec with
      | complete _ => cases he
      | decoded _ _ _ =>
        rw [effects_msg, effects_cons rfl, effects_nil, List.mem_singleton] at he
        subst he
        cases hf
    · rw [handOver_fragment he] at hf
      cases hf
      omega
  renew := fun _ _ _ => Nat.zero_le _
  rssi := fun blk f dbm h => by rwa [raiseRssi_toSend]
  leftover := fun _ _ _ h _ => h
  other := fun e _ he f hf => by rw [he] at hf; cases hf

/-! ## Runs -/

structure SessionInv (ctx : RxContext) : Prop where
  ok : SessionOk ctx
  cursor : ∀ r, ctx.rxRing = some r → ∀ s, (r.blocks s).fragmentToSend ≤ ctx.fecK

theorem Starts.inv {ctx ctx' : RxContext} {hdr : WfbSessionHdr} {r : Rbuf} (hc : Checked ctx hdr)
    (h : Starts ctx ctx' hdr r) : SessionInv ctx' := by
  refine ⟨h.ok hc, fun r' hr' s => ?_⟩
  obtain ⟨rfl, heap, hpos, hint, rfl⟩ := h
  cases hr'
  exact Nat.zero_le _

theorem SessionInv.idle {ctx : RxContext} (h : SessionInv ctx) (w : WfbContext) (freq : Nat) (dbm : Int) (noFec : Bool) :
    SessionInv { ctx with wfb := w, freq := freq, dbm := dbm, noFec := noFec } :=
  ⟨⟨h.ok.ring, h.ok.fecK, h.ok.fecN, h.ok.fec, h.ok.crypto⟩, h.cursor⟩

theorem DataCall.inv {x : Externals} {ctx : RxContext} {q : Ret} (h : DataCall x ctx q) (hi : SessionInv ctx) :
    SessionInv q.ctx ∧ ∀ e ∈ q.evs, Below ctx.fecN e := by
  obtain ⟨r, hr, -⟩ := hi.ok.ring
  obtain ⟨r', hr', hg, hsh⟩ := h.slots hr (cursorRules x _ hi.ok.fecK.2) (hi.cursor r hr) fun ha => by
    have hf : Below ctx.fecN (.logFrame ctx.wfb.blockIdx ctx.wfb.fragmentIdx ctx.wfb.pktlen) := fun f hf => by
      cases hf; exact ha.fragmentIdx
    exact ⟨hf, fun r1 slot _ plain _ h1 _ _ _ => ⟨h1, fun f hf => by cases hf; exact ha.fragmentIdx⟩⟩
  obtain ⟨ring, key, he, -⟩ := h.ctx_eq
  have hring : ring = some r' := by rw [he] at hr'; exact hr'
  refine ⟨?_, hg.2⟩
  rw [he, hring]
  refine ⟨hi.ok.withRing hr hsh key, fun r2 hr2 s => ?_⟩
  cases hr2
  exact hg.1 s

theorem sessionRules (x : Externals) :
    SessionRules x (fun _ _ => True) SessionInv (fun ctx => Below ctx.fecN) where
  idle := fun _ w freq dbm noFec h => h.idle w freq dbm noFec
  start := fun _ _ _ _ _ hc hst => hst.inv hc
  data := fun _ _ _ _ _ _ _ h hd => hd.inv h
  other := fun _ e _ he f hf => by rw [he] at hf; cases hf

end WfbYa.Rx
