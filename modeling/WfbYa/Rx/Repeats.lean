/-
  WfbYa.Rx.Repeats — repeated session announcements are transparent.

  The sender announces its session over and over. A frame that opens to the header of the
  session in use is dropped by the early return of `rx_session`: it leaves nothing but the
  frame at hand, so runs with and without it report the same.

  - `Repeats.step`: a repeat's step.
  - `repeats_transparent`: repeats put into a run, or taken out of it, leave its trace and
    all of its last state but the frame at hand.
  - `accepted_repeats`: while every DATA frame authenticates, an announcement of the accepted
    session is such a repeat.
-/

import WfbYa.Lib.Padding
import WfbYa.Rx.InOrder
import WfbYa.Rx.Rejection

namespace WfbYa.Rx

open WfbYa.Frame WfbYa.Ring WfbYa.Lib WfbYa.Lib.Padding

variable {x : Externals} {ctx ctx0 : RxContext}

/-- The frame opens to a session header with this key and epoch. -/
def Announces (x : Externals) (c : CryptoWfbContext) (key : Bytes) (epoch : Nat) (f : RxFrame) : Prop :=
  ∃ w, wfbFrameParse f.data f.size = .ok w ∧ (w.packetType = wfbPacketSession ∧ minSessionPacketLen ≤ w.pktlen) ∧
    ∃ plain, cryptoWfbSessionDecrypt x c (w.cipher.take w.cipherlen) w.nonce = .ok plain ∧
      (sessionHdr w plain).sessionKey = key ∧ (sessionHdr w plain).epoch = epoch

instance (x : Externals) (c : CryptoWfbContext) (key : Bytes) (epoch : Nat) (f : RxFrame) :
    Decidable (Announces x c key epoch f) :=
  decidable_of_iff (Machine.returns (wfbFrameParse f.data f.size) (fun w =>
      decide (w.packetType = wfbPacketSession ∧ minSessionPacketLen ≤ w.pktlen) &&
        Machine.returns (cryptoWfbSessionDecrypt x c (w.cipher.take w.cipherlen) w.nonce) fun plain =>
          decide ((sessionHdr w plain).sessionKey = key ∧ (sessionHdr w plain).epoch = epoch)) = true) (by
    simp only [Machine.returns_iff, Bool.and_eq_true, decide_eq_true_eq, Announces])

/-- The input announces the session in use. -/
def Repeats (x : Externals) (ctx : RxContext) (i : Input) : Prop :=
  ctx.hasSessionKey = true ∧ ∃ f, i = .frame f ∧ Announces x ctx.crypto ctx.sessionKey ctx.epoch f

theorem sameSession_iff {ctx : RxContext} {hdr : WfbSessionHdr} :
    sameSession ctx hdr = true ↔ ctx.hasSessionKey = true ∧ hdr.sessionKey = ctx.sessionKey ∧ hdr.epoch = ctx.epoch := by
  unfold sameSession
  rw [Bool.and_eq_true, Bool.and_eq_true, beq_iff_eq, beq_iff_eq]
  constructor
  · rintro ⟨⟨hk, hkey⟩, he⟩
    exact ⟨hk, hkey.symm, he⟩
  · rintro ⟨hk, hkey, he⟩
    exact ⟨⟨hk, hkey.symm⟩, he⟩

/-- A repeat is dropped without a word. -/
theorem Repeats.step {i : Input} (h : Repeats x ctx i) : ∃ ctx', rxStep x ctx i = .ok (ctx', []) ∧ Idle ctx ctx' := by
  obtain ⟨hk, f, rfl, w, hp, ⟨ht, hl⟩, plain, hd, hkey, he⟩ := h
  refine ⟨withFrame ctx f w, ?_, idle_withFrame ctx f w⟩
  have hsame : sameSession (withFrame ctx f w) (sessionHdr w plain) = true := sameSession_iff.mpr ⟨hk, hkey, he⟩
  have hsess : rxSession x f.outcome (withFrame ctx f w) = .ok ⟨0, withFrame ctx f w, []⟩ := by
    unfold rxSession
    rw [if_neg (show ¬ (withFrame ctx f w).wfb.pktlen < minSessionPacketLen from Nat.not_lt.mpr hl)]
    have hopen : cryptoWfbSessionDecrypt x (withFrame ctx f w).crypto
        ((withFrame ctx f w).wfb.cipher.take (withFrame ctx f w).wfb.cipherlen) (withFrame ctx f w).wfb.nonce = .ok plain := hd
    rw [hopen]
    exact if_pos hsame
  rw [rxStep_parsed hp]
  unfold rxWfb
  rw [if_pos (by exact ht), hsess]
  rfl

/-- The input repeats the session that is in use after `js`. -/
def Repeat (x : Externals) (ctx0 : RxContext) (js : List Input) (i : Input) : Prop :=
  ∀ ctx tr, Machine.Run (rxStep x) Free ctx0 js ctx tr → Repeats x ctx i

/-- Repeats put into a run, or taken out of it, change neither what it reports nor what it
    leaves, except for the frame at hand. -/
theorem repeats_transparent {is js : List Input} (hp : Padded (Repeat x ctx0) is js) :
    (∀ ctx tr, Machine.Run (rxStep x) Free ctx0 is ctx tr → ∃ ctx', Machine.Run (rxStep x) Free ctx0 js ctx' tr ∧ Idle ctx ctx') ∧
    (∀ ctx' tr, Machine.Run (rxStep x) Free ctx0 js ctx' tr → ∃ ctx, Machine.Run (rxStep x) Free ctx0 is ctx tr ∧
    Idle ctx ctx') := by
  constructor
  · intro ctx tr h
    obtain ⟨ctx', tr', hrun, hi, htr⟩ := hp.run (fun a b : List Ev => id_eq (a ++ b)) (Idle.refl ctx0)
      (fun js s t tr i s' e _ hR hg hst => by
        obtain ⟨t', hst', hR'⟩ := hR.step hst
        exact ⟨t', e, hg, hst', hR', rfl⟩)
      (fun js s t tr i hr hR hE => by
        obtain ⟨t', hst, hi⟩ := (hE t tr hr).step
        exact ⟨t', [], trivial, hst, hR.trans hi, rfl⟩) h
    rw [id, id] at htr
    exact ⟨ctx', htr ▸ hrun, hi⟩
  · intro ctx' tr h
    obtain ⟨ctx, tr', hrun, hi, htr⟩ := hp.unrun (fun a b : List Ev => id_eq (a ++ b)) (Idle.refl ctx0)
      (fun s t i t' e' hR hg hst => by
        obtain ⟨s', hst', hR'⟩ := hR.symm.step hst
        exact ⟨s', e', hg, hst', hR'.symm, rfl⟩)
      (fun js s t tr i t' e' hr hR hE hst => by
        obtain ⟨t1, hst', hi⟩ := (hE t tr hr).step
        cases hst.symm.trans hst'
        exact ⟨hR.trans hi, rfl⟩) h
    rw [id, id] at htr
    exact ⟨ctx, htr ▸ hrun, hi⟩

theorem repeat_of_exec {x : Externals} {ctx ctx' : RxContext} {js : List Input} {tr : List Ev} {f : RxFrame}
    (h : Machine.Run (rxStep x) Free ctx js ctx' tr) (hk : ctx'.hasSessionKey = true)
    (hf : Announces x ctx'.crypto ctx'.sessionKey ctx'.epoch f) : Repeat x ctx js (.frame f) := by
  intro c tr' h'
  obtain ⟨rfl, -⟩ := h.unique h'
  exact ⟨hk, f, rfl, hf⟩

/-- A sender's session announced twice more, before and after a fragment. -/
theorem repeats_transparent_run : ∃ ctx0, Opened (numbered 2 2).externals ctx0 ∧
    ((∀ ctx tr, Machine.Run (rxStep (numbered 2 2).externals) Free ctx0 [(numbered 2 2).input 7 0] ctx tr →
        ∃ ctx', Machine.Run (rxStep (numbered 2 2).externals) Free ctx0
          [(numbered 2 2).opening, (numbered 2 2).input 7 0, (numbered 2 2).opening] ctx' tr ∧ Idle ctx ctx') ∧
      (∀ ctx' tr, Machine.Run (rxStep (numbered 2 2).externals) Free ctx0
          [(numbered 2 2).opening, (numbered 2 2).input 7 0, (numbered 2 2).opening] ctx' tr →
        ∃ ctx, Machine.Run (rxStep (numbered 2 2).externals) Free ctx0 [(numbered 2 2).input 7 0] ctx tr ∧ Idle ctx ctx')) := by
  obtain ⟨ctx0, ctx, tr, h0, hrun, hq⟩ := (numbered 2 2).exists_session (fun _ _ => True)
    [(numbered 2 2).opening, (numbered 2 2).input 7 0]
    (fun ctx0 p => decide (ctx0.hasSessionKey = true ∧
        Announces (numbered 2 2).externals ctx0.crypto ctx0.sessionKey ctx0.epoch (sessionFrame 1 0 2 2 someKey)) &&
      decide (p.1.hasSessionKey = true ∧
        Announces (numbered 2 2).externals p.1.crypto p.1.sessionKey p.1.epoch (sessionFrame 1 0 2 2 someKey)))
          (by decide +kernel)
  simp only [Bool.and_eq_true, decide_eq_true_eq] at hq
  obtain ⟨⟨hk0, hf0⟩, hk, hf⟩ := hq
  refine ⟨ctx0, h0, repeats_transparent ?_⟩
  have h1 : Padded (Repeat (numbered 2 2).externals ctx0) [] [(numbered 2 2).opening] :=
    Padded.nil.extra (repeat_of_exec .nil hk0 hf0)
  exact (h1.keep (i := (numbered 2 2).input 7 0)).extra (repeat_of_exec hrun hk hf)

example : sent ((numbered 2 2).report [(numbered 2 2).input 7 0, (numbered 2 2).opening, (numbered 2 2).input 7 1]) =
    [frag 7 0, frag 7 1] := by decide +kernel

/-! ## In a session -/

/-- The input starts no other session, and a DATA frame authenticates. -/
def Vetted (x : Externals) (ctx : RxContext) (i : Input) : Prop :=
  keepsSession x ctx i = true ∧ ∀ w, dataHdr? i = some w → ∀ left, decrypted x ctx.crypto w ≠ .ok (.error left)

/-- The session accepted in `ctx0` is in use. -/
def InUse (ctx0 ctx : RxContext) : Prop :=
  ctx.hasSessionKey = true ∧ ctx.sessionKey = ctx0.sessionKey ∧ ctx.epoch = ctx0.epoch ∧ ctx.crypto = ctx0.crypto

theorem InUse.data {f : RxFrame} {w : WfbContext} {q : Ret} (h : InUse ctx0 ctx) (hp : wfbFrameParse f.data f.size = .ok w)
    (ht : w.packetType = wfbPacketData) (hg : Vetted x ctx (.frame f)) (hd : DataCall x (withFrame ctx f w) q) :
    InUse ctx0 q.ctx := by
  cases hd with
  | refused _ _ => exact h
  | outside _ _ => exact h
  | filed _ _ hf =>
    cases hf with
    | duplicate _ => exact h
    | forged _ hdec => exact absurd hdec (hg.2 w (dataHdr?_some hp ht) _)
    | stored _ _ _ _ => exact h

theorem InUse.step {ctx' : RxContext} {i : Input} {e : List Ev} (h : InUse ctx0 ctx) (hg : Vetted x ctx i)
    (hs : rxStep x ctx i = .ok (ctx', e)) : InUse ctx0 ctx' := by
  cases rxStep_cases hs with
  | toggle _ => exact h
  | unparsed _ _ => exact h
  | session hp ht hx =>
    obtain ⟨he, -⟩ := rxSession_keeps hp ht hg.1 hx
    rw [he]
    exact h
  | data hp ht hd => exact h.data hp ht hg hd

/-- While DATA frames authenticate and no other session is announced, every announcement of
    the accepted session is a repeat. -/
theorem accepted_repeats (h0 : ctx0.hasSessionKey = true) {is : List Input} {tr : List Ev}
    (h : Machine.Run (rxStep x) (Vetted x) ctx0 is ctx tr) {f : RxFrame}
    (hf : Announces x ctx0.crypto ctx0.sessionKey ctx0.epoch f) : Repeats x ctx (.frame f) := by
  have huse : InUse ctx0 ctx := by
    apply h.inv (fun _ ctx _ => InUse ctx0 ctx)
    · exact ⟨h0, rfl, rfl, rfl⟩
    · intro _ _ _ _ _ _ hi hg hs
      exact hi.step hg hs
  obtain ⟨hk, hkey, he, hc⟩ := huse
  refine ⟨hk, f, rfl, ?_⟩
  rw [hkey, he, hc]
  exact hf

end WfbYa.Rx
