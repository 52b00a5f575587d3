/-
  WfbYa.Rx.Fidelity — what is delivered for a fragment is what its sender put into it.

  The world is ideal: the AEAD decrypts only what the session's sender made for the nonce
  given, a session header is the sender's, the codec decodes, the sender conforms.

  - `payload_fidelity`: over any sessions, forged frames and gaps between blocks, what is
    delivered for a block and a fragment is that fragment's payload, as long as no block is
    a multiple of `2 ^ 32` ahead of the last one.
  - `truncation_breaks_fidelity`: such a block's fragment is filed under the old block.
-/

import WfbYa.Rx.Conforming

namespace WfbYa.Rx

open WfbYa.Frame WfbYa.Ring WfbYa.Lib WfbYa.Lib.BigEndian

/-! ## The ideal world -/

structure Ideal (x : Externals) (S : Sender) (enc : Encoder) (payload : Bytes → Nat → Nat → Bytes) : Prop where
  aead : ∀ c ad nonce key plain, x.aeadDecrypt c ad nonce key = .ok plain →
    plain = S.plain key (ofBe nonce / 256) (ofBe nonce % 256)
  box : ∀ c nonce pub sec plain, x.boxOpen c nonce pub sec = some plain → plain.length = wfbSessionHdrlen ∧
    (wfbSessionHdr plain).fecK = S.fecK (wfbSessionHdr plain).sessionKey ∧
    (wfbSessionHdr plain).fecN = S.fecN (wfbSessionHdr plain).sessionKey
  sender : ∀ key, 1 ≤ S.fecK key → S.fecK key ≤ S.fecN key → Conforming S enc payload key
  codec : ∀ key, 1 ≤ S.fecK key → S.fecK key ≤ S.fecN key →
    Erasure.Decodes (enc (S.fecK key) (S.fecN key)) (x.fecDecode (S.fecK key) (S.fecN key)) (S.fecK key) (S.fecN key)

theorem slice_append_left {a : Bytes} {off len : Nat} (rest : Bytes) (h : off + len ≤ a.length) :
    slice (a ++ rest) off len = slice a off len := by
  unfold slice
  refine List.map_congr_left fun i hi => ?_
  rw [List.mem_range] at hi
  rw [List.getD_eq_getElem?_getD, List.getD_eq_getElem?_getD, List.getElem?_append_left (by omega)]

/-- A full session header hides what the buffer holds behind it. -/
theorem sessionHdr_full {w : WfbContext} {plain : Bytes} (h : plain.length = wfbSessionHdrlen) :
    sessionHdr w plain = wfbSessionHdr plain := by
  unfold wfbSessionHdrlen crypto_aead_chacha20poly1305_KEYBYTES at h
  have hget : ∀ (rest : Bytes) i, i < plain.length → (plain ++ rest).getD i 0 = plain.getD i 0 := fun rest i hi => by
    rw [List.getD_eq_getElem?_getD, List.getD_eq_getElem?_getD, List.getElem?_append_left hi]
  unfold sessionHdr wfbSessionHdr crypto_aead_chacha20poly1305_KEYBYTES
  rw [slice_append_left _ (by omega), slice_append_left _ (by omega), slice_append_left _ (by omega),
    hget _ 12 (by omega), hget _ 13 (by omega), hget _ 14 (by omega)]

/-! ## Slots -/

structure SlotFaithful (S : Sender) (key : Bytes) (k n : Nat) (blk : RbufBlock) : Prop where
  toSend : blk.fragmentToSend ≤ k
  stored : blk.index ≠ blockInval → Stored S key blk.index n maxFecPayload blk
  /-- A freed slot has nothing left to send. -/
  freed : blk.index = blockInval → blk.fragmentToSend = k ∨ ∀ f, blk.fragmentLen f = 0

/-- What an event says about a fragment is true of the sender's. -/
def Genuine (S : Sender) (payload : Bytes → Nat → Nat → Bytes) (key : Bytes) : Ev → Prop
  | .store _ b f len => f < S.fecN key ∧ len = (S.plain key b f).length
  | .send b f hdr data => f < S.fecK key ∧ hdr = (S.plain key b f).take wfbDataHdrlen ∧ data = payload key b f
  | .decode _ b f _ data => f < S.fecK key ∧ data = payload key b f
  | .logDecode b f data => f < S.fecK key ∧ data = payload key b f
  | .recover received index _ _ => index.length = S.fecK key ∧ index.Nodup ∧ ∀ c ∈ index, c ∈ received
  | _ => True

variable {x : Externals} {S : Sender} {enc : Encoder} {payload : Bytes → Nat → Nat → Bytes}

theorem PutsOut.genuine {key : Bytes} {b f : Nat} {e : Ev} (hf : f < S.fecK key)
    (h : PutsOut b f ((S.plain key b f).take wfbDataHdrlen) (payload key b f) e) : Genuine S payload key e := by
  cases e with
  | send b' f' h' d =>
    obtain ⟨rfl, rfl, rfl, rfl⟩ := h
    exact ⟨hf, rfl, rfl⟩
  | decode h' b' f' r d =>
    obtain ⟨rfl, rfl, rfl⟩ := h
    exact ⟨hf, rfl⟩
  | logDecode b' f' d =>
    obtain ⟨rfl, rfl, rfl⟩ := h
    exact ⟨hf, rfl⟩
  | _ => cases h

/-- A recovery of a block that holds nothing does not return. -/
theorem Recovery.not_empty {ctx : RxContext} {nof : Nat} {blk blk' : RbufBlock} {evs : List Ev} (hready : Ready ctx blk)
    (h0 : ∀ f, blk.fragmentLen f = 0) (h : Recovery x ctx nof blk blk' evs) : False := by
  have hts := hready.1
  cases h with
  | complete hc =>
    have := List.countP_eq_zero.mp hc blk.fragmentToSend (by rw [List.mem_range'_1]; omega)
    simp [h0] at this
  | decoded _ hp _ =>
    have hpl := planLoop_spec hp
    obtain ⟨c, hc, -⟩ := hpl.parity 0 (by omega) (h0 _)
    exact (hpl.held c (List.mem_of_getElem? hc)).1 (h0 c)

theorem faithfulRules (hx : Ideal x S enc payload) {ctx : RxContext} (hok : SessionOk ctx)
    (hk : ctx.fecK = S.fecK ctx.sessionKey) (hn : ctx.fecN = S.fecN ctx.sessionKey) {nof : Nat} (hnof : nof = ctx.fecN) :
    SlotRules x ctx nof (SlotFaithful S ctx.sessionKey ctx.fecK ctx.fecN) (Genuine S payload ctx.sessionKey) where
  toSend := fun _ h => h.toSend
  send := fun blk h => by
    have hb := (sendPlan_spec blk.fragmentLen false false (ctx.fecK - blk.fragmentToSend) blk.fragmentToSend).bounds
    have ht := h.toSend
    refine ⟨by show (sendPlan _ _ _ _ _).2 ≤ _; omega, h.stored, fun hi => ?_⟩
    rcases h.freed hi with h1 | h1
    · exact .inl (by show (sendPlan _ _ _ _ _).2 = _; omega)
    · exact .inr h1
  handed := fun blk i h hle hi hl => by
    have hlive : blk.index ≠ blockInval := fun e => by
      rcases h.freed e with h1 | h1
      · omega
      · have := h1 i
        omega
    have hc := hx.sender ctx.sessionKey (hk ▸ hok.fecK.1) (hk ▸ hn ▸ hok.fecK.2)
    have hik : i < S.fecK ctx.sessionKey := hk ▸ hi
    have hcar := (h.stored hlive).carries (by have := hok.fecK.2; omega) (Nat.pos_iff_ne_zero.mp hl)
    exact fun e he => (handOver_carries hc rfl hik hcar e he).genuine hik
  flush := fun blk h => ⟨le_refl _, fun hi => absurd rfl hi, fun _ => .inl rfl⟩
  recovered := fun blk blk' evs h hready hrec => by
    have hc := hx.sender ctx.sessionKey (hk ▸ hok.fecK.1) (hk ▸ hn ▸ hok.fecK.2)
    have hdec := hx.codec ctx.sessionKey (hk ▸ hok.fecK.1) (hk ▸ hn ▸ hok.fecK.2)
    refine ⟨⟨le_refl _, fun hi => absurd rfl hi, fun _ => .inl rfl⟩, fun e he => ?_, fun i h1 h2 => ?_⟩
    · cases hrec with
      | complete _ => cases he
      | decoded _ hp _ =>
        rw [effects_msg, effects_cons rfl, effects_nil, List.mem_singleton] at he
        subst he
        have hpl := planLoop_spec hp
        refine ⟨hpl.length.trans hk, hpl.nodup (by omega), fun c hcm => mem_received.mpr ⟨?_, (hpl.held c hcm).1⟩⟩
        have h1 := (hpl.held c hcm).2
        have h2 := hok.fecK.2
        omega
    · have hlive : blk.index ≠ blockInval := fun e => by
        rcases h.freed e with h3 | h3
        · exact absurd hready.1 (by omega)
        · exact hrec.not_empty hready h3
      have hik : i < S.fecK ctx.sessionKey := hk ▸ h2
      have hcar := Recovery.carries hc hdec hok hk hn (hn ▸ h.stored hlive) (hnof ▸ hrec) i h1 hik
      exact fun e he => (handOver_carries hc hrec.keeps.1 hik hcar e he).genuine hik
  renew := fun blk c _ => ⟨Nat.zero_le _, fun _ f _ hl => absurd rfl hl, fun _ => .inr fun _ => rfl⟩
  rssi := fun blk f dbm h => by
    refine ⟨by rw [raiseRssi_toSend]; exact h.toSend, ?_, by rw [raiseRssi_index, raiseRssi_toSend, raiseRssi_len]; exact h.freed⟩
    rw [raiseRssi_index]
    intro hi g hg
    rw [raiseRssi_len, raiseRssi_fragment]
    exact h.stored hi g hg
  leftover := fun blk f left h h0 => ⟨h.toSend, fun hi => (h.stored hi).leftover h0, h.freed⟩
  other := fun e ho hf => by cases e <;> trivial

/-! ## Runs -/

/-- The input asks for no block a multiple of `2 ^ 32` ahead of the last one. -/
def NoWrap (ctx : RxContext) (i : Input) : Prop := ∀ p ∈ asked? ctx i, ¬ Vanishes p.1 p.2

instance (ctx : RxContext) (i : Input) : Decidable (NoWrap ctx i) := by unfold NoWrap; infer_instance

structure FaithfulInv (S : Sender) (ctx : RxContext) : Prop where
  session : SessionInv ctx
  fecK : ctx.fecK = S.fecK ctx.sessionKey
  fecN : ctx.fecN = S.fecN ctx.sessionKey
  slots : ∀ r, ctx.rxRing = some r → ∀ s, SlotFaithful S ctx.sessionKey ctx.fecK ctx.fecN (r.blocks s)

/-- What the AEAD lets through is the fragment the nonce names. -/
theorem decrypted_plain (hx : Ideal x S enc payload) {c : CryptoWfbContext} {w : WfbContext} (hw : IsData w) {plain : Bytes}
    (h : decrypted x c w = .ok (.ok plain)) : plain = S.plain c.sessionKey w.blockIdx w.fragmentIdx := by
  unfold decrypted cryptoWfbDataDecrypt at h
  split at h
  · cases h
  · split at h
    · cases h
    · split at h
      · rename_i p hp
        cases h
        rw [hw.blockIdx, hw.fragmentIdx]
        exact hx.aead _ _ _ _ _ hp
      · cases h

theorem DataCall.faithful (hx : Ideal x S enc payload) {ctx : RxContext} {q : Ret} (h : DataCall x ctx q)
    (hi : FaithfulInv S ctx) (hw : IsData ctx.wfb) (hv : ∀ r, Admitted ctx r → ¬ Vanishes r ctx.wfb.blockIdx) :
    FaithfulInv S q.ctx ∧ ∀ e ∈ q.evs, Genuine S payload ctx.sessionKey e := by
  obtain ⟨r, hr, -, hn, -⟩ := hi.session.ok.ring
  have hok := hi.session.ok
  obtain ⟨r', hr', hg, hsh⟩ := h.slots hr (faithfulRules hx hok hi.fecK hi.fecN hn) (hi.slots r hr) fun ha => by
    refine ⟨trivial, fun r1 slot evs plain hget h1 h0 hd hle => ?_⟩
    have hidx := getBlock_index ha.blockIdx (hv r ha) hget
    have hsz : r1.fragmentSize = maxFecPayload := by
      have := (getBlock_shape hget).trans (hok.shape_eq hr)
      exact congrArg (·.2.2) this
    have hpl := decrypted_plain hx hw hd
    rw [hok.crypto.2] at hpl
    rw [hsz] at hle ⊢
    have hlive : (r1.blocks slot).index ≠ blockInval := hidx ▸ maxBlockIdx_ne ha.blockIdx
    rw [← hidx] at hpl
    subst hpl
    have hst := h1.stored (by rwa [raiseRssi_index])
    rw [raiseRssi_index] at hst
    refine ⟨⟨h1.toSend, fun _ => ?_, fun hi' => absurd hi' (by simpa [storeFragment] using hlive)⟩, hi.fecN ▸ ha.fragmentIdx, rfl⟩
    show Stored S ctx.sessionKey (raiseRssi _ _ _).index ctx.fecN maxFecPayload _
    rw [raiseRssi_index]
    exact hst.store hle
  have hs := (h.inv hi.session).1
  obtain ⟨ring, key, he, -⟩ := h.ctx_eq
  refine ⟨?_, hg.2⟩
  have hring : ring = some r' := by rw [he] at hr'; exact hr'
  rw [he, hring] at hs ⊢
  refine ⟨hs, hi.fecK, hi.fecN, fun r2 hr2 s => ?_⟩
  cases hr2
  exact hg.1 s

theorem faithfulSessionRules (hx : Ideal x S enc payload) :
    SessionRules x NoWrap (FaithfulInv S) (fun ctx => Genuine S payload ctx.sessionKey) where
  idle := fun _ w freq dbm noFec h => ⟨h.session.idle w freq dbm noFec, h.fecK, h.fecN, h.slots⟩
  start := fun ctx ctx' plain r hd hc hst => by
    have hbox : plain.length = wfbSessionHdrlen ∧ (wfbSessionHdr plain).fecK = S.fecK (wfbSessionHdr plain).sessionKey ∧
        (wfbSessionHdr plain).fecN = S.fecN (wfbSessionHdr plain).sessionKey := by
      unfold cryptoWfbSessionDecrypt at hd
      split at hd
      · cases hd
      · split at hd
        · rename_i p hp
          cases hd
          exact hx.box _ _ _ _ _ hp
        · cases hd
    have hinv := hst.inv hc
    obtain ⟨rfl, heap, hpos, hint, rfl⟩ := hst
    have hfull : sessionHdr ctx.wfb plain = wfbSessionHdr plain := sessionHdr_full hbox.1
    refine ⟨hinv, ?_, ?_, fun r' hr' s => ?_⟩
    · show (sessionHdr ctx.wfb plain).fecK = S.fecK (sessionHdr ctx.wfb plain).sessionKey
      rw [hfull]
      exact hbox.2.1
    · show (sessionHdr ctx.wfb plain).fecN = S.fecN (sessionHdr ctx.wfb plain).sessionKey
      rw [hfull]
      exact hbox.2.2
    · cases hr'
      exact ⟨Nat.zero_le _, fun hi => absurd rfl hi, fun _ => .inr fun _ => rfl⟩
  data := fun ctx f w q hg hp ht h hd => hd.faithful hx h (wfbFrameParse_data hp ht).1 fun r ha =>
    hg (r, w.blockIdx) (asked?_data hp ht ha)
  other := fun _ e ho hf => by cases e <;> trivial

/-- What an input makes the receiver deliver is the current session's sender's payload. -/
theorem payload_fidelity (hx : Ideal x S enc payload) {chan : Nat} {crypto : CryptoWfbContext} {noFec : Bool}
    {handlers : List Nat} {is : List Input}
    {ctx : RxContext} {tr : List Ev} (h : Machine.Run (rxStep x) NoWrap (rxSetup chan crypto noFec handlers) is ctx tr)
    {i : Input} {ctx' : RxContext} {evs : List Ev} (hg : NoWrap ctx i) (hs : rxStep x ctx i = .ok (ctx', evs)) :
    ∀ e ∈ evs, Genuine S payload ctx.sessionKey e :=
  ((faithfulSessionRules hx).step ((faithfulSessionRules hx).run h) hg hs).2

/-! ## A concrete world -/

/-- Each parity is the first primary. -/
def repeating : Encoder := fun _ _ words _ => words.getD 0 []

/-- For one primary, or without parities, repeating is a code. -/
theorem repeating_decodes {k n : Nat} (h : k = 1 ∨ k = n) (S : Sender) :
    Erasure.Decodes (repeating k n) (S.externals.fecDecode k n) k n := by
  intro word len index _ _ hl hn hlt hown
  have hone : ∀ i < k,
    (if index.getD i 0 < k then none else some ((index.map (Erasure.fragment (repeating k n) k word)).getD i [])) =
      if i ∉ index then some (word i) else none := fun i hi => by
    have hget : index[i]? = some (index.getD i 0) := by
      rw [List.getD_eq_getElem?_getD, List.getElem?_eq_getElem (by omega)]
      rfl
    have hmem := List.mem_of_getElem? hget
    by_cases hc : index.getD i 0 < k
    · have := hown i _ hget hc
      rw [if_pos hc, if_neg (not_not.mpr (this ▸ hmem))]
    · have hk1 : k = 1 := by
        rcases h with h | h
        · exact h
        · have := hlt _ hmem
          omega
      subst hk1
      obtain rfl : i = 0 := by omega
      obtain ⟨c, rfl⟩ := List.length_eq_one_iff.mp hl
      have hc' : ¬ c < 1 := hc
      have hnot : (0 : Nat) ∉ [c] := fun h0 => by
        rw [List.mem_singleton] at h0
        omega
      rw [if_neg hc, if_pos hnot]
      simp [Erasure.fragment, hc', repeating]
  have hsplit : ((List.range k).filter (· ∉ index)).map word =
      (List.range k).filterMap fun i => if i ∉ index then some (word i) else none := by
    rw [← List.filterMap_eq_map (f := word), List.filterMap_filter]
    refine List.filterMap_congr fun i _ => ?_
    simp
  rw [hsplit]
  exact List.filterMap_congr fun i hi => hone i (List.mem_range.mp hi)

theorem numbered_payload_le (k b i : Nat) : (number k b i).length ≤ maxPayloadSize := by
  rw [number, List.length_append, be_length]
  show 8 + 1 ≤ maxPayloadSize
  decide

theorem numbered_conforming {k n : Nat} (hk : 1 ≤ k) (h : k = 1 ∨ k = n) (key : Bytes) :
    Conforming (numbered k n) repeating (fun _ => number k) key where
  primary := fun b i _ => ⟨numbered_payload_le k b i, 0, rfl⟩
  parity := fun b i hi hin => by
    have hk1 : k = 1 := by
      rcases h with h | h
      · exact h
      · exact absurd hi (by show ¬ k ≤ i; have : i < n := hin; omega)
    subst hk1
    have hlen : (numbered 1 n).blockLen key b = (withHdr 0 (number 1 b 0)).length := Nat.zero_max _
    have hsame : (numbered 1 n).plain key b i = withHdr 0 (number 1 b 0) := by
      show withHdr 0 (number 1 b i) = _
      rw [number, number, Nat.mod_one, Nat.mod_one]
    have hi' : ¬ i < 1 := Nat.not_lt.mpr hi
    refine ⟨by rw [hlen, hsame], ?_⟩
    show _ = if i < 1 then _ else Erasure.pad 0 ((numbered 1 n).blockLen key b) ((numbered 1 n).plain key b 0)
    rw [if_neg hi', hsame, hlen]
    show _ = Erasure.pad 0 _ (withHdr 0 (number 1 b 0))
    rw [Erasure.pad, Nat.sub_self]
    exact (List.append_nil _).symm

/-- Beside its own externals a sender that conforms with `repeating` is in an ideal world. -/
theorem Sender.ideal {S : Sender} {payload : Bytes → Nat → Nat → Bytes} (hc : ∀ key, Conforming S repeating payload key)
    (h : ∀ key, S.fecK key = 1 ∨ S.fecK key = S.fecN key) : Ideal S.externals S repeating payload where
  aead := fun c ad nonce key plain hp => by
    simp only [Sender.externals] at hp
    split at hp
    · cases hp; rfl
    · cases hp
  box := fun c nonce pub sec plain hp => by
    simp only [Sender.externals] at hp
    split at hp
    · rename_i hc
      cases hp
      exact hc.2
    · cases hp
  sender := fun key _ _ => hc key
  codec := fun key _ _ => repeating_decodes (h key) _

theorem numbered_ideal {k n : Nat} (hk : 1 ≤ k) (h : k = 1 ∨ k = n) :
    Ideal (numbered k n).externals (numbered k n) repeating (fun _ => number k) :=
  Sender.ideal (numbered_conforming hk h) fun _ => h

theorem payload_fidelity_run : ∃ ctx tr ctx' evs, Machine.Run (rxStep (numbered 1 2).externals) NoWrap
    (rxSetup 0 loaded false [0]) [(numbered 1 2).opening, (numbered 1 2).input 7 1] ctx tr ∧
      rxStep (numbered 1 2).externals ctx ((numbered 1 2).input 107 1) = .ok (ctx', evs) ∧
        ∀ e ∈ evs, Genuine (numbered 1 2) (fun _ => number 1) ctx.sessionKey e := by
  obtain ⟨ctx, tr, hrun, hq⟩ := Machine.exists_run (rxStep (numbered 1 2).externals) NoWrap
    (rxSetup 0 loaded false [0]) [(numbered 1 2).opening, (numbered 1 2).input 7 1]
    (fun p => decide (NoWrap p.1 ((numbered 1 2).input 107 1)) &&
      Machine.returns (rxStep (numbered 1 2).externals p.1 ((numbered 1 2).input 107 1)) fun _ => true) (by decide +kernel)
  rw [Bool.and_eq_true, decide_eq_true_eq, Machine.returns_iff] at hq
  obtain ⟨hg, p, hs, -⟩ := hq
  exact ⟨ctx, tr, p.1, p.2, hrun, hs, payload_fidelity (numbered_ideal (le_refl _) (.inl rfl)) hrun hg hs⟩

/-- After fragment 1 of block 0, fragment 0 of block `2 ^ 32` completes block 0. -/
theorem truncation_breaks_fidelity : ¬ ∀ (x : Externals) (S : Sender) (enc : Encoder) (payload : Bytes → Nat → Nat → Bytes)
    (chan : Nat) (crypto : CryptoWfbContext) (noFec : Bool) (handlers : List Nat) (is : List Input) (ctx : RxContext)
    (tr : List Ev) (i : Input) (ctx' : RxContext) (evs : List Ev), Ideal x S enc payload →
      Machine.Run (rxStep x) (fun _ _ => True) (rxSetup chan crypto noFec handlers) is ctx tr →
        rxStep x ctx i = .ok (ctx', evs) → ∀ h b f rssi data, .decode h b f rssi data ∈ evs →
          data = payload ctx.sessionKey b f := by
  intro hclaim
  obtain ⟨ctx, tr, hrun, hq⟩ := Machine.exists_run (rxStep (numbered 2 2).externals) (fun _ _ => True)
    (rxSetup 0 loaded false [0]) [(numbered 2 2).opening, (numbered 2 2).input 0 1]
    (fun p => Machine.returns (rxStep (numbered 2 2).externals p.1 ((numbered 2 2).input (2 ^ 32) 0)) fun q =>
      decide (Ev.decode 0 0 0 (-50) (number 2 (2 ^ 32) 0) ∈ q.2)) (by decide +kernel)
  obtain ⟨q, hs, hq⟩ := Machine.returns_iff.mp hq
  have := hclaim _ _ _ _ _ _ _ _ _ ctx tr _ q.1 q.2 (numbered_ideal (by decide) (.inr rfl)) hrun hs 0 0 0 (-50) _
    (of_decide_eq_true hq)
  exact absurd this (by decide)

end WfbYa.Rx
