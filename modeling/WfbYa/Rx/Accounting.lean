/-
  WfbYa.Rx.Accounting — a block's counters agree with what it holds.

  `fragment_used` counts the fragments stored, `fragment_len` is nonzero for each of them;
  recovery relies on both saying the same.

  - `accounting`: they do, in every run in which no authenticated plaintext is empty, over
    any gaps between blocks; every recovery is then well formed, and no array is read past
    its end.
  - `empty_breaks_accounting`: the smallest DATA frame the length checks let through
    carries an empty plaintext (`MIN_DATA_PACKET_LEN` leaves out the block header), which
    counts as used and is not held.
-/

import WfbYa.Rx.Planning
import WfbYa.Rx.SessionInv

namespace WfbYa.Rx

open WfbYa.Frame WfbYa.Ring WfbYa.Lib

/-! ## Counting what a block holds -/

theorem held_congr {a b : RbufBlock} {i n : Nat} (h : ∀ m, i ≤ m → m < i + n → (a.fragmentLen m ≠ 0 ↔ b.fragmentLen m ≠ 0)) :
    held a i n = held b i n := by
  unfold held
  refine List.countP_congr fun m hm => ?_
  rw [List.mem_range'_1] at hm
  simpa using h m hm.1 hm.2

theorem held_split (blk : RbufBlock) {f n : Nat} (hf : f < n) :
    held blk 0 n = held blk 0 f + ((if blk.fragmentLen f ≠ 0 then 1 else 0) + held blk (f + 1) (n - (f + 1))) := by
  have h := held_add blk 0 f (n - (f + 1) + 1)
  rwa [Nat.zero_add, held_succ, show f + (n - (f + 1) + 1) = n by omega] at h

theorem held_store {blk : RbufBlock} {f n sz : Nat} {plain : Bytes} (hf : f < n) (h0 : blk.fragmentLen f = 0)
    (hp : plain ≠ []) : held (storeFragment blk f sz plain) 0 n = held blk 0 n + 1 := by
  have hother : ∀ m, m ≠ f → ((storeFragment blk f sz plain).fragmentLen m ≠ 0 ↔ blk.fragmentLen m ≠ 0) := fun m hm => by
    show Function.update blk.fragmentLen f plain.length m ≠ 0 ↔ _
    rw [Function.update_of_ne hm]
  have hself : (storeFragment blk f sz plain).fragmentLen f ≠ 0 := by
    show Function.update blk.fragmentLen f plain.length f ≠ 0
    rw [Function.update_self]
    exact fun e => hp (List.length_eq_zero_iff.mp e)
  rw [held_split _ hf, held_split blk hf, if_pos hself, if_neg (not_not.mpr h0),
    held_congr fun m _ h2 => hother m (by omega), @held_congr _ blk (f + 1) _ fun m h1 _ => hother m (by omega)]
  omega

theorem held_store_le {blk : RbufBlock} {f n sz : Nat} {plain : Bytes} (hf : f < n) (h0 : blk.fragmentLen f = 0) :
    held (storeFragment blk f sz plain) 0 n ≤ held blk 0 n + 1 := by
  by_cases hp : plain = []
  · subst hp
    have hsame : held (storeFragment blk f sz []) 0 n = held blk 0 n := by
      apply held_congr
      intro m _ _
      show Function.update blk.fragmentLen f 0 m ≠ 0 ↔ _
      by_cases e : m = f
      · subst e
        simp [h0]
      · rw [Function.update_of_ne e]
    omega
  · rw [held_store hf h0 hp]

theorem held_zero {blk : RbufBlock} (h : ∀ m, blk.fragmentLen m = 0) (i n : Nat) : held blk i n = 0 :=
  held_none fun m _ _ => h m

/-- The missing fragments and those held are all of them. -/
theorem missing_add_held (blk : RbufBlock) (i n : Nat) :
    ((List.range' i n).filter fun m => blk.fragmentLen m = 0).length + held blk i n = n := by
  induction n generalizing i with
  | zero => rfl
  | succ n ih =>
    have := ih (i + 1)
    rw [List.range'_succ, held_succ]
    by_cases h : blk.fragmentLen i = 0
    · rw [List.filter_cons_of_pos (by simpa using h), if_neg (not_not.mpr h), List.length_cons]
      omega
    · rw [List.filter_cons_of_neg (by simpa using h), if_pos h]
      omega

/-! ## The invariant -/

/-- What is true of a live block. -/
structure Accounted (k n : Nat) (blk : RbufBlock) : Prop where
  used : blk.fragmentUsed = held blk 0 n
  toSend : blk.fragmentToSend ≤ k
  sent : ∀ i < blk.fragmentToSend, blk.fragmentLen i ≠ 0

/-- A freed block may have been flushed or recovered past what it holds. -/
structure SlotAccounted (k n : Nat) (blk : RbufBlock) : Prop where
  used : blk.fragmentUsed = held blk 0 n
  toSend : blk.fragmentToSend ≤ k
  sent : (∀ i < blk.fragmentToSend, blk.fragmentLen i ≠ 0) ∨ (blk.index = blockInval ∧ blk.fragmentToSend = k)

/-- What `data_recovery` hands to the codec, when `received` are the fragments it has. -/
structure WellFormed (k n : Nat) (received index out : List Nat) (pktsiz : Nat) : Prop where
  length : index.length = k
  nodup : index.Nodup
  lt : ∀ c ∈ index, c < n
  held : ∀ c ∈ index, c ∈ received
  own : ∀ i < k, index[i]? = some i ↔ i ∈ received
  missing : out = (List.range k).filter (· ∉ received)
  out_le : out.length ≤ n - k
  pktsiz : 0 < pktsiz

/-- A block with `fec_k` fragments held can be recovered. -/
theorem plan_wellFormed {blk : RbufBlock} {k n : Nat} {p : Plan} (hk : k ≤ n) (hheld : held blk 0 n = k)
    (hmiss : ∃ i < k, blk.fragmentLen i = 0) (hp : planLoop blk n k 0 k 0 = .ok p) :
    WellFormed k n (received blk n) p.index p.out p.pktsiz := by
  have h := planLoop_spec hp
  have hsplit : held blk 0 n = held blk 0 k + held blk k (n - k) := by
    have := held_add blk 0 k (n - k)
    rwa [Nat.zero_add, Nat.add_sub_cancel' hk] at this
  have hlt : ∀ c ∈ p.index, c < n := fun c hc => by
    have := (h.held c hc).2
    omega
  refine ⟨h.length, h.nodup (by omega), hlt, fun c hc => mem_received.mpr ⟨hlt c hc, (h.held c hc).1⟩, fun i hi => ?_, ?_, ?_,
    ?_⟩
  · rw [mem_received]
    constructor
    · intro hown
      refine ⟨by omega, fun h0 => ?_⟩
      obtain ⟨c, hc, hle⟩ := h.parity i hi (by rwa [Nat.zero_add])
      rw [hown] at hc
      cases hc
      omega
    · rintro ⟨-, hl⟩
      have := h.own i hi (by rwa [Nat.zero_add])
      rwa [Nat.zero_add] at this
  · rw [h.out, ← List.range_eq_range']
    refine List.filter_congr fun m hm => ?_
    rw [List.mem_range] at hm
    have : m < n := by omega
    simp [mem_received, this]
  · have hm := missing_add_held blk 0 k
    have hle := held_le blk k (n - k)
    rw [← h.out] at hm
    omega
  · refine h.sz_pos fun h0 => ?_
    obtain ⟨i, hi, hl⟩ := hmiss
    have : i ∈ p.out := by
      rw [h.out, List.mem_filter, List.mem_range'_1]
      exact ⟨by omega, by simpa using hl⟩
    rw [h0] at this
    cases this

/-- Every recovery an event shows is well formed. -/
def RecoversWell (k n : Nat) : Ev → Prop
  | .recover received index out pktsiz => WellFormed k n received index out pktsiz
  | _ => True

theorem recoversWell_fragment {k n f : Nat} {e : Ev} (h : e.fragment? = some f) : RecoversWell k n e := by
  cases e <;> trivial

theorem accountRules {ctx : RxContext} {nof : Nat} (x : Externals) (hk : ctx.fecK ≤ ctx.fecN) (hn : nof = ctx.fecN) :
    SlotRules x ctx nof (SlotAccounted ctx.fecK ctx.fecN) (RecoversWell ctx.fecK ctx.fecN) where
  toSend := fun _ h => h.toSend
  send := fun blk h => by
    have hs := sendPlan_spec blk.fragmentLen false false (ctx.fecK - blk.fragmentToSend) blk.fragmentToSend
    have hb := hs.bounds
    have ht := h.toSend
    refine ⟨h.used, by show (sendPlan _ _ _ _ _).2 ≤ _; omega, ?_⟩
    rcases h.sent with h1 | ⟨h1, h2⟩
    · left
      intro i hi
      by_cases hlt : i < blk.fragmentToSend
      · exact h1 i hlt
      · have := hs.dense rfl i (by omega) hi
        simp only [Bool.false_eq_true, or_false] at this
        exact Nat.pos_iff_ne_zero.mp this
    · exact .inr ⟨h1, by show (sendPlan _ _ _ _ _).2 = _; omega⟩
  handed := fun _ _ _ _ _ _ _ he => recoversWell_fragment (handOver_fragment he)
  flush := fun _ h => ⟨h.used, le_refl _, .inr ⟨rfl, rfl⟩⟩
  recovered := fun blk blk' evs h hready hrec => by
    obtain ⟨-, hu, -, hl, -⟩ := hrec.keeps
    refine ⟨⟨?_, le_refl _, .inr ⟨rfl, rfl⟩⟩, fun e he => ?_, fun _ _ _ _ he => recoversWell_fragment (handOver_fragment he)⟩
    · show blk'.fragmentUsed = held blk' 0 ctx.fecN
      rw [hu, h.used]
      exact held_congr fun m _ _ => by rw [hl]
    · cases hrec with
      | complete _ => cases he
      | decoded hc hp _ =>
        rw [effects_msg, effects_cons rfl, effects_nil, List.mem_singleton] at he
        subst he hn
        obtain ⟨i, -, hi, h0⟩ := fecCount_missing hc
        exact plan_wellFormed hk (h.used.symm.trans hready.2.1) ⟨i, hi, h0⟩ hp
  renew := fun blk c _ => ⟨(held_zero (fun _ => rfl) 0 ctx.fecN).symm, Nat.zero_le _,
    .inl fun i hi => absurd hi (Nat.not_lt_zero i)⟩
  rssi := fun blk f dbm h => by
    refine ⟨?_, by rw [raiseRssi_toSend]; exact h.toSend, by rw [raiseRssi_toSend, raiseRssi_len, raiseRssi_index]; exact h.sent⟩
    rw [raiseRssi_used, h.used]
    exact held_congr fun m _ _ => by rw [raiseRssi_len]
  leftover := fun blk f left h _ => ⟨h.used, h.toSend, h.sent⟩
  other := fun e ho _ => by cases e <;> trivial

/-! ## What a frame can do instead of returning -/

/-- The AEAD's ciphertexts are 16 bytes longer than their plaintexts. -/
def AeadLen (x : Externals) : Prop :=
  ∀ c ad nonce key plain, x.aeadDecrypt c ad nonce key = .ok plain → c.length = plain.length + crypto_aead_chacha20poly1305_ABYTES

theorem dataRecovery_returns {x : Externals} {ctx : RxContext} {r : Rbuf} {slot : Nat} (hok : SessionOk ctx)
    (hnof : r.fragmentNof = ctx.fecN) (hheld : held (r.blocks slot) 0 ctx.fecN = ctx.fecK)
    (hmiss : ∃ i < ctx.fecK, (r.blocks slot).fragmentLen i = 0) {φ : Fault} : dataRecovery x ctx r slot ≠ .error φ := by
  have hk := hok.fecK.2
  have hsplit := held_add (r.blocks slot) 0 ctx.fecK (ctx.fecN - ctx.fecK)
  rw [Nat.zero_add, Nat.add_sub_cancel' hk] at hsplit
  obtain ⟨p, hp⟩ := @planLoop_ok (r.blocks slot) ctx.fecN ctx.fecK 0 ctx.fecK 0 (by omega)
  have hsz : p.pktsiz ≠ 0 := Nat.pos_iff_ne_zero.mp (plan_wellFormed hk hheld hmiss hp).pktsiz
  intro h
  unfold dataRecovery at h
  rw [hnof] at h
  rcases Machine.bind_error_iff.mp h with h | ⟨p', hp', h⟩
  · rw [hp] at h; cases h
  · rw [hp] at hp'; cases hp'
    rcases Machine.bind_error_iff.mp h with h | ⟨out, -, h⟩
    · unfold fecWfbApply at h
      rw [if_neg hsz, hok.fec, if_pos rfl] at h
      cases h
    · cases h

theorem dataFec_returns {x : Externals} {ctx : RxContext} {r : Rbuf} {slot : Nat} (hok : SessionOk ctx)
    (hnof : r.fragmentNof = ctx.fecN) (hacc : SlotAccounted ctx.fecK ctx.fecN (r.blocks slot)) (hf : r.ringFront = slot)
    {φ : Fault} : dataFec x ctx r slot ≠ .error φ := by
  intro h
  unfold dataFec at h
  rw [if_neg (not_not.mpr hf)] at h
  split at h
  · rename_i hready
    rcases Machine.bind_error_iff.mp h with h | ⟨p, -, h⟩
    · unfold recoverMissing at h
      split at h
      · rename_i hc
        obtain ⟨i, -, hi, h0⟩ := fecCount_missing hc
        rcases Machine.bind_error_iff.mp h with h | ⟨p, -, h⟩
        · exact dataRecovery_returns hok hnof (hacc.used.symm.trans hready.2.1) ⟨i, hi, h0⟩ h
        · cases h
      · cases h
    · cases h
  · cases h

theorem purgeLoop_front {ctx : RxContext} {slot n : Nat} {r r' : Rbuf} {evs : List Ev}
    (h : purgeLoop ctx slot n r = .ok (r', evs)) : r'.ringFront = slot := by
  induction n generalizing r r' evs with
  | zero =>
    unfold purgeLoop at h
    split at h
    · cases h; assumption
    · cases h
  | succ n ih =>
    unfold purgeLoop at h
    split at h
    · cases h; assumption
    · obtain ⟨⟨r1, e1⟩, h1, h2⟩ := Machine.bind_ok_iff.mp h
      cases h2
      exact ih h1

theorem purgeLoop_error {ctx : RxContext} {slot n : Nat} {r : Rbuf} {φ : Fault} (h : purgeLoop ctx slot n r = .error φ) :
    φ = .endless := by
  induction n generalizing r with
  | zero =>
    unfold purgeLoop at h
    split at h
    · cases h
    · cases h; rfl
  | succ n ih =>
    unfold purgeLoop at h
    split at h
    · cases h
    · rcases Machine.bind_error_iff.mp h with h | ⟨p, -, h⟩
      · exact ih h
      · cases h

theorem dataAdd_error {x : Externals} {ctx : RxContext} {r : Rbuf} {slot : Nat} (hok : SessionOk ctx)
    (hnof : r.fragmentNof = ctx.fecN) (hacc : ∀ s, SlotAccounted ctx.fecK ctx.fecN (r.blocks s)) {φ : Fault}
    (h : dataAdd x ctx r slot = .error φ) : purgeLoop ctx slot x.maxIter r = .error φ := by
  have hrules := accountRules x hok.fecK.2 hnof
  unfold dataAdd at h
  split at h
  · rename_i hf
    obtain ⟨⟨q, hq⟩, -⟩ := sendDataAny_eq ctx r slot false false
    change (sendDataSeq ctx r slot).1 = _ at hq
    dsimp only at h
    split at h
    · cases h
    · rcases Machine.bind_error_iff.mp h with h | ⟨p, -, h⟩
      · exact absurd h (dataFec_returns hok (by rw [hq]; exact hnof) ((slots_send hrules hacc slot).1 slot)
          (by rw [hq]; exact hf))
      · cases h
  · rcases Machine.bind_error_iff.mp h with h | ⟨p, hp, h⟩
    · rcases Machine.bind_error_iff.mp h with h | ⟨p, -, h⟩
      · exact h
      · cases h
    · obtain ⟨hg, hsh⟩ := purgeStale_slots hrules hacc hp
      obtain ⟨p', hl, he⟩ := Machine.bind_ok_iff.mp hp
      cases he
      rcases Machine.bind_error_iff.mp h with h | ⟨p', -, h⟩
      · have hnof' : p'.1.fragmentNof = r.fragmentNof := congrArg (·.2.1) hsh
        exact absurd h (dataFec_returns hok (hnof'.trans hnof) (hg.1 slot) (purgeLoop_front hl))
      · cases h

theorem decrypted_returns {x : Externals} (hx : AeadLen x) {c : CryptoWfbContext} {w : WfbContext} (hw : IsData w)
    (hl : minDataPacketLen ≤ w.pktlen) : ∃ d, decrypted x c w = .ok d ∧ ∀ plain, d = .ok plain →
    plain.length ≤ maxFecPayload := by
  have hlen : ¬ w.pktlen ≤ w.hdrlen := by
    rw [hw.hdrlen]
    unfold minDataPacketLen wfbDataHdrlen crypto_aead_chacha20poly1305_ABYTES at hl
    unfold wfbDataBlockHdrlen crypto_aead_chacha20poly1305_NPUBBYTES
    omega
  unfold decrypted cryptoWfbDataDecrypt
  rw [if_neg hlen]
  split
  · exact ⟨_, rfl, fun _ h => (nomatch h)⟩
  · split
    · rename_i plain hp
      refine ⟨_, rfl, fun _ h => ?_⟩
      cases h
      have h1 := hx _ _ _ _ _ hp
      have h2 := List.length_take_le (w.pktlen - w.hdrlen) (w.hdr.drop w.hdrlen)
      have h3 := hw.pktlen.2
      have h4 := hw.hdrlen
      unfold maxDataPacketSize at h3
      unfold wfbDataBlockHdrlen crypto_aead_chacha20poly1305_NPUBBYTES at h4
      unfold crypto_aead_chacha20poly1305_ABYTES at h1
      unfold maxFecPayload wfbDataBlockHdrlen crypto_aead_chacha20poly1305_NPUBBYTES crypto_aead_chacha20poly1305_ABYTES
      omega
    · exact ⟨_, rfl, fun _ h => (nomatch h)⟩

/-! ## Runs -/

/-- The input is no authentic DATA frame with an empty plaintext. -/
def Filled (x : Externals) (ctx : RxContext) (i : Input) : Prop := plaintext? x ctx.crypto i ≠ some []

instance (x : Externals) (ctx : RxContext) (i : Input) : Decidable (Filled x ctx i) := by unfold Filled; infer_instance

structure AccountInv (ctx : RxContext) : Prop where
  session : SessionInv ctx
  slots : ∀ r, ctx.rxRing = some r → ∀ s, SlotAccounted ctx.fecK ctx.fecN (r.blocks s)

theorem AccountInv.idle {ctx : RxContext} (h : AccountInv ctx) (w : WfbContext) (freq : Nat) (dbm : Int) (noFec : Bool) :
    AccountInv { ctx with wfb := w, freq := freq, dbm := dbm, noFec := noFec } :=
  ⟨h.session.idle w freq dbm noFec, h.slots⟩

theorem Starts.account {ctx ctx' : RxContext} {hdr : WfbSessionHdr} {r : Rbuf} (hc : Checked ctx hdr)
    (h : Starts ctx ctx' hdr r) : AccountInv ctx' := by
  refine ⟨h.inv hc, fun r' hr' s => ?_⟩
  obtain ⟨rfl, heap, hpos, hint, rfl⟩ := h
  cases hr'
  exact ⟨(held_zero (fun _ => rfl) 0 _).symm, Nat.zero_le _, .inl fun i hi => absurd hi (Nat.not_lt_zero i)⟩

/-- Filing a fragment with bytes in it keeps the account. -/
theorem store_accounted {k n f sz : Nat} {blk : RbufBlock} {plain : Bytes} (h : SlotAccounted k n blk) (hf : f < n)
    (h0 : blk.fragmentLen f = 0) (hp : plain ≠ []) : SlotAccounted k n (storeFragment blk f sz plain) := by
  refine ⟨?_, h.toSend, ?_⟩
  · rw [held_store hf h0 hp, ← h.used]
    rfl
  · rcases h.sent with h1 | h1
    · left
      intro i hi
      have hne : i ≠ f := fun e => h1 i hi (e ▸ h0)
      show Function.update blk.fragmentLen f plain.length i ≠ 0
      rw [Function.update_of_ne hne]
      exact h1 i hi
    · exact .inr h1

theorem DataCall.account {x : Externals} {ctx : RxContext} {q : Ret} (h : DataCall x ctx q) (hi : AccountInv ctx)
    (hfill : ∀ plain, decrypted x ctx.crypto ctx.wfb = .ok (.ok plain) → plain ≠ []) :
    AccountInv q.ctx ∧ ∀ e ∈ q.evs, RecoversWell ctx.fecK ctx.fecN e := by
  obtain ⟨r, hr, -, hn, -⟩ := hi.session.ok.ring
  obtain ⟨r', hr', hg, hsh⟩ := h.slots hr (accountRules x hi.session.ok.fecK.2 hn) (hi.slots r hr) fun ha => by
    refine ⟨trivial, fun r1 slot _ plain _ h1 h0 hd _ => ⟨store_accounted h1 ha.fragmentIdx ?_ (hfill plain hd), trivial⟩⟩
    rw [raiseRssi_len]
    exact h0
  have hs := (h.inv hi.session).1
  obtain ⟨ring, key, he, -⟩ := h.ctx_eq
  refine ⟨⟨hs, fun r2 hr2 s => ?_⟩, hg.2⟩
  have hring : ring = some r' := by rw [he] at hr'; exact hr'
  rw [he, hring] at hr2 ⊢
  cases hr2
  exact hg.1 s

theorem getBlock_error {r : Rbuf} {b : Nat} {φ : Fault} (h : rbufGetBlock r b = .error φ) : φ = .signedOverflow := by
  unfold rbufGetBlock at h
  split at h
  · cases h
  · split at h
    · cases h; rfl
    · split at h <;> cases h

/-- Where handling a DATA frame fails when its blocks are accounted for: in the search of
    `rbuf_get_block`, or in the loop of `purge_stale`. -/
inductive DataFault (x : Externals) (ctx : RxContext) (r : Rbuf) (φ : Fault) : Prop
  | search : rbufGetBlock r ctx.wfb.blockIdx = .error φ → DataFault x ctx r φ
  | purge {r1 : Rbuf} {slot : Nat} {evs : List RingEv} {blk : RbufBlock} :
      rbufGetBlock r ctx.wfb.blockIdx = .ok (r1, some slot, evs) → blk.index = (r1.blocks slot).index →
      purgeLoop ctx slot x.maxIter (r1.setBlock slot blk) = .error φ → DataFault x ctx r φ

theorem DataFault.kind {x : Externals} {ctx : RxContext} {r : Rbuf} {φ : Fault} (h : DataFault x ctx r φ) :
    φ = .endless ∨ φ = .signedOverflow := by
  cases h with
  | search hg => exact .inr (getBlock_error hg)
  | purge _ _ hp => exact .inl (purgeLoop_error hp)

theorem rxFragment_error {x : Externals} (hx : AeadLen x) {ctx : RxContext} {r : Rbuf} {slot : Nat} (hok : SessionOk ctx)
    (hsh : shape r = (rxRingSize, ctx.fecN, maxFecPayload)) (hacc : ∀ s, SlotAccounted ctx.fecK ctx.fecN (r.blocks s))
    (hw : IsData ctx.wfb) (hl : minDataPacketLen ≤ ctx.wfb.pktlen) (hf : ctx.wfb.fragmentIdx < ctx.fecN)
    (hfill : ∀ plain, decrypted x ctx.crypto ctx.wfb = .ok (.ok plain) → plain ≠ []) {φ : Fault}
    (h : rxFragment x ctx r slot = .error φ) :
    ∃ blk : RbufBlock, blk.index = (r.blocks slot).index ∧ purgeLoop ctx slot x.maxIter (r.setBlock slot blk) = .error φ := by
  simp only [shape, Prod.mk.injEq] at hsh
  obtain ⟨d, hd, hlen⟩ := @decrypted_returns x hx ctx.crypto _ hw hl
  unfold rxFragment at h
  dsimp only at h
  split at h
  · cases h
  · rename_i h0
    rw [not_not, raiseRssi_len] at h0
    rcases Machine.bind_error_iff.mp h with h | ⟨d', hd', h⟩
    · cases hd.symm.trans h
    · cases hd.symm.trans hd'
      cases d with
      | error left => cases h
      | ok plain =>
        have hle := hlen plain rfl
        dsimp only at h
        rw [hsh.2.2, if_neg (Nat.not_lt.mpr hle)] at h
        rcases Machine.bind_error_iff.mp h with h | ⟨p, -, h⟩
        · refine ⟨storeFragment (raiseRssi (r.blocks slot) ctx.wfb.fragmentIdx ctx.dbm) ctx.wfb.fragmentIdx maxFecPayload plain,
            raiseRssi_index .., dataAdd_error (r := r.setBlock slot _) hok hsh.2.1 (slots_setBlock hacc ?_) h⟩
          have hr := (accountRules x hok.fecK.2 hsh.2.1).rssi _ ctx.wfb.fragmentIdx ctx.dbm (hacc slot)
          exact store_accounted hr hf (by rw [raiseRssi_len]; exact h0) (hfill plain hd)
        · cases h

theorem rxData_error {x : Externals} (hx : AeadLen x) {ctx : RxContext} (hi : AccountInv ctx) (hw : IsData ctx.wfb)
    (hfill : ∀ plain, decrypted x ctx.crypto ctx.wfb = .ok (.ok plain) → plain ≠ []) {φ : Fault}
    (h : rxData x ctx = .error φ) : ∃ r, Admitted ctx r ∧ DataFault x ctx r φ := by
  obtain ⟨r, hr, -⟩ := hi.session.ok.ring
  unfold rxData at h
  split at h
  · cases h
  · rename_i hk
    simp only [hr] at h
    split at h
    · cases h
    · rename_i hp
      split at h
      · cases h
      · rename_i hb
        split at h
        · cases h
        · rename_i hf
          refine ⟨r, ⟨by simpa using hk, hr, by omega, by omega, by omega⟩, ?_⟩
          rcases Machine.bind_error_iff.mp h with h | ⟨⟨r1, blk, evs⟩, hg, h⟩
          · exact .search h
          · have h1 : ∀ s, SlotAccounted ctx.fecK ctx.fecN (r1.blocks s) := fun s => by
              rcases getBlock_slots hg s with e | ⟨c, e⟩
              · rw [e]; exact hi.slots r hr s
              · rw [e]; exact (accountRules x hi.session.ok.fecK.2 rfl).renew _ c (hi.slots r hr s)
            have hsh := (getBlock_shape hg).trans (hi.session.ok.shape_eq hr)
            cases blk with
            | none => cases h
            | some slot =>
              rcases Machine.bind_error_iff.mp h with h | ⟨q, -, h⟩
              · obtain ⟨blk, hidx, hpurge⟩ := rxFragment_error hx hi.session.ok hsh h1 hw (Nat.not_lt.mp hp)
                  (Nat.not_le.mp hf) hfill h
                exact .purge hg hidx hpurge
              · cases h

theorem rxSession_returns {x : Externals} {o : Outcome} {ctx : RxContext} {φ : Fault} : rxSession x o ctx ≠ .error φ := by
  intro h
  unfold rxSession at h
  split at h
  · cases h
  · split at h
    · cases h
    · dsimp only at h
      split at h
      · cases h
      · unfold rekey at h
        dsimp only at h
        split at h
        · cases h
        · rename_i plain _ _ _ hc
          have hn := (sessionCheck_none hc).fecN
          split at h
          · cases h
          · rcases Machine.bind_error_iff.mp h with h | ⟨ring, -, h⟩
            · unfold rbufAlloc at h
              split at h
              · cases h
              · rw [dif_pos (by decide), dif_pos ⟨by decide, by unfold intMax; omega⟩] at h
                cases h
            · cases ring <;> cases h

theorem accountSessionRules (x : Externals) :
    SessionRules x (Filled x) AccountInv (fun ctx => RecoversWell ctx.fecK ctx.fecN) where
  idle := fun _ w freq dbm noFec h => h.idle w freq dbm noFec
  start := fun _ _ _ _ _ hc hst => hst.account hc
  data := fun _ _ _ _ hg hp ht h hd => hd.account h fun plain hpl e => by
    subst e
    exact hg (plaintext?_data hp ht hpl)
  other := fun _ e ho _ => by cases e <;> trivial

theorem account_error {x : Externals} (hx : AeadLen x) {ctx : RxContext} {i : Input}
    (h : ctx.hasSessionKey = true → AccountInv ctx) (hfill : Filled x ctx i) {φ : Fault}
    (hs : rxStep x ctx i = .error φ) : ctx.hasSessionKey = true ∧ ∃ f w r, i = .frame f ∧ wfbFrameParse f.data f.size = .ok w ∧
      w.packetType = wfbPacketData ∧ Admitted (withFrame ctx f w) r ∧ DataFault x (withFrame ctx f w) r φ := by
  cases i with
  | fecToggle => cases hs
  | frame f =>
    rcases Machine.bind_error_iff.mp hs with hs | ⟨q, -, hs⟩
    · unfold rxFrame at hs
      split at hs
      · cases hs
      · rename_i w hp
        unfold rxWfb at hs
        split at hs
        · exact absurd hs rxSession_returns
        · split at hs
          · rename_i ht
            by_cases hk : ctx.hasSessionKey = true
            · obtain ⟨r, ha, hd⟩ := rxData_error hx ((h hk).idle w f.freq f.dbm ctx.noFec) (wfbFrameParse_data hp ht).1
                (fun plain hpl e => hfill (plaintext?_data hp ht (e ▸ hpl))) hs
              exact ⟨hk, f, w, r, rfl, hp, ht, ha, hd⟩
            · have hk' : (withFrame ctx f w).hasSessionKey = false := Bool.eq_false_iff.mpr hk
              unfold rxData at hs
              rw [if_pos hk'] at hs
              cases hs
          · cases hs
    · cases hs

/-- What the next input may not do: recover from a badly formed block, or read past an
    array's end. -/
def RecoveryOk (x : Externals) (ctx : RxContext) : Prop :=
  ∀ i, Filled x ctx i → rxStep x ctx i ≠ .error .outOfBounds ∧ rxStep x ctx i ≠ .error .assertFailed ∧
    ∀ ctx' evs, rxStep x ctx i = .ok (ctx', evs) → ∀ e ∈ evs, RecoversWell ctx.fecK ctx.fecN e

/-- In every run without empty plaintexts, a live block's counters agree with what it
    holds, and recovery is well formed. -/
theorem accounting {x : Externals} (hx : AeadLen x) {chan : Nat} {crypto : CryptoWfbContext} {noFec : Bool}
    {handlers : List Nat} {is : List Input}
    {ctx : RxContext} {tr : List Ev} (h : Machine.Run (rxStep x) (Filled x) (rxSetup chan crypto noFec handlers) is ctx tr)
    (hk : ctx.hasSessionKey = true) :
    (∀ r, ctx.rxRing = some r → ∀ s, r.live s → Accounted ctx.fecK ctx.fecN (r.blocks s)) ∧ RecoveryOk x ctx := by
  have hi := (accountSessionRules x).run h hk
  refine ⟨fun r hr s hl => ?_, fun i hf => ⟨fun e => ?_, fun e => ?_, fun ctx' evs hs => ?_⟩⟩
  · have ha := hi.slots r hr s
    exact ⟨ha.used, ha.toSend, ha.sent.resolve_right fun h => hl h.1⟩
  · obtain ⟨-, f, w, r, -, -, -, -, hd⟩ := account_error hx (fun _ => hi) hf e
    rcases hd.kind with h | h <;> cases h
  · obtain ⟨-, f, w, r, -, -, -, -, hd⟩ := account_error hx (fun _ => hi) hf e
    rcases hd.kind with h | h <;> cases h
  · exact ((accountSessionRules x).step (fun _ => hi) hf hs).2

theorem externals_aeadLen (S : Sender) : AeadLen S.externals := by
  intro c ad nonce key plain h
  simp only [Sender.externals] at h
  split at h
  · rename_i hc
    cases h
    rw [hc.1, List.length_append]
    rfl
  · cases h

theorem accounting_run : ∃ ctx tr, Machine.Run (rxStep (numbered 2 2).externals) (Filled (numbered 2 2).externals)
    (rxSetup 0 loaded false [0]) [(numbered 2 2).opening, (numbered 2 2).input 5 1] ctx tr ∧
      (∀ r, ctx.rxRing = some r → ∀ s, r.live s → Accounted ctx.fecK ctx.fecN (r.blocks s)) ∧
        RecoveryOk (numbered 2 2).externals ctx := by
  obtain ⟨ctx, tr, hrun, hk⟩ := Machine.exists_run (rxStep (numbered 2 2).externals) (Filled (numbered 2 2).externals)
    (rxSetup 0 loaded false [0]) [(numbered 2 2).opening, (numbered 2 2).input 5 1]
    (fun p => p.1.hasSessionKey) (by decide +kernel)
  exact ⟨ctx, tr, hrun, accounting (externals_aeadLen _) hrun hk⟩

/-- A sender of empty plaintexts. -/
def empty (k n : Nat) : Sender := ⟨fun _ => k, fun _ => n, fun _ _ _ => []⟩

/-- An empty plaintext is counted as used and not held. -/
theorem empty_breaks_accounting : ¬ ∀ (x : Externals) (chan : Nat) (crypto : CryptoWfbContext) (noFec : Bool)
    (handlers : List Nat) (is : List Input) (ctx : RxContext) (tr : List Ev), AeadLen x →
      Machine.Run (rxStep x) (fun _ _ => True) (rxSetup chan crypto noFec handlers) is ctx tr →
        ctx.hasSessionKey = true →
          ∀ r, ctx.rxRing = some r → ∀ s, r.live s → Accounted ctx.fecK ctx.fecN (r.blocks s) := by
  intro hclaim
  obtain ⟨ctx, tr, hrun, hq⟩ := Machine.exists_run (rxStep (empty 2 3).externals) (fun _ _ => True)
    (rxSetup 0 loaded false [0]) [(empty 2 3).opening, (empty 2 3).input 0 0]
    (fun p => p.1.hasSessionKey && match p.1.rxRing with
      | some r => decide (r.live 0) && (r.blocks 0).fragmentUsed == 1 && held (r.blocks 0) 0 p.1.fecN == 0
      | none => false) (by decide +kernel)
  rw [Bool.and_eq_true] at hq
  obtain ⟨hk, hq⟩ := hq
  split at hq
  · rename_i r hr
    simp only [Bool.and_eq_true, decide_eq_true_eq, beq_iff_eq] at hq
    have := (hclaim _ _ _ _ _ _ ctx tr (externals_aeadLen _) hrun hk r hr 0 hq.1.1).used
    omega
  · cases hq

end WfbYa.Rx
