/-
  WfbYa.Rx.Completeness — enough fragments of a block bring out all of it.

  The sender conforms and the codec decodes (`Ideal`). While the fragments of one block
  arrive, the block on the desk collects them: what it has handed over is what the sender
  put into its first primaries, in order, and with the `k`-th distinct fragment the rest
  follows and the block is freed.

  - `Stage`: how far the block is, by the fragments that have arrived.
  - `Stage.step`: one more fragment.
  - `fec_complete`: from every state reached in a session, for the next block, any order,
    any mix of primaries and parities, any duplicates.
  - `gap_breaks_completeness`: after a lost block the next one can no longer be received.
-/

import WfbYa.Rx.InOrder
import WfbYa.Rx.Release
import WfbYa.Rx.Fidelity
import Mathlib.Data.Finset.Card

namespace WfbYa.Rx

open WfbYa.Frame WfbYa.Ring WfbYa.Lib

variable {x : Externals} {S : Sender} {enc : Encoder} {payload : Bytes → Nat → Nat → Bytes} {key : Bytes} {ctx : RxContext}
  {b : Nat} {blk : RbufBlock} {D : Finset Nat}

/-! ## What is handed over of a block -/

def sends (b : Nat) (evs : List Ev) : List (Nat × Bytes × Bytes) :=
  evs.filterMap fun e => match e with
    | .send c f hdr data => if c = b then some (f, hdr, data) else none
    | _ => none

@[simp] theorem sends_append (b : Nat) (e e' : List Ev) : sends b (e ++ e') = sends b e ++ sends b e' := List.filterMap_append ..

theorem sends_effects (b : Nat) (evs : List Ev) : sends b (effects evs) = sends b evs := filterMap_effects (fun _ _ => rfl) evs

/-- A primary as its sender made it: index, header and payload. -/
def word (S : Sender) (payload : Bytes → Nat → Nat → Bytes) (key : Bytes) (b i : Nat) : Nat × Bytes × Bytes :=
  (i, (S.plain key b i).take wfbDataHdrlen, payload key b i)

/-- The first `m` primaries, in order. -/
def handed (S : Sender) (payload : Bytes → Nat → Nat → Bytes) (key : Bytes) (b m : Nat) : List (Nat × Bytes × Bytes) :=
  (List.range m).map (word S payload key b)

theorem handed_append {t m : Nat} (h : t ≤ m) :
    handed S payload key b t ++ (List.range' t (m - t)).map (word S payload key b) = handed S payload key b m := by
  unfold handed
  rw [← List.map_append, List.range_eq_range', List.range_eq_range']
  have := @List.range'_append_1 0 t (m - t)
  rw [Nat.zero_add, Nat.add_sub_cancel' h] at this
  rw [this]

theorem sends_handOver (b : Nat) (ctx : RxContext) (blk : RbufBlock) (i : Nat) : sends b (handOver ctx blk i) =
    (if blk.index = b then some (i, (blk.fragment i).take wfbDataHdrlen, packetData (blk.fragment i)) else none).toList :=
  filterMap_handOver (fun _ _ => rfl) (fun _ _ _ _ _ => rfl) (fun _ _ _ => rfl) ctx blk i

theorem sends_other (ctx : RxContext) (is : List Nat) (h : blk.index ≠ b) : sends b (is.flatMap (handOver ctx blk)) = [] := by
  induction is with
  | nil => rfl
  | cons i is ih => rw [List.flatMap_cons, sends_append, sends_handOver, if_neg h, ih]; rfl

/-- Fragments that carry the sender's bytes are handed over as the sender made them. -/
theorem sends_carries (hc : Conforming S enc payload key) (hb : blk.index = b) {is : List Nat}
    (h : ∀ i ∈ is, i < S.fecK key ∧ Carries S key b blk i) :
    sends b (is.flatMap (handOver ctx blk)) = is.map (word S payload key b) := by
  induction is with
  | nil => rfl
  | cons i is ih =>
    obtain ⟨hi, hcar⟩ := h i List.mem_cons_self
    obtain ⟨-, -, hhdr, hdata⟩ := @handOver_carries S enc payload key hc ctx blk b i hb hi hcar _ List.mem_cons_self
    rw [List.flatMap_cons, sends_append, sends_handOver, if_pos hb, ih fun j hj => h j (List.mem_cons_of_mem _ hj), hhdr, hdata]
    rfl

/-- Unless it flushes, a call of `send_data_any` passes nothing over. -/
theorem sendPlan_range (len : Nat → Nat) (recovered : Bool) (n t : Nat) :
    (sendPlan len false recovered n t).1 = List.range' t ((sendPlan len false recovered n t).2 - t) := by
  induction n generalizing t with
  | zero => simp [sendPlan]
  | succ n ih =>
    have hb := (sendPlan_spec len false recovered n (t + 1)).bounds
    unfold sendPlan
    split
    · rw [show (sendPlan len false recovered n (t + 1)).2 - t = (sendPlan len false recovered n (t + 1)).2 - (t + 1) + 1 by omega,
        List.range'_succ, ih]
    · simp

theorem sendRun_range (ctx : RxContext) (blk : RbufBlock) (recovered : Bool) :
    (sendRun ctx blk false recovered).1 = List.range' blk.fragmentToSend
    ((sendRun ctx blk false recovered).2 - blk.fragmentToSend) :=
  sendPlan_range _ _ _ _

/-! ## Collecting a block -/

/-- The block holds the fragments `D` of block `b`, as its sender made them. -/
structure Collected (S : Sender) (key : Bytes) (b : Nat) (D : Finset Nat) (blk : RbufBlock) : Prop where
  index : blk.index = b
  stored : Stored S key b (S.fecN key) maxFecPayload blk
  used : blk.fragmentUsed = D.card
  toSend : blk.fragmentToSend ≤ S.fecK key
  holds : ∀ f, blk.fragmentLen f ≠ 0 ↔ f ∈ D

/-- How far the block is when `D` has arrived of it and `out` was handed over. -/
inductive Stage (S : Sender) (payload : Bytes → Nat → Nat → Bytes) (key : Bytes) (b : Nat) (D : Finset Nat) (d : Desk)
    (out : List (Nat × Bytes × Bytes)) : Prop
  | ahead : D = ∅ → d.last = blockInval ∨ d.last < b ∧ (b - d.last) % 2 ^ 32 = 1 → out = [] → Stage S payload key b D d out
  | pending {blk : RbufBlock} : d.cur = some blk → d.last = b → Collected S key b D blk → D.card < S.fecK key →
      out = handed S payload key b blk.fragmentToSend → Stage S payload key b D d out
  | finished : d.cur = none → d.last = b → out = handed S payload key b (S.fecK key) → Stage S payload key b D d out

theorem Collected.raiseRssi {f : Nat} {dbm : Int} (h : Collected S key b D blk) :
    Collected S key b D (WfbYa.Rx.raiseRssi blk f dbm) := by
  refine ⟨(raiseRssi_index ..).trans h.index, fun g hg hl => ?_, ?_, ?_, fun g => ?_⟩
  · rw [raiseRssi_len] at hl
    rw [raiseRssi_len, raiseRssi_fragment]
    exact h.stored g hg hl
  · rw [raiseRssi_used]
    exact h.used
  · rw [raiseRssi_toSend]
    exact h.toSend
  · rw [raiseRssi_len]
    exact h.holds g

/-- One more fragment of the block is stored. -/
theorem Collected.store (h : Collected S key b D blk) (h0 : blk.fragmentLen ctx.wfb.fragmentIdx = 0)
    (hp : S.plain key b ctx.wfb.fragmentIdx ≠ []) (hle : (S.plain key b ctx.wfb.fragmentIdx).length ≤ maxFecPayload) :
    Collected S key b (insert ctx.wfb.fragmentIdx D) (withFragment ctx blk (S.plain key b ctx.wfb.fragmentIdx)) := by
  have hr : Collected S key b D (WfbYa.Rx.raiseRssi blk ctx.wfb.fragmentIdx ctx.dbm) := h.raiseRssi
  have hnot : ctx.wfb.fragmentIdx ∉ D := fun hm => (h.holds _).mpr hm h0
  refine ⟨hr.index, hr.stored.store hle, ?_, hr.toSend, fun g => ?_⟩
  · rw [Finset.card_insert_of_notMem hnot, ← hr.used]
    rfl
  · rw [withFragment_len, Finset.mem_insert]
    by_cases e : g = ctx.wfb.fragmentIdx
    · subst e
      rw [Function.update_self]
      exact ⟨fun _ => .inl rfl, fun _ h0 => hp (List.length_eq_zero_iff.mp h0)⟩
    · rw [Function.update_of_ne e, h.holds g]
      exact ⟨.inr, fun h => h.resolve_left e⟩

theorem Collected.fresh (S : Sender) (key : Bytes) (b : Nat) (old : RbufBlock) : Collected S key b ∅ (old.renew b) :=
  ⟨rfl, fun _ _ hl => absurd rfl hl, rfl, Nat.zero_le _,
    fun f => ⟨fun hl => absurd rfl hl, fun hm => absurd hm (Finset.notMem_empty f)⟩⟩

/-- What the receiver's session has in common with the sender's. -/
structure Agrees (S : Sender) (key : Bytes) (ctx : RxContext) : Prop where
  ok : SessionOk ctx
  fecK : ctx.fecK = S.fecK key
  fecN : ctx.fecN = S.fecN key
  noFec : ctx.noFec = false

theorem Collected.cut {enc : Encoder} (h : Collected S key b D blk) (hc : Conforming S enc payload key) (ha : Agrees S key ctx) :
    blk.fragmentToSend ≤ (sendRun ctx blk false false).2 ∧
      Collected S key b D { blk with fragmentToSend := (sendRun ctx blk false false).2 } ∧
        sends b (WfbYa.Rx.cut ctx blk) = (List.range' blk.fragmentToSend
          ((sendRun ctx blk false false).2 - blk.fragmentToSend)).map (word S payload key b) := by
  have hs := sendPlan_spec blk.fragmentLen false false (ctx.fecK - blk.fragmentToSend) blk.fragmentToSend
  have hb := hs.bounds
  have hto := h.toSend
  have hk := ha.fecK
  have hkn := ha.ok.fecK.2
  have hn := ha.fecN
  have hle : (sendRun ctx blk false false).2 ≤ S.fecK key := by
    show (sendPlan _ _ _ _ _).2 ≤ _
    omega
  refine ⟨hb.1, ⟨h.index, h.stored, h.used, hle, h.holds⟩, ?_⟩
  unfold WfbYa.Rx.cut
  rw [← sendRun_range]
  refine sends_carries hc h.index fun i hi => ?_
  obtain ⟨⟨-, h2⟩, h3⟩ := (hs.mem i).mp hi
  have hlen : 0 < blk.fragmentLen i := h3.resolve_right (by decide)
  have hik : i < S.fecK key := lt_of_lt_of_le h2 hle
  exact ⟨hik, h.stored.carries (by omega) (by omega)⟩

/-- A block that was cut through as far as it goes: it waits for more, or is recovered. -/
theorem FecBlock.stage {s f : Nat} {o : Option RbufBlock} {e : List Ev} (h : FecBlock x ctx s blk o e)
    (hx : Ideal x S enc payload) (ha : Agrees S key ctx) (hcol : Collected S key b D blk)
    (hto : blk.fragmentToSend < S.fecK key) (hcard : D.card ≤ S.fecK key) :
    Stage S payload key b D ⟨f, b, o⟩ (handed S payload key b blk.fragmentToSend ++ sends b e) := by
  have hk := ha.fecK
  have h1 : 1 ≤ S.fecK key := by have := ha.ok.fecK.1; omega
  have hkn : S.fecK key ≤ S.fecN key := by have := ha.ok.fecK.2; have := ha.fecN; omega
  cases h with
  | waits hw =>
    have hne : D.card ≠ S.fecK key := fun he => hw ⟨by omega, by rw [hcol.used, he, hk], ha.noFec⟩
    exact .pending rfl rfl hcol (by omega) (List.append_nil _)
  | @done blk' e _ hrec =>
    obtain ⟨hidx, -, hcur, -, -⟩ := hrec.keeps
    have hquiet : sends b (effects e) = [] := by
      cases hrec with
      | complete _ => rfl
      | decoded _ _ _ => rfl
    have hcar := hrec.carries (hx.sender key h1 hkn) (hx.codec key h1 hkn) ha.ok hk ha.fecN hcol.stored
    have hend : (sendRun ctx blk' false true).2 = S.fecK key := by
      rw [sendRun_recovered (by rw [hcur]; omega), hk]
    have hrest : sends b (rest ctx blk') =
        (List.range' blk.fragmentToSend (S.fecK key - blk.fragmentToSend)).map (word S payload key b) := by
      unfold rest
      rw [sendRun_range, hend, hcur]
      refine sends_carries (hx.sender key h1 hkn) (hidx.trans hcol.index) fun i hi => ?_
      rw [List.mem_range'_1] at hi
      exact ⟨by omega, hcar i hi.1 (by omega)⟩
    refine .finished rfl rfl ?_
    rw [sends_append, sends_append, hquiet, hrest, List.nil_append]
    show _ ++ (_ ++ []) = _
    rw [List.append_nil]
    exact handed_append hcol.toSend

theorem AddBlock.stage {s f : Nat} {o : Option RbufBlock} {e : List Ev} (h : AddBlock x ctx s blk o e)
    (hx : Ideal x S enc payload) (ha : Agrees S key ctx) (hcol : Collected S key b D blk) (hcard : D.card ≤ S.fecK key) :
    Stage S payload key b D ⟨f, b, o⟩ (handed S payload key b blk.fragmentToSend ++ sends b e) := by
  have hk := ha.fecK
  have h1 : 1 ≤ S.fecK key := by have := ha.ok.fecK.1; omega
  have hkn : S.fecK key ≤ S.fecN key := by have := ha.ok.fecK.2; have := ha.fecN; omega
  obtain ⟨hle, hcol', hcut⟩ := hcol.cut (hx.sender key h1 hkn) ha
  cases h with
  | complete hend =>
    refine .finished rfl rfl ?_
    rw [sends_append, hcut, ← hk, ← hend]
    show _ ++ (_ ++ []) = _
    rw [List.append_nil]
    exact handed_append hle
  | partly hne hfec =>
    have hto' := hcol'.toSend
    rw [sends_append, hcut, ← List.append_assoc, handed_append hle]
    exact hfec.stage hx ha hcol' (lt_of_le_of_ne hto' fun he => hne (by rw [hk]; exact he)) hcard

/-- One more frame of the block, at a desk that is not past it. -/
theorem Stage.step {d d' : Desk} {e : List Ev} {out : List (Nat × Bytes × Bytes)} (h : Stage S payload key b D d out)
    (hst : DeskStep x ctx d d' e) (hx : Ideal x S enc payload) (ha : Agrees S key ctx)
    (hcur : ∀ blk, d.cur = some blk → blk.index = d.last ∧ d.last ≠ blockInval) (hb : ctx.wfb.blockIdx = b)
    (hinv : b ≠ blockInval) (hplain : ∀ plain, decrypted x ctx.crypto ctx.wfb = .ok (.ok plain) →
      plain = S.plain key b ctx.wfb.fragmentIdx ∧ plain ≠ []) :
    Stage S payload key b (insert ctx.wfb.fragmentIdx D) d' (out ++ sends b e) := by
  have hpos : 1 ≤ S.fecK key := by have := ha.ok.fecK.1; have := ha.fecK; omega
  obtain ⟨f, l, cur⟩ := d
  subst hb
  cases h with
  | ahead hD hl hout =>
    subst hD hout
    have hl' : l = blockInval ∨ l < ctx.wfb.blockIdx := hl.imp_right And.left
    have hone : (insert ctx.wfb.fragmentIdx (∅ : Finset Nat)).card ≤ S.fecK key := by
      rw [insert_empty_eq, Finset.card_singleton]
      exact hpos
    cases hst with
    | old h1 h2 _ => exact absurd hl' (not_or.mpr ⟨h1, Nat.not_lt.mpr h2⟩)
    | duplicate _ h2 _ =>
      refine absurd hl' (not_or.mpr ⟨fun h => hinv (h2.trans h), ?_⟩)
      rw [h2]
      exact lt_irrefl _
    | again _ h2 _ _ _ _ =>
      refine absurd hl' (not_or.mpr ⟨fun h => hinv (h2.trans h), ?_⟩)
      rw [h2]
      exact lt_irrefl _
    | @first old plain o e _ _ hdec hle hadd =>
      obtain ⟨rfl, hne⟩ := hplain _ hdec
      have hcol := (Collected.fresh S key ctx.wfb.blockIdx old).store rfl hne hle
      have := hadd.stage (f := f) hx ha hcol hone
      rwa [withFragment_toSend] at this
    | @next blk old plain o e hc hnew hdec hle hfec =>
      obtain ⟨rfl, hne⟩ := hplain _ hdec
      have hcol := (Collected.fresh S key ctx.wfb.blockIdx old).store rfl hne hle
      have := hfec.stage (f := beyond f) hx ha hcol (by rw [withFragment_toSend]; exact hpos) hone
      rw [withFragment_toSend] at this
      obtain ⟨hi, hli⟩ := hcur blk hc
      have hother : sends ctx.wfb.blockIdx (flush ctx blk) = [] := sends_other ctx _ fun he => by
        have hlt : l < ctx.wfb.blockIdx := hl'.resolve_left hli
        rw [← he, hi] at hlt
        exact lt_irrefl _ hlt
      show Stage _ _ _ _ _ _ ([] ++ sends ctx.wfb.blockIdx (flush ctx blk ++ .ring (.free f blk.index 2 1) ::
        .purged (beyond f) 2 [blk.index] :: e))
      rw [sends_append, hother]
      exact this
  | @pending blk hc hl hcol hlt hout =>
    cases hc
    subst hout
    cases hst with
    | old _ _ h3 => exact absurd hl.symm (h3 rfl)
    | duplicate hc' _ hlen =>
      cases hc'
      rw [Finset.insert_eq_of_mem ((hcol.holds _).mp hlen)]
      refine .pending rfl hl hcol.raiseRssi hlt ?_
      rw [raiseRssi_toSend]
      exact List.append_nil _
    | again hc' _ h0 hdec hle hadd =>
      cases hc'
      obtain ⟨rfl, hne⟩ := hplain _ hdec
      have hcard := Finset.card_insert_le ctx.wfb.fragmentIdx D
      obtain rfl : l = ctx.wfb.blockIdx := hl
      have := hadd.stage (f := f) hx ha (hcol.store h0 hne hle) (by omega)
      rwa [withFragment_toSend] at this
    | first hc' _ _ _ _ => cases hc'
    | next _ hnew _ _ _ =>
      refine absurd hnew.2 (not_or.mpr ⟨fun h => hinv (hl.symm.trans h), ?_⟩)
      exact fun h => absurd hl (ne_of_lt h)
  | finished hc hl hout =>
    cases hc
    subst hout
    cases hst with
    | old _ _ _ => exact .finished rfl hl (List.append_nil _)
    | duplicate hc' _ _ => cases hc'
    | again hc' _ _ _ _ _ => cases hc'
    | first _ hnew _ _ _ =>
      refine absurd hnew.2 (not_or.mpr ⟨fun h => hinv (hl.symm.trans h), ?_⟩)
      exact fun h => absurd hl (ne_of_lt h)
    | next hc' _ _ _ _ => cases hc'

/-! ## Frames of one block -/

/-- The fragment an input carries. -/
def fragmentIdx? (i : Input) : Option Nat := (dataHdr? i).map WfbContext.fragmentIdx

/-- The input is an authentic DATA frame of block `b`. -/
def OfBlock (x : Externals) (ctx : RxContext) (b : Nat) (i : Input) : Prop :=
  (plaintext? x ctx.crypto i).isSome ∧ ∀ w ∈ dataHdr? i, w.blockIdx = b ∧ w.fragmentIdx < ctx.fecN

instance (x : Externals) (ctx : RxContext) (b : Nat) (i : Input) : Decidable (OfBlock x ctx b i) := by
  unfold OfBlock; infer_instance

/-- The fragments a list of inputs carries. -/
def fragments (fs : List Input) : Finset Nat := (fs.filterMap fragmentIdx?).toFinset

theorem fragments_snoc {fs : List Input} {i : Input} {w : WfbContext} (h : dataHdr? i = some w) :
    fragments (fs ++ [i]) = insert w.fragmentIdx (fragments fs) := by
  have hi : [i].filterMap fragmentIdx? = [w.fragmentIdx] := by simp [fragmentIdx?, h]
  unfold fragments
  rw [List.filterMap_append, hi, List.toFinset_append, Finset.union_comm]
  rfl

/-- A conforming sender's fragments have at least a header in them. -/
theorem Conforming.plain_ne (hc : Conforming S enc payload key) (h1 : 1 ≤ S.fecK key) {b f : Nat} (hf : f < S.fecN key) :
    S.plain key b f ≠ [] := by
  have hprim : ∀ i, i < S.fecK key → 0 < (S.plain key b i).length := fun i hi => by
    obtain ⟨-, flags, hp⟩ := hc.primary b i hi
    rw [hp]
    exact Nat.succ_pos _
  by_cases hk : f < S.fecK key
  · exact List.ne_nil_of_length_pos (hprim f hk)
  · have hle := Sender.le_blockLen (b := b) h1
    have := hprim 0 h1
    exact List.ne_nil_of_length_pos (by rw [(hc.parity b f (Nat.not_lt.mp hk) hf).1]; omega)

/-- What decrypts is long enough for `rx_data`. -/
theorem decrypted_pktlen (hax : AeadLen x) {c : CryptoWfbContext} {w : WfbContext} (hw : IsData w) {plain : Bytes}
    (h : decrypted x c w = .ok (.ok plain)) : minDataPacketLen ≤ w.pktlen := by
  unfold decrypted cryptoWfbDataDecrypt at h
  split at h
  · cases h
  · split at h
    · cases h
    · split at h
      · rename_i p hp
        have h1 := hax _ _ _ _ _ hp
        have h2 := List.length_take_le (w.pktlen - w.hdrlen) (w.hdr.drop w.hdrlen)
        have h3 := hw.hdrlen
        unfold wfbDataBlockHdrlen crypto_aead_chacha20poly1305_NPUBBYTES at h3
        unfold crypto_aead_chacha20poly1305_ABYTES at h1
        unfold minDataPacketLen wfbDataHdrlen crypto_aead_chacha20poly1305_ABYTES
        omega
      · cases h

theorem Opened.faithful (hx : Ideal x S enc payload) (h : Opened x ctx) : FaithfulInv S ctx := by
  obtain ⟨ctx0, plain, r, hd, hc, hst⟩ := h
  exact (faithfulSessionRules hx).start _ _ _ _ hd hc hst

/-- The receiver while the frames `fs` of block `b` arrive; `out` is what was handed over of it. -/
structure Gathered (S : Sender) (payload : Bytes → Nat → Nat → Bytes) (ctx0 ctx ctx' : RxContext) (b : Nat)
    (fs : List Input) (out : List (Nat × Bytes × Bytes)) : Prop where
  session : ctx'.hasSessionKey = true
  noFec : ctx'.noFec = false
  crypto : ctx'.crypto = ctx.crypto
  stage : ∃ d, DeskInv ctx0 ctx' d ∧ Stage S payload ctx0.sessionKey b (fragments fs) d out

theorem Stage.next {d : Desk} {out : List (Nat × Bytes × Bytes)} (h : Stage S payload key b D d out) {r : Rbuf}
    (hr : Desked r d) : Next r b := by
  unfold Next
  rw [hr.last]
  cases h with
  | ahead _ hl _ =>
    rcases hl with h | h
    · exact .inl h
    · exact .inr (.inr h.2)
  | pending _ hl _ _ _ => exact .inr (.inl (le_of_eq hl.symm))
  | finished _ hl _ => exact .inr (.inl (le_of_eq hl.symm))

/-- A frame of the block, as the receiver reads it. -/
theorem OfBlock.frame (hx : Ideal x S enc payload) {ctx0 ctx ctx' : RxContext} {d : Desk} (hd : DeskInv ctx0 ctx' d)
    (hc : ctx'.crypto = ctx.crypto) (hn : ctx.fecN = ctx0.fecN) (hf : FaithfulInv S ctx0) {i : Input} (hi : OfBlock x ctx b i) :
    ∃ f w, i = .frame f ∧ wfbFrameParse f.data f.size = .ok w ∧ w.packetType = wfbPacketData ∧ dataHdr? i = some w ∧
      w.blockIdx = b ∧ w.fragmentIdx < ctx'.fecN ∧
        decrypted x ctx'.crypto w = .ok (.ok (S.plain ctx0.sessionKey b w.fragmentIdx)) ∧
          S.plain ctx0.sessionKey b w.fragmentIdx ≠ [] := by
  obtain ⟨plain, hp⟩ := Option.isSome_iff_exists.mp hi.1
  obtain ⟨w, hw, hdec⟩ := plaintext?_frame hp
  obtain ⟨f, rfl, hparse, ht⟩ := dataHdr?_frame hw
  obtain ⟨hb, hlt⟩ := hi.2 w hw
  have hpl := decrypted_plain hx (wfbFrameParse_data hparse ht).1 hdec
  rw [← hc, hd.session.ok.crypto.2, hd.sessionKey, hb] at hpl
  rw [hpl, ← hc] at hdec
  have hk := hf.session.ok.fecK
  have hkS := hf.fecK
  have hnS := hf.fecN
  refine ⟨f, w, rfl, hparse, ht, hw, hb, by rw [hd.fecN, ← hn]; exact hlt, hdec, ?_⟩
  exact (hx.sender _ (by omega) (by omega)).plain_ne (by omega) (by omega)

theorem Gathered.sound (hx : Ideal x S enc payload) {ctx0 ctx ctx' : RxContext} {fs : List Input}
    {out : List (Nat × Bytes × Bytes)} (h : Gathered S payload ctx0 ctx ctx' b fs out) (hn : ctx.fecN = ctx0.fecN)
    (hf : FaithfulInv S ctx0) {i : Input} (hi : OfBlock x ctx b i) : Sound x ctx' i := by
  obtain ⟨d, hd, hst⟩ := h.stage
  obtain ⟨f, w, rfl, hp, ht, hw, hb, -, hdec, hne⟩ := hi.frame hx hd h.crypto hn hf
  obtain ⟨r, hr, hdesk⟩ := hd.desk
  refine ⟨⟨keepsSession_data hp ht, fun p ha => ?_⟩, fun he => ?_⟩
  · obtain ⟨f', w', hf', hp', -, hb', hadm⟩ := asked?_some ha
    cases hf'
    cases hp.symm.trans hp'
    cases hr.symm.trans hadm.ring
    rw [hb', hb]
    exact hst.next hdesk
  · rw [plaintext?_data hp ht hdec] at he
    exact hne (Option.some.inj he)

theorem Gathered.step (hx : Ideal x S enc payload) (hax : AeadLen x) {ctx0 ctx ctx' ctx'' : RxContext} {fs : List Input}
    {out : List (Nat × Bytes × Bytes)} (h : Gathered S payload ctx0 ctx ctx' b fs out) (hn : ctx.fecN = ctx0.fecN)
    (hf : FaithfulInv S ctx0) (hb : b ≤ maxBlockIdx) {i : Input} (hi : OfBlock x ctx b i) {e : List Ev}
    (hs : rxStep x ctx' i = .ok (ctx'', e)) : Gathered S payload ctx0 ctx ctx'' b (fs ++ [i]) (out ++ sends b e) := by
  have hsound := h.sound hx hn hf hi
  obtain ⟨d, hd, hst⟩ := h.stage
  obtain ⟨f, w, rfl, hp, ht, hw, hbi, hlt, hdec, hne⟩ := hi.frame hx hd h.crypto hn hf
  cases rxStep_cases hs with
  | unparsed hp' _ => rw [hp] at hp'; cases hp'
  | session hp' ht' _ => cases hp.symm.trans hp'; rw [ht] at ht'; exact absurd ht' (by decide)
  | @data f w' q hp' _ hcall =>
    cases hp.symm.trans hp'
    obtain ⟨ring, hkey, he, -⟩ := hcall.ctx_eq
    rcases data_step hd hsound.1.2 hp ht hcall with ⟨hnot, -, -⟩ | ⟨-, hlost⟩ | ⟨d', hk', hd', hdstep⟩
    · obtain ⟨r, hr, -⟩ := hd.desk
      have hlen : minDataPacketLen ≤ w.pktlen := decrypted_pktlen hax (wfbFrameParse_data hp ht).1 hdec
      exact absurd ⟨h.session, hr, hlen, by show w.blockIdx ≤ maxBlockIdx; omega, hlt⟩ (hnot r)
    · obtain ⟨err, hbad⟩ := hlost.forged
      exact absurd (hdec.symm.trans hbad) (fun e => (nomatch e))
    · refine ⟨hk'.trans h.session, by rw [he]; exact h.noFec, by rw [he]; exact h.crypto, d', hd', ?_⟩
      rw [fragments_snoc hw, ← sends_effects]
      have hid := hd.idle w f.freq f.dbm ctx'.noFec
      refine hst.step hdstep hx ⟨hid.session.ok, hd.fecK.trans hf.fecK, hd.fecN.trans hf.fecN, h.noFec⟩ hd.index hbi
        (maxBlockIdx_ne hb) fun plain hpl => ?_
      cases hdec.symm.trans hpl
      exact ⟨rfl, hne⟩

theorem Gathered.run (hx : Ideal x S enc payload) (hax : AeadLen x) (hpos : 0 < x.maxIter) {ctx0 ctx : RxContext}
    {is : List Input} {tr : List Ev} (h0 : Opened x ctx0) (hrun : Machine.Run (rxStep x) (Sound x) ctx0 is ctx tr)
    (hn : ctx.fecN = ctx0.fecN) (hb : b ≤ maxBlockIdx) (hstart : Gathered S payload ctx0 ctx ctx b [] (sends b tr))
    {fs : List Input} (hfs : ∀ i ∈ fs, OfBlock x ctx b i) :
    ∃ ctx' tr', Machine.Run (rxStep x) (Sound x) ctx fs ctx' tr' ∧
      Gathered S payload ctx0 ctx ctx' b fs (sends b (tr ++ tr')) := by
  have hf := h0.faithful hx
  induction fs using List.reverseRecOn with
  | nil => exact ⟨ctx, [], .nil, by rwa [List.append_nil]⟩
  | append_singleton fs i ih =>
    obtain ⟨ctx', tr', hr, hg⟩ := ih fun j hj => hfs j (List.mem_append_left _ hj)
    have hi := hfs i (List.mem_append_right _ List.mem_cons_self)
    have hsound := hg.sound hx hn hf hi
    obtain ⟨ctx'', e, hs⟩ := Sound.handled hax hpos h0 (hrun.append hr) hsound
    refine ⟨ctx'', tr' ++ e, hr.snoc hsound hs, ?_⟩
    rw [← List.append_assoc, sends_append]
    exact hg.step hx hax hn hf hb hi hs

/-- Nothing was handed over yet of a block ahead of all others. -/
theorem sends_ahead {ctx0 : RxContext} (h0 : Opened x ctx0) {is : List Input} {tr : List Ev}
    (h : Machine.Run (rxStep x) (Steady x) ctx0 is ctx tr) (hk : ctx.hasSessionKey = true) (hb : b ≠ blockInval)
    (hl : ∀ r, ctx.rxRing = some r → r.lastBlock = blockInval ∨ r.lastBlock < b) :
    ∃ d, DeskInv ctx0 ctx d ∧ sends b tr = [] := by
  rcases (orderRules x ctx0).run h0 h with ⟨-, d, hd, hem⟩ | ⟨hk', -⟩
  · refine ⟨d, hd, ?_⟩
    obtain ⟨r, hr, hdesk⟩ := hd.desk
    have hnew : d.Newer b := ⟨hb, by rw [← hdesk.last]; exact hl r hr⟩
    have hle := hnew.cursor_le fun hs => by
      obtain ⟨blk, hc⟩ := Option.isSome_iff_exists.mp hs
      exact (hd.index blk hc).2
    -- a fragment of the block would be ahead of the cursor
    unfold sends
    rw [List.filterMap_eq_nil_iff]
    intro e he
    cases e with
    | send c f hdr data =>
      refine if_neg fun hc => ?_
      subst hc
      have hm : frag c f ∈ sent tr := List.mem_filterMap.mpr ⟨_, he, rfl⟩
      rw [← sent_effects] at hm
      have hlt := lt_of_lt_of_le (hem.mem _ hm).2 hle
      rw [frag_lt] at hlt
      omega
    | _ => rfl
  · rw [hk] at hk'; cases hk'

/-- From every state of a session in which no block was skipped: once `k` distinct
    fragments of the next block have arrived, in any order, all `k` primaries have been
    handed over, once each and in order, as the sender made them, and the block is free. -/
theorem fec_complete (hx : Ideal x S enc payload) (hax : AeadLen x) (hpos : 0 < x.maxIter) {ctx0 ctx : RxContext}
    (h0 : Opened x ctx0) {is : List Input} {tr : List Ev} (h : Machine.Run (rxStep x) (Sound x) ctx0 is ctx tr)
    (hk : ctx.hasSessionKey = true) (hfec : ctx.noFec = false) {b : Nat} (hb : b ≤ maxBlockIdx)
    (hnext : ∀ r, ctx.rxRing = some r → r.lastBlock = blockInval ∨ r.lastBlock < b ∧ (b - r.lastBlock) % 2 ^ 32 = 1)
    {fs : List Input} (hfs : ∀ i ∈ fs, OfBlock x ctx b i) (hcard : ctx.fecK ≤ (fragments fs).card) :
    ∃ ctx' tr', Machine.Run (rxStep x) (Sound x) ctx fs ctx' tr' ∧
      sends b (tr ++ tr') = handed S payload ctx.sessionKey b ctx.fecK ∧
        ∀ r, ctx'.rxRing = some r → ∀ s < r.ringSize, (r.blocks s).index ≠ b := by
  obtain ⟨d, hd, hnone⟩ := sends_ahead h0 (h.mono fun _ _ hg => hg.1) hk (maxBlockIdx_ne hb)
    fun r hr => (hnext r hr).imp_right And.left
  obtain ⟨r, hr, hdesk⟩ := hd.desk
  have hahead := hnext r hr
  rw [hdesk.last] at hahead
  obtain ⟨ctx', tr', hrun, hg⟩ := Gathered.run hx hax hpos h0 h hd.fecN hb
    ⟨hk, hfec, rfl, d, hd, .ahead rfl hahead hnone⟩ hfs
  refine ⟨ctx', tr', hrun, ?_⟩
  have hkS : ctx.fecK = S.fecK ctx0.sessionKey := hd.fecK.trans (h0.faithful hx).fecK
  have h1 := hd.session.ok.fecK.1
  obtain ⟨d', hd', hst⟩ := hg.stage
  obtain ⟨r', hr', hdesk'⟩ := hd'.desk
  cases hst with
  | ahead hD _ _ =>
    rw [hD, Finset.card_empty] at hcard
    omega
  | pending _ _ _ hlt _ => omega
  | finished hc _ hout =>
    refine ⟨by rw [hout, hd.sessionKey, hkS], fun r2 hr2 s hs he => ?_⟩
    cases hr'.symm.trans hr2
    exact hdesk'.empty hc hs (by rw [show r'.live s ↔ (r'.blocks s).index ≠ blockInval from Iff.rfl, he]; exact maxBlockIdx_ne hb)

theorem fec_complete_run : ∃ ctx0 ctx tr ctx' tr', Opened (numbered 1 2).externals ctx0 ∧
    Machine.Run (rxStep (numbered 1 2).externals) (Sound (numbered 1 2).externals) ctx0 [(numbered 1 2).input 7 0] ctx tr ∧
      Machine.Run (rxStep (numbered 1 2).externals) (Sound (numbered 1 2).externals) ctx
        [(numbered 1 2).input 8 1, (numbered 1 2).input 8 1, (numbered 1 2).input 8 0] ctx' tr' ∧
        sends 8 (tr ++ tr') = handed (numbered 1 2) (fun _ => number 1) ctx.sessionKey 8 ctx.fecK ∧
          ∀ r, ctx'.rxRing = some r → ∀ s < r.ringSize, (r.blocks s).index ≠ 8 := by
  obtain ⟨ctx0, ctx, tr, h0, hrun, hq⟩ := (numbered 1 2).exists_session (Sound (numbered 1 2).externals)
    [(numbered 1 2).input 7 0] (fun _ p => decide (p.1.hasSessionKey = true) && decide (p.1.noFec = false) &&
      decide (∀ r ∈ p.1.rxRing, r.lastBlock = blockInval ∨ r.lastBlock < 8 ∧ (8 - r.lastBlock) % 2 ^ 32 = 1) &&
        decide (∀ i ∈ [(numbered 1 2).input 8 1, (numbered 1 2).input 8 1, (numbered 1 2).input 8 0],
          OfBlock (numbered 1 2).externals p.1 8 i) &&
          decide (p.1.fecK ≤ (fragments [(numbered 1 2).input 8 1, (numbered 1 2).input 8 1, (numbered 1 2).input 8 0]).card))
    (by decide +kernel)
  simp only [Bool.and_eq_true, decide_eq_true_eq] at hq
  obtain ⟨⟨⟨⟨hk, hfec⟩, hnext⟩, hfs⟩, hcard⟩ := hq
  obtain ⟨ctx', tr', hrun', hout, hfree⟩ := fec_complete (numbered_ideal (le_refl _) (.inl rfl)) (externals_aeadLen _) (by decide)
    h0 hrun hk hfec (by decide) hnext hfs hcard
  exact ⟨ctx0, ctx, tr, ctx', tr', h0, hrun, hrun', hout, hfree⟩

/-- Two parities bring out both primaries. -/
example : (sends 7 ((numbered 2 4).report [(numbered 2 4).input 7 2, (numbered 2 4).input 7 3])).map Prod.fst = [0, 1] := by
  decide +kernel

/-- With `ring_alloc` beyond an `int`, a block the ring does not hold is searched for
    without end. -/
theorem search_endless {ctx ctx' : RxContext} {i : Input} {evs : List Ev} {r : Rbuf} {b : Nat} (ha : asked? ctx i = some (r, b))
    (hbig : intMax < r.ringAlloc) (hnone : ∀ s < r.ringSize, (r.blocks s).index ≠ b) :
    rxStep x ctx i ≠ .ok (ctx', evs) := by
  intro hs
  obtain ⟨f, w, rfl, hp, ht, hb, hadm⟩ := asked?_some ha
  have hsearch : (search r b (span r) 0 0).1 = none := by
    cases hf : (search r b (span r) 0 0).1 with
    | none => rfl
    | some s =>
      obtain ⟨hi, j, -, rfl⟩ := search_some hf
      exact absurd hi (hnone _ (Nat.mod_lt _ r.size_pos))
  have herr := rbufGetBlock_overflow hsearch hbig
  rw [show b = w.blockIdx from hb] at herr
  cases rxStep_cases hs with
  | unparsed hp' _ => rw [hp] at hp'; cases hp'
  | session hp' ht' _ => cases hp.symm.trans hp'; rw [ht] at ht'; exact absurd ht' (by decide)
  | data hp' _ hcall =>
    cases hp.symm.trans hp'
    cases hcall with
    | refused hnot _ => exact hnot r hadm
    | outside hadm' hg =>
      cases hadm.ring.symm.trans hadm'.ring
      exact absurd (herr.symm.trans hg) (fun e => (nomatch e))
    | filed hadm' hg _ =>
      cases hadm.ring.symm.trans hadm'.ring
      exact absurd (herr.symm.trans hg) (fun e => (nomatch e))

/-- After blocks 0 and 2, both begun, `ring_alloc` has wrapped: block 3 cannot be received. -/
theorem gap_breaks_completeness : ¬ ∀ (x : Externals) (S : Sender) (enc : Encoder) (payload : Bytes → Nat → Nat → Bytes)
    (ctx0 ctx : RxContext) (is : List Input) (tr : List Ev) (b : Nat) (fs : List Input), Ideal x S enc payload → AeadLen x →
      0 < x.maxIter → Opened x ctx0 → Machine.Run (rxStep x) (Authentic x) ctx0 is ctx tr → ctx.hasSessionKey = true →
        ctx.noFec = false → b ≤ maxBlockIdx → (∀ r, ctx.rxRing = some r → r.lastBlock < b) →
          (∀ i ∈ fs, OfBlock x ctx b i) → ctx.fecK ≤ (fragments fs).card →
            ∃ ctx' tr', Machine.Run (rxStep x) (fun _ _ => True) ctx fs ctx' tr' ∧
              sends b (tr ++ tr') = handed S payload ctx.sessionKey b ctx.fecK ∧
                ∀ r, ctx'.rxRing = some r → ∀ s < r.ringSize, (r.blocks s).index ≠ b := by
  intro hclaim
  obtain ⟨ctx0, ctx, tr, h0, hrun, hq⟩ := (numbered 2 2).exists_session (Authentic (numbered 2 2).externals)
    [(numbered 2 2).input 0 0, (numbered 2 2).input 2 0]
    (fun _ p => decide (p.1.hasSessionKey = true) && decide (p.1.noFec = false) && decide (∀ r ∈ p.1.rxRing, r.lastBlock < 3) &&
      decide (∀ i ∈ [(numbered 2 2).input 3 0, (numbered 2 2).input 3 1], OfBlock (numbered 2 2).externals p.1 3 i) &&
        decide (p.1.fecK ≤ (fragments [(numbered 2 2).input 3 0, (numbered 2 2).input 3 1]).card) &&
          match asked? p.1 ((numbered 2 2).input 3 0) with
          | some (r, b) => decide (intMax < r.ringAlloc) && decide (∀ s < r.ringSize, (r.blocks s).index ≠ b)
          | none => false) (by decide +kernel)
  simp only [Bool.and_eq_true, decide_eq_true_eq] at hq
  obtain ⟨⟨⟨⟨⟨hk, hfec⟩, hl⟩, hfs⟩, hcard⟩, hstuck⟩ := hq
  obtain ⟨ctx', tr', hrun', -⟩ := hclaim _ _ _ _ _ _ _ _ 3 _ (numbered_ideal (by decide) (.inr rfl)) (externals_aeadLen _)
    (by decide) h0 hrun hk hfec (by decide) hl hfs hcard
  obtain ⟨p, hs⟩ := hrun'.head
  split at hstuck
  · rename_i r b ha
    simp only [Bool.and_eq_true, decide_eq_true_eq] at hstuck
    exact search_endless ha hstuck.1 hstuck.2 hs
  · cases hstuck

end WfbYa.Rx
