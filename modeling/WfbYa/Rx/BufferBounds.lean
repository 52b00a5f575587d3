/-
  WfbYa.Rx.BufferBounds — a fragment buffer holds the largest fragment.

  A ring's buffers have `MAX_FEC_PAYLOAD` bytes: what is left of the largest frame once its
  headers and the tag are taken off. There is no slack, as `largest_fills` shows.

  - `BufferFits`: what handling a DATA frame does to a fragment's buffer stays inside it.
  - `buffers_fit`: that holds of every DATA frame, in every state a run reaches.
-/

import WfbYa.Rx.Accounting
import WfbYa.Rx.NodeSteps

namespace WfbYa.Rx

open WfbYa.Frame WfbYa.Ring WfbYa.Lib

/-- A failed AEAD call writes no more than the plaintext would have had. -/
def AeadLeft (x : Externals) : Prop :=
  ∀ c ad nonce key left, x.aeadDecrypt c ad nonce key = .error left → left.length ≤ c.length - crypto_aead_chacha20poly1305_ABYTES

/-- What is read of the frame at hand, and written to and read from a buffer of `r`. -/
structure BufferFits (x : Externals) (ctx : RxContext) (r : Rbuf) : Prop where
  /-- What `crypto_wfb_data_decrypt` asserts. -/
  header : ctx.wfb.hdrlen < ctx.wfb.pktlen
  plain : ∀ plain, decrypted x ctx.crypto ctx.wfb = .ok (.ok plain) → plain.length ≤ r.fragmentSize
  left : ∀ left fmt, decrypted x ctx.crypto ctx.wfb = .ok (.error (left, fmt)) → left.length ≤ r.fragmentSize
  /-- The length `memset` is given. -/
  tail : ∀ plain, decrypted x ctx.crypto ctx.wfb = .ok (.ok plain) →
    plain.length + sizeMinus r.fragmentSize plain.length = r.fragmentSize
  /-- The slot `rbuf_get_block` returns has buffers of that size. -/
  kept : ∀ r1 slot evs, rbufGetBlock r ctx.wfb.blockIdx = .ok (r1, slot, evs) → r1.fragmentSize = r.fragmentSize
  delivered : ∀ blk, ∀ e ∈ deliver ctx blk, e.isOutput = true →
    wfbDataHdrlen + packetSize (blk.fragment blk.fragmentToSend) ≤ r.fragmentSize

variable {x : Externals} {ctx : RxContext}

/-- The largest frame's plaintext fills a buffer, and the largest payload its rest. -/
theorem largest_fills : wfbDataBlockHdrlen + maxFecPayload + crypto_aead_chacha20poly1305_ABYTES = maxDataPacketSize ∧
    wfbDataHdrlen + maxPayloadSize = maxFecPayload := by decide

theorem data_hdrlen_lt {w : WfbContext} (hw : IsData w) (hl : minDataPacketLen ≤ w.pktlen) : w.hdrlen < w.pktlen := by
  have hshort : wfbDataBlockHdrlen < minDataPacketLen := by decide
  rw [hw.hdrlen]
  exact Nat.lt_of_lt_of_le hshort hl

/-- Either way a call of the AEAD writes what fits in a buffer. -/
theorem decrypted_fits (hx : AeadLen x) (hx' : AeadLeft x) {c : CryptoWfbContext} {w : WfbContext} (hw : IsData w)
    (hl : minDataPacketLen ≤ w.pktlen) :
    (∀ plain, decrypted x c w = .ok (.ok plain) → plain.length ≤ maxFecPayload) ∧
      ∀ left fmt, decrypted x c w = .ok (.error (left, fmt)) → left.length ≤ maxFecPayload := by
  obtain ⟨d, hd, hplain⟩ := @decrypted_returns x hx c w hw hl
  constructor
  · intro plain hp
    rw [hd] at hp
    cases hp
    exact hplain plain rfl
  · intro left fmt hf
    unfold decrypted cryptoWfbDataDecrypt at hf
    rw [if_neg (Nat.not_le.mpr (data_hdrlen_lt hw hl))] at hf
    split at hf
    · -- no key: nothing is written
      cases hf
      exact Nat.zero_le _
    · split at hf
      · cases hf
      · rename_i left' hfail
        cases hf
        have hleft := hx' _ _ _ _ _ hfail
        have hcipher := List.length_take_le (w.pktlen - w.hdrlen) (w.hdr.drop w.hdrlen)
        have hmax := hw.pktlen.2
        have hhdr := hw.hdrlen
        have hfill := largest_fills.1
        omega

theorem deliver_fits {blk : RbufBlock} {e : Ev} (he : e ∈ deliver ctx blk) (ho : e.isOutput = true) :
    wfbDataHdrlen + packetSize (blk.fragment blk.fragmentToSend) ≤ maxFecPayload := by
  unfold deliver at he
  dsimp only at he
  split at he
  · cases he
  · split at he
    · rw [List.mem_singleton.mp he] at ho
      cases ho
    · rename_i hsize
      have hfill := largest_fills.2
      omega

theorem Admitted.buffer_fits (hx : AeadLen x) (hx' : AeadLeft x) {r : Rbuf} (ha : Admitted ctx r) (hok : SessionOk ctx)
    (hw : IsData ctx.wfb) : BufferFits x ctx r := by
  have hsz : r.fragmentSize = maxFecPayload := congrArg (·.2.2) (hok.shape_eq ha.ring)
  obtain ⟨hplain, hleft⟩ := @decrypted_fits x hx hx' ctx.crypto _ hw ha.pktlen
  refine ⟨data_hdrlen_lt hw ha.pktlen, ?_, ?_, ?_, ?_, ?_⟩
  · rw [hsz]
    exact hplain
  · rw [hsz]
    exact hleft
  · intro plain hp
    rw [hsz, sizeMinus_eq (hplain plain hp) (by decide)]
    exact Nat.add_sub_cancel' (hplain plain hp)
  · intro r1 slot evs hg
    exact congrArg (·.2.2) (getBlock_shape hg)
  · intro blk e he ho
    rw [hsz]
    exact deliver_fits he ho

/-- In every state a run reaches, for every DATA frame of any length that passes the checks
    of `rx_data`. -/
theorem buffers_fit (hx : AeadLen x) (hx' : AeadLeft x) {chan : Nat} {crypto : CryptoWfbContext}
    {noFec : Bool} {handlers : List Nat}
    {is : List Input} {tr : List Ev} (h : Machine.Run (rxStep x) (fun _ _ => True) (rxSetup chan crypto noFec handlers) is ctx tr)
    {f : RxFrame} {w : WfbContext} (hp : wfbFrameParse f.data f.size = .ok w) (ht : w.packetType = wfbPacketData) {r : Rbuf}
    (ha : Admitted (withFrame ctx f w) r) : BufferFits x (withFrame ctx f w) r := by
  have hinv : SessionInv ctx := (sessionRules x).run h ha.session
  apply ha.buffer_fits hx hx'
  · exact (hinv.idle w f.freq f.dbm ctx.noFec).ok
  · exact (wfbFrameParse_data hp ht).1

theorem externals_aeadLeft (S : Sender) : AeadLeft S.externals := by
  intro c ad nonce key left h
  simp only [Sender.externals] at h
  split at h
  · cases h
  · cases h
    exact Nat.zero_le _

theorem buffers_fit_run : ∃ ctx tr f w r, Machine.Run (rxStep (numbered 2 2).externals) (fun _ _ => True)
    (rxSetup 0 loaded false [0]) [(numbered 2 2).opening] ctx tr ∧ (numbered 2 2).input 5 1 = .frame f ∧
      BufferFits (numbered 2 2).externals (withFrame ctx f w) r := by
  obtain ⟨ctx, tr, hrun, hq⟩ := Machine.exists_run (rxStep (numbered 2 2).externals) (fun _ _ => True)
    (rxSetup 0 loaded false [0]) [(numbered 2 2).opening] (fun p => (asked? p.1 ((numbered 2 2).input 5 1)).isSome)
    (by decide +kernel)
  obtain ⟨p, hasked⟩ := Option.isSome_iff_exists.mp hq
  obtain ⟨f, w, hf, hp, ht, -, ha⟩ := asked?_some hasked
  exact ⟨ctx, tr, f, w, p.1, hrun, hf, buffers_fit (externals_aeadLen _) (externals_aeadLeft _) hrun hp ht ha⟩

end WfbYa.Rx
