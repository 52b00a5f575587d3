/-
  WfbYa.Rx.Coverage — header fields come out of authenticated bytes.

  `MIN_SESSION_PACKET_LEN` and `MIN_DATA_PACKET_LEN` are compared with the whole frame and
  leave out the clear block header, so frames a few bytes too short for their header pass.

  - `header_covered_iff`: for which packet type and length what is read of a header always
    lies in the plaintext.
  - `short_breaks_coverage`: a session accepted with most of its key taken from what was in
    the buffer before.
-/

import WfbYa.Rx.Accounting
import WfbYa.Rx.Rejection
import WfbYa.Rx.Storing

namespace WfbYa.Rx

open WfbYa.Frame WfbYa.Ring WfbYa.Lib WfbYa.Lib.BigEndian

/-- A box is 16 bytes longer than what is in it. -/
def BoxLen (x : Externals) : Prop :=
  ∀ c nonce pk sk plain, x.boxOpen c nonce pk sk = some plain → c.length = plain.length + crypto_box_MACBYTES

/-- The header of a session accepted from the frame lies in what was opened, and so does
    that of a fragment stored from it. -/
def HeaderCovered (x : Externals) (ctx : RxContext) (f : RxFrame) : Prop :=
  ∀ ctx' evs, rxStep x ctx (.frame f) = .ok (ctx', evs) →
    (∀ w plain, wfbFrameParse f.data f.size = .ok w → w.packetType = wfbPacketSession → .sessionDump ∈ evs →
      cryptoWfbSessionDecrypt x ctx.crypto (w.cipher.take w.cipherlen) w.nonce = .ok plain → wfbSessionHdrlen ≤ plain.length) ∧
    ∀ s b i len, .store s b i len ∈ evs → wfbDataHdrlen ≤ len

/-- A frame long enough for the check on it, and too short for its header. -/
def ShortHeader (type : UInt8) (size : Nat) : Prop :=
  (type = wfbPacketSession ∧ minSessionPacketLen ≤ size ∧
    size < wfbSessionBlockHdrlen + wfbSessionHdrlen + crypto_box_MACBYTES) ∨
  (type = wfbPacketData ∧ wfbDataBlockHdrlen + crypto_aead_chacha20poly1305_ABYTES ≤ size ∧
    size < wfbDataBlockHdrlen + wfbDataHdrlen + crypto_aead_chacha20poly1305_ABYTES)

/-! ## Long enough -/

variable {x : Externals} {ctx : RxContext} {f : RxFrame} {w : WfbContext}

theorem session_plain_length (hx : BoxLen x) {c : CryptoWfbContext} {plain : Bytes} (hf : f.size ≤ f.data.length)
    (hp : wfbFrameParse f.data f.size = .ok w) (ht : w.packetType = wfbPacketSession)
    (hd : cryptoWfbSessionDecrypt x c (w.cipher.take w.cipherlen) w.nonce = .ok plain) :
    f.size = wfbSessionBlockHdrlen + plain.length + crypto_box_MACBYTES := by
  obtain ⟨hw, hhdr, hlen⟩ := wfbFrameParse_session hp ht
  have hbox : (w.cipher.take w.cipherlen).length = plain.length + crypto_box_MACBYTES := by
    unfold cryptoWfbSessionDecrypt at hd
    split at hd
    · cases hd
    · split at hd
      · rename_i p hb
        cases hd
        exact hx _ _ _ _ _ hb
      · cases hd
  unfold WfbContext.cipher at hbox
  rw [List.length_take, List.length_drop, hhdr, hw.cipherlen, hw.hdrlen, hlen] at hbox
  have := hw.pktlen
  rw [hw.hdrlen, hlen] at this
  omega

theorem data_plain_length (hx : AeadLen x) {c : CryptoWfbContext} {plain : Bytes} (hf : f.size ≤ f.data.length)
    (hp : wfbFrameParse f.data f.size = .ok w) (ht : w.packetType = wfbPacketData)
    (hd : decrypted x c w = .ok (.ok plain)) :
    f.size = wfbDataBlockHdrlen + plain.length + crypto_aead_chacha20poly1305_ABYTES := by
  obtain ⟨hw, hhdr, hlen⟩ := wfbFrameParse_data hp ht
  have haead : ((w.hdr.drop w.hdrlen).take (w.pktlen - w.hdrlen)).length = plain.length +
    crypto_aead_chacha20poly1305_ABYTES := by
    unfold decrypted cryptoWfbDataDecrypt at hd
    split at hd
    · cases hd
    · split at hd
      · cases hd
      · split at hd
        · rename_i p hb
          cases hd
          exact hx _ _ _ _ _ hb
        · cases hd
  rw [List.length_take, List.length_drop, hhdr, hw.hdrlen, hlen] at haead
  have := hw.pktlen.1
  rw [hw.hdrlen, hlen] at this
  omega

theorem accepted_session {ctx' : RxContext} {evs : List Ev} (hs : rxStep x ctx (.frame f) = .ok (ctx', evs))
    (hp : wfbFrameParse f.data f.size = .ok w) (ht : w.packetType = wfbPacketSession) (hm : Ev.sessionDump ∈ evs) :
    minSessionPacketLen ≤ w.pktlen := by
  have hno : ∀ {evs : List Ev}, Quiet evs → Ev.sessionDump ∉ evs := fun hq h => by
    have : Ev.sessionDump ∈ effects _ := mem_effects.mpr ⟨h, rfl⟩
    rw [show effects _ = [] from hq] at this
    cases this
  cases rxStep_cases hs with
  | unparsed hp' _ =>
    rw [hp] at hp'
    cases hp'
  | session hp' _ hx =>
    cases hp.symm.trans hp'
    cases rxSession_cases hx with
    | ignored hq => exact absurd hm (hno hq)
    | ended hq => exact absurd hm (hno hq)
    | started _ hl _ _ _ _ => exact hl
  | data hp' ht' _ =>
    cases hp.symm.trans hp'
    exact absurd (ht.symm.trans ht') (by decide)

theorem covered_of_long (hb : BoxLen x) (ha : AeadLen x) (hf : f.size ≤ f.data.length)
    (hlong : ¬ ShortHeader (f.data.headD 0) f.size) : HeaderCovered x ctx f := by
  intro ctx' evs hs
  constructor
  · intro w plain hp ht hm hd
    have hl := accepted_session hs hp ht hm
    obtain ⟨-, hhdr, hlen⟩ := wfbFrameParse_session hp ht
    have hsz := session_plain_length hb hf hp ht hd
    by_contra hlt
    apply hlong
    left
    refine ⟨?_, ?_, ?_⟩
    · rw [← hhdr]
      exact ht
    · rw [← hlen]
      exact hl
    · omega
  · intro s b i len hm
    obtain ⟨fr, w, r, r1, plain, r', e, hi, hp, ht, hfil, -, -, rfl, -, -⟩ := store_cases hs hm
    cases hi
    obtain ⟨-, hhdr, -⟩ := wfbFrameParse_data hp ht
    have hsz := data_plain_length ha hf hp ht hfil.authentic
    by_contra hlt
    apply hlong
    right
    refine ⟨?_, ?_, ?_⟩
    · rw [← hhdr]
      exact ht
    · omega
    · omega

/-! ## Too short -/

/-- Decryption that takes any tag. -/
def lax : Externals where
  boxOpen c _ _ _ := if 16 ≤ c.length then some (c.take (c.length - 16)) else none
  aeadDecrypt c _ _ _ := if 16 ≤ c.length then .ok (c.take (c.length - 16)) else .error []
  fecDecode _ _ _ _ _ := []
  maxIter := 1

theorem lax_boxLen : BoxLen lax := by
  intro c _ _ _ plain h
  simp only [lax] at h
  split at h
  · cases h
    rw [List.length_take]
    unfold crypto_box_MACBYTES
    omega
  · cases h

theorem lax_aeadLen : AeadLen lax := by
  intro c _ _ _ plain h
  simp only [lax] at h
  split at h
  · cases h
    rw [List.length_take]
    unfold crypto_aead_chacha20poly1305_ABYTES
    omega
  · cases h

/-- A sender's session frame, cut off after `size` bytes. -/
def cutSession (size : Nat) : RxFrame := { sessionFrame 1 0 2 2 someKey with size := size }

/-- A sender's DATA frame, cut off after `size` bytes. -/
def cutData (size : Nat) : RxFrame := { dataFrame 0 0 (withHdr 0 []) 0 with size := size }

theorem cutSession_uncovered {size : Nat} (h : minSessionPacketLen ≤ size)
    (h' : size < wfbSessionBlockHdrlen + wfbSessionHdrlen + crypto_box_MACBYTES) :
    ¬ HeaderCovered lax (rxSetup 0 loaded false []) (cutSession size) := by
  intro hcov
  have hall : ∀ n ∈ List.range' 63 25,
      (Machine.returns (rxStep lax (rxSetup 0 loaded false []) (.frame (cutSession n))) fun p => decide (Ev.sessionDump ∈ p.2)) &&
      (Machine.returns (wfbFrameParse (cutSession n).data n) fun w => decide (w.packetType = wfbPacketSession) &&
        Machine.returns (cryptoWfbSessionDecrypt lax loaded (w.cipher.take w.cipherlen) w.nonce) fun plain =>
          decide (plain.length < wfbSessionHdrlen)) = true := by decide +kernel
  have hn : size ∈ List.range' 63 25 := List.mem_range'_1.mpr ⟨h, h'⟩
  have := hall size hn
  simp only [Bool.and_eq_true, Machine.returns_iff, decide_eq_true_eq] at this
  obtain ⟨⟨p, hs, hm⟩, w, hp, ht, plain, hd, hlt⟩ := this
  exact absurd ((hcov _ _ hs).1 w plain hp ht hm hd) (Nat.not_le.mpr hlt)

/-- The first length that covers the header. -/
example : (Machine.returns (rxStep lax (rxSetup 0 loaded false []) (.frame (cutSession 88))) fun p =>
    decide (p.1.sessionKey = someKey)) = true := by decide +kernel

theorem cutData_uncovered {size : Nat} (h : wfbDataBlockHdrlen + crypto_aead_chacha20poly1305_ABYTES ≤ size)
    (h' : size < wfbDataBlockHdrlen + wfbDataHdrlen + crypto_aead_chacha20poly1305_ABYTES) :
    ∃ is ctx tr, Machine.Run (rxStep lax) Free (rxSetup 0 loaded false []) is ctx tr ∧
    ¬ HeaderCovered lax ctx (cutData size) := by
  obtain ⟨ctx, tr, hrun, hall⟩ := Machine.exists_run (rxStep lax) (fun _ _ => True) (rxSetup 0 loaded false [])
    [.frame (sessionFrame 1 0 2 2 someKey)] (fun p => decide (∀ n ∈ List.range' 25 3,
      (Machine.returns (rxStep lax p.1 (.frame (cutData n))) fun q => decide (Ev.store 0 0 0 (n - 25) ∈ q.2)) = true))
    (by decide +kernel)
  refine ⟨_, ctx, tr, hrun, ?_⟩
  intro hcov
  have hn : size ∈ List.range' 25 3 := List.mem_range'_1.mpr ⟨h, h'⟩
  have := of_decide_eq_true hall size hn
  rw [Machine.returns_iff] at this
  obtain ⟨q, hs, hm⟩ := this
  have hle := (hcov _ _ hs).2 _ _ _ _ (of_decide_eq_true hm)
  change size < 28 at h'
  change 3 ≤ size - 25 at hle
  omega

theorem short_uncovered {type : UInt8} {size : Nat} (h : ShortHeader type size) :
    ∃ is ctx tr f, Machine.Run (rxStep lax) Free (rxSetup 0 loaded false []) is ctx tr ∧ f.size = size ∧
      f.size ≤ f.data.length ∧ f.data.headD 0 = type ∧ ¬ HeaderCovered lax ctx f := by
  rcases h with ⟨rfl, h1, h2⟩ | ⟨rfl, h1, h2⟩
  · exact ⟨[], _, [], cutSession size, .nil, rfl, Nat.le_of_lt h2, rfl, cutSession_uncovered h1 h2⟩
  · obtain ⟨is, ctx, tr, hrun, hn⟩ := cutData_uncovered h1 h2
    exact ⟨is, ctx, tr, cutData size, hrun, rfl, Nat.le_of_lt h2, rfl, hn⟩

/-- For libsodium's lengths, in every state reached: the header read from a frame of this
    type and length lies in its plaintext, unless the length is in the gap the minimum
    leaves. -/
theorem header_covered_iff (type : UInt8) (size : Nat) :
    (∀ (x : Externals), BoxLen x → AeadLen x → ∀ (chan : Nat) (crypto : CryptoWfbContext) (noFec : Bool) (handlers : List Nat)
      (is : List Input) (ctx : RxContext) (tr : List Ev),
      Machine.Run (rxStep x) Free (rxSetup chan crypto noFec handlers) is ctx tr →
        ∀ f : RxFrame, f.size = size → f.size ≤ f.data.length → f.data.headD 0 = type → HeaderCovered x ctx f) ↔
      ¬ ShortHeader type size := by
  constructor
  · intro hcov hshort
    obtain ⟨is, ctx, tr, f, hrun, hs, hf, ht, hn⟩ := short_uncovered hshort
    exact hn (hcov lax lax_boxLen lax_aeadLen _ _ _ _ is ctx tr hrun f hs hf ht)
  · intro hlong x hb ha _ _ _ _ is ctx tr _ f hs hf ht
    subst hs ht
    exact covered_of_long hb ha hf hlong

/-- The first 63 bytes of a session frame are accepted: 22 bytes of header are authentic. -/
theorem short_breaks_coverage : ¬ ∀ (x : Externals), BoxLen x → AeadLen x → ∀ (chan : Nat) (crypto : CryptoWfbContext)
    (noFec : Bool) (handlers : List Nat) (is : List Input) (ctx : RxContext) (tr : List Ev),
      Machine.Run (rxStep x) Free (rxSetup chan crypto noFec handlers) is ctx tr →
        ∀ f : RxFrame, f.size ≤ f.data.length → HeaderCovered x ctx f := by
  intro hclaim
  apply @cutSession_uncovered 63 (by decide) (by decide)
  exact hclaim lax lax_boxLen lax_aeadLen 0 loaded false [] [] _ [] .nil (cutSession 63) (by decide)

end WfbYa.Rx
