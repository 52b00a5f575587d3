/-
  WfbYa.Rx.Extents — a payload handed over lies in what its fragment was filled with.

  `send_data_one` takes the length from the fragment's header and compares it with the
  largest payload alone. A received fragment is followed by zeros; behind one that
  `data_recovery` wrote is what an earlier block left.

  - `Modest`: a fragment that announces no more than it holds.
  - `extents_kept`: as long as the primaries stored are modest, and those the sender made
    the parities of, no payload reaches behind its fragment.
  - `stale_bytes_sent`: a restored header of three bytes, and twenty bytes of another block.
-/

import WfbYa.Rx.SendCalls
import WfbYa.Rx.Accounting
import WfbYa.Rx.Fidelity

namespace WfbYa.Rx

open WfbYa.Frame WfbYa.Ring WfbYa.Lib WfbYa.Lib.BigEndian

/-- A fragment with room for the payload it announces, or that is never handed over. -/
def Modest (plain : Bytes) : Prop :=
  plain.headD 0 &&& wfbPacketFFecOnly ≠ 0 ∨ maxPayloadSize < packetSize plain ∨ wfbDataHdrlen + packetSize plain ≤ plain.length

instance (plain : Bytes) : Decidable (Modest plain) := by unfold Modest; infer_instance

/-- The extent of the fragment sent: what was received of it, or the size of the recovery. -/
def SendCall.extent (c : SendCall) : Nat :=
  if c.blk.fragmentLen c.blk.fragmentToSend ≠ 0 then c.blk.fragmentLen c.blk.fragmentToSend else c.pktsiz.getD 0

/-- If the call delivers a payload, that ends within the extent. -/
def SendCall.InExtent (ctx : RxContext) (c : SendCall) : Prop :=
  c.deliveries ctx ≠ [] → wfbDataHdrlen + packetSize (c.blk.fragment c.blk.fragmentToSend) ≤ c.extent

instance (ctx : RxContext) (c : SendCall) : Decidable (c.InExtent ctx) := by unfold SendCall.InExtent; infer_instance

/-- The block's fragments are those of a word of `len` letters, and its longest parity has
    that length. -/
structure Encoded (enc : Encoder) (k n : Nat) (blk : RbufBlock) (len : Nat) (word : Nat → Bytes) : Prop where
  longest : ∀ j, k ≤ j → j < n → blk.fragmentLen j ≤ len
  reached : ∃ j, k ≤ j ∧ j < n ∧ blk.fragmentLen j = len
  words : ∀ i < k, (word i).length = len
  fragments : ∀ j < n, blk.fragmentLen j ≠ 0 → (blk.fragment j).take len = Erasure.fragment (enc k n) k word j

/-- The fragment gives its block `fec_k` of them, and primaries still to be sent are missing. -/
def Filed.Restorable (q : Filed) : Prop :=
  q.block.fragmentUsed = q.ctx.fecK ∧ q.ctx.noFec = false ∧
    ∃ i, q.block.fragmentToSend ≤ i ∧ i < q.ctx.fecK ∧ q.block.fragmentLen i = 0

/-- A primary that is stored is modest, and so are those missing from a word, when a block
    can be restored. -/
def Truthful (x : Externals) (enc : Encoder) (ctx : RxContext) (i : Input) : Prop := ∀ q ∈ filed? x ctx i,
  (q.ctx.wfb.fragmentIdx < ctx.fecK → Modest q.plain) ∧
    (q.Restorable → ∃ len word, Encoded enc ctx.fecK ctx.fecN q.block len word ∧
      ∀ i, q.block.fragmentToSend ≤ i → i < ctx.fecK → q.block.fragmentLen i = 0 → Modest (word i))

/-! ## Headers -/

theorem packetSize_eq (b : Bytes) : packetSize b = (b.getD 1 0).toNat * 256 + (b.getD 2 0).toNat := by
  unfold packetSize slice ofBe
  simp [List.range_succ]

theorem getD_append_le (a rest : Bytes) (i : Nat) : (a.getD i 0).toNat ≤ ((a ++ rest).getD i 0).toNat := by
  rw [List.getD_eq_getElem?_getD, List.getD_eq_getElem?_getD]
  by_cases h : i < a.length
  · rw [List.getElem?_append_left h]
  · rw [List.getElem?_eq_none (Nat.not_lt.mp h)]
    exact Nat.zero_le _

/-- More bytes behind a header announce no less. -/
theorem packetSize_append_le (a rest : Bytes) : packetSize a ≤ packetSize (a ++ rest) := by
  have h1 := getD_append_le a rest 1
  have h2 := getD_append_le a rest 2
  rw [packetSize_eq, packetSize_eq]
  omega

theorem packetSize_append {a : Bytes} (rest : Bytes) (h : wfbDataHdrlen ≤ a.length) : packetSize (a ++ rest) = packetSize a := by
  unfold packetSize
  rw [slice_append_left rest]
  exact h

variable {x : Externals} {ctx : RxContext} {enc : Encoder}

theorem deliver_deliveries {blk : RbufBlock} (h : deliveries (deliver ctx blk) ≠ []) :
    (blk.fragment blk.fragmentToSend).headD 0 &&& wfbPacketFFecOnly = 0 ∧
      packetSize (blk.fragment blk.fragmentToSend) ≤ maxPayloadSize := by
  unfold deliver at h
  dsimp only at h
  split at h
  · exact absurd rfl h
  · rename_i hflag
    split at h
    · exact absurd rfl h
    · rename_i hsize
      exact ⟨not_not.mp hflag, Nat.not_lt.mp hsize⟩

/-- A buffer that begins with a modest fragment. -/
theorem Modest.inExtent {c : SendCall} {plain rest : Bytes} (h : Modest plain)
    (hbuf : c.blk.fragment c.blk.fragmentToSend = plain ++ rest) (hlen : plain.length = c.extent) : c.InExtent ctx := by
  intro hne
  obtain ⟨hflag, hsize⟩ := deliver_deliveries hne
  rw [hbuf] at hflag hsize ⊢
  rcases h with h | h | h
  · cases plain with
    | nil => exact absurd rfl h
    | cons a as => exact absurd hflag h
  · have := packetSize_append_le plain rest
    omega
  · rw [packetSize_append rest (by omega), ← hlen]
    exact h

/-! ## Slots -/

/-- The primaries held are modest. -/
structure Candid (k n : Nat) (blk : RbufBlock) : Prop where
  toSend : blk.fragmentToSend ≤ k
  used : held blk 0 n ≤ blk.fragmentUsed
  plain : ∀ f < k, blk.fragmentLen f ≠ 0 → ∃ plain rest, blk.fragment f = plain ++ rest ∧
    plain.length = blk.fragmentLen f ∧ Modest plain

theorem putAll_other {blk : RbufBlock} {ps : List (Nat × Bytes)} {i : Nat} (h : ∀ p ∈ ps, p.1 ≠ i) :
    (putAll blk ps).fragment i = blk.fragment i := by
  induction ps generalizing blk with
  | nil => rfl
  | cons p ps ih =>
    have hi : (putFragment blk p.1 p.2).fragment i = blk.fragment i := Function.update_of_ne (h p List.mem_cons_self).symm ..
    exact (ih fun q hq => h q (List.mem_cons_of_mem p hq)).trans hi

/-- Recovery leaves what was received. -/
theorem Recovery.held_fragment {nof : Nat} {blk blk' : RbufBlock} {evs : List Ev} (h : Recovery x ctx nof blk blk' evs) {i : Nat}
    (hi : blk.fragmentLen i ≠ 0) : blk'.fragment i = blk.fragment i := by
  cases h with
  | complete _ => rfl
  | @decoded p outpkts _ hp _ =>
    apply putAll_other
    intro q hq e
    have hout : q.1 ∈ p.out := (List.of_mem_zip hq).1
    rw [(planLoop_spec hp).out, List.mem_filter] at hout
    exact hi (by simpa [e] using hout.2)

theorem Candid.send {k n : Nat} {blk : RbufBlock} (h : Candid k n blk) {t : Nat} (ht : t ≤ k) :
    Candid k n { blk with fragmentToSend := t } := ⟨ht, h.used, h.plain⟩

theorem candidRules (x : Externals) (ctx : RxContext) (nof : Nat) :
    SlotRules x ctx nof (Candid ctx.fecK ctx.fecN) (fun _ => True) where
  toSend := fun _ h => h.toSend
  send := by
    intro blk h
    have hb := (sendPlan_spec blk.fragmentLen false false (ctx.fecK - blk.fragmentToSend) blk.fragmentToSend).bounds
    have ht := h.toSend
    apply h.send
    show (sendPlan _ _ _ _ _).2 ≤ _
    omega
  handed := fun _ _ _ _ _ _ _ _ => trivial
  flush := fun _ h => ⟨le_refl _, h.used, h.plain⟩
  recovered := by
    intro blk blk' evs h _ hrec
    obtain ⟨-, hu, -, hl, -⟩ := hrec.keeps
    refine ⟨⟨le_refl _, ?_, ?_⟩, fun _ _ => trivial, fun _ _ _ _ _ => trivial⟩
    · show held blk' 0 ctx.fecN ≤ blk'.fragmentUsed
      rw [hu, @held_congr blk' blk 0 ctx.fecN fun m _ _ => by rw [hl]]
      exact h.used
    · intro f hf hlen
      change blk'.fragmentLen f ≠ 0 at hlen
      rw [hl] at hlen
      obtain ⟨plain, rest, hbuf, hp⟩ := h.plain f hf hlen
      refine ⟨plain, rest, (hrec.held_fragment hlen).trans hbuf, ?_⟩
      show plain.length = blk'.fragmentLen f ∧ _
      rw [hl]
      exact hp
  renew := fun blk c _ => ⟨Nat.zero_le _, Nat.le_of_eq (held_zero (fun _ => rfl) 0 ctx.fecN), fun _ _ hl => absurd rfl hl⟩
  rssi := by
    intro blk f dbm h
    refine ⟨by rw [raiseRssi_toSend]; exact h.toSend, ?_, by rw [raiseRssi_len, raiseRssi_fragment]; exact h.plain⟩
    rw [raiseRssi_used, @held_congr (raiseRssi blk f dbm) blk 0 ctx.fecN fun m _ _ => by rw [raiseRssi_len]]
    exact h.used
  leftover := by
    intro blk f left h h0
    refine ⟨h.toSend, h.used, ?_⟩
    intro g hg hlen
    have hne : g ≠ f := fun e => hlen (e ▸ h0)
    obtain ⟨plain, rest, hbuf, hp⟩ := h.plain g hg hlen
    exact ⟨plain, rest, (Function.update_of_ne hne ..).trans hbuf, hp⟩
  other := fun _ _ _ => trivial

/-- Filing a modest primary, or a parity. -/
theorem Candid.store {k n f sz : Nat} {blk : RbufBlock} {plain : Bytes} (h : Candid k n blk) (hf : f < n)
    (h0 : blk.fragmentLen f = 0) (hp : f < k → Modest plain) : Candid k n (storeFragment blk f sz plain) := by
  refine ⟨h.toSend, ?_, ?_⟩
  · have hle := @held_store_le blk f n sz plain hf h0
    have hu := h.used
    show _ ≤ blk.fragmentUsed + 1
    omega
  · intro g hg hlen
    change Function.update blk.fragmentLen f plain.length g ≠ 0 at hlen
    show ∃ p rest, Function.update blk.fragment f (plain ++ List.replicate (sz - plain.length) 0) g = p ++ rest ∧
      p.length = Function.update blk.fragmentLen f plain.length g ∧ Modest p
    by_cases e : g = f
    · rw [e, Function.update_self, Function.update_self]
      exact ⟨plain, _, rfl, rfl, hp (e ▸ hg)⟩
    · rw [Function.update_of_ne e] at hlen
      rw [Function.update_of_ne e, Function.update_of_ne e]
      exact h.plain g hg hlen

/-! ## Restored fragments -/

/-- A plan for a block with no more than `fec_k` fragments takes all it holds. -/
theorem plan_takes_all {k n : Nat} {blk : RbufBlock} {p : Plan} (hp : planLoop blk n k 0 k 0 = .ok p) (hk : k ≤ n)
    (hheld : held blk 0 n ≤ k) {j : Nat} (hj : j < n) (hlen : blk.fragmentLen j ≠ 0) : j ∈ p.index := by
  have hpl := planLoop_spec hp
  have hsub : p.index ⊆ received blk n := by
    intro c hc
    have hheldc := hpl.held c hc
    exact mem_received.mpr ⟨by omega, hheldc.1⟩
  have hcount : (received blk n).length = held blk 0 n := by
    unfold received held
    rw [List.countP_eq_length_filter, List.range_eq_range']
  have hperm := (List.subperm_of_subset (hpl.nodup (by omega)) hsub).perm_of_length_le (by rw [hcount, hpl.length]; exact hheld)
  exact hperm.mem_iff.mpr (mem_received.mpr ⟨hj, hlen⟩)

/-- The size of a recovery is that of the longest parity held. -/
theorem Encoded.pktsiz {k n len : Nat} {blk : RbufBlock} {word : Nat → Bytes} (h : Encoded enc k n blk len word) {p : Plan}
    (hp : planLoop blk n k 0 k 0 = .ok p) (hk : k ≤ n) (hheld : held blk 0 n ≤ k) (hout : p.out ≠ []) : p.pktsiz = len := by
  have hpl := planLoop_spec hp
  have hpos := hpl.sz_pos hout
  obtain ⟨c, hc, hkc, hsz⟩ := hpl.sz_of.resolve_left (Nat.pos_iff_ne_zero.mp hpos)
  obtain ⟨j, hkj, hj, hlen⟩ := h.reached
  have hcn : c < n := by
    have := (hpl.held c hc).2
    omega
  have hle := h.longest c hkc hcn
  have hheldj : blk.fragmentLen j ≠ 0 := by omega
  have hge := hpl.sz_max (by omega) j (plan_takes_all hp hk hheld hj hheldj) hkj
  omega

/-- What recovery writes for a missing primary, and of which size. -/
theorem Recovery.restores {blk blk' : RbufBlock} {evs : List Ev} (h : Recovery x ctx ctx.fecN blk blk' evs) (hok : SessionOk ctx)
    (hcodec : Erasure.Decodes (enc ctx.fecK ctx.fecN) (x.fecDecode ctx.fecK ctx.fecN) ctx.fecK ctx.fecN)
    (hheld : held blk 0 ctx.fecN ≤ ctx.fecK) {len : Nat} {word : Nat → Bytes} (henc : Encoded enc ctx.fecK ctx.fecN blk len word)
    (hmiss : fecCount ctx blk ≠ 0) {i : Nat} (hi : i < ctx.fecK) (h0 : blk.fragmentLen i = 0) :
    (∃ rest, blk'.fragment i = word i ++ rest) ∧ recoverySize ctx ctx.fecN blk = some len := by
  have hk := hok.fecK.2
  cases h with
  | complete hc => exact absurd hc hmiss
  | @decoded p outpkts _ hp ho =>
    have hpl := planLoop_spec hp
    have hmem : i ∈ p.out := by
      rw [hpl.out, List.mem_filter, List.mem_range'_1]
      exact ⟨by omega, by simpa using h0⟩
    have hout : p.out ≠ [] := List.ne_nil_of_mem hmem
    have hsz := henc.pktsiz hp hk hheld hout
    have hpos := hpl.sz_pos hout
    have hin : (p.index.map blk.fragment).map (List.take p.pktsiz) = p.index.map
      (Erasure.fragment (enc ctx.fecK ctx.fecN) ctx.fecK word) := by
      rw [List.map_map, hsz]
      apply List.map_congr_left
      intro c hc
      have hcheld := hpl.held c hc
      exact henc.fragments c (by omega) hcheld.1
    have hres : outpkts = p.out.map word := by
      unfold fecWfbApply at ho
      rw [if_neg (Nat.pos_iff_ne_zero.mp hpos), hok.fec, if_pos rfl] at ho
      cases ho
      rw [hin, hsz]
      exact plan_decodes hcodec hk hp (hsz ▸ hpos) henc.words
    have hnodup : p.out.Nodup := by
      rw [hpl.out]
      exact (List.nodup_range' 1).filter _
    refine ⟨⟨(blk.fragment i).drop (word i).length, ?_⟩, ?_⟩
    · rw [hres, putAll_fragment hnodup, if_pos hmem]
    · unfold recoverySize
      rw [if_neg hmiss, hp, ← hsz]
      rfl

/-! ## Calls -/

/-- What is sent of a candid block lies in its fragments. -/
theorem candid_sends {n : Nat} : SendsAll ctx (Candid ctx.fecK n) (SendCall.InExtent ctx) := by
  intro blk i h _ hi hlen
  obtain ⟨plain, rest, hbuf, hp, hmod⟩ := h.plain i hi (Nat.pos_iff_ne_zero.mp hlen)
  apply hmod.inExtent hbuf
  unfold SendCall.extent
  rw [if_pos (Nat.pos_iff_ne_zero.mp hlen)]
  exact hp

/-- What a recovery makes of a candid block, if its missing primaries are modest. -/
theorem candid_recovers {blk : RbufBlock} (h : Candid ctx.fecK ctx.fecN blk) (hok : SessionOk ctx)
    (hcodec : Erasure.Decodes (enc ctx.fecK ctx.fecN) (x.fecDecode ctx.fecK ctx.fecN) ctx.fecK ctx.fecN)
    (hword : Ready ctx blk → (∃ i, blk.fragmentToSend ≤ i ∧ i < ctx.fecK ∧ blk.fragmentLen i = 0) →
      ∃ len word, Encoded enc ctx.fecK ctx.fecN blk len word ∧
        ∀ i, blk.fragmentToSend ≤ i → i < ctx.fecK → blk.fragmentLen i = 0 → Modest (word i)) :
    RecoversAll x ctx ctx.fecN blk (SendCall.InExtent ctx) := by
  intro blk' evs i hready hrec hto hi
  by_cases h0 : blk.fragmentLen i = 0
  · have hmiss : fecCount ctx blk ≠ 0 := by
      intro hc
      have := List.countP_eq_zero.mp hc i (by rw [List.mem_range'_1]; omega)
      simp [h0] at this
    obtain ⟨len, word, henc, hmod⟩ := hword hready ⟨i, hto, hi, h0⟩
    have hheld : held blk 0 ctx.fecN ≤ ctx.fecK := hready.2.1 ▸ h.used
    obtain ⟨⟨rest, hbuf⟩, hsize⟩ := hrec.restores hok hcodec hheld henc hmiss hi h0
    apply (hmod i hto hi h0).inExtent hbuf
    unfold SendCall.extent
    have h0' : blk'.fragmentLen i = 0 := by rw [hrec.keeps.2.2.2.1]; exact h0
    rw [if_neg (not_not.mpr h0'), hsize]
    exact henc.words i hi
  · obtain ⟨plain, rest, hbuf, hp, hmod⟩ := h.plain i hi h0
    apply hmod.inExtent ((hrec.held_fragment h0).trans hbuf)
    unfold SendCall.extent
    have h0' : blk'.fragmentLen i = blk.fragmentLen i := by rw [hrec.keeps.2.2.2.1]
    rw [if_pos (h0' ▸ h0)]
    exact hp.trans h0'.symm

/-! ## Runs -/

structure CandidInv (ctx : RxContext) : Prop where
  session : SessionInv ctx
  slots : ∀ r, ctx.rxRing = some r → ∀ s, Candid ctx.fecK ctx.fecN (r.blocks s)

theorem CandidInv.idle (h : CandidInv ctx) (w : WfbContext) (freq : Nat) (dbm : Int) (noFec : Bool) :
    CandidInv { ctx with wfb := w, freq := freq, dbm := dbm, noFec := noFec } := ⟨h.session.idle w freq dbm noFec, h.slots⟩

theorem candidSessionRules (x : Externals) (enc : Encoder) :
    SessionRules x (Truthful x enc) CandidInv (fun _ _ => True) where
  idle := fun _ w freq dbm noFec h => h.idle w freq dbm noFec
  start := by
    intro ctx ctx' plain r _ hc hst
    refine ⟨hst.inv hc, ?_⟩
    obtain ⟨rfl, heap, hpos, hint, rfl⟩ := hst
    intro r' hr' s
    cases hr'
    exact ⟨Nat.zero_le _, Nat.le_of_eq (held_zero (fun _ => rfl) 0 _), fun _ _ hl => absurd rfl hl⟩
  data := by
    intro ctx f w q hg hp ht h hd
    obtain ⟨r, hr, -⟩ := h.session.ok.ring
    obtain ⟨r', hr', hgood, -⟩ := hd.slots hr (candidRules x _ _) (h.slots r hr) fun ha => by
      refine ⟨trivial, fun r1 slot evs plain hget h1 h0 hdec hle => ⟨?_, trivial⟩⟩
      have hfiled := hg _ (filed?_eq hp ht ha hget h0 hdec hle)
      exact h1.store ha.fragmentIdx (by rw [raiseRssi_len]; exact h0) hfiled.1
    obtain ⟨ring, key, he, -⟩ := hd.ctx_eq
    refine ⟨⟨(hd.inv h.session).1, ?_⟩, fun _ _ => trivial⟩
    intro r2 hr2 s
    rw [he]
    cases hr'.symm.trans hr2
    exact hgood.1 s
  other := fun _ _ _ _ => trivial

/-- The slots once a fragment is filed. -/
theorem CandidInv.filed {i : Input} (h : CandidInv ctx) (hg : Truthful x enc ctx i) {q : Filed} (hq : q ∈ filed? x ctx i) :
    SessionOk q.ctx ∧ q.ring.fragmentNof = ctx.fecN ∧
      ∀ s, Candid ctx.fecK ctx.fecN ((q.ring.setBlock q.slot q.block).blocks s) := by
  obtain ⟨f, w, r, evs, rfl, hp, ht, ha, hctx, hget, h0, hd, hle⟩ := filed?_some hq
  have hring : ctx.rxRing = some r := ha.ring
  have hshape := (getBlock_shape hget).trans (h.session.ok.shape_eq hring)
  have hslots : ∀ s, Candid ctx.fecK ctx.fecN (q.ring.blocks s) := by
    intro s
    rcases getBlock_slots hget s with e | ⟨c, e⟩
    · rw [e]
      exact h.slots r hring s
    · rw [e]
      exact (candidRules x ctx 0).renew _ c (h.slots r hring s)
  refine ⟨?_, congrArg (·.2.1) hshape, slots_setBlock hslots ?_⟩
  · rw [hctx]
    exact (h.session.idle w f.freq f.dbm ctx.noFec).ok
  · have hfiled := (hg q hq).1
    rw [hctx] at hfiled
    unfold Filed.block filedBlock
    rw [hctx]
    apply Candid.store _ ha.fragmentIdx
    · rw [raiseRssi_len]
      exact h0
    · exact hfiled
    · exact (candidRules x ctx 0).rssi _ _ _ (hslots q.slot)

/-- Whatever a step delivers ends within the fragment it is of. -/
theorem extents_kept {chan : Nat} {crypto : CryptoWfbContext} {noFec : Bool} {handlers : List Nat} {is : List Input}
    {tr : List Ev} (h : Machine.Run (rxStep x) (Truthful x enc) (rxSetup chan crypto noFec handlers) is ctx tr)
    (hcodec : Erasure.Decodes (enc ctx.fecK ctx.fecN) (x.fecDecode ctx.fecK ctx.fecN) ctx.fecK ctx.fecN)
    {i : Input} {ctx' : RxContext} {evs : List Ev} (hg : Truthful x enc ctx i) (hs : rxStep x ctx i = .ok (ctx', evs)) :
    deliveries evs = (stepCalls x ctx i).flatMap (SendCall.deliveries ctx) ∧ ∀ c ∈ stepCalls x ctx i, c.InExtent ctx := by
  refine ⟨rxStep_deliveries hs, ?_⟩
  unfold stepCalls
  cases hq : filed? x ctx i with
  | none => exact fun c hc => absurd hc List.not_mem_nil
  | some q =>
    have hkey : ctx.hasSessionKey = true := by
      obtain ⟨f, w, r, evs, -, -, -, ha, -⟩ := filed?_some hq
      exact ha.session
    have hinv : CandidInv ctx := (candidSessionRules x enc).run h hkey
    obtain ⟨hok, hnof, hslots⟩ := hinv.filed hg hq
    have hword := (hg q hq).2
    obtain ⟨f, w, r, evs, -, -, -, -, hctx, -⟩ := filed?_some hq
    obtain ⟨qctx, ring, slot, plain⟩ := q
    cases hctx
    have hall : ∀ c ∈ addCalls x (withFrame ctx f w) (ring.setBlock slot (filedBlock (withFrame ctx f w) ring slot plain)) slot,
        c.InExtent (withFrame ctx f w) := by
      apply addCalls_all (candidRules x (withFrame ctx f w) _) hslots candid_sends
      intro t hto
      rw [setBlock_same] at hto ⊢
      show RecoversAll x _ ring.fragmentNof _ _
      rw [hnof]
      intro blk' evs' i hready hrec
      have hcandid : Candid ctx.fecK ctx.fecN (filedBlock (withFrame ctx f w) ring slot plain) := by
        have := hslots slot
        rwa [setBlock_same] at this
      refine @candid_recovers x (withFrame ctx f w) enc _ (hcandid.send (Nat.le_of_lt hready.1))
        hok hcodec ?_ blk' evs' i hready hrec
      rintro - ⟨j, htj, hj, h0⟩
      obtain ⟨len, word, henc, hmod⟩ := hword ⟨hready.2.1, hready.2.2, j, Nat.le_trans hto htj, hj, h0⟩
      exact ⟨len, word, ⟨henc.longest, henc.reached, henc.words, henc.fragments⟩,
        fun i hti hi hl => hmod i (Nat.le_trans hto hti) hi hl⟩
    exact hall

/-- What is restored from a parity alone is that parity. -/
theorem parity_encoded {blk : RbufBlock} {plain : Bytes} (h0 : blk.fragmentLen 0 = 0) (h1 : blk.fragmentLen 1 = plain.length)
    (hbuf : (blk.fragment 1).take plain.length = plain) : Encoded repeating 1 2 blk plain.length fun _ => plain := by
  refine ⟨?_, ⟨1, le_refl _, by decide, h1⟩, fun _ _ => rfl, ?_⟩
  · intro j hj hj'
    obtain rfl : j = 1 := by omega
    exact Nat.le_of_eq h1
  · intro j hj hlen
    have hne : j ≠ 0 := fun e => hlen (e ▸ h0)
    obtain rfl : j = 1 := by omega
    exact hbuf

theorem extents_kept_run : ∃ ctx tr ctx' evs, Machine.Run (rxStep (numbered 1 2).externals)
    (Truthful (numbered 1 2).externals repeating) (rxSetup 0 loaded false [0]) [(numbered 1 2).opening] ctx tr ∧
      rxStep (numbered 1 2).externals ctx ((numbered 1 2).input 7 1) = .ok (ctx', evs) ∧
        (deliveries evs = (stepCalls (numbered 1 2).externals ctx ((numbered 1 2).input 7 1)).flatMap (SendCall.deliveries ctx) ∧
          ∀ c ∈ stepCalls (numbered 1 2).externals ctx ((numbered 1 2).input 7 1), c.InExtent ctx) := by
  obtain ⟨ctx, tr, hrun, hq⟩ := Machine.exists_run (rxStep (numbered 1 2).externals)
    (fun ctx i => (filed? (numbered 1 2).externals ctx i).isNone = true) (rxSetup 0 loaded false [0]) [(numbered 1 2).opening]
    (fun p => Machine.returns (rxStep (numbered 1 2).externals p.1 ((numbered 1 2).input 7 1)) (fun _ => true) &&
      decide (p.1.fecK = 1 ∧ p.1.fecN = 2) &&
        (filed? (numbered 1 2).externals p.1 ((numbered 1 2).input 7 1)).all fun q : Filed =>
          decide (q.block.fragmentLen 0 = 0 ∧ q.block.fragmentLen 1 = q.plain.length ∧
            (q.block.fragment 1).take q.plain.length = q.plain ∧ Modest q.plain)) (by decide +kernel)
  simp only [Bool.and_eq_true, decide_eq_true_eq, Machine.returns_iff] at hq
  obtain ⟨⟨⟨p, hs, -⟩, hk, hn⟩, hall⟩ := hq
  have hone : Erasure.Decodes (repeating ctx.fecK ctx.fecN) ((numbered 1 2).externals.fecDecode ctx.fecK ctx.fecN)
    ctx.fecK ctx.fecN :=
    repeating_decodes (.inl hk) (numbered 1 2)
  have hg : Truthful (numbered 1 2).externals repeating ctx ((numbered 1 2).input 7 1) := by
    intro q hq
    rw [show filed? (numbered 1 2).externals ctx ((numbered 1 2).input 7 1) = some q from hq,
      Option.all_some, decide_eq_true_eq] at hall
    obtain ⟨h0, h1, hbuf, hmod⟩ := hall
    refine ⟨fun _ => hmod, fun _ => ⟨q.plain.length, fun _ => q.plain, ?_, fun _ _ _ _ => hmod⟩⟩
    rw [hk, hn]
    exact parity_encoded h0 h1 hbuf
  have hquiet : ∀ ctx i, (filed? (numbered 1 2).externals ctx i).isNone = true →
    Truthful (numbered 1 2).externals repeating ctx i := by
    intro ctx i hnone q hq
    rw [show filed? (numbered 1 2).externals ctx i = some q from hq] at hnone
    cases hnone
  exact ⟨ctx, tr, p.1, p.2, hrun.mono hquiet, hs, extents_kept (hrun.mono hquiet) hone hg hs⟩

/-- A sender that announces twenty bytes in every block, and sends them in block 0 alone. -/
def boastful : Sender where
  fecK := fun _ => 1
  fecN := fun _ => 2
  plain := fun _ b _ => if b = 0 then withHdr 0 (List.replicate 20 65) else [0, 0, 20]

/-- Block 1 takes the slot of block 0, and its parity restores a header: behind it the log
    and the decode handler are given the payload of block 0. -/
theorem stale_bytes_sent : ∃ ctx tr ctx' evs, Machine.Run (rxStep boastful.externals) (fun _ _ => True)
    (rxSetup 0 loaded false [0])
    [boastful.opening, boastful.input 0 0] ctx tr ∧ rxStep boastful.externals ctx (boastful.input 1 1) = .ok (ctx', evs) ∧
      .logDecode 1 0 (List.replicate 20 65) ∈ evs ∧ ¬ ∀ c ∈ stepCalls boastful.externals ctx (boastful.input 1 1),
        c.InExtent ctx := by
  obtain ⟨ctx, tr, hrun, hq⟩ := Machine.exists_run (rxStep boastful.externals) (fun _ _ => True) (rxSetup 0 loaded false [0])
    [boastful.opening, boastful.input 0 0]
    (fun p => Machine.returns (rxStep boastful.externals p.1 (boastful.input 1 1)) (fun q =>
        decide (Ev.logDecode 1 0 (List.replicate 20 65) ∈ q.2)) &&
      decide (¬ ∀ c ∈ stepCalls boastful.externals p.1 (boastful.input 1 1), c.InExtent p.1)) (by decide +kernel)
  rw [Bool.and_eq_true, decide_eq_true_eq, Machine.returns_iff] at hq
  obtain ⟨⟨q, hs, hm⟩, hout⟩ := hq
  exact ⟨ctx, tr, q.1, q.2, hrun, hs, of_decide_eq_true hm, hout⟩

end WfbYa.Rx
