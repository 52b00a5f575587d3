/-
  WfbYa.Rx.Copies — copies of DATA frames are harmless.

  Several receivers may hand in the same frame. The desk has every fragment it has seen
  behind it (`Behind`): the block is older than the newest one, or finished, or on the desk
  with the fragment in it. So a copy is refused or found to be a duplicate, and all it can
  do is raise an rssi value, which decides nothing (`WfbYa.Rx.Likeness`).

  - `DeskStep.behind`: a step of the desk puts its fragment behind, and leaves the rest there.
  - `Seen.copy`: a copy's step.
  - `copies_harmless`: a session with copies put in delivers what it delivers without them.
  - `gap_breaks_copies` / `empty_breaks_copies`: a skipped block, or an empty plaintext, and
    a copy is taken for a new frame.
-/

import WfbYa.Lib.Padding
import WfbYa.Rx.Likeness
import WfbYa.Rx.Release

namespace WfbYa.Rx

open WfbYa.Frame WfbYa.Ring WfbYa.Lib WfbYa.Lib.Padding

/-! ## What is behind the desk -/

/-- Fragment `f` of block `b` can do no more. -/
structure Behind (d : Desk) (b f : Nat) : Prop where
  begun : d.last ≠ blockInval
  le : b ≤ d.last
  held : b = d.last → ∀ blk, d.cur = some blk → blk.fragmentLen f ≠ 0

variable {x : Externals} {ctx ctx0 : RxContext}

theorem FecBlock.len {s : Nat} {blk blk' : RbufBlock} {o : Option RbufBlock} {e : List Ev} (h : FecBlock x ctx s blk o e)
    (ho : o = some blk') : blk'.fragmentLen = blk.fragmentLen := by
  cases h with
  | waits _ => cases ho; rfl
  | done _ _ => cases ho

theorem AddBlock.len {s : Nat} {blk blk' : RbufBlock} {o : Option RbufBlock} {e : List Ev} (h : AddBlock x ctx s blk o e)
    (ho : o = some blk') : blk'.fragmentLen = blk.fragmentLen := by
  cases h with
  | complete _ => cases ho
  | partly _ hfec => exact hfec.len ho

/-- The fragment at hand is in the block it was filed in, with those that were there. -/
theorem withFragment_held {blk : RbufBlock} {plain : Bytes} (hp : plain ≠ []) {f : Nat}
    (h : f = ctx.wfb.fragmentIdx ∨ blk.fragmentLen f ≠ 0) : (withFragment ctx blk plain).fragmentLen f ≠ 0 := by
  rw [withFragment_len]
  by_cases e : f = ctx.wfb.fragmentIdx
  · subst e
    rw [Function.update_self]
    exact fun h0 => hp (List.eq_nil_of_length_eq_zero h0)
  · rw [Function.update_of_ne e]
    exact h.resolve_left e

/-- A step of the desk puts the fragment at hand behind, and what was behind stays there. -/
theorem DeskStep.behind {d d' : Desk} {e : List Ev} (h : DeskStep x ctx d d' e)
    (hcur : ∀ blk, d.cur = some blk → blk.index = d.last ∧ d.last ≠ blockInval)
    (hfill : ∀ plain, decrypted x ctx.crypto ctx.wfb = .ok (.ok plain) → plain ≠ []) {b f : Nat}
    (hb : (b = ctx.wfb.blockIdx ∧ f = ctx.wfb.fragmentIdx) ∨ Behind d b f) : Behind d' b f := by
  cases h with
  | old hl hle hne =>
    rcases hb with ⟨rfl, rfl⟩ | hb
    · exact ⟨hl, hle, fun he blk hc => absurd he (hne (by rw [hc]; rfl))⟩
    · exact hb
  | @duplicate blk hc hi hlen =>
    rcases hb with ⟨rfl, rfl⟩ | hb
    · refine ⟨(hcur blk hc).2, le_of_eq hi, fun _ blk' hc' => ?_⟩
      cases hc'
      rw [raiseRssi_len]
      exact hlen
    · refine ⟨hb.begun, hb.le, fun he blk' hc' => ?_⟩
      cases hc'
      rw [raiseRssi_len]
      exact hb.held he blk hc
  | @again blk plain o e hc hi _ hdec _ hadd =>
    have hp := hfill plain hdec
    rcases hb with ⟨rfl, rfl⟩ | hb
    · refine ⟨(hcur blk hc).2, le_of_eq hi, fun _ blk' ho => ?_⟩
      rw [hadd.len ho]
      exact withFragment_held hp (.inl rfl)
    · refine ⟨hb.begun, hb.le, fun he blk' ho => ?_⟩
      rw [hadd.len ho]
      exact withFragment_held hp (.inr (hb.held he blk hc))
  | first _ hnew hdec _ hadd =>
    rcases hb with ⟨rfl, rfl⟩ | hb
    · refine ⟨hnew.1, le_refl _, fun _ blk' ho => ?_⟩
      rw [hadd.len ho]
      exact withFragment_held (hfill _ hdec) (.inl rfl)
    · have hlt := lt_of_le_of_lt hb.le (hnew.2.resolve_left hb.begun)
      exact ⟨hnew.1, hlt.le, fun he => absurd he hlt.ne⟩
  | next _ hnew hdec _ hfec =>
    rcases hb with ⟨rfl, rfl⟩ | hb
    · refine ⟨hnew.1, le_refl _, fun _ blk' ho => ?_⟩
      rw [hfec.len ho]
      exact withFragment_held (hfill _ hdec) (.inl rfl)
    · have hlt := lt_of_le_of_lt hb.le (hnew.2.resolve_left hb.begun)
      exact ⟨hnew.1, hlt.le, fun he => absurd he hlt.ne⟩

/-! ## What a session has seen -/

/-- The header passes the checks of `rx_data`. -/
structure InRange (ctx : RxContext) (w : WfbContext) : Prop where
  pktlen : minDataPacketLen ≤ w.pktlen
  blockIdx : w.blockIdx ≤ maxBlockIdx
  fragmentIdx : w.fragmentIdx < ctx.fecN

/-- The session opened in `ctx0` has handled the inputs `js`: as long as it lasts, their
    fragments are behind. -/
structure Seen (x : Externals) (ctx0 : RxContext) (js : List Input) (ctx : RxContext) : Prop where
  crypto : ctx.crypto = ctx0.crypto
  filled : ∀ i ∈ js, Filled x ctx0 i
  behind : ctx.hasSessionKey = true → ∃ d, DeskInv ctx0 ctx d ∧
    ∀ i ∈ js, ∀ w, dataHdr? i = some w → InRange ctx0 w → Behind d w.blockIdx w.fragmentIdx

theorem keepsSession_crypto {ctx' : RxContext} {i : Input} {e : List Ev} (hg : keepsSession x ctx i = true)
    (hs : rxStep x ctx i = .ok (ctx', e)) : ctx'.crypto = ctx.crypto := by
  cases rxStep_cases hs with
  | toggle _ => rfl
  | unparsed _ _ => rfl
  | session hp ht hx => rw [(rxSession_keeps hp ht hg hx).1]; rfl
  | data _ _ hd =>
    obtain ⟨ring, key, he, -⟩ := hd.ctx_eq
    rw [he]
    rfl

theorem behind_snoc {d : Desk} {js : List Input} {i : Input}
    (h : ∀ i ∈ js, ∀ w, dataHdr? i = some w → InRange ctx0 w → Behind d w.blockIdx w.fragmentIdx)
    (hi : ∀ w, dataHdr? i = some w → InRange ctx0 w → Behind d w.blockIdx w.fragmentIdx) :
    ∀ j ∈ js ++ [i], ∀ w, dataHdr? j = some w → InRange ctx0 w → Behind d w.blockIdx w.fragmentIdx := by
  intro j hj
  rcases List.mem_append.mp hj with hj | hj
  · exact h j hj
  · rw [List.mem_singleton.mp hj]
    exact hi

theorem Seen.step {js : List Input} {ctx' : RxContext} {i : Input} {e : List Ev} (h : Seen x ctx0 js ctx) (hg : Sound x ctx i)
    (hs : rxStep x ctx i = .ok (ctx', e)) : Seen x ctx0 (js ++ [i]) ctx' := by
  have hfill : Filled x ctx0 i := by
    have := hg.2
    unfold Filled at this ⊢
    rwa [h.crypto] at this
  refine ⟨(keepsSession_crypto hg.1.1 hs).trans h.crypto, ?_, fun hk' => ?_⟩
  · simp only [List.forall_mem_append, List.forall_mem_singleton]
    exact ⟨h.filled, hfill⟩
  · have hk : ctx.hasSessionKey = true := by
      by_contra hk
      rw [(closed_step (Bool.eq_false_iff.mpr hk) hg.1.1 hs).1] at hk'
      cases hk'
    obtain ⟨d, hd, hb⟩ := h.behind hk
    cases rxStep_cases hs with
    | toggle _ => exact ⟨d, hd.idle ctx.wfb ctx.freq ctx.dbm _, behind_snoc hb fun _ hw => (nomatch hw)⟩
    | @unparsed f _ _ hp _ =>
      refine ⟨d, hd.idle ctx.wfb f.freq f.dbm ctx.noFec, behind_snoc hb fun w hw => ?_⟩
      obtain ⟨f', he, hp', -⟩ := dataHdr?_frame hw
      cases he
      rw [hp] at hp'
      cases hp'
    | @session f w _ hp ht hx =>
      rw [(rxSession_keeps hp ht hg.1.1 hx).1]
      refine ⟨d, hd.idle w f.freq f.dbm ctx.noFec, behind_snoc hb fun w' hw => ?_⟩
      obtain ⟨f', he, hp', ht'⟩ := dataHdr?_frame hw
      cases he
      rw [hp] at hp'
      cases hp'
      rw [ht] at ht'
      cases ht'
    | @data f w q hp ht hcall =>
      have hown : ∀ w', dataHdr? (.frame f) = some w' → w' = w := fun w' hw => by
        rw [dataHdr?_some hp ht] at hw
        cases hw
        rfl
      rcases data_step hd hg.1.2 hp ht hcall with ⟨hno, he, -⟩ | ⟨hkey, -⟩ | ⟨d', -, hd', hst⟩
      · rw [he]
        obtain ⟨r, hr, -⟩ := hd.desk
        refine ⟨d, hd.idle w f.freq f.dbm ctx.noFec, behind_snoc hb fun w' hw hin => ?_⟩
        cases hown w' hw
        exact absurd ⟨hk, hr, hin.pktlen, hin.blockIdx, lt_of_lt_of_eq hin.fragmentIdx hd.fecN.symm⟩ (hno r)
      · rw [hk'] at hkey
        cases hkey
      · have hplain : ∀ plain, decrypted x (withFrame ctx f w).crypto (withFrame ctx f w).wfb = .ok (.ok plain) → plain ≠ [] :=
          fun plain hdec e => hg.2 (plaintext?_data hp ht (e ▸ hdec))
        refine ⟨d', hd', behind_snoc (fun j hj w' hw hin => ?_) fun w' hw _ => ?_⟩
        · exact hst.behind hd.index hplain (.inr (hb j hj w' hw hin))
        · cases hown w' hw
          exact hst.behind hd.index hplain (.inl ⟨rfl, rfl⟩)

theorem Opened.seen (h : Opened x ctx0) : Seen x ctx0 [] ctx0 :=
  ⟨rfl, fun _ h => (nomatch h), fun _ => ⟨emptyDesk, h.inv.2, fun _ h => (nomatch h)⟩⟩

theorem Sound.seen (h0 : Opened x ctx0) {js : List Input} {tr : List Ev}
    (h : Machine.Run (rxStep x) (Sound x) ctx0 js ctx tr) : Seen x ctx0 js ctx :=
  h.inv (fun js ctx _ => Seen x ctx0 js ctx) h0.seen fun _ _ _ _ _ _ hi hg hs => hi.step hg hs

/-! ## A copy -/

/-- A signal strength as `udp_frame_parse` and `ieee80211_radiotap_parse` leave it. -/
def Signal (dbm : Int) : Prop := (dbmMin ≤ dbm ∧ dbm ≤ dbmMax) ∨ dbm = dbmInval

/-- The DATA frame of an earlier input, as another receiver hands it in. -/
inductive Copy (js : List Input) : Input → Prop
  | mk {f0 f : RxFrame} {w : WfbContext} : .frame f0 ∈ js → f.data = f0.data → f.size = f0.size →
      wfbFrameParse f.data f.size = .ok w → w.packetType = wfbPacketData → Signal f.dbm → Copy js (.frame f)

/-- The list `is` with copies put in. -/
def Copied (is js : List Input) : Prop := Padded Copy is js

/-- Rings that differ in rssi values alone, which may have risen. -/
structure Untouched (r r' : Rbuf) : Prop where
  ringFront : r'.ringFront = r.ringFront
  ringAlloc : r'.ringAlloc = r.ringAlloc
  lastBlock : r'.lastBlock = r.lastBlock
  index : ∀ s, (r'.blocks s).index = (r.blocks s).index
  fragmentLen : ∀ s, (r'.blocks s).fragmentLen = (r.blocks s).fragmentLen
  fragmentUsed : ∀ s, (r'.blocks s).fragmentUsed = (r.blocks s).fragmentUsed
  fragmentToSend : ∀ s, (r'.blocks s).fragmentToSend = (r.blocks s).fragmentToSend
  rssi : ∀ s f, (r.blocks s).rssi f ≤ (r'.blocks s).rssi f

theorem Untouched.refl (r : Rbuf) : Untouched r r :=
  ⟨rfl, rfl, rfl, fun _ => rfl, fun _ => rfl, fun _ => rfl, fun _ => rfl, fun _ _ => le_refl _⟩

/-- What a copy does: nothing is delivered, and only rssi values rise. -/
structure Harmless (ctx ctx' : RxContext) (e : List Ev) : Prop where
  like : Like ctx ctx'
  delivered : delivered e = []
  ring : ∀ r, ctx.rxRing = some r → ∃ r', ctx'.rxRing = some r' ∧ Untouched r r'

/-- A strength that fits is stored as it is. -/
theorem int8OfInt16_eq {dbm : Int} (h1 : dbmMin ≤ dbm) (h2 : dbm ≤ dbmMax) : int8OfInt16 dbm = dbm := by
  unfold dbmMin at h1
  unfold dbmMax at h2
  exact (Int.bmod_eq_iff (by decide)).mpr ⟨by omega, by omega, by simp⟩

theorem raiseRssi_rises (blk : RbufBlock) (f : Nat) {dbm : Int} (hs : Signal dbm) (i : Nat) :
    blk.rssi i ≤ (raiseRssi blk f dbm).rssi i := by
  unfold raiseRssi
  split
  · rename_i hlt
    by_cases e : i = f
    · subst e
      show _ ≤ Function.update blk.rssi i (int8OfInt16 dbm) i
      rw [Function.update_self]
      -- an invalid strength is below every rssi value
      rcases hs with ⟨h1, h2⟩ | rfl
      · rw [int8OfInt16_eq h1 h2]
        exact hlt.le
      · exact le_trans hlt.le (by decide)
    · show _ ≤ Function.update blk.rssi f (int8OfInt16 dbm) i
      rw [Function.update_of_ne e]
  · exact le_refl _

theorem untouched_raise (r : Rbuf) (s f : Nat) {dbm : Int} (hs : Signal dbm) :
    Untouched r (r.setBlock s (raiseRssi (r.blocks s) f dbm)) := by
  have hsame : ∀ {α : Type} (g : RbufBlock → α) (_ : g (raiseRssi (r.blocks s) f dbm) = g (r.blocks s)) (t : Nat),
      g ((r.setBlock s (raiseRssi (r.blocks s) f dbm)).blocks t) = g (r.blocks t) := fun g hg t => by
    by_cases e : t = s
    · subst e
      rw [setBlock_same, hg]
    · rw [setBlock_ne r _ e]
  refine ⟨rfl, rfl, rfl, hsame _ (raiseRssi_index ..), hsame _ (raiseRssi_len ..), hsame _ (raiseRssi_used ..),
    hsame _ (raiseRssi_toSend ..), fun t i => ?_⟩
  by_cases e : t = s
  · subst e
    rw [setBlock_same]
    exact raiseRssi_rises _ f hs i
  · rw [setBlock_ne r _ e]

theorem rssiRing_raise (r : Rbuf) (s f : Nat) (dbm : Int) :
    ∃ ρ, r.setBlock s (raiseRssi (r.blocks s) f dbm) = rssiRing r ρ := by
  have hraise : raiseRssi (r.blocks s) f dbm = withRssi (r.blocks s) (raiseRssi (r.blocks s) f dbm).rssi := by
    unfold raiseRssi withRssi
    split <;> rfl
  refine ⟨Function.update (fun t => (r.blocks t).rssi) s (raiseRssi (r.blocks s) f dbm).rssi, ?_⟩
  have := rssiRing_setBlock r (fun t => (r.blocks t).rssi) s (r.blocks s) (raiseRssi (r.blocks s) f dbm).rssi
  rw [rssiRing_self, ← hraise, setBlock_self] at this
  exact this

theorem Harmless.quiet {evs : List Ev} (h : Quiet evs) : Harmless ctx ctx evs :=
  ⟨.refl ctx, delivered_quiet h, fun r hr => ⟨r, hr, .refl r⟩⟩

/-- A frame whose fragment is behind the desk does no harm. -/
theorem DataCall.harmless {q : Ret} (h : DataCall x ctx q) (hs : Signal ctx.dbm)
    (hb : ∀ r, Admitted ctx r → ∃ d, Desked r d ∧ Behind d ctx.wfb.blockIdx ctx.wfb.fragmentIdx) : Harmless ctx q.ctx q.evs := by
  cases h with
  | refused _ hq => exact .quiet hq
  | @outside r r1 evs ha hg =>
    obtain ⟨d, hd, hb⟩ := hb r ha
    have hself : { ctx with rxRing := some r } = ctx := by rw [← ha.ring]
    rcases getBlock_desk hd ha.blockIdx (.inr (.inl (hd.last ▸ hb.le))) with ⟨-, -, he⟩ | ⟨-, -, -, he⟩ | ⟨-, he⟩
    · rw [he] at hg; cases hg
    · rw [he] at hg; cases hg
      rw [hself]
      exact ⟨.refl ctx, rfl, fun r hr => ⟨r, hr, .refl r⟩⟩
    · rw [he] at hg; cases hg
  | @filed r r1 slot evs q ha hg hf =>
    obtain ⟨d, hd, hb⟩ := hb r ha
    rcases getBlock_desk hd ha.blockIdx (.inr (.inl (hd.last ▸ hb.le))) with ⟨h1, h2, he⟩ | ⟨-, -, -, he⟩ | ⟨hnew, -⟩
    · rw [he] at hg; cases hg
      obtain ⟨blk, hc⟩ := Option.isSome_iff_exists.mp h1
      have hlen : (r.blocks d.front).fragmentLen ctx.wfb.fragmentIdx ≠ 0 := by
        rw [(hd.cur blk hc).1]
        exact hb.held h2 blk hc
      cases hf with
      | duplicate _ =>
        refine ⟨?_, rfl, fun r' hr' => ⟨_, rfl, ?_⟩⟩
        · obtain ⟨ρ, hρ⟩ := rssiRing_raise r d.front ctx.wfb.fragmentIdx ctx.dbm
          refine ⟨ρ, ctx.wfb, ctx.freq, ctx.dbm, ?_⟩
          rw [hρ, ha.ring]
          rfl
        · cases ha.ring.symm.trans hr'
          exact untouched_raise r d.front ctx.wfb.fragmentIdx hs
      | forged h0 _ => exact absurd h0 hlen
      | stored h0 _ _ _ => exact absurd h0 hlen
    · rw [he] at hg; cases hg
    · exact absurd hb.le (Nat.not_le.mpr (hnew.2.resolve_left hb.begun))

/-- A frame of the session handed in again meets the condition, and does no harm. -/
theorem Seen.copy {js : List Input} {i : Input} (h : Seen x ctx0 js ctx) (hc : Copy js i) :
    Sound x ctx i ∧ ∀ ctx' e, rxStep x ctx i = .ok (ctx', e) → Harmless ctx ctx' e := by
  obtain ⟨hmem, hdata, hsize, hp, ht, hsig⟩ := hc
  rename_i f0 f w
  have hhdr : dataHdr? (.frame f0) = some w := dataHdr?_some (by rw [← hdata, ← hsize]; exact hp) ht
  have hbehind : ∀ r, Admitted (withFrame ctx f w) r → ∃ d, Desked r d ∧ Behind d w.blockIdx w.fragmentIdx := fun r ha => by
    obtain ⟨d, hd, hb⟩ := h.behind ha.session
    obtain ⟨r', hr', hdesk⟩ := hd.desk
    cases hr'.symm.trans ha.ring
    exact ⟨d, hdesk, hb _ hmem w hhdr ⟨ha.pktlen, ha.blockIdx, lt_of_lt_of_eq ha.fragmentIdx hd.fecN⟩⟩
  refine ⟨⟨⟨keepsSession_data hp ht, fun p hpm => ?_⟩, ?_⟩, fun ctx' e hs => ?_⟩
  · obtain ⟨f', w', he, hp', -, hidx, ha⟩ := asked?_some hpm
    cases he
    rw [hp] at hp'
    cases hp'
    obtain ⟨d, hd, hb⟩ := hbehind _ ha
    rw [hidx]
    exact .inr (.inl (hd.last ▸ hb.le))
  · have hf := h.filled _ hmem
    unfold Filled plaintext? at hf ⊢
    rw [hhdr] at hf
    rw [dataHdr?_some hp ht, h.crypto]
    exact hf
  · rw [rxStep_data hp ht] at hs
    obtain ⟨q, hq, he⟩ := Machine.bind_ok_iff.mp hs
    cases he
    have hh := (rxData_cases hq).harmless hsig hbehind
    exact ⟨(like_withFrame ctx f w).trans hh.like, hh.delivered, hh.ring⟩

/-! ## Alike receivers -/

theorem Like.sound {ctx' : RxContext} {i : Input} (h : Like ctx ctx') (hg : Sound x ctx i) : Sound x ctx' i := by
  obtain ⟨ρ, w, freq, dbm, rfl⟩ := h
  refine ⟨⟨hg.1.1, fun p hpm => ?_⟩, hg.2⟩
  obtain ⟨f, w', rfl, hp, ht, hb, ha⟩ := asked?_some hpm
  obtain ⟨r, hr, hp1⟩ := Option.map_eq_some_iff.mp ha.ring
  have := hg.1.2 (r, w'.blockIdx) (asked?_data hp ht ⟨ha.session, hr, ha.pktlen, ha.blockIdx, ha.fragmentIdx⟩)
  rw [hb, ← hp1]
  exact this

/-- An input of the session makes receivers that are alike deliver the same, and leaves
    them alike. -/
theorem Like.step {a a' b : RxContext} {i : Input} {e : List Ev} (h : Like a b) (hg : keepsSession x a i = true)
    (hs : rxStep x a i = .ok (a', e)) : ∃ b' e', rxStep x b i = .ok (b', e') ∧ Like a' b' ∧ delivered e' = delivered e := by
  cases rxStep_cases hs with
  | toggle hq =>
    obtain ⟨ρ, w, freq, dbm, rfl⟩ := h
    exact ⟨_, _, rfl, ⟨ρ, w, freq, dbm, rfl⟩, (delivered_quiet hq).symm⟩
  | @unparsed f fmt _ hp hq =>
    obtain ⟨ρ, w, freq, dbm, rfl⟩ := h
    exact ⟨_, _, rxStep_unparsed hp _, ⟨ρ, w, f.freq, f.dbm, rfl⟩, (delivered_quiet hq).symm⟩
  | @session f w q hp ht hx =>
    have hgb : keepsSession x b (.frame f) = true := by
      obtain ⟨ρ, w', freq, dbm, rfl⟩ := h
      exact hg
    obtain ⟨he, hq⟩ := rxSession_keeps hp ht hg hx
    cases hxb : rxSession x f.outcome (withFrame b f w) with
    | error φ => exact absurd hxb rxSession_returns
    | ok q' =>
      obtain ⟨he', hq'⟩ := rxSession_keeps hp ht hgb hxb
      refine ⟨q'.ctx, q'.evs, ?_, ?_, ?_⟩
      · rw [rxStep_session hp ht, hxb]
        rfl
      · rw [he, he']
        exact (h.framed f w).like
      · rw [delivered_quiet hq, delivered_quiet hq']
  | data hp ht _ => exact rxStep_like hp ht hs h

/-! ## Runs -/

/-- In a session in which no block is skipped and no plaintext is empty, copies put in
    anywhere change nothing of what is delivered, and every further one does no harm. -/
theorem copies_harmless (hx : AeadLen x) (hpos : 0 < x.maxIter) (h0 : Opened x ctx0) {is js : List Input} {tr : List Ev}
    (h : Machine.Run (rxStep x) (Sound x) ctx0 is ctx tr) (hc : Copied is js) :
    ∃ ctx' tr', Machine.Run (rxStep x) (Sound x) ctx0 js ctx' tr' ∧ delivered tr' = delivered tr ∧ Like ctx ctx' ∧
      ∀ i, Copy js i → ∃ ctx'' e, rxStep x ctx' i = .ok (ctx'', e) ∧ Harmless ctx' ctx'' e := by
  obtain ⟨ctx', tr', hrun, hlike, hdel⟩ := hc.run delivered_append (Like.refl ctx0)
    (fun js s t tr i s' e hr hR hg hst => by
      obtain ⟨t', e', hst', hR', hd⟩ := hR.step hg.1.1 hst
      exact ⟨t', e', hR.sound hg, hst', hR', hd⟩)
    (fun js s t tr i hr hR hE => by
      obtain ⟨hg, hharm⟩ := (Sound.seen h0 hr).copy hE
      obtain ⟨t', e', hst⟩ := Sound.handled hx hpos h0 hr hg
      exact ⟨t', e', hg, hst, hR.trans (hharm _ _ hst).like, (hharm _ _ hst).delivered⟩)
    h
  refine ⟨ctx', tr', hrun, hdel, hlike, fun i hi => ?_⟩
  obtain ⟨hg, hharm⟩ := (Sound.seen h0 hrun).copy hi
  obtain ⟨ctx'', e, hst⟩ := Sound.handled hx hpos h0 hrun hg
  exact ⟨ctx'', e, hst, hharm _ _ hst⟩

/-- A sender's DATA frame, handed in again. -/
theorem Sender.copy {S : Sender} {js : List Input} {b f : Nat} (hb : b < 2 ^ 56) (hf : f < 256)
    (hl : wfbDataBlockHdrlen + (S.plain someKey b f).length + 16 ≤ maxDataPacketSize) (h : S.input b f ∈ js) :
    Copy js (S.input b f) := by
  obtain ⟨w, hp, ht, -⟩ := @dataFrame_parse b f (S.plain someKey b f) (-50) hb hf hl
  have hs : Signal (-50) := .inl (by decide)
  exact .mk h rfl rfl hp ht hs

theorem copied_again {is : List Input} {i : Input} (h : Copy is i) : Copied is (is ++ [i]) := by
  have hself : ∀ l : List Input, Copied l l := fun l => by
    induction l using List.reverseRecOn with
    | nil => exact .nil
    | append_singleton l i ih => exact .keep ih
  exact .extra (hself is) h

theorem copies_harmless_run : ∃ ctx0 ctx tr, Opened (numbered 2 2).externals ctx0 ∧
    Machine.Run (rxStep (numbered 2 2).externals) (Sound (numbered 2 2).externals) ctx0 [(numbered 2 2).input 7 1] ctx tr ∧
    Copied [(numbered 2 2).input 7 1] [(numbered 2 2).input 7 1, (numbered 2 2).input 7 1] ∧
    ∃ ctx' tr', Machine.Run (rxStep (numbered 2 2).externals) (Sound (numbered 2 2).externals) ctx0
        [(numbered 2 2).input 7 1, (numbered 2 2).input 7 1] ctx' tr' ∧ delivered tr' = delivered tr ∧ Like ctx ctx' ∧
      ∀ i, Copy [(numbered 2 2).input 7 1, (numbered 2 2).input 7 1] i →
        ∃ ctx'' e, rxStep (numbered 2 2).externals ctx' i = .ok (ctx'', e) ∧ Harmless ctx' ctx'' e := by
  obtain ⟨ctx0, ctx, tr, h0, hrun, -⟩ := (numbered 2 2).exists_session (Sound (numbered 2 2).externals)
    [(numbered 2 2).input 7 1] (fun _ _ => true) (by decide +kernel)
  have hc := copied_again (Sender.copy (S := numbered 2 2) (b := 7) (f := 1) (by decide) (by decide) (by decide)
    (List.mem_singleton_self _))
  exact ⟨ctx0, ctx, tr, h0, hrun, hc, copies_harmless (externals_aeadLen _) (by decide) h0 hrun hc⟩

/-- A copy of a fragment delivered before is not delivered again. -/
example : (delivered ((numbered 2 2).report [(numbered 2 2).input 7 0, (numbered 2 2).input 7 0])).length = 1 := by
  decide +kernel

/-- Block 83, discarded as old after block 100, is live once block 102 is there, and its
    copy is delivered. -/
theorem gap_breaks_copies : ¬ ∀ (x : Externals) (ctx0 ctx : RxContext) (is js : List Input) (tr : List Ev), AeadLen x →
    0 < x.maxIter → Opened x ctx0 → Machine.Run (rxStep x) (Authentic x) ctx0 is ctx tr → Copied is js →
      ∃ ctx' tr', Machine.Run (rxStep x) (Authentic x) ctx0 js ctx' tr' ∧ delivered tr' = delivered tr ∧ Like ctx ctx' ∧
        ∀ i, Copy js i → ∃ ctx'' e, rxStep x ctx' i = .ok (ctx'', e) ∧ Harmless ctx' ctx'' e := by
  intro hclaim
  obtain ⟨ctx0, ctx, tr, h0, hrun, hq⟩ := (numbered 1 1).exists_session (Authentic (numbered 1 1).externals)
    [(numbered 1 1).input 0 0, (numbered 1 1).input 100 0, (numbered 1 1).input 83 0, (numbered 1 1).input 102 0]
    (fun _ p => Machine.returns (rxStep (numbered 1 1).externals p.1 ((numbered 1 1).input 83 0)) fun q =>
      decide (delivered q.2 ≠ [])) (by decide +kernel)
  have hmem : (numbered 1 1).input 83 0 ∈ [(numbered 1 1).input 0 0, (numbered 1 1).input 100 0, (numbered 1 1).input 83 0,
      (numbered 1 1).input 102 0] := by simp
  have hcopy := Sender.copy (S := numbered 1 1) (b := 83) (f := 0) (by decide) (by decide) (by decide) hmem
  obtain ⟨ctx', tr', hrun', hdel, -, -⟩ := hclaim _ _ _ _ _ _ (externals_aeadLen _) (by decide) h0 hrun (copied_again hcopy)
  obtain ⟨u, tr1, e, hr1, -, hst, rfl⟩ := hrun'.snoc_inv
  obtain ⟨rfl, rfl⟩ := hr1.unique hrun
  obtain ⟨q, hst', hq⟩ := Machine.returns_iff.mp hq
  cases hst.symm.trans hst'
  rw [delivered_append, List.append_right_eq_self] at hdel
  exact of_decide_eq_true hq hdel

/-- The copy of a fragment that is stored with no bytes is stored again, and completes a
    block that holds nothing: recovery then looks for parities past the array. -/
theorem empty_breaks_copies : ∃ ctx0 ctx tr, Opened (empty 2 3).externals ctx0 ∧
    Machine.Run (rxStep (empty 2 3).externals) (Steady (empty 2 3).externals) ctx0 [(empty 2 3).input 0 0] ctx tr ∧
    Copy [(empty 2 3).input 0 0] ((empty 2 3).input 0 0) ∧
    rxStep (empty 2 3).externals ctx ((empty 2 3).input 0 0) = .error .outOfBounds := by
  obtain ⟨ctx0, ctx, tr, h0, hrun, hq⟩ := (empty 2 3).exists_session (Steady (empty 2 3).externals) [(empty 2 3).input 0 0]
    (fun _ p => Machine.fails (rxStep (empty 2 3).externals p.1 ((empty 2 3).input 0 0)) .outOfBounds) (by decide +kernel)
  have hcopy := Sender.copy (S := empty 2 3) (b := 0) (f := 0) (by decide) (by decide) (by decide) (List.mem_singleton_self _)
  exact ⟨ctx0, ctx, tr, h0, hrun, hcopy, Machine.fails_iff.mp hq⟩

end WfbYa.Rx
