/-
  WfbYa.Rx.Toggling — recovery when FEC is switched on again.

  Recovery starts when `fragment_used` is equal to `fec_k`. A block that collected as many
  fragments while FEC was off is past that when FEC comes back.

  - `RingWatched`: what is so of live blocks over any interleaving of frames and toggles.
  - `toggling_iff`: after a store with FEC on no block is left live with `fec_k` fragments,
    unless that block had `fec_k` before and cutting through does not finish it.
  - `toggle_breaks_recovery`: two parities with FEC off, then a primary with FEC on.
-/

import WfbYa.Rx.Accounting
import WfbYa.Rx.CutThrough

namespace WfbYa.Rx

open WfbYa.Frame WfbYa.Ring WfbYa.Lib

variable {x : Externals} {ctx : RxContext} {k n : Nat} {L : List Frag} {blk : RbufBlock}

/-! ## Live blocks -/

/-- A live block has a primary left to hand over, counts what it holds, and handed over what
    its cursor is past. -/
structure Watched (k n : Nat) (L : List Frag) (blk : RbufBlock) : Prop where
  toSend : blk.fragmentToSend < k
  held : held blk 0 n ≤ blk.fragmentUsed
  passed : ∀ i < blk.fragmentToSend, frag blk.index i ∈ L

def RingWatched (k n : Nat) (L : List Frag) (r : Rbuf) : Prop := ∀ s, r.live s → Watched k n L (r.blocks s)

theorem Watched.mono {L' : List Frag} (h : Watched k n L blk) (hL : ∀ g ∈ L, g ∈ L') : Watched k n L' blk :=
  ⟨h.toSend, h.held, fun i hi => hL _ (h.passed i hi)⟩

theorem RingWatched.mono {L' : List Frag} {r : Rbuf} (h : RingWatched k n L r) (hL : ∀ g ∈ L, g ∈ L') : RingWatched k n L' r :=
  fun s hl => (h s hl).mono hL

theorem watched_renew (hk : 0 < k) (blk : RbufBlock) (c : Nat) : Watched k n L (blk.renew c) := by
  refine ⟨hk, ?_, fun i hi => absurd hi (Nat.not_lt_zero i)⟩
  rw [held_zero (fun _ => rfl)]
  exact Nat.zero_le _

/-- A block that differs in fragment buffers and signal strengths alone. -/
theorem Watched.congr {blk' : RbufBlock} (h : Watched k n L blk) (hi : blk'.index = blk.index)
    (hu : blk'.fragmentUsed = blk.fragmentUsed) (ht : blk'.fragmentToSend = blk.fragmentToSend)
    (hl : blk'.fragmentLen = blk.fragmentLen) : Watched k n L blk' := by
  refine ⟨ht ▸ h.toSend, ?_, fun i hi' => ?_⟩
  · have hsame : Rx.held blk' 0 n = Rx.held blk 0 n := held_congr fun m _ _ => by rw [hl]
    rw [hu, hsame]
    exact h.held
  · rw [hi]
    exact h.passed i (ht ▸ hi')

theorem RingWatched.getBlock {r r1 : Rbuf} {b : Nat} {o : Option Nat} {evs : List RingEv} (h : RingWatched k n L r) (hk : 0 < k)
    (hg : rbufGetBlock r b = .ok (r1, o, evs)) : RingWatched k n L r1 := by
  intro s hl
  rcases getBlock_slots hg s with he | ⟨c, he⟩
  · rw [he]
    apply h s
    show (r.blocks s).index ≠ blockInval
    rw [← he]
    exact hl
  · rw [he]
    exact watched_renew hk _ c

theorem RingWatched.setBlock {r : Rbuf} {s : Nat} (h : RingWatched k n L r)
    (hb : r.live s → blk.index = (r.blocks s).index ∧ Watched k n L blk) (hd : ¬ r.live s → blk.index = blockInval) :
    RingWatched k n L (r.setBlock s blk) := by
  intro t hl
  by_cases e : t = s
  · subst e
    change ((r.setBlock t blk).blocks t).index ≠ blockInval at hl
    rw [setBlock_same] at hl ⊢
    by_cases hlive : r.live t
    · exact (hb hlive).2
    · exact absurd (hd hlive) hl
  · rw [setBlock_ne _ _ e]
    apply h t
    change ((r.setBlock s blk).blocks t).index ≠ blockInval at hl
    rwa [setBlock_ne _ _ e] at hl

/-- A change of buffers and signal strengths of a slot. -/
theorem RingWatched.rewrite {r : Rbuf} {s : Nat} (h : RingWatched k n L r) (hi : blk.index = (r.blocks s).index)
    (hu : blk.fragmentUsed = (r.blocks s).fragmentUsed) (ht : blk.fragmentToSend = (r.blocks s).fragmentToSend)
    (hl : blk.fragmentLen = (r.blocks s).fragmentLen) : RingWatched k n L (r.setBlock s blk) := by
  apply h.setBlock
  · intro hlive
    exact ⟨hi, (h s hlive).congr hi hu ht hl⟩
  · intro hdead
    rw [hi]
    exact not_not.mp hdead

theorem filedBlock_used (ctx : RxContext) (r : Rbuf) (s : Nat) (plain : Bytes) :
    (filedBlock ctx r s plain).fragmentUsed = (r.blocks s).fragmentUsed + 1 := by
  show (raiseRssi _ _ _).fragmentUsed + 1 = _
  rw [raiseRssi_used]

/-- A fragment filed in a live block. -/
theorem Watched.filed {r : Rbuf} {s : Nat} {plain : Bytes} (h : Watched k n L (r.blocks s)) (hf : ctx.wfb.fragmentIdx < n)
    (h0 : (r.blocks s).fragmentLen ctx.wfb.fragmentIdx = 0) : Watched k n L (filedBlock ctx r s plain) := by
  have hr : Watched k n L (raiseRssi (r.blocks s) ctx.wfb.fragmentIdx ctx.dbm) :=
    h.congr (raiseRssi_index ..) (raiseRssi_used ..) (raiseRssi_toSend ..) (raiseRssi_len ..)
  refine ⟨hr.toSend, ?_, hr.passed⟩
  have hle := @held_store_le (raiseRssi (r.blocks s) ctx.wfb.fragmentIdx ctx.dbm) _ n r.fragmentSize plain hf
    (by rw [raiseRssi_len]; exact h0)
  have := hr.held
  rw [filedBlock_used, ← raiseRssi_used (r.blocks s) ctx.wfb.fragmentIdx ctx.dbm]
  unfold filedBlock
  omega

/-- Where cutting through leaves a live block's cursor, if the block waits. -/
theorem waits_lt {r1 : Rbuf} {s : Nat} {plain : Bytes} (hto : (r1.blocks s).fragmentToSend < ctx.fecK)
    (hne : r1.ringFront = s → cutTo ctx (r1.setBlock s (filedBlock ctx r1 s plain)) s ≠ ctx.fecK) :
    cutTo ctx (r1.setBlock s (filedBlock ctx r1 s plain)) s < ctx.fecK := by
  unfold cutTo at hne ⊢
  rw [setBlock_same, setBlock_ringFront, filedBlock_toSend] at hne ⊢
  split
  · rename_i hf
    rw [if_pos hf] at hne
    have hb := (sendPlan_spec (filedBlock ctx r1 s plain).fragmentLen false false
      (ctx.fecK - (filedBlock ctx r1 s plain).fragmentToSend) (filedBlock ctx r1 s plain).fragmentToSend).bounds
    rw [filedBlock_toSend] at hb
    have hle : (sendRun ctx (filedBlock ctx r1 s plain) false false).2 ≤ ctx.fecK := by
      unfold sendRun
      rw [filedBlock_toSend]
      omega
    exact lt_of_le_of_ne hle (hne hf)
  · exact hto

/-- Filing keeps watch. -/
theorem Filing.watched {r r1 r' : Rbuf} {s : Nat} {plain : Bytes} {e : List Ev} (h : Filing x ctx r r1 s plain r' e)
    (hw : RingWatched ctx.fecK ctx.fecN L r) (hk : 0 < ctx.fecK) : RingWatched ctx.fecK ctx.fecN (L ++ sent e) r' := by
  obtain ⟨evs, hg⟩ := h.found
  have hw1 := hw.getBlock hk hg
  obtain ⟨hadd, -⟩ := h.slot
  obtain ⟨-, ho, -⟩ := dataAdd_slot h.added
  intro t hl
  by_cases e : t = s
  · subst e
    cases hadd with
    | done _ hd _ => exact absurd hd hl
    | waits hne _ hb hs =>
      have hlive : r1.live t := by
        intro h0
        apply hl
        rw [hb]
        exact (filedBlock_index ctx r1 t plain).trans h0
      have hfw : Watched ctx.fecK ctx.fecN L (filedBlock ctx r1 t plain) := (hw1 t hlive).filed h.admitted.fragmentIdx h.empty
      rw [hb]
      refine ⟨waits_lt (hw1 t hlive).toSend hne, hfw.held, fun i hi => ?_⟩
      rw [List.mem_append]
      by_cases hlt : i < (filedBlock ctx r1 t plain).fragmentToSend
      · exact .inl (hfw.passed i hlt)
      · exact .inr (hs i (Nat.not_lt.mp hlt) hi)
  · rcases ho t e with he | he
    · rw [setBlock_ne _ _ e] at he
      rw [he]
      refine (hw1 t ?_).mono fun g hg => List.mem_append_left _ hg
      show (r1.blocks t).index ≠ blockInval
      rw [← he]
      exact hl
    · exact absurd he hl

/-! ## Runs -/

/-- The session's ring is watched. -/
def CtxWatched (ctx : RxContext) (tr : List Ev) : Prop := ∀ r ∈ ctx.rxRing, RingWatched ctx.fecK ctx.fecN (sent tr) r

theorem CtxWatched.mono {tr evs : List Ev} (h : CtxWatched ctx tr) : CtxWatched ctx (tr ++ evs) := by
  intro r hr
  rw [sent_append]
  exact (h r hr).mono fun g hg => List.mem_append_left _ hg

theorem DataCall.watched {tr : List Ev} {q : Ret} (hd : DataCall x ctx q) (h : CtxWatched ctx tr) (hk : 0 < ctx.fecK) :
    CtxWatched q.ctx (tr ++ q.evs) := by
  cases hd with
  | refused _ _ => exact h.mono
  | @outside r r1 evs ha hg =>
    intro r2 hr2
    cases hr2
    rw [sent_append]
    exact ((h r ha.ring).getBlock hk hg).mono fun g hg => List.mem_append_left _ hg
  | @filed r r1 s evs _ ha hg hf =>
    have hw1 := (h r ha.ring).getBlock hk hg
    cases hf with
    | duplicate _ =>
      intro r2 hr2
      cases hr2
      rw [sent_append]
      exact (hw1.rewrite (raiseRssi_index ..) (raiseRssi_used ..) (raiseRssi_toSend ..) (raiseRssi_len ..)).mono
        fun g hg => List.mem_append_left _ hg
    | @forged left fmt _ _ =>
      intro r2 hr2
      cases hr2
      rw [sent_append]
      have hput : RingWatched ctx.fecK ctx.fecN (sent tr)
          (r1.setBlock s (putFragment (raiseRssi (r1.blocks s) ctx.wfb.fragmentIdx ctx.dbm) ctx.wfb.fragmentIdx left)) :=
        hw1.rewrite (raiseRssi_index ..) (raiseRssi_used ..) (raiseRssi_toSend ..) (raiseRssi_len ..)
      exact hput.mono fun g hg => List.mem_append_left _ hg
    | @stored plain r' e h0 hdec hle hadd =>
      intro r2 hr2
      cases hr2
      have hfil : Filing x ctx r r1 s plain r' e := ⟨ha, ⟨_, hg⟩, h0, hdec, hle, hadd⟩
      rw [sent_append, sent_append]
      show RingWatched ctx.fecK ctx.fecN (sent tr ++ (sent (evs.map Ev.ring) ++ sent e)) r'
      rw [sent_ring, List.nil_append]
      exact hfil.watched (h r ha.ring) hk

/-- The run stays within the session. -/
def Within (x : Externals) (ctx : RxContext) (i : Input) : Prop := keepsSession x ctx i = true

instance (x : Externals) (ctx : RxContext) (i : Input) : Decidable (Within x ctx i) := by unfold Within; infer_instance

theorem CtxWatched.step {tr evs : List Ev} {ctx' : RxContext} {i : Input} (h : CtxWatched ctx tr)
    (hk : ctx.hasSessionKey = true → 0 < ctx.fecK) (hg : Within x ctx i) (hs : rxStep x ctx i = .ok (ctx', evs)) :
    CtxWatched ctx' (tr ++ evs) := by
  cases rxStep_cases hs with
  | toggle _ => exact (show CtxWatched { ctx with noFec := !ctx.noFec } tr from h).mono
  | @unparsed f _ _ _ _ => exact (show CtxWatched { ctx with freq := f.freq, dbm := f.dbm } tr from h).mono
  | @session f w _ hp ht hx =>
    obtain ⟨he, -⟩ := rxSession_keeps hp ht hg hx
    rw [he]
    exact (show CtxWatched (withFrame ctx f w) tr from h).mono
  | @data f w _ _ _ hd =>
    have hw : CtxWatched (withFrame ctx f w) tr := h
    by_cases hkey : ctx.hasSessionKey = true
    · exact hd.watched hw (hk hkey)
    · obtain ⟨he, -⟩ := hd.closed (Bool.eq_false_iff.mpr hkey)
      rw [he]
      exact hw.mono

theorem Opened.watched (h : Opened x ctx) : CtxWatched ctx [] := by
  obtain ⟨ctx0, plain, r, -, -, hst⟩ := h
  obtain ⟨rfl, heap, hpos, hint, rfl⟩ := hst
  intro r hr s hl
  cases hr
  exact absurd rfl hl

theorem session_fecK {ctx0 : RxContext} {G : RxContext → Input → Prop} (h0 : Opened x ctx0) {is : List Input} {tr : List Ev}
    (h : Machine.Run (rxStep x) G ctx0 is ctx tr) (hk : ctx.hasSessionKey = true) : 0 < ctx.fecK := by
  have hinv : SessionInv ctx := (sessionRules x).run_from (fun _ => h0.inv.2.session) (h.mono fun _ _ _ => trivial) hk
  exact hinv.ok.fecK.1

theorem watched_run {ctx0 : RxContext} (h0 : Opened x ctx0) {is : List Input} {tr : List Ev}
    (h : Machine.Run (rxStep x) (Within x) ctx0 is ctx tr) : CtxWatched ctx tr := by
  induction h with
  | nil => exact h0.watched
  | snoc hr hg hs ih => exact ih.step (session_fecK h0 hr) hg hs

/-! ## With FEC on -/

/-- If the slot holds `fec_k` fragments, its block `b` was handed over to its end and freed. -/
def Settled (ctx : RxContext) (s b : Nat) (tr : List Ev) : Prop :=
  ∀ r ∈ ctx.rxRing, ctx.fecK ≤ held (r.blocks s) 0 ctx.fecN →
    ¬ r.live s ∧ (b ≠ blockInval → ∀ i < ctx.fecK, frag b i ∈ sent tr)

/-- The fragment goes to a live block that has used `fec_k` fragments already, and that
    cutting through does not finish: older blocks are in front of it, or a primary still to
    be handed over is missing. -/
def Overfull (x : Externals) (ctx : RxContext) (i : Input) : Prop :=
  ∃ f w r r1 s evs plain, i = .frame f ∧ wfbFrameParse f.data f.size = .ok w ∧ ctx.rxRing = some r ∧
    rbufGetBlock r w.blockIdx = .ok (r1, some s, evs) ∧ decrypted x ctx.crypto w = .ok (.ok plain) ∧ r1.live s ∧
      ctx.fecK ≤ (r1.blocks s).fragmentUsed ∧ ctx.fecK ≤ held (filedBlock (withFrame ctx f w) r1 s plain) 0 ctx.fecN ∧
        ¬ (r1.ringFront = s ∧ ∀ i, (r1.blocks s).fragmentToSend ≤ i → i < ctx.fecK →
          (filedBlock (withFrame ctx f w) r1 s plain).fragmentLen i ≠ 0)

/-- Cutting through finishes a block if and only if no primary it has to hand over is missing. -/
theorem cutTo_fecK {r1 : Rbuf} {s : Nat} {plain : Bytes} (hf : r1.ringFront = s) (hto : (r1.blocks s).fragmentToSend ≤ ctx.fecK) :
    cutTo ctx (r1.setBlock s (filedBlock ctx r1 s plain)) s = ctx.fecK ↔
      ∀ i, (r1.blocks s).fragmentToSend ≤ i → i < ctx.fecK → (filedBlock ctx r1 s plain).fragmentLen i ≠ 0 := by
  have hs := sendPlan_spec (filedBlock ctx r1 s plain).fragmentLen false false
    (ctx.fecK - (filedBlock ctx r1 s plain).fragmentToSend) (filedBlock ctx r1 s plain).fragmentToSend
  have hcut : cutTo ctx (r1.setBlock s (filedBlock ctx r1 s plain)) s =
    (sendRun ctx (filedBlock ctx r1 s plain) false false).2 := by
    rw [cutTo, if_pos (show (r1.setBlock s (filedBlock ctx r1 s plain)).ringFront = s from hf), setBlock_same]
  rw [hcut]
  constructor
  · intro hk i h1 h2
    have := hs.dense rfl i (by rw [filedBlock_toSend]; exact h1) (by change i < (sendRun ctx _ false false).2; rw [hk]; exact h2)
    simp only [Bool.false_eq_true, or_false] at this
    exact Nat.pos_iff_ne_zero.mp this
  · intro hall
    rcases @cutTo_stop ctx (r1.setBlock s (filedBlock ctx r1 s plain)) s hf (by
      rw [setBlock_same, filedBlock_toSend]; exact hto) with hk | h0
    · rw [← hcut]
      exact hk
    · rw [hcut, setBlock_same] at h0
      by_contra hne
      obtain ⟨hb1, hb2⟩ := hs.bounds
      change (filedBlock ctx r1 s plain).fragmentToSend ≤ (sendRun ctx (filedBlock ctx r1 s plain) false false).2 at hb1
      change (sendRun ctx (filedBlock ctx r1 s plain) false false).2 ≤ _ at hb2
      rw [filedBlock_toSend] at hb1 hb2
      exact hall _ hb1 (by omega) h0

/-- What a filing with FEC on leaves of its block. -/
theorem Filing.settled_iff {f : RxFrame} {w : WfbContext} {r r1 r' : Rbuf} {s : Nat} {plain : Bytes} {e tr : List Ev}
    (h : Filing x (withFrame ctx f w) r r1 s plain r' e) (hp : wfbFrameParse f.data f.size = .ok w) (hoff : ctx.noFec = false)
    (hi : SessionInv (withFrame ctx f w)) (hw : CtxWatched ctx tr) (hk : 0 < ctx.fecK) :
    Settled { withFrame ctx f w with rxRing := some r' } s (r1.blocks s).index (tr ++ e) ↔ ¬ Overfull x ctx (.frame f) := by
  obtain ⟨evs, hg⟩ := h.found
  obtain ⟨hadd, -⟩ := h.slot
  have hto := h.toSend_le hi
  have hw1 : RingWatched ctx.fecK ctx.fecN (sent tr) r1 := (hw r h.admitted.ring).getBlock hk hg
  have hused : (filedBlock (withFrame ctx f w) r1 s plain).fragmentUsed = (r1.blocks s).fragmentUsed + 1 := filedBlock_used ..
  have hidx : (filedBlock (withFrame ctx f w) r1 s plain).index = (r1.blocks s).index := filedBlock_index ..
  constructor
  · -- a block that is past `fec_k` waits
    rintro hset ⟨f', w', rr, r1', s', evs', plain', hi', hp', hr, hg', hd, hlive, hfull, hheld, hopen⟩
    cases hi'
    cases hp.symm.trans hp'
    cases hr.symm.trans h.admitted.ring
    cases hg.symm.trans hg'
    cases hd.symm.trans h.authentic
    have hnr : ∀ t, ¬ Ready (withFrame ctx f w) { filedBlock (withFrame ctx f w) r1 s plain with fragmentToSend := t } := by
      rintro t ⟨-, hu, -⟩
      change (filedBlock (withFrame ctx f w) r1 s plain).fragmentUsed = ctx.fecK at hu
      omega
    cases hadd with
    | waits _ _ hb _ =>
      apply (hset r' rfl (by rw [hb]; exact hheld)).1
      show (r'.blocks s).index ≠ blockInval
      rw [hb]
      exact fun h0 => hlive (hidx.symm.trans h0)
    | done hr' _ _ =>
      rcases hr' with ⟨hf, hk'⟩ | hr'
      · exact hopen ⟨hf, (cutTo_fecK hf hto).mp hk'⟩
      · exact hnr _ hr'
  · -- otherwise it is finished
    intro hover r2 hr2 hheld
    cases hr2
    change ctx.fecK ≤ held (r'.blocks s) 0 ctx.fecN at hheld
    cases hadd with
    | waits hne hnr hb _ =>
      have hdead : ¬ r1.live s := by
        intro hlive
        apply hover
        rw [hb] at hheld
        have hfw : Watched ctx.fecK ctx.fecN (sent tr) (filedBlock (withFrame ctx f w) r1 s plain) :=
          (hw1 s hlive).filed h.admitted.fragmentIdx h.empty
        have hlt := @waits_lt (withFrame ctx f w) r1 s plain (hw1 s hlive).toSend hne
        have hhu : ctx.fecK ≤ (r1.blocks s).fragmentUsed + 1 := le_trans hheld (hused ▸ hfw.held)
        have hne' : (r1.blocks s).fragmentUsed + 1 ≠ ctx.fecK := fun he => hnr ⟨hlt, hused.trans he, hoff⟩
        refine ⟨f, w, r, r1, s, evs, plain, rfl, hp, h.admitted.ring, hg, h.authentic, hlive, by omega, hheld, ?_⟩
        rintro ⟨hf, hall⟩
        exact hne hf ((cutTo_fecK hf hto).mpr hall)
      have hinval : (r1.blocks s).index = blockInval := not_not.mp hdead
      refine ⟨?_, fun hb' => absurd hinval hb'⟩
      show ¬ (r'.blocks s).index ≠ blockInval
      rw [hb]
      exact not_not.mpr (hidx.trans hinval)
    | done _ hd hs =>
      refine ⟨not_not.mpr hd, fun hb' i hik => ?_⟩
      rw [sent_append, List.mem_append]
      by_cases hlt : i < (r1.blocks s).fragmentToSend
      · exact .inl ((hw1 s hb').passed i hlt)
      · right
        rw [← hidx]
        exact hs i (by rw [filedBlock_toSend]; exact Nat.not_lt.mp hlt) hik

/-- Over every interleaving of frames and toggles in a session: a fragment stored while FEC
    is on leaves no block live with `fec_k` fragments, if and only if it does not go to a
    block that was past `fec_k` before and cannot be finished by cutting through. -/
theorem toggling_iff {ctx0 ctx ctx' : RxContext} (h0 : Opened x ctx0) {is : List Input} {tr evs : List Ev}
    (h : Machine.Run (rxStep x) (Within x) ctx0 is ctx tr) {i : Input} (hs : rxStep x ctx i = .ok (ctx', evs))
    (hoff : ctx.noFec = false) {s b f len : Nat} (hm : .store s b f len ∈ evs) :
    Settled ctx' s b (tr ++ evs) ↔ ¬ Overfull x ctx i := by
  obtain ⟨fr, w, r, r1, plain, r', e, rfl, hp, ht, hfil, rfl, -, -, rfl, hsent⟩ := store_cases hs hm
  have hkey : ctx.hasSessionKey = true := hfil.admitted.session
  have hinv : SessionInv ctx := (sessionRules x).run_from (fun _ => h0.inv.2.session) (h.mono fun _ _ _ => trivial) hkey
  rw [← hfil.settled_iff hp hoff (hinv.idle w fr.freq fr.dbm ctx.noFec) (watched_run h0 h) (session_fecK h0 h hkey)]
  unfold Settled
  rw [sent_append, sent_append, hsent]

theorem toggling_run : ∃ ctx0 ctx tr ctx' evs, Opened (numbered 2 3).externals ctx0 ∧
    Machine.Run (rxStep (numbered 2 3).externals) (Within (numbered 2 3).externals) ctx0
      [.fecToggle, (numbered 2 3).input 7 1, .fecToggle] ctx tr ∧
    rxStep (numbered 2 3).externals ctx ((numbered 2 3).input 7 2) = .ok (ctx', evs) ∧
      (Settled ctx' 0 7 (tr ++ evs) ↔ ¬ Overfull (numbered 2 3).externals ctx ((numbered 2 3).input 7 2)) := by
  obtain ⟨ctx0, ctx, tr, h0, hrun, hq⟩ := (numbered 2 3).exists_session (Within (numbered 2 3).externals)
    [.fecToggle, (numbered 2 3).input 7 1, .fecToggle]
    (fun _ p => decide (p.1.noFec = false) &&
      Machine.returns (rxStep (numbered 2 3).externals p.1 ((numbered 2 3).input 7 2)) fun q =>
        decide (Ev.store 0 7 2 12 ∈ q.2)) (by decide +kernel)
  rw [Bool.and_eq_true, decide_eq_true_eq, Machine.returns_iff] at hq
  obtain ⟨hoff, q, hs, hm⟩ := hq
  exact ⟨ctx0, ctx, tr, q.1, q.2, h0, hrun, hs, toggling_iff h0 hrun hs hoff (of_decide_eq_true hm)⟩

example : sent ((numbered 2 3).report [.fecToggle, (numbered 2 3).input 7 1, .fecToggle, (numbered 2 3).input 7 2]) =
    [frag 7 0, frag 7 1] := by decide +kernel

/-- With FEC off block 7 collects two parities; with FEC on its fragment 1 is the third of
    two, and fragment 0 is never recovered. -/
theorem toggle_breaks_recovery : ¬ ∀ (x : Externals) (ctx0 ctx ctx' : RxContext) (is : List Input) (tr evs : List Ev)
    (i : Input) (s b f len : Nat), Opened x ctx0 → Machine.Run (rxStep x) (Within x) ctx0 is ctx tr →
      rxStep x ctx i = .ok (ctx', evs) → ctx.noFec = false → .store s b f len ∈ evs → Settled ctx' s b (tr ++ evs) := by
  intro hclaim
  obtain ⟨ctx0, ctx, tr, h0, hrun, hq⟩ := (numbered 2 4).exists_session (Within (numbered 2 4).externals)
    [.fecToggle, (numbered 2 4).input 7 2, (numbered 2 4).input 7 3, .fecToggle]
    (fun _ p => decide (p.1.noFec = false) &&
      Machine.returns (rxStep (numbered 2 4).externals p.1 ((numbered 2 4).input 7 1)) fun q =>
        decide (Ev.store 0 7 1 12 ∈ q.2) &&
          decide (∃ r ∈ q.1.rxRing, q.1.fecK ≤ held (r.blocks 0) 0 q.1.fecN ∧ r.live 0)) (by decide +kernel)
  simp only [Bool.and_eq_true, decide_eq_true_eq, Machine.returns_iff] at hq
  obtain ⟨hoff, q, hs, hm, r, hr, hheld, hlive⟩ := hq
  exact (hclaim _ _ _ q.1 _ _ q.2 _ _ _ _ _ h0 hrun hs hoff hm r hr hheld).1 hlive

end WfbYa.Rx
