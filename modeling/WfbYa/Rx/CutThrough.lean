/-
  WfbYa.Rx.CutThrough — fragments that can be handed over are not held back.

  `data_add` cuts through when the block is at the front. When it first has to purge older
  blocks it only puts the block there, and the fragment just stored waits for the next one.

  - `cut_through_iff`: after a store the block that stays is drained, unless it had to be
    brought to the front with the fragment it waits for.
  - `purge_holds_back`: fragment 0 of a block right after an unfinished one.
-/

import WfbYa.Rx.Rejection
import WfbYa.Rx.Storing

namespace WfbYa.Rx

open WfbYa.Frame WfbYa.Ring WfbYa.Lib

variable {x : Externals} {ctx : RxContext}

/-- The block of slot `s`, if it stays live, is at the front and waits for a fragment it
    does not hold, if for any. -/
def Drained (ctx : RxContext) (s : Nat) : Prop :=
  ∀ r ∈ ctx.rxRing, r.live s → r.ringFront = s ∧
    ((r.blocks s).fragmentToSend = ctx.fecK ∨ (r.blocks s).fragmentLen (r.blocks s).fragmentToSend = 0)

instance (ctx : RxContext) (s : Nat) : Decidable (Drained ctx s) := by unfold Drained; infer_instance

/-- The fragment goes to a block behind older ones, which then holds the fragment it waits
    for and cannot be recovered yet. -/
def HoldsBack (x : Externals) (ctx : RxContext) (i : Input) : Prop :=
  ∃ f w r r1 s evs plain, i = .frame f ∧ wfbFrameParse f.data f.size = .ok w ∧ ctx.rxRing = some r ∧
    rbufGetBlock r w.blockIdx = .ok (r1, some s, evs) ∧ decrypted x ctx.crypto w = .ok (.ok plain) ∧
      r1.live s ∧ r1.ringFront ≠ s ∧ (r1.blocks s).fragmentToSend < ctx.fecK ∧
        (filedBlock (withFrame ctx f w) r1 s plain).fragmentLen (r1.blocks s).fragmentToSend ≠ 0 ∧
          ¬ Ready ctx (filedBlock (withFrame ctx f w) r1 s plain)

/-- Cutting through stops at a fragment that is missing. -/
theorem cutTo_stop {r : Rbuf} {s : Nat} (hf : r.ringFront = s) (hto : (r.blocks s).fragmentToSend ≤ ctx.fecK) :
    cutTo ctx r s = ctx.fecK ∨ (r.blocks s).fragmentLen (cutTo ctx r s) = 0 := by
  have hs := sendPlan_spec (r.blocks s).fragmentLen false false (ctx.fecK - (r.blocks s).fragmentToSend)
    (r.blocks s).fragmentToSend
  have hb := hs.bounds
  rw [cutTo, if_pos hf]
  by_cases hlt : (sendRun ctx (r.blocks s) false false).2 < ctx.fecK
  · right
    apply (hs.stop _).1
    rw [Nat.add_sub_cancel' hto]
    exact hlt
  · left
    change ¬ (sendPlan _ _ _ _ _).2 < _ at hlt
    show (sendPlan _ _ _ _ _).2 = _
    omega

/-- A filing that does not bring a block to the front with the fragment it waits for. -/
theorem Filing.drained {r r1 r' : Rbuf} {s : Nat} {plain : Bytes} {e : List Ev} (h : Filing x ctx r r1 s plain r' e)
    (hi : SessionInv ctx) (hn : r1.live s → r1.ringFront ≠ s → (r1.blocks s).fragmentToSend < ctx.fecK →
      (filedBlock ctx r1 s plain).fragmentLen (r1.blocks s).fragmentToSend ≠ 0 → Ready ctx (filedBlock ctx r1 s plain))
    (hlive : r'.live s) : r'.ringFront = s ∧
      ((r'.blocks s).fragmentToSend = ctx.fecK ∨ (r'.blocks s).fragmentLen (r'.blocks s).fragmentToSend = 0) := by
  obtain ⟨hadd, hfront⟩ := h.slot
  refine ⟨hfront hlive, ?_⟩
  have hto := h.toSend_le hi
  cases hadd with
  | done _ hd _ => exact absurd hd hlive
  | waits _ hnr hb _ =>
    rw [hb]
    by_cases hf : r1.ringFront = s
    · have hstop := @cutTo_stop ctx (r1.setBlock s (filedBlock ctx r1 s plain)) s hf (by
        rw [setBlock_same, filedBlock_toSend]
        exact hto)
      rw [setBlock_same] at hstop
      exact hstop
    · have hcut : cutTo ctx (r1.setBlock s (filedBlock ctx r1 s plain)) s = (r1.blocks s).fragmentToSend := by
        rw [cutTo, if_neg (show ¬ (r1.setBlock s (filedBlock ctx r1 s plain)).ringFront = s from hf), setBlock_same,
          filedBlock_toSend]
      rw [hcut] at hnr ⊢
      by_contra hne
      push Not at hne
      obtain ⟨hk, hheld⟩ := hne
      apply hnr
      have hlive1 : r1.live s := by
        intro h0
        apply hlive
        rw [hb]
        exact (filedBlock_index ctx r1 s plain).trans h0
      have hready := hn hlive1 hf (lt_of_le_of_ne hto hk) hheld
      rwa [← filedBlock_toSend ctx r1 s plain]

/-- In every state reached, with FEC on or off: after a store the block that stays live is
    drained, except when the fragment went to a block behind older ones that was waiting for
    just that fragment. -/
theorem cut_through_iff {chan : Nat} {crypto : CryptoWfbContext} {noFec : Bool} {handlers : List Nat} {is : List Input}
    {ctx ctx' : RxContext} {tr evs : List Ev} (h : Machine.Run (rxStep x) Free (rxSetup chan crypto noFec handlers) is ctx tr)
    {i : Input} (hs : rxStep x ctx i = .ok (ctx', evs)) {s b f len : Nat} (hm : .store s b f len ∈ evs) :
    Drained ctx' s ↔ ¬ HoldsBack x ctx i := by
  obtain ⟨fr, w, r, r1, plain, r', e, rfl, hp, ht, hfil, -, -, -, rfl, -⟩ := store_cases hs hm
  have hinv : SessionInv (withFrame ctx fr w) := ((sessionRules x).run h hfil.admitted.session).idle w fr.freq fr.dbm ctx.noFec
  constructor
  · rintro hdr ⟨fr', w', rr, r1', s', evs', plain', hi, hp', hr, hg, hd, hlive, hf, hlt, hheld, hnr⟩
    cases hi
    cases hp.symm.trans hp'
    cases hr.symm.trans hfil.admitted.ring
    obtain ⟨evs1, hg1⟩ := hfil.found
    cases hg.symm.trans hg1
    cases hd.symm.trans hfil.authentic
    obtain ⟨hadd, -⟩ := hfil.slot
    have hcut : cutTo (withFrame ctx fr w) (r1.setBlock s (filedBlock (withFrame ctx fr w) r1 s plain)) s =
        (r1.blocks s).fragmentToSend := by
      rw [cutTo, if_neg (show ¬ (r1.setBlock s (filedBlock (withFrame ctx fr w) r1 s plain)).ringFront = s from hf),
        setBlock_same,
        filedBlock_toSend]
    rw [hcut] at hadd
    cases hadd with
    | waits _ _ hb _ =>
      have hdrained := hdr r' rfl (by
        show (r'.blocks s).index ≠ blockInval
        rw [hb]
        exact fun h0 => hlive ((filedBlock_index (withFrame ctx fr w) r1 s plain).symm.trans h0))
      rw [hb] at hdrained
      rcases hdrained.2 with hk | h0
      · exact absurd hk (ne_of_lt hlt)
      · exact hheld h0
    | done hr _ _ =>
      rcases hr with ⟨hfront, -⟩ | hready
      · exact hf hfront
      · apply hnr
        rwa [← filedBlock_toSend (withFrame ctx fr w) r1 s plain] at hready
  · intro hn r2 hr2 hlive
    cases hr2
    refine hfil.drained hinv (fun h1 h2 h3 h4 => ?_) hlive
    obtain ⟨evs1, hg1⟩ := hfil.found
    by_contra hnr
    exact hn ⟨fr, w, r, r1, s, evs1, plain, rfl, hp, hfil.admitted.ring, hg1, hfil.authentic, h1, h2, h3, h4, hnr⟩

theorem cut_through_run : ∃ ctx tr ctx' evs, Machine.Run (rxStep (numbered 2 2).externals) Free (rxSetup 0 loaded false [0])
    [(numbered 2 2).opening, (numbered 2 2).input 7 0] ctx tr ∧
      rxStep (numbered 2 2).externals ctx ((numbered 2 2).input 8 1) = .ok (ctx', evs) ∧
        (Drained ctx' 1 ↔ ¬ HoldsBack (numbered 2 2).externals ctx ((numbered 2 2).input 8 1)) := by
  obtain ⟨ctx, tr, hrun, hq⟩ := Machine.exists_run (rxStep (numbered 2 2).externals) (fun _ _ => True)
    (rxSetup 0 loaded false [0]) [(numbered 2 2).opening, (numbered 2 2).input 7 0]
    (fun p => Machine.returns (rxStep (numbered 2 2).externals p.1 ((numbered 2 2).input 8 1)) fun q =>
      decide (Ev.store 1 8 1 12 ∈ q.2)) (by decide +kernel)
  obtain ⟨q, hs, hm⟩ := Machine.returns_iff.mp hq
  exact ⟨ctx, tr, q.1, q.2, hrun, hs, cut_through_iff hrun hs (of_decide_eq_true hm)⟩

example : sent ((numbered 2 2).report [(numbered 2 2).input 7 0, (numbered 2 2).input 8 0]) = [frag 7 0] := by decide +kernel

/-- Fragment 0 of block 8 right after fragment 0 of block 7: it is stored, at the front, and
    not handed over. -/
theorem purge_holds_back : ¬ ∀ (x : Externals) (chan : Nat) (crypto : CryptoWfbContext) (noFec : Bool) (handlers : List Nat)
    (is : List Input) (ctx ctx' : RxContext) (tr evs : List Ev) (i : Input) (s b f len : Nat),
      Machine.Run (rxStep x) Free (rxSetup chan crypto noFec handlers) is ctx tr → rxStep x ctx i = .ok (ctx', evs) →
        .store s b f len ∈ evs → Drained ctx' s := by
  intro hclaim
  obtain ⟨ctx, tr, hrun, hq⟩ := Machine.exists_run (rxStep (numbered 2 2).externals) (fun _ _ => True)
    (rxSetup 0 loaded false [0]) [(numbered 2 2).opening, (numbered 2 2).input 7 0]
    (fun p => Machine.returns (rxStep (numbered 2 2).externals p.1 ((numbered 2 2).input 8 0)) fun q =>
      decide (Ev.store 1 8 0 12 ∈ q.2) && decide (¬ Drained q.1 1)) (by decide +kernel)
  obtain ⟨q, hs, hm⟩ := Machine.returns_iff.mp hq
  rw [Bool.and_eq_true, decide_eq_true_eq, decide_eq_true_eq] at hm
  exact hm.2 (hclaim _ _ _ _ _ _ ctx q.1 tr q.2 _ 1 8 0 12 hrun hs hm.1)

end WfbYa.Rx
