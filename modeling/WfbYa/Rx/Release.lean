/-
  WfbYa.Rx.Release — the loops that release blocks are bounded.

  Neither `rbuf_free_block` nor `purge_stale` has a bound of its own: one stops when the
  front meets a live slot or `ring_alloc` reaches exactly 0, the other when the front
  reaches the block at hand. On the desk they release one block each.

  - `DeskStep.bounded`: no step frees more than `ring_alloc` slots.
  - `release_bounded`: in a session in which no block is skipped and no plaintext is empty
    every input is handled without a fault, within those bounds.
  - `gap_breaks_release`: a skipped block makes `rbuf_free_block` decrement `ring_alloc`
    at 0.
-/

import WfbYa.Rx.Accounting
import WfbYa.Rx.DeskRun

namespace WfbYa.Rx

open WfbYa.Frame WfbYa.Ring WfbYa.Lib

/-- `rbuf_free_block` decrements `ring_alloc` no further than to 0, and `purge_stale`
    frees live blocks, no more than `ring_alloc`. -/
def Bounded : Ev → Prop
  | .ring (.free _ _ alloc iters) => 0 < alloc ∧ iters ≤ alloc ∧ alloc ≤ rxRingSize
  | .purged _ alloc freed => alloc ≤ rxRingSize ∧ freed.length ≤ alloc ∧ ∀ b ∈ freed, b ≠ blockInval
  | _ => True

instance : DecidablePred Bounded := fun e => by unfold Bounded; split <;> infer_instance

variable {x : Externals} {ctx : RxContext}

theorem bounded_flatMap {blk : RbufBlock} {is : List Nat} : ∀ e ∈ is.flatMap (handOver ctx blk), Bounded e := by
  intro e he
  obtain ⟨i, -, hm⟩ := List.mem_flatMap.mp he
  have hf := handOver_fragment hm
  cases e with
  | ring a => cases hf
  | purged s a l => cases hf
  | _ => trivial

theorem bounded_one (s b : Nat) : Bounded (.ring (.free s b 1 1)) := ⟨by decide, by decide, by decide⟩

theorem FecBlock.bounded {s : Nat} {blk : RbufBlock} {o : Option RbufBlock} {e : List Ev} (h : FecBlock x ctx s blk o e) :
    ∀ a ∈ e, Bounded a := by
  cases h with
  | waits _ => exact fun a ha => (nomatch ha)
  | done _ hrec =>
    simp only [List.mem_append, List.mem_singleton]
    rintro a ((ha | ha) | rfl)
    · cases hrec with
      | complete _ => cases ha
      | decoded _ _ _ =>
        rw [effects_msg, effects_cons rfl, effects_nil, List.mem_singleton] at ha
        subst ha
        trivial
    · exact bounded_flatMap a ha
    · exact bounded_one _ _

theorem AddBlock.bounded {s : Nat} {blk : RbufBlock} {o : Option RbufBlock} {e : List Ev} (h : AddBlock x ctx s blk o e) :
    ∀ a ∈ e, Bounded a := by
  cases h with
  | complete _ =>
    simp only [List.mem_append, List.mem_singleton]
    rintro a (ha | rfl)
    · exact bounded_flatMap a ha
    · exact bounded_one _ _
  | partly _ hfec =>
    simp only [List.mem_append]
    rintro a (ha | ha)
    · exact bounded_flatMap a ha
    · exact hfec.bounded a ha

theorem DeskStep.bounded {d d' : Desk} {e : List Ev} (h : DeskStep x ctx d d' e)
    (hcur : ∀ blk, d.cur = some blk → blk.index = d.last ∧ d.last ≠ blockInval) : ∀ a ∈ e, Bounded a := by
  cases h with
  | old _ _ _ =>
    rw [List.forall_mem_singleton]
    trivial
  | duplicate _ _ _ =>
    rw [List.forall_mem_singleton]
    trivial
  | again _ _ _ _ _ hadd =>
    simp only [List.forall_mem_cons]
    exact ⟨trivial, trivial, hadd.bounded⟩
  | first _ _ _ _ hadd =>
    simp only [List.forall_mem_cons]
    exact ⟨trivial, trivial, trivial, hadd.bounded⟩
  | @next blk old plain o e hc _ _ _ hfec =>
    obtain ⟨hi, hl⟩ := hcur blk hc
    simp only [List.cons_append, List.forall_mem_cons, List.forall_mem_append]
    refine ⟨trivial, trivial, trivial, bounded_flatMap, ⟨by decide, by decide, by decide⟩,
      ⟨by decide, Nat.le_succ 1, ?_⟩, hfec.bounded⟩
    rw [List.forall_mem_singleton, hi]
    exact hl

theorem DeskLost.bounded {d : Desk} {e : List Ev} (h : DeskLost x ctx d e) : ∀ a ∈ e, Bounded a := by
  cases h with
  | again _ _ _ _ =>
    simp only [List.forall_mem_cons]
    exact ⟨trivial, trivial, fun _ h => (nomatch h)⟩
  | opened _ _ =>
    simp only [List.forall_mem_cons]
    exact ⟨trivial, trivial, trivial, fun _ h => (nomatch h)⟩

/-! ## Nothing fails -/

theorem purgeLoop_here {r : Rbuf} {slot n : Nat} (h : r.ringFront = slot) : purgeLoop ctx slot n r = .ok (r, []) := by
  cases n <;> · unfold purgeLoop; rw [if_pos h]

/-- A ring that shows a desk is searched, and purged, without a fault. -/
theorem Desked.no_fault {r : Rbuf} {d : Desk} (h : Desked r d) (ha : Admitted ctx r) (hn : Next r ctx.wfb.blockIdx)
    (hpos : 0 < x.maxIter) {φ : Fault} : ¬ DataFault x ctx r φ := by
  intro hf
  rcases getBlock_desk h ha.blockIdx hn with ⟨-, -, he⟩ | ⟨-, -, -, he⟩ | ⟨hnew, he⟩
  · cases hf with
    | search hg => rw [he] at hg; cases hg
    | purge hg _ hp =>
      rw [he] at hg
      cases hg
      rw [purgeLoop_here (by exact h.front)] at hp
      cases hp
  · cases hf with
    | search hg => rw [he] at hg; cases hg
    | purge hg _ _ => rw [he] at hg; cases hg
  · cases hf with
    | search hg => rw [he] at hg; cases hg
    | @purge _ _ _ blk hg hi hp =>
      rw [he] at hg
      cases hg
      obtain ⟨f, l, cur⟩ := d
      cases cur with
      | none =>
        rw [purgeLoop_here (by exact h.front)] at hp
        cases hp
      | some old =>
        have hpair := (h.begun_next hnew.1).setBlock
          (show blk.index = _ by rw [hi]; exact congrArg RbufBlock.index (setBlock_same ..))
        obtain ⟨n, hm⟩ := Nat.exists_eq_add_one.mpr hpos
        obtain ⟨r', evs, hps, -⟩ := @purge_desk _ x ctx _ _ _ _ _ hpair hm
        unfold purgeStale at hps
        change purgeLoop ctx (beyond f) x.maxIter ((begun r (beyond f) ctx.wfb.blockIdx).setBlock (beyond f) blk) = _ at hp
        rw [hp] at hps
        cases hps

/-! ## Runs -/

/-- No block is skipped, and no authenticated plaintext is empty. -/
def Sound (x : Externals) (ctx : RxContext) (i : Input) : Prop := Steady x ctx i ∧ Filled x ctx i

instance (x : Externals) (ctx : RxContext) (i : Input) : Decidable (Sound x ctx i) := by unfold Sound; infer_instance

theorem Opened.account {ctx : RxContext} (h : Opened x ctx) : AccountInv ctx := by
  obtain ⟨ctx0, plain, r, -, hc, hst⟩ := h
  exact hst.account hc

/-- A session of sound inputs has a desk and keeps account. -/
theorem Sound.inv {ctx0 ctx : RxContext} (h0 : Opened x ctx0) {is : List Input} {tr : List Ev}
    (h : Machine.Run (rxStep x) (Sound x) ctx0 is ctx tr) (hk : ctx.hasSessionKey = true) :
    (∃ d, DeskInv ctx0 ctx d) ∧ AccountInv ctx := by
  have hrules : DeskRules x (Sound x) ctx0 (fun _ _ => True) (fun _ => True) :=
    ⟨fun _ _ h => h.1, trivial, fun _ _ _ _ _ _ _ _ _ _ _ _ _ => trivial, fun _ _ _ _ _ _ _ _ _ => trivial, fun _ _ _ => trivial⟩
  refine ⟨?_, (accountSessionRules x).run_from (fun _ => h0.account) (h.mono fun _ _ h => h.2) hk⟩
  rcases hrules.run h0 h with ⟨-, d, hd, -⟩ | ⟨hk', -⟩
  · exact ⟨d, hd⟩
  · rw [hk] at hk'; cases hk'

/-- A sound input is handled without a fault. -/
theorem Sound.handled (hx : AeadLen x) (hpos : 0 < x.maxIter) {ctx0 ctx : RxContext} (h0 : Opened x ctx0) {is : List Input}
    {tr : List Ev} (h : Machine.Run (rxStep x) (Sound x) ctx0 is ctx tr) {i : Input} (hg : Sound x ctx i) :
    ∃ ctx' evs, rxStep x ctx i = .ok (ctx', evs) := by
  have hinv := Sound.inv h0 h
  cases hs : rxStep x ctx i with
  | error φ =>
    obtain ⟨hk, f, w, r, rfl, hp, ht, ha, hf⟩ := account_error hx (fun hk => (hinv hk).2) hg.2 hs
    obtain ⟨d, hd⟩ := (hinv hk).1
    obtain ⟨r', hr', hdesk⟩ := hd.desk
    cases hr'.symm.trans ha.ring
    exact absurd hf (hdesk.no_fault ha (hg.1.2 (r, w.blockIdx) (asked?_data hp ht ha)) hpos)
  | ok p => exact ⟨p.1, p.2, rfl⟩

/-- In a session in which no block is skipped and no plaintext is empty, every input is
    handled without a fault, and its release loops are bounded. -/
theorem release_bounded (hx : AeadLen x) (hpos : 0 < x.maxIter) {ctx0 ctx : RxContext} (h0 : Opened x ctx0) {is : List Input}
    {tr : List Ev} (h : Machine.Run (rxStep x) (Sound x) ctx0 is ctx tr) {i : Input} (hg : Sound x ctx i) :
    ∃ ctx' evs, rxStep x ctx i = .ok (ctx', evs) ∧ ∀ e ∈ evs, Bounded e := by
  have hinv := Sound.inv h0 h
  cases hs : rxStep x ctx i with
  | error φ =>
    obtain ⟨ctx', evs, hok⟩ := Sound.handled hx hpos h0 h hg
    rw [hs] at hok
    cases hok
  | ok p =>
    refine ⟨p.1, p.2, rfl, fun e he => ?_⟩
    -- texts are not effects, and bounded
    by_cases hm : e.isMsg = true
    · cases e with
      | msg t fmt => trivial
      | _ => cases hm
    · have he' : e ∈ effects p.2 := mem_effects.mpr ⟨he, by simpa using hm⟩
      by_cases hk : ctx.hasSessionKey = true
      · obtain ⟨d, hd⟩ := (hinv hk).1
        have hin := desk_step hd hk hg.1 hs
        generalize effects p.2 = evs at hin he'
        cases hin with
        | idle _ _ => cases he'
        | lost _ _ _ hl => exact hl.bounded e he'
        | step _ _ _ _ hst => exact hst.bounded hd.index e he'
      · rw [(closed_step (Bool.eq_false_iff.mpr hk) hg.1.1 hs).2] at he'
        cases he'

theorem release_bounded_run : ∃ ctx0 ctx tr, Opened (numbered 2 2).externals ctx0 ∧ Machine.Run (rxStep (numbered 2 2).externals)
    (Sound (numbered 2 2).externals) ctx0 [(numbered 2 2).input 7 1] ctx tr ∧
      ∃ ctx' evs, rxStep (numbered 2 2).externals ctx ((numbered 2 2).input 8 0) = .ok (ctx', evs) ∧ ∀ e ∈ evs, Bounded e := by
  obtain ⟨ctx0, ctx, tr, h0, hrun, hg⟩ := (numbered 2 2).exists_session (Sound (numbered 2 2).externals)
    [(numbered 2 2).input 7 1] (fun _ p => decide (Sound (numbered 2 2).externals p.1 ((numbered 2 2).input 8 0)))
    (by decide +kernel)
  exact ⟨ctx0, ctx, tr, h0, hrun, release_bounded (externals_aeadLen _) (by decide) h0 hrun (of_decide_eq_true hg)⟩

/-- Block 8 purges block 7, and that alone. -/
example : Ev.purged 1 2 [7] ∈ (numbered 2 2).report [(numbered 2 2).input 7 0, (numbered 2 2).input 8 0] := by decide +kernel

/-- Block 2 right after block 0: purging reaches `ring_alloc = 0` and decrements it. -/
theorem gap_breaks_release : ¬ ∀ (x : Externals) (ctx0 ctx : RxContext) (is : List Input) (tr : List Ev), AeadLen x →
    0 < x.maxIter → Opened x ctx0 → Machine.Run (rxStep x) (Authentic x) ctx0 is ctx tr → ∀ e ∈ tr, Bounded e := by
  intro hclaim
  obtain ⟨ctx0, ctx, tr, h0, hrun, hq⟩ := (numbered 2 2).exists_session (Authentic (numbered 2 2).externals)
    [(numbered 2 2).input 0 0, (numbered 2 2).input 2 0]
    (fun _ p => decide ¬ ∀ e ∈ p.2, Bounded e) (by decide +kernel)
  exact of_decide_eq_true hq (hclaim _ _ _ _ _ (externals_aeadLen _) (by decide) h0 hrun)

end WfbYa.Rx
