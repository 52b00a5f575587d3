/-
  WfbYa.Rx.Sending — what the hand-over loop does (see `WfbYa.Rx.Data`).

  `sendPlan` is the loop over the lengths alone: the fragments it hands over, and the one
  it stops at. `effects` are the events that are not texts: the texts depend on
  `last_seq`, nothing else does.

  - `sendLoop_ring` / `sendLoop_effects`: the loop moves its slot's `fragment_to_send` to
    where the plan ends and hands over what the plan says.
  - `sendPlan_spec`: a plan is increasing, leaves nothing out that was received, and
    stops early only before a missing fragment.
-/

import WfbYa.Rx.Data
import WfbYa.Ring.RbufSpec

namespace WfbYa.Rx

open WfbYa.Frame WfbYa.Ring

/-! ## Effects -/

def Ev.isMsg : Ev → Bool
  | .msg _ _ => true
  | _ => false

def effects (evs : List Ev) : List Ev := evs.filter fun e => !e.isMsg

@[simp] theorem effects_nil : effects [] = [] := rfl

@[simp] theorem effects_append (a b : List Ev) : effects (a ++ b) = effects a ++ effects b := List.filter_append ..

@[simp] theorem effects_msg (t : MsgType) (fmt : String) (evs : List Ev) : effects (.msg t fmt :: evs) = effects evs := rfl

@[simp] theorem effects_cons {e : Ev} (h : e.isMsg = false) (evs : List Ev) : effects (e :: evs) = e :: effects evs := by
  simp [effects, h]

@[simp] theorem mem_effects {e : Ev} {evs : List Ev} : e ∈ effects evs ↔ e ∈ evs ∧ e.isMsg = false := by
  simp [effects]

/-- What ignores texts can be read off the effects. -/
theorem filterMap_effects {β : Type} {p : Ev → Option β} (hp : ∀ t fmt, p (.msg t fmt) = none) (evs : List Ev) :
    (effects evs).filterMap p = evs.filterMap p := by
  induction evs with
  | nil => rfl
  | cons e evs ih =>
    cases e with
    | msg t fmt =>
      rw [effects_msg, List.filterMap_cons_none (hp t fmt)]
      exact ih
    | _ =>
      rw [effects_cons rfl, List.filterMap_cons, List.filterMap_cons, ih]

/-- What handing over fragment `i` of a block reports. -/
def handOver (ctx : RxContext) (blk : RbufBlock) (i : Nat) : List Ev :=
  .send blk.index i ((blk.fragment i).take wfbDataHdrlen) (packetData (blk.fragment i)) ::
    effects (deliver ctx { blk with fragmentToSend := i })

/-- What ignores deliveries sees one `send_data_one` call. -/
theorem filterMap_handOver {β : Type} {p : Ev → Option β} (hm : ∀ t fmt, p (.msg t fmt) = none)
    (hd : ∀ h b f rssi data, p (.decode h b f rssi data) = none) (hl : ∀ b f data, p (.logDecode b f data) = none)
    (ctx : RxContext) (blk : RbufBlock) (i : Nat) :
    (handOver ctx blk i).filterMap p =
      (p (.send blk.index i ((blk.fragment i).take wfbDataHdrlen) (packetData (blk.fragment i)))).toList := by
  have hdel : (effects (deliver ctx { blk with fragmentToSend := i })).filterMap p = [] := by
    rw [filterMap_effects hm, List.filterMap_eq_nil_iff]
    intro e he
    unfold deliver at he
    dsimp only at he
    split at he
    · cases he
    · split at he
      · rw [List.mem_singleton] at he; subst he; exact hm _ _
      · rcases List.mem_append.mp he with he | he
        · split at he
          · rw [List.mem_singleton] at he; subst he; exact hm _ _
          · obtain ⟨a, -, rfl⟩ := List.mem_map.mp he; exact hd _ _ _ _ _
        · rw [List.mem_singleton] at he; subst he; exact hl _ _ _
  unfold handOver
  rw [List.filterMap_cons, hdel]
  cases p _ <;> rfl

theorem sendDataOne_effects (ctx : RxContext) (r : Rbuf) (slot : Nat) :
    effects (sendDataOne ctx r slot).2 = handOver ctx (r.blocks slot) (r.blocks slot).fragmentToSend := by
  have hgap : ∀ (p : Prop) [Decidable p] (t : MsgType) (fmt : String), effects (if p then [Ev.msg t fmt] else []) = [] :=
    fun p _ t fmt => by split <;> rfl
  simp only [sendDataOne, handOver]
  rw [List.cons_append, effects_cons rfl, effects_append, hgap, List.nil_append]

/-! ## The plan -/

/-- The loop with `n` fragments left from `t`: what it hands over, and where it stops. -/
def sendPlan (len : Nat → Nat) (stale recovered : Bool) : Nat → Nat → List Nat × Nat
  | 0, t => ([], t)
  | n + 1, t =>
    if 0 < len t ∨ recovered = true then
      (t :: (sendPlan len stale recovered n (t + 1)).1, (sendPlan len stale recovered n (t + 1)).2)
    else if stale then sendPlan len stale recovered n (t + 1)
    else ([], t)

structure SendPlan (len : Nat → Nat) (stale recovered : Bool) (n t : Nat) (is : List Nat) (e : Nat) : Prop where
  bounds : t ≤ e ∧ e ≤ t + n
  mem : ∀ i, i ∈ is ↔ (t ≤ i ∧ i < e) ∧ (0 < len i ∨ recovered = true)
  sorted : is.Pairwise (· < ·)
  stop : e < t + n → len e = 0 ∧ stale = false ∧ recovered = false
  /-- Without flushing, nothing is passed over. -/
  dense : stale = false → ∀ i, t ≤ i → i < e → 0 < len i ∨ recovered = true

theorem sendPlan_spec (len : Nat → Nat) (stale recovered : Bool) (n t : Nat) :
    SendPlan len stale recovered n t (sendPlan len stale recovered n t).1 (sendPlan len stale recovered n t).2 := by
  induction n generalizing t with
  | zero =>
    refine ⟨⟨le_refl _, le_refl _⟩, fun i => ?_, .nil, fun h => absurd h (lt_irrefl _), fun _ i h1 h2 => ?_⟩
    · show i ∈ ([] : List Nat) ↔ (t ≤ i ∧ i < t) ∧ _
      simp only [List.not_mem_nil, false_iff]
      omega
    · exact absurd h2 (by show ¬ i < t; omega)
  | succ n ih =>
    have h := ih (t + 1)
    unfold sendPlan
    split
    · rename_i hs
      refine ⟨⟨by have := h.bounds; omega, by have := h.bounds; omega⟩, fun i => ?_, ?_, fun he => h.stop (by omega),
        fun hst i h1 h2 => ?_⟩
      · rw [List.mem_cons, h.mem i]
        have hb := h.bounds
        constructor
        · rintro (rfl | ⟨h1, h2⟩)
          · exact ⟨⟨le_refl _, by omega⟩, hs⟩
          · exact ⟨by omega, h2⟩
        · rintro ⟨h1, h2⟩
          by_cases e : i = t
          · exact .inl e
          · exact .inr ⟨by omega, h2⟩
      · refine List.pairwise_cons.mpr ⟨fun i hi => ?_, h.sorted⟩
        have := ((h.mem i).mp hi).1
        omega
      · by_cases e : i = t
        · subst e; exact hs
        · exact h.dense hst i (by omega) h2
    · rename_i hs
      split
      · rename_i hst
        refine ⟨⟨by have := h.bounds; omega, by have := h.bounds; omega⟩, fun i => ?_, h.sorted, fun he => h.stop (by omega),
          fun hst' => absurd hst (by simp [hst'])⟩
        rw [h.mem i]
        constructor
        · rintro ⟨h1, h2⟩
          exact ⟨by omega, h2⟩
        · rintro ⟨h1, h2⟩
          have : i ≠ t := fun e => hs (e ▸ h2)
          exact ⟨by omega, h2⟩
      · rename_i hst
        push Not at hs
        refine ⟨⟨le_refl _, by omega⟩, fun i => ?_, .nil, fun _ => ⟨Nat.le_zero.mp hs.1, by simpa using hst, by simpa using hs.2⟩,
          fun _ i h1 h2 => absurd h2 (by show ¬ i < t; omega)⟩
        show i ∈ ([] : List Nat) ↔ (t ≤ i ∧ i < t) ∧ _
        simp only [List.not_mem_nil, false_iff]
        omega

/-! ## The loop -/

/-- The ring with `fragment_to_send` of a slot at `t`, and a `last_seq`. -/
def sentTo (r : Rbuf) (slot t q : Nat) : Rbuf :=
  { r.setBlock slot { r.blocks slot with fragmentToSend := t } with lastSeq := q }

@[simp] theorem sentTo_same (r : Rbuf) (s t q : Nat) :
    (sentTo r s t q).blocks s = { r.blocks s with fragmentToSend := t } := setBlock_same ..

theorem sentTo_ne (r : Rbuf) {s u : Nat} (t q : Nat) (h : u ≠ s) : (sentTo r s t q).blocks u = r.blocks u :=
  setBlock_ne r _ h

@[simp] theorem sentTo_ringSize (r : Rbuf) (s t q : Nat) : (sentTo r s t q).ringSize = r.ringSize := rfl
@[simp] theorem sentTo_ringFront (r : Rbuf) (s t q : Nat) : (sentTo r s t q).ringFront = r.ringFront := rfl
@[simp] theorem sentTo_ringAlloc (r : Rbuf) (s t q : Nat) : (sentTo r s t q).ringAlloc = r.ringAlloc := rfl
@[simp] theorem sentTo_lastBlock (r : Rbuf) (s t q : Nat) : (sentTo r s t q).lastBlock = r.lastBlock := rfl
@[simp] theorem sentTo_fragmentNof (r : Rbuf) (s t q : Nat) : (sentTo r s t q).fragmentNof = r.fragmentNof := rfl

theorem sentTo_self (r : Rbuf) (s : Nat) : sentTo r s (r.blocks s).fragmentToSend r.lastSeq = r := by
  simp [sentTo, Rbuf.setBlock]

theorem sentTo_sentTo (r : Rbuf) (s t t' q q' : Nat) : sentTo (sentTo r s t q) s t' q' = sentTo r s t' q' := by
  simp [sentTo, Rbuf.setBlock]

/-- What the loop does to the ring and what it hands over, by its plan. -/
theorem sendLoop_eq (ctx : RxContext) (slot : Nat) (stale recovered : Bool) (n : Nat) (r : Rbuf) :
    (∃ q, (sendLoop ctx slot stale recovered n r).1 = sentTo r slot
      (sendPlan (r.blocks slot).fragmentLen stale recovered n (r.blocks slot).fragmentToSend).2 q) ∧
    effects (sendLoop ctx slot stale recovered n r).2 =
      (sendPlan (r.blocks slot).fragmentLen stale recovered n (r.blocks slot).fragmentToSend).1.flatMap
        (handOver ctx (r.blocks slot)) := by
  induction n generalizing r with
  | zero => exact ⟨⟨r.lastSeq, (sentTo_self r slot).symm⟩, rfl⟩
  | succ n ih =>
    have hone : advance (sendDataOne ctx r slot).1 slot =
        sentTo r slot ((r.blocks slot).fragmentToSend + 1) (blkGetSeq ctx (r.blocks slot)) := rfl
    have hadv : advance r slot = sentTo r slot ((r.blocks slot).fragmentToSend + 1) r.lastSeq := rfl
    simp only [sendLoop, sendPlan]
    split
    · obtain ⟨⟨q, hr⟩, he⟩ := ih (advance (sendDataOne ctx r slot).1 slot)
      rw [hone, sentTo_same] at hr he
      rw [sentTo_sentTo] at hr
      refine ⟨⟨q, by rw [hone]; exact hr⟩, ?_⟩
      rw [effects_append, sendDataOne_effects, List.flatMap_cons, hone, he]
      rfl
    · split
      · obtain ⟨⟨q, hr⟩, he⟩ := ih (advance r slot)
        rw [hadv, sentTo_same] at hr he
        rw [sentTo_sentTo] at hr
        exact ⟨⟨q, by rw [hadv]; exact hr⟩, by rw [hadv, he]; rfl⟩
      · exact ⟨⟨r.lastSeq, (sentTo_self r slot).symm⟩, rfl⟩

/-- The plan of a call of `send_data_any` on a block. -/
def sendRun (ctx : RxContext) (blk : RbufBlock) (stale recovered : Bool) : List Nat × Nat :=
  sendPlan blk.fragmentLen stale recovered (ctx.fecK - blk.fragmentToSend) blk.fragmentToSend

theorem sendDataAny_eq (ctx : RxContext) (r : Rbuf) (slot : Nat) (stale recovered : Bool) :
    (∃ q, (sendDataAny ctx r slot stale recovered).1 =
      sentTo r slot (sendRun ctx (r.blocks slot) stale recovered).2 q) ∧
    effects (sendDataAny ctx r slot stale recovered).2 =
      (sendRun ctx (r.blocks slot) stale recovered).1.flatMap (handOver ctx (r.blocks slot)) :=
  sendLoop_eq ctx slot stale recovered _ r

end WfbYa.Rx
