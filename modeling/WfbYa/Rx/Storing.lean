/-
  WfbYa.Rx.Storing — the step that stores a fragment, over any ring.

  No block is assumed to be next: gaps, wrapped counters and non-front slots included.

  - `store_cases`: a step that reports a store is a DATA frame filed in that slot.
  - `dataAdd_slot`: `data_add` leaves other slots as they are, but for those it frees. In the
    one it was called for the block waits, with its cursor where cutting through left it, or
    it is handed over to its end and freed.
-/

import WfbYa.Rx.InOrder

namespace WfbYa.Rx

open WfbYa.Frame WfbYa.Ring WfbYa.Lib

variable {x : Externals} {ctx : RxContext}

/-! ## Stores -/

def Ev.store? : Ev → Option (Nat × Nat × Nat × Nat)
  | .store s b f len => some (s, b, f, len)
  | _ => none

/-- The stores among some events. -/
def stores (evs : List Ev) : List (Nat × Nat × Nat × Nat) := evs.filterMap Ev.store?

@[simp] theorem stores_append (a b : List Ev) : stores (a ++ b) = stores a ++ stores b := List.filterMap_append ..

theorem stores_effects (evs : List Ev) : stores (effects evs) = stores evs := filterMap_effects (fun _ _ => rfl) evs

theorem mem_stores {s b f len : Nat} {evs : List Ev} : (s, b, f, len) ∈ stores evs ↔ Ev.store s b f len ∈ evs := by
  unfold stores
  rw [List.mem_filterMap]
  constructor
  · rintro ⟨e, he, hs⟩
    cases e with
    | store s' b' f' len' =>
      cases hs
      exact he
    | _ => cases hs
  · intro he
    exact ⟨_, he, rfl⟩

theorem stores_quiet {evs : List Ev} (h : Quiet evs) : stores evs = [] := by
  rw [← stores_effects, show effects evs = [] from h]
  rfl

@[simp] theorem stores_ring (evs : List RingEv) : stores (evs.map Ev.ring) = [] := by
  induction evs with
  | nil => rfl
  | cons e evs ih => exact ih

@[simp] theorem sent_ring (evs : List RingEv) : sent (evs.map Ev.ring) = [] := by
  induction evs with
  | nil => rfl
  | cons e evs ih => exact ih

theorem stores_sendDataAny (ctx : RxContext) (r : Rbuf) (s : Nat) (stale recovered : Bool) :
    stores (sendDataAny ctx r s stale recovered).2 = [] := by
  rw [← stores_effects, (sendDataAny_eq ctx r s stale recovered).2]
  induction (sendRun ctx (r.blocks s) stale recovered).1 with
  | nil => rfl
  | cons i is ih =>
    have hi : stores (handOver ctx (r.blocks s) i) = [] :=
      filterMap_handOver (fun _ _ => rfl) (fun _ _ _ _ _ => rfl) (fun _ _ _ => rfl) ctx (r.blocks s) i
    rw [List.flatMap_cons, stores_append, hi, ih]
    rfl

theorem purgeLoop_stores {s n : Nat} {r r' : Rbuf} {evs : List Ev} (h : purgeLoop ctx s n r = .ok (r', evs)) :
    stores evs = [] := by
  induction n generalizing r r' evs with
  | zero =>
    unfold purgeLoop at h
    split at h
    · cases h
      rfl
    · cases h
  | succ n ih =>
    unfold purgeLoop at h
    split at h
    · cases h
      rfl
    · obtain ⟨⟨r1, e1⟩, h1, h2⟩ := Machine.bind_ok_iff.mp h
      cases h2
      rw [stores_append]
      have hsent : stores (sendDataStale ctx r r.ringFront).2 = [] := stores_sendDataAny ..
      rw [hsent, List.nil_append]
      show stores e1 = []
      exact ih h1

theorem dataFec_stores {s : Nat} {r r' : Rbuf} {evs : List Ev} (h : dataFec x ctx r s = .ok (r', evs)) : stores evs = [] := by
  obtain ⟨-, ⟨-, -, rfl⟩ | ⟨-, blk, e, hrec, -, rfl⟩⟩ := dataFec_cases h
  · rfl
  · have hrec' : stores e = [] := by
      cases hrec with
      | complete _ => rfl
      | decoded _ _ _ => rfl
    rw [stores_append, hrec']
    show [] ++ stores ((sendDataRecovered ctx (r.setBlock s blk) s).2 ++ _) = []
    have hsent : stores (sendDataRecovered ctx (r.setBlock s blk) s).2 = [] := stores_sendDataAny ..
    rw [stores_append, hsent]
    rfl

theorem dataAdd_stores {s : Nat} {r r' : Rbuf} {evs : List Ev} (h : dataAdd x ctx r s = .ok (r', evs)) : stores evs = [] := by
  have hseq : stores (sendDataSeq ctx r s).2 = [] := stores_sendDataAny ..
  rcases dataAdd_cases h with ⟨-, ⟨-, -, rfl⟩ | ⟨-, e, hfec, rfl⟩⟩ | ⟨-, r1, e1, e, hp, hfec, rfl⟩
  · rw [stores_append, hseq]
    rfl
  · rw [stores_append, hseq, dataFec_stores hfec]
    rfl
  · obtain ⟨p, hl, he⟩ := Machine.bind_ok_iff.mp hp
    cases he
    rw [stores_append, stores_append, purgeLoop_stores hl, dataFec_stores hfec]
    rfl

/-- The block with a fragment of the frame at hand filed. -/
def filedBlock (ctx : RxContext) (r : Rbuf) (s : Nat) (plain : Bytes) : RbufBlock :=
  storeFragment (raiseRssi (r.blocks s) ctx.wfb.fragmentIdx ctx.dbm) ctx.wfb.fragmentIdx r.fragmentSize plain

/-- The frame at hand is filed in slot `s` of the ring `r1` that `rbuf_get_block` makes of
    `r`, and `data_add` leaves `r'`. -/
structure Filing (x : Externals) (ctx : RxContext) (r r1 : Rbuf) (s : Nat) (plain : Bytes) (r' : Rbuf) (e : List Ev) : Prop where
  admitted : Admitted ctx r
  found : ∃ evs, rbufGetBlock r ctx.wfb.blockIdx = .ok (r1, some s, evs)
  empty : (r1.blocks s).fragmentLen ctx.wfb.fragmentIdx = 0
  authentic : decrypted x ctx.crypto ctx.wfb = .ok (.ok plain)
  fits : plain.length ≤ r1.fragmentSize
  added : dataAdd x ctx (r1.setBlock s (filedBlock ctx r1 s plain)) s = .ok (r', e)

/-- A step that reports a store files that fragment. -/
theorem store_cases {ctx' : RxContext} {i : Input} {evs : List Ev} {s b f len : Nat} (hs : rxStep x ctx i = .ok (ctx', evs))
    (hm : Ev.store s b f len ∈ evs) : ∃ fr w r r1 plain r' e, i = .frame fr ∧ wfbFrameParse fr.data fr.size = .ok w ∧
      w.packetType = wfbPacketData ∧ Filing x (withFrame ctx fr w) r r1 s plain r' e ∧ b = (r1.blocks s).index ∧
        f = w.fragmentIdx ∧ len = plain.length ∧ ctx' = { withFrame ctx fr w with rxRing := some r' } ∧ sent evs = sent e := by
  rw [← mem_stores] at hm
  have hno : ∀ {evs : List Ev}, Quiet evs → (s, b, f, len) ∉ stores evs := fun hq h => by
    rw [stores_quiet hq] at h
    cases h
  cases rxStep_cases hs with
  | toggle hq => exact absurd hm (hno hq)
  | unparsed _ hq => exact absurd hm (hno hq)
  | session _ _ hx =>
    cases rxSession_cases hx with
    | ignored hq => exact absurd hm (hno hq)
    | ended hq => exact absurd hm (hno hq)
    | started _ _ _ _ _ hev =>
      have := (hev _ (mem_stores.mp hm)).2
      cases this
  | @data fr w _ hp ht hd =>
    cases hd with
    | refused _ hq => exact absurd hm (hno hq)
    | outside _ _ =>
      rw [show ∀ (e : Ev) (l : List Ev), e.store? = none → stores (e :: l) = stores l from
        fun e l h => List.filterMap_cons_none h, stores_ring] at hm
      · cases hm
      · rfl
    | @filed r r1 slot revs _ ha hg hf =>
      rw [stores_append, show stores (.logFrame (withFrame ctx fr w).wfb.blockIdx (withFrame ctx fr w).wfb.fragmentIdx
        (withFrame ctx fr w).wfb.pktlen :: revs.map Ev.ring) = stores (revs.map Ev.ring) from rfl, stores_ring] at hm
      cases hf with
      | duplicate _ => cases hm
      | @forged _ fmt _ _ =>
        have hq : stores (errEvs fmt ++ [Ev.contextDump]) = [] := by cases fmt <;> rfl
        rw [List.nil_append, hq] at hm
        cases hm
      | @stored plain r' e h0 hd hle hadd =>
        have hone : stores (.store slot (r1.blocks slot).index (withFrame ctx fr w).wfb.fragmentIdx plain.length :: e) =
            [(slot, (r1.blocks slot).index, w.fragmentIdx, plain.length)] := by
          show _ :: stores e = _
          rw [dataAdd_stores hadd]
          rfl
        rw [List.nil_append, hone, List.mem_singleton] at hm
        cases hm
        refine ⟨fr, w, r, r1, plain, r', e, rfl, hp, ht, ⟨ha, ⟨_, hg⟩, h0, hd, hle, hadd⟩, rfl, rfl, rfl, rfl, ?_⟩
        rw [sent_append]
        show sent (revs.map Ev.ring) ++ sent e = sent e
        rw [sent_ring]
        rfl

/-! ## What becomes of the slot -/

/-- Other slots are left as they are, or freed. -/
def Others (s : Nat) (r r' : Rbuf) : Prop := ∀ t, t ≠ s → r'.blocks t = r.blocks t ∨ (r'.blocks t).index = blockInval

theorem Others.refl (s : Nat) (r : Rbuf) : Others s r r := fun _ _ => .inl rfl

theorem Others.trans {s : Nat} {r r1 r' : Rbuf} (h : Others s r r1) (h' : Others s r1 r') : Others s r r' := by
  intro t ht
  rcases h' t ht with he | he
  · rw [he]
    exact h t ht
  · exact .inr he

/-- What is done to one slot alone. -/
theorem others_of_ne {s : Nat} {r r' : Rbuf} (h : ∀ t, t ≠ s → r'.blocks t = r.blocks t) : Others s r r' :=
  fun t ht => .inl (h t ht)

/-- Flushing and freeing another slot leaves this one. -/
theorem flush_others {r : Rbuf} {s t : Nat} (hne : t ≠ s) :
    (rbufFreeBlock (sendDataStale ctx r t).1 t).blocks s = r.blocks s ∧
      Others s r (rbufFreeBlock (sendDataStale ctx r t).1 t) := by
  obtain ⟨⟨q, hq⟩, -⟩ := sendDataAny_eq ctx r t true false
  change (sendDataStale ctx r t).1 = _ at hq
  rw [hq]
  refine ⟨?_, fun u _ => ?_⟩
  · rw [free_ne _ hne.symm, sentTo_ne _ _ _ hne.symm]
  · by_cases e : u = t
    · subst e
      right
      rw [free_same]
    · left
      rw [free_ne _ e, sentTo_ne _ _ _ e]

/-- Purging up to a slot leaves that slot. -/
theorem purgeLoop_others {s n : Nat} {r r' : Rbuf} {evs : List Ev} (h : purgeLoop ctx s n r = .ok (r', evs)) :
    r'.blocks s = r.blocks s ∧ Others s r r' := by
  induction n generalizing r r' evs with
  | zero =>
    unfold purgeLoop at h
    split at h
    · cases h
      exact ⟨rfl, .refl s r⟩
    · cases h
  | succ n ih =>
    unfold purgeLoop at h
    split at h
    · cases h
      exact ⟨rfl, .refl s r⟩
    · rename_i hne
      obtain ⟨⟨r1, e1⟩, h1, h2⟩ := Machine.bind_ok_iff.mp h
      cases h2
      obtain ⟨hs, ho⟩ := @flush_others ctx r s r.ringFront hne
      obtain ⟨hs', ho'⟩ := ih h1
      exact ⟨hs'.trans hs, ho.trans ho'⟩

theorem sendDataAny_lastBlock (ctx : RxContext) (r : Rbuf) (s : Nat) (stale recovered : Bool) :
    (sendDataAny ctx r s stale recovered).1.lastBlock = r.lastBlock := by
  obtain ⟨⟨q, hq⟩, -⟩ := sendDataAny_eq ctx r s stale recovered
  rw [hq, sentTo_lastBlock]

theorem purgeLoop_lastBlock {s n : Nat} {r r' : Rbuf} {evs : List Ev} (h : purgeLoop ctx s n r = .ok (r', evs)) :
    r'.lastBlock = r.lastBlock := by
  induction n generalizing r r' evs with
  | zero =>
    unfold purgeLoop at h
    split at h
    · cases h
      rfl
    · cases h
  | succ n ih =>
    unfold purgeLoop at h
    split at h
    · cases h
      rfl
    · obtain ⟨⟨r1, e1⟩, h1, h2⟩ := Machine.bind_ok_iff.mp h
      cases h2
      exact (ih h1).trans (sendDataAny_lastBlock ..)

theorem dataFec_lastBlock {s : Nat} {r r' : Rbuf} {evs : List Ev} (h : dataFec x ctx r s = .ok (r', evs)) :
    r'.lastBlock = r.lastBlock := by
  obtain ⟨-, ⟨-, rfl, -⟩ | ⟨-, blk, e, -, rfl, -⟩⟩ := dataFec_cases h
  · rfl
  · exact sendDataAny_lastBlock ..

/-- Only `rbuf_get_block` moves `last_block`. -/
theorem dataAdd_lastBlock {s : Nat} {r r' : Rbuf} {evs : List Ev} (h : dataAdd x ctx r s = .ok (r', evs)) :
    r'.lastBlock = r.lastBlock := by
  rcases dataAdd_cases h with ⟨-, ⟨-, rfl, -⟩ | ⟨-, e, hfec, -⟩⟩ | ⟨-, r1, e1, e, hp, hfec, -⟩
  · exact sendDataAny_lastBlock ..
  · exact (dataFec_lastBlock hfec).trans (sendDataAny_lastBlock ..)
  · obtain ⟨p, hl, he⟩ := Machine.bind_ok_iff.mp hp
    cases he
    exact (dataFec_lastBlock hfec).trans (purgeLoop_lastBlock hl)

/-- What `data_add` makes of the block it was called for, at the front or not: `t` is where
    cutting through leaves its cursor. -/
inductive AddSlot (ctx : RxContext) (front : Prop) (t : Nat) (blk blk' : RbufBlock) (evs : List Ev) : Prop
  | waits : (front → t ≠ ctx.fecK) → ¬ Ready ctx { blk with fragmentToSend := t } → blk' = { blk with fragmentToSend := t } →
      (∀ i, blk.fragmentToSend ≤ i → i < t → frag blk.index i ∈ sent evs) → AddSlot ctx front t blk blk' evs
  | done : (front ∧ t = ctx.fecK ∨ Ready ctx { blk with fragmentToSend := t }) → blk'.index = blockInval →
      (∀ i, blk.fragmentToSend ≤ i → i < ctx.fecK → frag blk.index i ∈ sent evs) → AddSlot ctx front t blk blk' evs

/-- What a call of `send_data_any` that passes nothing over hands over. -/
theorem sendRun_sends {blk : RbufBlock} {recovered : Bool} {i : Nat} (h1 : blk.fragmentToSend ≤ i)
    (h2 : i < (sendRun ctx blk false recovered).2) :
    frag blk.index i ∈ sent ((sendRun ctx blk false recovered).1.flatMap (handOver ctx blk)) := by
  have hs := sendPlan_spec blk.fragmentLen false recovered (ctx.fecK - blk.fragmentToSend) blk.fragmentToSend
  rw [sent_flatMap]
  apply List.mem_map.mpr
  exact ⟨i, (hs.mem i).mpr ⟨⟨h1, h2⟩, hs.dense rfl i h1 h2⟩, rfl⟩

theorem dataFec_slot {s : Nat} {r r' : Rbuf} {evs : List Ev} (h : dataFec x ctx r s = .ok (r', evs)) :
    AddSlot ctx False (r.blocks s).fragmentToSend (r.blocks s) (r'.blocks s) evs ∧ Others s r r' ∧
      ((r'.blocks s).index ≠ blockInval → r'.ringFront = s) := by
  obtain ⟨hf, ⟨hn, rfl, rfl⟩ | ⟨hready, blk, e1, hrec, rfl, rfl⟩⟩ := dataFec_cases h
  · exact ⟨.waits False.elim hn rfl fun i h1 h2 => absurd h2 (Nat.not_lt.mpr h1), .refl s r', fun _ => hf⟩
  · obtain ⟨q, hq, he⟩ := finish_eq hready hrec
    have hdead : ((finish ctx r s blk).1.blocks s).index = blockInval := by rw [hq, free_same]
    refine ⟨.done (.inr hready) hdead fun i h1 h2 => ?_, ?_, fun hl => absurd hdead hl⟩
    · rw [sent_append, List.mem_append]
      right
      rw [← sent_effects, he, sent_append, List.mem_append]
      left
      have hend : (sendRun ctx blk false true).2 = ctx.fecK :=
        sendRun_recovered (by rw [hrec.keeps.2.2.1]; exact Nat.le_of_lt hready.1)
      rw [← hrec.keeps.1]
      apply sendRun_sends
      · rw [hrec.keeps.2.2.1]
        exact h1
      · rw [hend]
        exact h2
    · apply others_of_ne
      intro t ht
      rw [hq, free_ne _ ht, sentTo_ne _ _ _ ht, setBlock_ne _ _ ht]

/-- Where cutting through, if it is done, leaves the cursor. -/
def cutTo (ctx : RxContext) (r : Rbuf) (s : Nat) : Nat :=
  if r.ringFront = s then (sendRun ctx (r.blocks s) false false).2 else (r.blocks s).fragmentToSend

theorem dataAdd_slot {s : Nat} {r r' : Rbuf} {evs : List Ev} (h : dataAdd x ctx r s = .ok (r', evs)) :
    AddSlot ctx (r.ringFront = s) (cutTo ctx r s) (r.blocks s) (r'.blocks s) evs ∧ Others s r r' ∧
      ((r'.blocks s).index ≠ blockInval → r'.ringFront = s) := by
  obtain ⟨⟨q, hq⟩, he⟩ := sendDataAny_eq ctx r s false false
  change (sendDataSeq ctx r s).1 = _ at hq
  change effects (sendDataSeq ctx r s).2 = _ at he
  have hcut : ∀ i, (r.blocks s).fragmentToSend ≤ i → i < (sendRun ctx (r.blocks s) false false).2 →
      frag (r.blocks s).index i ∈ sent (sendDataSeq ctx r s).2 := by
    intro i h1 h2
    rw [← sent_effects, he]
    exact sendRun_sends h1 h2
  rcases dataAdd_cases h with ⟨hf, ⟨hk, rfl, rfl⟩ | ⟨hk, e, hfec, rfl⟩⟩ | ⟨hf, r1, e1, e, hp, hfec, rfl⟩
  · -- all primaries received
    rw [hq, sentTo_same] at hk
    change (sendRun ctx (r.blocks s) false false).2 = ctx.fecK at hk
    have hdead : ((rbufFreeBlock (sendDataSeq ctx r s).1 s).blocks s).index = blockInval := by rw [free_same]
    refine ⟨.done (.inl ⟨hf, ?_⟩) hdead fun i h1 h2 => ?_, ?_, fun hl => absurd hdead hl⟩
    · rw [cutTo, if_pos hf, hk]
    · rw [sent_append, List.mem_append]
      exact .inl (hcut i h1 (by rw [hk]; exact h2))
    · apply others_of_ne
      intro t ht
      rw [hq, free_ne _ ht, sentTo_ne _ _ _ ht]
  · -- cut through, and looked at again
    rw [hq] at hfec hk
    rw [sentTo_same] at hk
    change (sendRun ctx (r.blocks s) false false).2 ≠ ctx.fecK at hk
    obtain ⟨hadd, ho, hfront⟩ := dataFec_slot hfec
    rw [sentTo_same] at hadd
    have hto : cutTo ctx r s = (sendRun ctx (r.blocks s) false false).2 := if_pos hf
    refine ⟨?_, Others.trans (others_of_ne fun t ht => sentTo_ne _ _ _ ht) ho, hfront⟩
    rw [hto]
    cases hadd with
    | waits _ hn hb _ =>
      refine .waits (fun _ => hk) hn hb fun i h1 h2 => ?_
      rw [sent_append, List.mem_append]
      exact .inl (hcut i h1 h2)
    | done hr hd hs =>
      refine .done (.inr (hr.resolve_left fun h => h.1)) hd fun i h1 h2 => ?_
      rw [sent_append, List.mem_append]
      by_cases hlt : i < (sendRun ctx (r.blocks s) false false).2
      · exact .inl (hcut i h1 hlt)
      · exact .inr (hs i (Nat.not_lt.mp hlt) h2)
  · -- older blocks were purged
    obtain ⟨p, hl, he'⟩ := Machine.bind_ok_iff.mp hp
    cases he'
    obtain ⟨hsame, ho⟩ := purgeLoop_others hl
    obtain ⟨hadd, ho', hfront⟩ := dataFec_slot hfec
    rw [hsame] at hadd
    have hto : cutTo ctx r s = (r.blocks s).fragmentToSend := if_neg hf
    refine ⟨?_, ho.trans ho', hfront⟩
    rw [hto]
    cases hadd with
    | waits _ hn hb _ => exact .waits (fun h => absurd h hf) hn hb fun i h1 h2 => absurd h2 (Nat.not_lt.mpr h1)
    | done hr hd hs =>
      refine .done (.inr (hr.resolve_left fun h => h.1)) hd fun i h1 h2 => ?_
      rw [sent_append, List.mem_append]
      exact .inr (hs i h1 h2)

/-! ## What a filing leaves -/

theorem filedBlock_toSend (ctx : RxContext) (r : Rbuf) (s : Nat) (plain : Bytes) :
    (filedBlock ctx r s plain).fragmentToSend = (r.blocks s).fragmentToSend := raiseRssi_toSend ..

theorem filedBlock_index (ctx : RxContext) (r : Rbuf) (s : Nat) (plain : Bytes) :
    (filedBlock ctx r s plain).index = (r.blocks s).index := raiseRssi_index ..

/-- The cursor of the slot found is within the primaries. -/
theorem Filing.toSend_le {r r1 r' : Rbuf} {s : Nat} {plain : Bytes} {e : List Ev} (h : Filing x ctx r r1 s plain r' e)
    (hi : SessionInv ctx) : (r1.blocks s).fragmentToSend ≤ ctx.fecK := by
  obtain ⟨evs, hg⟩ := h.found
  rcases getBlock_slots hg s with he | ⟨c, he⟩
  · rw [he]
    exact hi.cursor r h.admitted.ring s
  · rw [he]
    exact Nat.zero_le _

/-- What a filing leaves in its slot. -/
theorem Filing.slot {r r1 r' : Rbuf} {s : Nat} {plain : Bytes} {e : List Ev} (h : Filing x ctx r r1 s plain r' e) :
    AddSlot ctx (r1.ringFront = s) (cutTo ctx (r1.setBlock s (filedBlock ctx r1 s plain)) s) (filedBlock ctx r1 s plain)
      (r'.blocks s) e ∧ ((r'.blocks s).index ≠ blockInval → r'.ringFront = s) := by
  obtain ⟨hadd, -, hl⟩ := dataAdd_slot h.added
  rw [setBlock_same] at hadd
  exact ⟨hadd, hl⟩

end WfbYa.Rx
