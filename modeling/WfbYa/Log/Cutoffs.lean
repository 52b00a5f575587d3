/-
  WfbYa.Log.Cutoffs — `filter dbm` commands against one another.

  (1) `filter_monotone`. A higher cut-off marks more records, counts fewer frames at every
  key, and leaves no block less damaged.

  (2) `filter_history_independent`. After any commands the store is what the last one alone
  makes of the loaded store.
-/

import WfbYa.Log.Filtering

namespace WfbYa.Log

open WfbYa.Lib

variable {file : Bytes} {ls ls' ls1 ls2 : LogStore} {past : List Entry} {fecK : UInt8} {c c1 c2 : Int8} {done : List Nat}

/-! ## A filtered store is filtered again -/

theorem flagOf_other {i : Nat} {e : Entry} (hi : past.reverse[i]? = some e) (hs : e.isSeq = false) :
    flagOf c fecK past done i e = false := by
  unfold flagOf
  rw [cut_isSeq hs, Bool.false_or]
  by_cases hl : (lastDecode e.seq past).map Prod.fst = some i
  · obtain ⟨d, hd, rfl⟩ := Option.map_eq_some_iff.mp hl
    obtain ⟨hi', -, hdec⟩ := lastDecode_some hd
    obtain rfl : e = d.2 := Option.some.inj (hi.symm.trans hi')
    rw [decode_isSeq hdec] at hs
    cases hs
  · simp [hl]

theorem FilteredTo.msgKvh_eq (h : FilteredTo c ls ls' past) : ls'.msgKvh = ls.msgKvh := by rw [h.rest]

theorem FilteredTo.bones (h : FilteredTo c ls ls' past) (hb : Bones ls past) : Bones ls' past where
  vs := h.values
  others := by
    intro i e hi hs
    rw [h.flags i e hi, flagOf_other hi hs]
  kvs := by
    intro t
    rw [h.fecK_eq]
    cases t with
    | seq => exact ⟨_, h.seq, fun _ => rfl⟩
    | blk => exact ⟨_, h.blk, fun _ => rfl⟩
    | msg =>
      obtain ⟨g, hg, hclear⟩ := hb.kvs .msg
      refine ⟨g, ?_, hclear⟩
      show KeyedList.Holds LogDataKv.key g (keysOf .msg past) ls'.msgKvh
      rw [h.msgKvh_eq]
      exact hg

theorem FilteredTo.keys (h : FilteredTo c ls ls' past) (hb : Bones ls past) :
    ls'.kvh.map LogDataKv.key = ls.kvh.map LogDataKv.key := by
  obtain ⟨g, hg, hclear⟩ := hb.kvs .seq
  refine List.Pairwise.eq_of_mem_iff h.seq.sorted.keys_sorted hg.sorted.keys_sorted fun k => ?_
  rw [h.seq.mem_keys fun _ => rfl]
  exact hb.seq_keys.symm

/-- What was filtered before does not matter. -/
theorem FilteredTo.trans (h : FilteredTo c1 ls ls1 past) (hb : Bones ls past) (h' : FilteredTo c2 ls1 ls2 past) :
    FilteredTo c2 ls ls2 past where
  rest := by
    have hrest := h'.rest
    rw [h.rest] at hrest
    exact hrest
  vs := by rw [← h.fecK_eq, h'.vs]
  flags := by
    intro i e hi
    rw [h'.flags i e hi, h.keys hb, h.fecK_eq]
  seq := by
    rw [← h.fecK_eq]
    exact h'.seq
  blk := by
    rw [← h.fecK_eq, ← h.keys hb]
    exact h'.blk

/-- There is one outcome. -/
theorem FilteredTo.unique (h : FilteredTo c ls ls1 past) (h' : FilteredTo c ls ls2 past) : ls1 = ls2 := by
  have hvs : ls1.vs = ls2.vs := by
    apply List.ext_getElem?
    intro i
    have hlen : ∀ l, FilteredTo c ls l past → l.vs.length = past.length := by
      intro l hl
      rw [← List.length_map (setFiltered false), hl.vs, vsOf_length]
    by_cases hlt : i < past.length
    · obtain ⟨e, hi⟩ : ∃ e, past.reverse[i]? = some e := ⟨_, List.getElem?_eq_getElem (by simpa using hlt)⟩
      have hget : ∀ l, FilteredTo c ls l past → ∃ x, l.vs[i]? = some x ∧
        x.filtered = flagOf c ls.fecK past (ls.kvh.map LogDataKv.key) i e ∧
          some (setFiltered false x) = (vsOf ls.fecK past)[i]? := by
        intro l hl
        obtain ⟨x, ep, hx, hv, he⟩ := value_get hl.values hi
        refine ⟨x, hx, ?_, ?_⟩
        · rw [← hv]
          exact hl.flags i e hi
        · rw [← hl.vs, List.getElem?_map, hx]
          rfl
      obtain ⟨x, hx, hf, hb⟩ := hget ls1 h
      obtain ⟨y, hy, hf', hb'⟩ := hget ls2 h'
      rw [hx, hy]
      have hbone := Option.some.inj (hb.trans hb'.symm)
      have hback : ∀ v : LogDataV, v = setFiltered v.filtered (setFiltered false v) := fun _ => rfl
      rw [hback x, hback y, hf, hf', hbone]
    · rw [List.getElem?_eq_none (by rw [hlen ls1 h]; omega), List.getElem?_eq_none (by rw [hlen ls2 h']; omega)]
  have hseq := h.seq.unique h'.seq fun _ => rfl
  have hblk := h.blk.unique h'.blk fun _ => rfl
  rw [h.rest, h'.rest, hvs, hseq, hblk]

/-! ## (1) Monotonicity -/

theorem cut_mono (hc : c1 ≤ c2) {e : Entry} (h : e.cut c1 = true) : e.cut c2 = true := by
  unfold Entry.cut at h ⊢
  simp only [Bool.and_eq_true, decide_eq_true_eq] at h ⊢
  have hle : c1.toInt ≤ c2.toInt := Int8.le_iff_toInt_le.mp hc
  exact ⟨h.1, h.2.1, h.2.2.trans hle⟩

theorem left_anti (hc : c1 ≤ c2) {e : Entry} (h : e.left c2 = true) : e.left c1 = true := by
  unfold Entry.left at h ⊢
  rw [Bool.and_eq_true, Bool.not_eq_true'] at h ⊢
  refine ⟨h.1, ?_⟩
  by_contra hcut
  rw [Bool.not_eq_false] at hcut
  rw [cut_mono hc hcut] at h
  cases h.2

theorem seqEth_anti (hc : c1 ≤ c2) (s : Nat) : seqEth c2 past s ≤ seqEth c1 past s := by
  apply List.countP_mono_left
  intro e _ h
  rw [Bool.and_eq_true] at h ⊢
  exact ⟨h.1, left_anti hc h.2⟩

theorem blkEth_anti (hc : c1 ≤ c2) (b : Nat) : blkEth c2 past b ≤ blkEth c1 past b := by
  apply List.countP_mono_left
  intro e _ h
  rw [Bool.and_eq_true] at h ⊢
  exact ⟨h.1, left_anti hc h.2⟩

/-- A verdict gets worse, or stays. -/
theorem verdict_anti (hc : c1 ≤ c2) (s : Nat) :
    verdict c2 fecK past s = verdict c1 fecK past s ∨
      (verdict c1 fecK past s).keeps = true ∧ (verdict c1 fecK past s).isLoss = false ∧
        (verdict c2 fecK past s = .recovered ∨ verdict c2 fecK past s = .lost) := by
  have heth := @seqEth_anti past _ _ hc s
  cases hd : lastDecode s past with
  | none =>
    left
    unfold verdict
    rw [hd]
  | some d =>
    have hblk := @blkEth_anti past _ _ hc d.2.block
    by_cases h2 : 0 < seqEth c2 past s
    · left
      rw [verdict_received hd h2, verdict_received hd (by omega)]
    · by_cases h1 : 0 < seqEth c1 past s
      · right
        rw [verdict_received hd h1]
        refine ⟨rfl, rfl, ?_⟩
        by_cases hk : fecK.toNat ≤ blkEth c2 past d.2.block
        · exact .inl (verdict_recovered hd h2 hk)
        · exact .inr (verdict_lost hd h2 hk)
      · by_cases hk1 : fecK.toNat ≤ blkEth c1 past d.2.block
        · by_cases hk2 : fecK.toNat ≤ blkEth c2 past d.2.block
          · left
            rw [verdict_recovered hd h2 hk2, verdict_recovered hd h1 hk1]
          · right
            rw [verdict_recovered hd h1 hk1]
            exact ⟨rfl, rfl, .inr (verdict_lost hd h2 hk2)⟩
        · left
          rw [verdict_lost hd h1 hk1, verdict_lost hd h2 (by omega)]

theorem keeps_anti (hc : c1 ≤ c2) {s : Nat} (h : (verdict c2 fecK past s).keeps = true) :
    (verdict c1 fecK past s).keeps = true := by
  rcases @verdict_anti past fecK _ _ hc s with he | ⟨hk, -, -⟩
  · rwa [← he]
  · exact hk

theorem isLoss_mono (hc : c1 ≤ c2) {s : Nat} (h : (verdict c1 fecK past s).isLoss = true) :
    (verdict c2 fecK past s).isLoss = true := by
  rcases @verdict_anti past fecK _ _ hc s with he | ⟨-, hl, -⟩
  · rwa [he]
  · rw [hl] at h
    cases h

theorem lost_mono (hc : c1 ≤ c2) {s : Nat} (h : verdict c1 fecK past s = .lost) : verdict c2 fecK past s = .lost := by
  rcases @verdict_anti past fecK _ _ hc s with he | ⟨-, hl, -⟩
  · rwa [he]
  · rw [h] at hl
    cases hl

theorem flagOf_mono (hc : c1 ≤ c2) {i : Nat} {e : Entry} (h : flagOf c1 fecK past done i e = true) :
    flagOf c2 fecK past done i e = true := by
  unfold flagOf at h ⊢
  simp only [Bool.or_eq_true, Bool.and_eq_true, decide_eq_true_eq] at h ⊢
  rcases h with h | ⟨hd, hl, hv⟩
  · exact .inl (cut_mono hc h)
  · exact .inr ⟨hd, hl, lost_mono hc hv⟩

theorem finalBlk_h265_anti (hc : c1 ≤ c2) (b : Nat) :
    (finalBlk c2 fecK past done b).nH265Frame ≤ (finalBlk c1 fecK past done b).nH265Frame := by
  apply List.countP_mono_left
  intro s _ h
  unfold charged at h ⊢
  rw [Bool.and_eq_true] at h ⊢
  exact ⟨h.1, keeps_anti hc h.2⟩

theorem finalBlk_lost_mono (hc : c1 ≤ c2) {b : Nat} (h : (finalBlk c1 fecK past done b).hasLostFrame = true) :
    (finalBlk c2 fecK past done b).hasLostFrame = true := by
  have hblk := @blkEth_anti past _ _ hc b
  unfold finalBlk at h ⊢
  dsimp only at h ⊢
  rw [Bool.or_eq_true, decide_eq_true_eq] at h ⊢
  rcases h with h | h
  · exact .inl (by omega)
  · obtain ⟨s, hs, hcharged⟩ := List.any_eq_true.mp h
    refine .inr (List.any_eq_true.mpr ⟨s, hs, ?_⟩)
    unfold charged at hcharged ⊢
    rw [Bool.and_eq_true] at hcharged ⊢
    exact ⟨hcharged.1, isLoss_mono hc hcharged.2⟩

/-- Another store has everything marked that this one has, counts no more, and has a loss
    wherever this one has. -/
structure Weaker (ls1 ls2 : LogStore) : Prop where
  length : ls1.vs.length = ls2.vs.length
  filtered : ∀ i, (ls1.v i).filtered = true → (ls2.v i).filtered = true
  keys : ∀ t, (ls1.kvs t).map LogDataKv.key = (ls2.kvs t).map LogDataKv.key
  received : ∀ t, ∀ kv1 ∈ ls1.kvs t, ∀ kv2 ∈ ls2.kvs t, kv1.key = kv2.key → kv2.nEthernetFrame ≤ kv1.nEthernetFrame
  decoded : ∀ t, ∀ kv1 ∈ ls1.kvs t, ∀ kv2 ∈ ls2.kvs t, kv1.key = kv2.key → kv2.nH265Frame ≤ kv1.nH265Frame
  lost : ∀ kv1 ∈ ls1.blockKvh, ∀ kv2 ∈ ls2.blockKvh, kv1.key = kv2.key → kv1.hasLostFrame = true → kv2.hasLostFrame = true

/-- Comparing what two lists hold at one key. -/
theorem holds_compare {g1 g2 : Nat → LogDataKv} {S : Set Nat} {l1 l2 : List LogDataKv} {R : LogDataKv → LogDataKv → Prop}
    (h1 : KeyedList.Holds LogDataKv.key g1 S l1) (h2 : KeyedList.Holds LogDataKv.key g2 S l2)
    (hk1 : ∀ k, (g1 k).key = k) (hk2 : ∀ k, (g2 k).key = k) (hR : ∀ k ∈ S, R (g1 k) (g2 k)) :
    ∀ kv1 ∈ l1, ∀ kv2 ∈ l2, kv1.key = kv2.key → R kv1 kv2 := by
  intro kv1 hkv1 kv2 hkv2 hkey
  obtain ⟨k, hk, rfl⟩ := (h1.mem kv1).mp hkv1
  obtain ⟨k', -, rfl⟩ := (h2.mem kv2).mp hkv2
  rw [hk1, hk2] at hkey
  subst hkey
  exact hR k hk

/-- Messages are not touched. -/
theorem msg_compare {R : LogDataKv → LogDataKv → Prop} (h1 : FilteredTo c1 ls ls1 past) (h2 : FilteredTo c2 ls ls2 past)
    (hb : Bones ls past) (hR : ∀ kv, R kv kv) :
    ∀ kv1 ∈ ls1.kvs .msg, ∀ kv2 ∈ ls2.kvs .msg, kv1.key = kv2.key → R kv1 kv2 := by
  obtain ⟨g, hg, hclear⟩ := hb.kvs .msg
  have hkey : ∀ k, (g k).key = k := fun k => congrArg LogDataKv.key (hclear k)
  have hkvs1 : ls1.kvs .msg = ls.kvs .msg := h1.msgKvh_eq
  have hkvs2 : ls2.kvs .msg = ls.kvs .msg := h2.msgKvh_eq
  rw [hkvs1, hkvs2]
  exact holds_compare hg hg hkey hkey fun k _ => hR (g k)

theorem FilteredTo.weaker (h1 : FilteredTo c1 ls ls1 past) (h2 : FilteredTo c2 ls ls2 past) (hb : Bones ls past) (hc : c1 ≤ c2) :
    Weaker ls1 ls2 where
  length := by rw [(h1.bones hb).length, (h2.bones hb).length]
  filtered := by
    intro i hf
    by_cases hlt : i < past.reverse.length
    · have hi := List.getElem?_eq_getElem hlt
      rw [h1.flags i _ hi] at hf
      rw [h2.flags i _ hi]
      exact flagOf_mono hc hf
    · have hnone : ls1.vs[i]? = none := List.getElem?_eq_none (by
        rw [(h1.bones hb).length, ← List.length_reverse]
        exact Nat.not_lt.mp hlt)
      unfold LogStore.v at hf
      rw [List.getD_eq_getElem?_getD, hnone] at hf
      cases hf
  keys := by
    intro t
    cases t with
    | seq => exact (h1.keys hb).trans (h2.keys hb).symm
    | blk =>
      refine List.Pairwise.eq_of_mem_iff h1.blk.sorted.keys_sorted h2.blk.sorted.keys_sorted fun k => ?_
      exact (h1.blk.mem_keys fun _ => rfl).trans (h2.blk.mem_keys fun _ => rfl).symm
    | msg =>
      show ls1.msgKvh.map _ = ls2.msgKvh.map _
      rw [h1.msgKvh_eq, h2.msgKvh_eq]
  received := by
    intro t
    cases t with
    | seq => exact holds_compare h1.seq h2.seq (fun _ => rfl) (fun _ => rfl) fun s _ => seqEth_anti hc s
    | blk => exact holds_compare h1.blk h2.blk (fun _ => rfl) (fun _ => rfl) fun b _ => blkEth_anti hc b
    | msg => exact msg_compare h1 h2 hb fun _ => Nat.le_refl _
  decoded := by
    intro t
    cases t with
    | seq =>
      refine holds_compare h1.seq h2.seq (fun _ => rfl) (fun _ => rfl) fun s _ => ?_
      show (if (verdict c2 ls.fecK past s).keeps then 1 else 0) ≤ if (verdict c1 ls.fecK past s).keeps then 1 else 0
      by_cases hk : (verdict c2 ls.fecK past s).keeps = true
      · rw [if_pos hk, if_pos (keeps_anti hc hk)]
      · rw [if_neg hk]
        exact Nat.zero_le _
    | blk => exact holds_compare h1.blk h2.blk (fun _ => rfl) (fun _ => rfl) fun b _ => finalBlk_h265_anti hc b
    | msg => exact msg_compare h1 h2 hb fun _ => Nat.le_refl _
  lost := holds_compare h1.blk h2.blk (fun _ => rfl) (fun _ => rfl) fun _ _ => finalBlk_lost_mono hc

theorem filter_monotone (h : loadLog file = .ok (some ls)) (hc : c1 ≤ c2) :
    ∃ ls1 ls2, shellFilterDbm ls c1 = .ok ls1 ∧ shellFilterDbm ls c2 = .ok ls2 ∧ Weaker ls1 ls2 := by
  obtain ⟨-, -, ep, hl⟩ := loadLog_some h
  have hb := hl.loaded.bones
  obtain ⟨ls1, hrun1, hf1⟩ := shellFilterDbm_spec hb c1
  obtain ⟨ls2, hrun2, hf2⟩ := shellFilterDbm_spec hb c2
  exact ⟨ls1, ls2, hrun1, hrun2, hf1.weaker hf2 hb hc⟩

theorem twoBlocks_monotone : ∃ ls ls1 ls2, loadLog twoBlocks = .ok (some ls) ∧ shellFilterDbm ls (-60) = .ok ls1 ∧
    shellFilterDbm ls (-42) = .ok ls2 ∧ Weaker ls1 ls2 := by
  obtain ⟨ls, hload⟩ := twoBlocks_loads
  obtain ⟨ls1, ls2, h1, h2, hw⟩ := filter_monotone hload (show (-60 : Int8) ≤ -42 by decide)
  exact ⟨ls, ls1, ls2, hload, h1, h2, hw⟩

/-! ## (2) History -/

theorem commands_spec (h : Bones ls past) (cs : List Int8) (c : Int8) :
    ∃ ls', (cs ++ [c]).foldlM shellFilterDbm ls = .ok ls' ∧ FilteredTo c ls ls' past := by
  induction cs generalizing ls with
  | nil =>
    obtain ⟨ls', hrun, hf⟩ := shellFilterDbm_spec h c
    refine ⟨ls', ?_, hf⟩
    rw [List.nil_append, List.foldlM_cons, hrun]
    rfl
  | cons c1 cs ih =>
    obtain ⟨ls1, hrun1, hf1⟩ := shellFilterDbm_spec h c1
    obtain ⟨ls2, hrun2, hf2⟩ := ih (hf1.bones h)
    refine ⟨ls2, ?_, hf1.trans h hf2⟩
    rw [List.cons_append, List.foldlM_cons, hrun1]
    exact hrun2

theorem filter_history_independent (h : loadLog file = .ok (some ls)) (cs : List Int8) (c : Int8) :
    ∃ ls', (cs ++ [c]).foldlM shellFilterDbm ls = .ok ls' ∧ shellFilterDbm ls c = .ok ls' := by
  obtain ⟨-, -, ep, hl⟩ := loadLog_some h
  have hb := hl.loaded.bones
  obtain ⟨ls', hrun, hf⟩ := commands_spec hb cs c
  obtain ⟨ls'', hone, hf'⟩ := shellFilterDbm_spec hb c
  obtain rfl := hf.unique hf'
  exact ⟨ls', hrun, hone⟩

theorem twoBlocks_history : ∃ ls ls', loadLog twoBlocks = .ok (some ls) ∧
    ([-42, -60] ++ [-50] : List Int8).foldlM shellFilterDbm ls = .ok ls' ∧ shellFilterDbm ls (-50) = .ok ls' := by
  obtain ⟨ls, hload⟩ := twoBlocks_loads
  obtain ⟨ls', h1, h2⟩ := filter_history_independent hload [-42, -60] (-50)
  exact ⟨ls, ls', hload, h1, h2⟩

end WfbYa.Log
