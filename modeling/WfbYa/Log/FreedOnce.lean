/-
  WfbYa.Log.FreedOnce — what `free_log` releases of a loaded store, for every file.

  `free_log_iff`. Everything is freed once, exactly if no record is a message, the first
  record of each sequence number is in the least of its blocks, and no two of them are in
  one block. A block of two sequence numbers is enough to lose a record (`free_log_leaks`).

  The inner loop goes on by `chain` whatever the type of the key, and a message's back
  pointer is kept in `block_kv`, which nothing clears.
-/

import WfbYa.Log.Analysed
import WfbYa.Log.FreePasses
import WfbYa.Log.Representation

namespace WfbYa.Log

open WfbYa.Lib WfbYa.Lib.Links

variable {file : Bytes} {ls : LogStore} {past : List Entry} {e : Entry} {t : KvType} {h : LogHeap} {evs : List FreeEv} {k v : Nat}

/-! ## The heap of a loaded store -/

theorem Loaded.heap_vh (hl : Loaded ls past) (t : KvType) (k : Nat) : ls.heap.vh ⟨t, k⟩ = idxs (under t k) past := by
  show ((ls.kv? ⟨t, k⟩).map LogDataKv.vh).getD [] = _
  by_cases hk : k ∈ keysOf t past
  · rw [show ls.kv? ⟨t, k⟩ = some (kvOf ls.fecK t past k) from (hl.kvs t).find (fun _ => rfl) hk]
    rfl
  · have hnone : ls.kv? ⟨t, k⟩ = none := by
      apply List.find?_eq_none.mpr
      intro kv hkv he
      obtain ⟨k', hk', rfl⟩ := ((hl.kvs t).mem kv).mp hkv
      obtain rfl : k' = k := of_decide_eq_true he
      exact hk hk'
    have hempty : idxs (under t k) past = [] := by
      apply List.eq_nil_iff_forall_not_mem.mpr
      intro i hi
      obtain ⟨e, he, hu⟩ := mem_idxs.mp hi
      exact hk ⟨e, List.mem_reverse.mp (List.mem_of_getElem? he), hu⟩
    rw [hnone, hempty]
    rfl

theorem Loaded.holder (hl : Loaded ls past) (hv : past.reverse[v]? = some e) (hu : under t k e = true) :
    ls.holder t v = some (kvOf ls.fecK t past k) := by
  obtain ⟨⟨kv, hkv, -, hmem⟩, hone⟩ := hl.inKey hv hu
  unfold LogStore.holder
  cases hf : (ls.kvs t).find? fun kv => v ∈ kv.vh with
  | none => exact absurd (decide_eq_true hmem) (List.find?_eq_none.mp hf kv hkv)
  | some kv' =>
    have hkv' := List.mem_of_find?_eq_some hf
    have hmem' : v ∈ kv'.vh := by simpa using List.find?_some hf
    rw [hl.kv hkv', hone kv' hkv' hmem']

theorem Loaded.holder_none (hl : Loaded ls past) (hv : past.reverse[v]? = some e) (hu : ∀ k, under t k e = false) :
    ls.holder t v = none := by
  apply List.find?_eq_none.mpr
  intro kv hkv hmem
  exact hl.inNoKey hv hu kv hkv (of_decide_eq_true hmem)

theorem Loaded.ref_nodup (hl : Loaded ls past) : (ls.allKvs.map LogDataKv.ref).Nodup := by
  have hone : ∀ t, ((ls.kvs t).map LogDataKv.ref).Nodup := by
    intro t
    have hkeys : ((ls.kvs t).map LogDataKv.key).Nodup := (hl.kvs t).keys_nodup
    apply List.Nodup.of_map KvRef.key
    rw [List.map_map]
    exact hkeys
  have htype : ∀ t, ∀ r ∈ (ls.kvs t).map LogDataKv.ref, r.type = t := by
    intro t r hr
    obtain ⟨kv, hkv, rfl⟩ := List.mem_map.mp hr
    rw [hl.kv hkv]
    rfl
  unfold LogStore.allKvs
  rw [List.map_append, List.map_append]
  refine List.nodup_append.mpr ⟨hone .seq, List.nodup_append.mpr ⟨hone .blk, hone .msg, ?_⟩, ?_⟩
  · intro r hr r' hr' he
    have h1 := htype .blk r hr
    rw [he, htype .msg r' hr'] at h1
    cases h1
  · intro r hr r' hr' he
    have h1 := htype .seq r hr
    rcases List.mem_append.mp hr' with hr' | hr'
    · rw [he, htype .blk r' hr'] at h1
      cases h1
    · rw [he, htype .msg r' hr'] at h1
      cases h1

theorem mem_allKvs {kv : LogDataKv} : kv ∈ ls.allKvs ↔ ∃ t, kv ∈ ls.kvs t := by
  unfold LogStore.allKvs
  rw [List.mem_append, List.mem_append]
  constructor
  · rintro (hm | hm | hm)
    · exact ⟨.seq, hm⟩
    · exact ⟨.blk, hm⟩
    · exact ⟨.msg, hm⟩
  · rintro ⟨t, hm⟩
    cases t with
    | seq => exact .inl hm
    | blk => exact .inr (.inl hm)
    | msg => exact .inr (.inr hm)

/-! ## Everything exactly once -/

/-- Every record of every key is visited; every record, its payload and every key is freed
    once, behind all the lists it is taken out of. -/
structure Released (ls : LogStore) (evs : List FreeEv) : Prop where
  visited : ∀ t, ∀ kv ∈ ls.kvs t, ∀ v ∈ kv.vh, .unlink t v ∈ evs
  values : ∀ v < ls.vs.length, evs.count (.freeV v) = 1
  bufs : ∀ v < ls.vs.length, evs.count (.freeBuf v) = (ls.v v).buf.isSome.toNat
  keys : ∀ t, ∀ kv ∈ ls.kvs t, evs.count (.freeKv kv.ref) = 1
  unlinked : ∀ t, ∀ kv ∈ ls.kvs t, ∀ v ∈ kv.vh, Preceded (.unlink t v) (.freeV v) evs ∧ Preceded (.unlink t v) (.freeBuf v) evs
  unlinkedKv : ∀ t, ∀ kv ∈ ls.kvs t, Preceded (.unlinkKv kv.ref) (.freeKv kv.ref) evs

/-- Nothing freed is accessed, and everything is released. -/
def FreedOnce (ls : LogStore) : Prop := ∃ h evs, freeLog ls = .ok (h, evs) ∧ Released ls evs

/-- The record leads its sequence number. -/
def Leads (es : List Entry) (v : Nat) (e : Entry) : Prop := es[v]? = some e ∧ ∀ u < v, ∀ e', es[u]? = some e' → e'.seq ≠ e.seq

/-- No message; each sequence number starts in the least of its blocks, and no two in one. -/
structure Releasable (es : List Entry) : Prop where
  frames : ∀ e ∈ es, e.isMsg = false
  least : ∀ v e, Leads es v e → ∀ e' ∈ es, e'.seq = e.seq → e.block ≤ e'.block
  apart : ∀ v e v' e', Leads es v e → Leads es v' e' → e.block = e'.block → e.seq = e'.seq

/-! ## What is released -/

/-- A message keeps its pointer to the end. -/
theorem Loaded.msg_kept (hl : Loaded ls past) (hv : past.reverse[v]? = some e) (hm : e.isMsg = true)
    (hf : freeLog ls = .ok (h, evs)) :
    h.vFreed v = false := by
  obtain ⟨ep, hval⟩ := hl.v hv
  have hs : e.isSeq = false := msg_not_isSeq hm
  have hstart : Kept v ls.heap [] := by
    constructor
    · show (ls.v v).backRef .blk ≠ none
      rw [hval]
      exact Option.some_ne_none _
    · show (ls.holder .blk v).map LogDataKv.ref = none
      rw [hl.holder_none hv (under_of_msg hm (by decide))]
      rfl
  obtain ⟨_, hkept, -⟩ := freeLog_inv (keptRules v) hstart hl.ref_nodup hf
  obtain ⟨_, hledger, -⟩ := freeLog_ledger hl.ref_nodup hf
  apply Bool.eq_false_iff.mpr
  intro hfreed
  exact hkept.1 (hledger.bare v hfreed .blk)

theorem count_store {a : FreeEv} (ha : a ≠ .freeStore) (e : List FreeEv) : (e ++ [FreeEv.freeStore]).count a = e.count a := by
  have hno : [FreeEv.freeStore].count a = 0 := List.count_eq_zero.mpr (by simpa using ha)
  rw [List.count_append, hno, Nat.add_zero]

/-- A run that ends releases everything, if it frees every record. -/
theorem Loaded.released_iff (hl : Loaded ls past) (hkind : ∀ e ∈ past, e.isSeq = true ∨ e.isMsg = true)
    (hf : freeLog ls = .ok (h, evs)) :
    Released ls evs ↔ ∀ v < ls.vs.length, h.vFreed v = true := by
  obtain ⟨e, hledger, rfl⟩ := freeLog_ledger hl.ref_nodup hf
  constructor
  · intro hr v hv
    have hone := hr.values v hv
    rw [count_store (a := .freeV v) (by simp), hledger.values] at hone
    exact Bool.toNat_eq_one.mp hone
  · intro hall
    have hback : ∀ t, ∀ kv ∈ ls.kvs t, ∀ v ∈ kv.vh, ls.heap.ref t v ≠ none ∧ h.vFreed v = true := by
      intro t kv hkv v hv
      rw [hl.kv hkv] at hv
      obtain ⟨e', he', hu⟩ := mem_idxs.mp hv
      obtain ⟨ep, hval⟩ := hl.v he'
      have hlt : v < ls.vs.length := by
        rw [hl.vs, vsOf_length]
        exact idxs_lt hv
      have hfreed := hall v hlt
      refine ⟨?_, hfreed⟩
      have hs : e'.isSeq = true := by
        apply (hkind e' (List.mem_reverse.mp (List.mem_of_getElem? he'))).resolve_right
        intro hm
        rw [hl.msg_kept he' hm hf] at hfreed
        cases hfreed
      show (ls.v v).backRef t ≠ none
      rw [hval]
      cases t with
      | seq => simp [LogDataV.backRef, entryV, hs]
      | blk => exact Option.some_ne_none _
      | msg =>
        rw [under_msg_of_seq hs] at hu
        cases hu
    refine ⟨?_, ?_, ?_, ?_, ?_, ?_⟩
    · intro t kv hkv v hv
      obtain ⟨hr, hfreed⟩ := hback t kv hkv v hv
      exact List.mem_append_left _ (hledger.unlinked t v hr (hledger.bare v hfreed t))
    · intro v hv
      rw [count_store (a := .freeV v) (by simp), hledger.values, hall v hv]
      rfl
    · intro v hv
      rw [count_store (a := .freeBuf v) (by simp), hledger.bufs, hall v hv, hledger.buf]
      rfl
    · intro t kv hkv
      obtain ⟨e', hrun, -⟩ := freeLog_ok.mp hf
      rw [count_store (a := .freeKv kv.ref) (by simp), hledger.keys, freeKvh_kvFreed hrun]
      have hmem : kv.ref ∈ ls.allKvs.map LogDataKv.ref := List.mem_map_of_mem (mem_allKvs.mpr ⟨t, hkv⟩)
      rw [decide_eq_true hmem, Bool.or_true]
      rfl
    · intro t kv hkv v hv
      obtain ⟨hr, -⟩ := hback t kv hkv v hv
      exact ⟨(hledger.valueLast t v hr).append (.inr (preceded_of_not_mem (by simp))),
        (hledger.bufLast t v hr).append (.inr (preceded_of_not_mem (by simp)))⟩
    · exact fun t kv _ => (hledger.keyLast kv.ref).append (.inr (preceded_of_not_mem (by simp)))

/-! ## Frames only -/

/-- The keys of the records. -/
def keyOf (es : List Entry) : KvType → Nat → Nat
  | .seq, v => (es[v]?.map Entry.seq).getD 0
  | .blk, v => (es[v]?.map Entry.block).getD 0
  | .msg, _ => 0

/-- No record is under a message's key. -/
def noMsgs (n : Nat) : KvType → List Nat
  | .msg => List.range n
  | _ => []

theorem mem_noMsgs {n : Nat} : v ∈ noMsgs n t ↔ t = .msg ∧ v < n := by
  cases t with
  | seq => simp [noMsgs]
  | blk => simp [noMsgs]
  | msg => simp [noMsgs]

theorem under_keyOf {es : List Entry} (hv : es[v]? = some e) (hs : e.isSeq = true) (ht : t ≠ .msg) :
    under t k e = true ↔ keyOf es t v = k := by
  cases t with
  | seq => simp [under, keyOf, hv, hs]
  | blk => simp [under, keyOf, hv, hs]
  | msg => exact absurd rfl ht

/-- A store of frames is what the passes are about. -/
theorem Loaded.lists (hl : Loaded ls past) (hframes : ∀ e ∈ past, e.isSeq = true) :
    Lists past.length (keyOf past.reverse) (noMsgs past.length) [] ls.heap := by
  have hget : ∀ v < past.length, ∃ e, past.reverse[v]? = some e ∧ e.isSeq = true := by
    intro v hv
    rw [← List.length_reverse] at hv
    exact ⟨_, List.getElem?_eq_getElem hv, hframes _ (List.mem_reverse.mp (List.getElem_mem hv))⟩
  have hidxs : ∀ t ≠ .msg, ∀ k, idxs (under t k) past = withKey past.length (keyOf past.reverse t) k := by
    intro t ht k
    refine List.Pairwise.eq_of_mem_iff (idxs_sorted _ _) (withKey_sorted ..) fun v => ?_
    rw [mem_idxs, mem_withKey]
    constructor
    · rintro ⟨e, he, hu⟩
      have hlt : v < past.length := idxs_lt (mem_idxs.mpr ⟨e, he, hu⟩)
      exact ⟨hlt, (under_keyOf he (hframes e (List.mem_reverse.mp (List.mem_of_getElem? he))) ht).mp hu⟩
    · rintro ⟨hv, hk⟩
      obtain ⟨e, he, hs⟩ := hget v hv
      exact ⟨e, he, (under_keyOf he hs ht).mpr hk⟩
  have hholder : ∀ t ≠ .msg, ∀ v < past.length, ls.holder t v = some (kvOf ls.fecK t past (keyOf past.reverse t v)) := by
    intro t ht v hv
    obtain ⟨e, he, hs⟩ := hget v hv
    exact hl.holder he ((under_keyOf he hs ht).mpr rfl)
  refine ⟨⟨?_, ?_, ?_, ?_⟩, ?_, ?_⟩
  · intro t k
    rw [hl.heap_vh]
    by_cases ht : t = .msg
    · subst ht
      have hnone : idxs (under .msg k) past = [] := by
        apply List.eq_nil_iff_forall_not_mem.mpr
        intro i hi
        obtain ⟨e, he, hu⟩ := mem_idxs.mp hi
        rw [under_msg_of_seq (hframes e (List.mem_reverse.mp (List.mem_of_getElem? he)))] at hu
        cases hu
      rw [hnone]
      symm
      apply List.filter_eq_nil_iff.mpr
      intro v hv
      simp [mem_noMsgs, (mem_withKey.mp hv).1]
    · rw [hidxs t ht]
      symm
      apply List.filter_eq_self.mpr
      intro v _
      simp [mem_noMsgs, ht]
  · intro t v hv
    show (ls.holder t v).map LogDataKv.ref = _
    by_cases ht : t = .msg
    · subst ht
      obtain ⟨e, he, hs⟩ := hget v hv
      rw [hl.holder_none he (under_msg_of_seq hs), if_pos (mem_noMsgs.mpr ⟨rfl, hv⟩)]
      rfl
    · rw [hholder t ht v hv, if_neg fun hm => ht (mem_noMsgs.mp hm).1]
      rfl
  · intro v hv
    show ((ls.holder .seq v).bind fun kv => after kv.vh v) = _
    rw [hholder .seq (by simp) v hv, Option.bind_some]
    show after (idxs (under .seq (keyOf past.reverse .seq v)) past) v = _
    rw [hidxs .seq (by simp)]
  · intro t v hv
    obtain ⟨e, he, hs⟩ := hget v hv
    obtain ⟨ep, hval⟩ := hl.v he
    show (ls.v v).backRef t = none ↔ _
    rw [hval]
    cases t with
    | seq => simp [LogDataV.backRef, entryV, hs, mem_noMsgs]
    | blk => simp [LogDataV.backRef, entryV, mem_noMsgs]
    | msg => exact iff_of_true rfl (mem_noMsgs.mpr ⟨rfl, hv⟩)
  · intro v _
    refine iff_of_false Bool.false_ne_true fun hall => ?_
    exact absurd (hall .seq) List.not_mem_nil
  · intro r
    exact iff_of_false Bool.false_ne_true List.not_mem_nil

theorem Loaded.key_mem (hl : Loaded ls past) (hframes : ∀ e ∈ past, e.isSeq = true) (ht : t ≠ .msg) (hv : v < past.length) :
    keyOf past.reverse t v ∈ (ls.kvs t).map LogDataKv.key := by
  rw [← List.length_reverse] at hv
  have hmem : past.reverse[v] ∈ past := List.mem_reverse.mp (List.getElem_mem hv)
  refine ((hl.kvs t).mem_keys fun _ => rfl).mpr ⟨past.reverse[v], hmem, ?_⟩
  exact (under_keyOf (List.getElem?_eq_getElem hv) (hframes _ hmem) ht).mpr rfl

/-- Before the first block nothing is freed. -/
theorem clean_start (n : Nat) (key : KvType → Nat → Nat) : Clean n key [] [] where
  closed := fun _ hv => absurd hv List.not_mem_nil
  done := fun _ _ hv => absurd hv List.not_mem_nil
  least := fun _ hv => absurd hv List.not_mem_nil
  apart := fun _ hv => absurd hv List.not_mem_nil

/-- The sequence numbers' lists are taken apart whole, and the blocks decide. -/
theorem Loaded.frames_freed_iff (hl : Loaded ls past) (hframes : ∀ e ∈ past, e.isSeq = true) :
    (∃ h evs, freeLog ls = .ok (h, evs) ∧ ∀ v < past.length, h.vFreed v = true) ↔ Apart past.length (keyOf past.reverse) := by
  have hlen : ls.vs.length = past.length := by rw [hl.vs, vsOf_length]
  have hm : past.length ≤ ls.vs.length + 1 := by omega
  have htype : ∀ t, ∀ kv ∈ ls.kvs t, kv.type = t := by
    intro t kv hkv
    rw [hl.kv hkv]
    rfl
  have hnone : ls.msgKvh = [] := by
    apply List.eq_nil_iff_forall_not_mem.mpr
    intro kv hkv
    obtain ⟨k, ⟨e, he, hu⟩, -⟩ := ((hl.kvs .msg).mem kv).mp hkv
    rw [under_msg_of_seq (hframes e he)] at hu
    cases hu
  obtain ⟨h1, e1, Z, D, hrun, hl1, hsame, hZ, hD⟩ := Lists.seqPass (m := ls.vs.length + 1) (hl.lists hframes) (htype .seq)
    (hl.kvs .seq).keys_nodup (fun _ _ _ _ _ hm => nomatch (mem_noMsgs.mp hm).1) (fun _ _ => List.not_mem_nil) hm
  have hpass : BlkPass past.length (keyOf past.reverse) Z D [] ls.blockKvh h1 := by
    refine ⟨hl1, ?_, ?_, ?_, htype .blk, (hl.kvs .blk).sorted.keys_sorted, ?_, fun _ _ => List.not_mem_nil⟩
    · rw [hsame .blk (by simp)]
      exact clean_start ..
    · intro t ht v hv
      cases t with
      | seq => exact (hZ v hv).mpr (.inr (hl.key_mem hframes (by simp) hv))
      | blk => exact absurd rfl ht
      | msg =>
        rw [hsame .msg (by simp)]
        exact mem_noMsgs.mpr ⟨rfl, hv⟩
    · intro b
      rw [hD]
      exact iff_of_false List.not_mem_nil List.not_mem_nil
    · exact fun v hv => .inr (hl.key_mem hframes (by simp) hv)
  rw [← blocks_freed_iff hpass hm]
  have hkvs : ls.allKvs = ls.kvh ++ ls.blockKvh := by
    unfold LogStore.allKvs
    rw [hnone, List.append_nil]
  constructor
  · rintro ⟨h, evs, hf, hall⟩
    obtain ⟨e, hr, -⟩ := freeLog_ok.mp hf
    rw [hkvs] at hr
    obtain ⟨h1', e1', e2, hr1, hr2, -⟩ := freeKvh_append.mp hr
    obtain ⟨rfl, -⟩ := Prod.mk.inj (Except.ok.inj (hrun.symm.trans hr1))
    exact ⟨h, e2, hr2, hall⟩
  · rintro ⟨h, e2, hr2, hall⟩
    refine ⟨h, _, freeLog_ok.mpr ⟨e1 ++ e2, ?_, rfl⟩, hall⟩
    rw [hkvs]
    exact freeKvh_append.mpr ⟨h1, e1, e2, hrun, hr2, rfl⟩

theorem entries_kind {n : Nat} {bs : Bytes} (h : e ∈ entries n bs) : e.isSeq = true ∨ e.isMsg = true := by
  have hcarries : ∀ {type : UInt8}, carriesPayload type = true → isSeqType type = true ∨ isMsgType type = true := by
    intro type hc
    rcases carriesPayload_cases hc with rfl | hm
    · exact .inl rfl
    · exact .inr hm
  induction n generalizing bs with
  | zero => cases h
  | succ n ih =>
    cases hr : readEntry bs with
    | none =>
      rw [entries_none hr] at h
      cases h
    | some q =>
      rw [entries, hr] at h
      rcases List.mem_cons.mp h with rfl | h
      · obtain ⟨-, -, hread⟩ := readEntry_cases hr
        obtain ⟨e, rest⟩ := q
        cases hread with
        | plain _ hs => exact .inl hs
        | whole hc _ => exact hcarries hc
        | cut hc _ => exact hcarries hc
      · exact ih h

theorem leader_iff {es : List Entry} (hv : es[v]? = some e) : Leader es.length (keyOf es) v ↔ Leads es v e := by
  have hlt := (List.getElem?_eq_some_iff.mp hv).1
  constructor
  · intro hl
    refine ⟨hv, fun u hu e' he' hs => hl.2 u hu ?_⟩
    simp [keyOf, hv, he', hs]
  · intro hl
    refine ⟨hlt, fun u hu hs => ?_⟩
    have hu' := List.getElem?_eq_getElem (Nat.lt_trans hu hlt)
    apply hl.2 u hu _ hu'
    simpa [keyOf, hv, hu'] using hs

theorem apart_iff {es : List Entry} (hframes : ∀ e ∈ es, e.isMsg = false) : Apart es.length (keyOf es) ↔ Releasable es := by
  constructor
  · intro ha
    refine ⟨hframes, ?_, ?_⟩
    · intro v e hl e' he' hs
      obtain ⟨w, hw⟩ := List.getElem?_of_mem he'
      have hle := ha.least v ((leader_iff hl.1).mpr hl) w (List.getElem?_eq_some_iff.mp hw).1 (by simp [keyOf, hl.1, hw, hs])
      simpa [keyOf, hl.1, hw] using hle
    · intro v e v' e' hl hl' hb
      have hs := ha.apart v v' ((leader_iff hl.1).mpr hl) ((leader_iff hl'.1).mpr hl') (by simp [keyOf, hl.1, hl'.1, hb])
      simpa [keyOf, hl.1, hl'.1] using hs
  · intro hr
    refine ⟨?_, ?_⟩
    · intro v hl w hw hs
      have hv := List.getElem?_eq_getElem hl.1
      have hw' := List.getElem?_eq_getElem hw
      have hle := hr.least v _ ((leader_iff hv).mp hl) _ (List.getElem_mem hw) (by simpa [keyOf, hv, hw'] using hs)
      simpa [keyOf, hv, hw'] using hle
    · intro v w hl hl' hb
      have hv := List.getElem?_eq_getElem hl.1
      have hw := List.getElem?_eq_getElem hl'.1
      have hs := hr.apart v _ w _ ((leader_iff hv).mp hl) ((leader_iff hw).mp hl') (by simpa [keyOf, hv, hw] using hb)
      simpa [keyOf, hv, hw] using hs

/-- Of frames only. -/
theorem Loaded.all_freed_iff {es : List Entry} (hl : Loaded ls es.reverse)
    (hkind : ∀ e ∈ es.reverse, e.isSeq = true ∨ e.isMsg = true)
    (hframes : ∀ e ∈ es, e.isMsg = false) :
    (∃ h evs, freeLog ls = .ok (h, evs) ∧ ∀ v < es.reverse.length, h.vFreed v = true) ↔ Releasable es := by
  rw [hl.frames_freed_iff, List.reverse_reverse, List.length_reverse]
  · exact apart_iff hframes
  · intro e he
    apply (hkind e he).resolve_right
    rw [hframes e (List.mem_reverse.mp he)]
    exact Bool.false_ne_true

theorem free_log_iff (h : loadLog file = .ok (some ls)) : FreedOnce ls ↔ Releasable (fileEntries file) := by
  obtain ⟨-, -, ep, hloading⟩ := loadLog_some h
  have hl := hloading.loaded
  have hkind : ∀ e ∈ (fileEntries file).reverse, e.isSeq = true ∨ e.isMsg = true :=
    fun e he => entries_kind (List.mem_reverse.mp he)
  have hlen : ls.vs.length = (fileEntries file).reverse.length := by rw [hl.vs, vsOf_length]
  have hfreed : FreedOnce ls ↔ ∃ h evs, freeLog ls = .ok (h, evs) ∧ ∀ v < (fileEntries file).reverse.length,
    h.vFreed v = true := by
    unfold FreedOnce
    refine exists_congr fun h => exists_congr fun evs => and_congr_right fun hf => ?_
    rw [hl.released_iff hkind hf, hlen]
  rw [hfreed]
  by_cases hmsg : ∃ e ∈ fileEntries file, e.isMsg = true
  · obtain ⟨e, he, hm⟩ := hmsg
    obtain ⟨v, hv⟩ := List.getElem?_of_mem he
    refine iff_of_false ?_ fun hr => ?_
    · rintro ⟨h, evs, hf, hall⟩
      rw [← List.reverse_reverse (fileEntries file)] at hv
      have hlive := hl.msg_kept hv hm hf
      rw [hall v] at hlive
      · cases hlive
      · rw [List.reverse_reverse] at hv
        rw [List.length_reverse]
        exact (List.getElem?_eq_some_iff.mp hv).1
    · rw [hr.frames e he] at hm
      cases hm
  · have hframes : ∀ e ∈ fileEntries file, e.isMsg = false := fun e he => Bool.eq_false_iff.mpr fun hm => hmsg ⟨e, he, hm⟩
    exact hl.all_freed_iff hkind hframes

/-! ## A filtered store -/

/-- The same keys and values, but for marks and counters. -/
structure SameBones (ls ls' : LogStore) : Prop where
  kvs : ∀ t, (ls.kvs t).map LogDataKv.clear = (ls'.kvs t).map LogDataKv.clear
  vs : ls.vs.map (setFiltered false) = ls'.vs.map (setFiltered false)

/-- What is looked for in a list of keys, and what is seen of what is found. -/
theorem find_clear {α : Type} {f : LogDataKv → α} {p : LogDataKv → Bool} (hf : ∀ kv, f kv.clear = f kv)
    (hp : ∀ kv, p kv.clear = p kv)
    {l l' : List LogDataKv} (hl : l.map LogDataKv.clear = l'.map LogDataKv.clear) : (l.find? p).map f = (l'.find? p).map f := by
  have hseen : ∀ l : List LogDataKv, (l.find? p).map f = ((l.map LogDataKv.clear).find? p).map f := by
    intro l
    simp [List.find?_map, Function.comp_def, hf, hp]
  rw [hseen l, hseen l', hl]

theorem SameBones.heap {ls ls' : LogStore} (h : SameBones ls ls') : ls.heap = ls'.heap := by
  have hv : ∀ v, setFiltered false (ls.v v) = setFiltered false (ls'.v v) := by
    intro v
    have hget := congrArg (fun l => (l[v]?).getD (setFiltered false .zero)) h.vs
    simpa [LogStore.v, List.getD_eq_getElem?_getD, Option.getD_map] using hget
  have hholder : ∀ {α : Type} (f : LogDataKv → α), (∀ kv, f kv.clear = f kv) →
    ∀ t v, (ls.holder t v).map f = (ls'.holder t v).map f :=
    fun f hf t v => find_clear hf (fun _ => rfl) (h.kvs t)
  unfold LogStore.heap
  congr 1
  · funext r
    exact congrArg (Option.getD · []) (find_clear (fun _ => rfl) (fun _ => rfl) (h.kvs r.type))
  · funext t v
    exact hholder LogDataKv.ref (fun _ => rfl) t v
  · funext v
    have hvh := hholder LogDataKv.vh (fun _ => rfl) .seq v
    calc (ls.holder .seq v).bind (fun kv => after kv.vh v)
        = ((ls.holder .seq v).map LogDataKv.vh).bind fun l => after l v := by rw [Option.bind_map]; rfl
      _ = ((ls'.holder .seq v).map LogDataKv.vh).bind fun l => after l v := by rw [hvh]
      _ = (ls'.holder .seq v).bind fun kv => after kv.vh v := by rw [Option.bind_map]; rfl
  · funext t v
    have href := congrArg (fun x => LogDataV.backRef x t) (hv v)
    cases t <;> exact href
  · funext v
    have hbuf := congrArg LogDataV.buf (hv v)
    exact congrArg Option.isSome hbuf

theorem freeKvh_clear (n : Nat) (kvs : List LogDataKv) (h : LogHeap) :
    freeKvh n (kvs.map LogDataKv.clear) h = freeKvh n kvs h := by
  induction kvs generalizing h with
  | nil => rfl
  | cons kv kvs ih =>
    show (freeVs kv.type n (h.vh kv.ref).head? h).bind _ = (freeVs kv.type n (h.vh kv.ref).head? h).bind _
    congr 1
    funext p
    rw [ih]
    rfl

theorem SameBones.freeLog_eq {ls ls' : LogStore} (h : SameBones ls ls') : freeLog ls = freeLog ls' := by
  have hlen : ls.vs.length = ls'.vs.length := by simpa using congrArg List.length h.vs
  have hpass : ∀ t n heap, freeKvh n (ls.kvs t) heap = freeKvh n (ls'.kvs t) heap := by
    intro t n heap
    rw [← freeKvh_clear, h.kvs t, freeKvh_clear]
  unfold freeLog
  simp only [hlen, h.heap, show ∀ n heap, freeKvh n ls.kvh heap = freeKvh n ls'.kvh heap from hpass .seq,
    show ∀ n heap, freeKvh n ls.blockKvh heap = freeKvh n ls'.blockKvh heap from hpass .blk,
    show ∀ n heap, freeKvh n ls.msgKvh heap = freeKvh n ls'.msgKvh heap from hpass .msg]

theorem Bones.same {ls ls' : LogStore} (h : Bones ls past) (h' : Bones ls' past) (hk : ls.fecK = ls'.fecK) :
    SameBones ls ls' where
  kvs t := by
    obtain ⟨g, hg, hclear⟩ := h.kvs t
    obtain ⟨g', hg', hclear'⟩ := h'.kvs t
    rw [hg.map_eq_iff hg' (fun k => congrArg LogDataKv.key (hclear k)) (fun k => congrArg LogDataKv.key (hclear' k))]
    intro k _
    rw [hclear, hclear', hk]
  vs := by rw [h.vs, h'.vs, hk]

theorem Bones.commands_fecK {ls ls' : LogStore} (h : Bones ls past) {cs : List Int8}
    (hrun : cs.foldlM shellFilterDbm ls = .ok ls') :
    ls'.fecK = ls.fecK := by
  induction cs generalizing ls with
  | nil =>
    cases hrun
    rfl
  | cons c cs ih =>
    obtain ⟨ls1, h1, hf⟩ := shellFilterDbm_spec h c
    rw [List.foldlM_cons, h1] at hrun
    exact (ih (hf.bones h) hrun).trans hf.fecK_eq

/-- Filtered or not, a store is freed alike. -/
theorem freeLog_fault {cs : List Int8} {f : FreeFault} (h : CommandsGive file cs ls) (hf : freeLog ls = .error f) :
    ¬ Releasable (fileEntries file) := by
  obtain ⟨ls0, hload, hrun⟩ := h
  obtain ⟨-, -, ep, hl⟩ := loadLog_some hload
  have hb := hl.loaded.bones
  rw [((hb.commands hrun).same hb (hb.commands_fecK hrun)).freeLog_eq] at hf
  intro hr
  obtain ⟨heap, evs, hok, -⟩ := (hl.loaded.all_freed_iff (fun e he => entries_kind (List.mem_reverse.mp he)) hr.frames).mpr hr
  rw [hf] at hok
  cases hok

theorem twoBlocks_freed : ∃ ls, loadLog twoBlocks = .ok (some ls) ∧ ls.vs.length = 3 ∧
    (FreedOnce ls ↔ Releasable (fileEntries twoBlocks)) := by
  have hrun : ((loadLog twoBlocks).toOption.bind id).map (fun ls => ls.vs.length) = some 3 := by decide +kernel
  obtain ⟨ls, hls, hn⟩ := Option.map_eq_some_iff.mp hrun
  have hload := load_of_toOption hls
  exact ⟨ls, hload, hn, free_log_iff hload⟩

/-- Two frames of one block. -/
def oneBlock : Bytes := testFile ((testHeader frameTypeInet6 0 0 8).raw ++ (testHeader frameTypeInet6 1 0 8).raw)

/-- The second frame is never visited by its block. -/
theorem free_log_leaks : ¬ ∀ (file : Bytes) (ls : LogStore), loadLog file = .ok (some ls) → FreedOnce ls := by
  intro hall
  have hrun : ((loadLog oneBlock).toOption.bind id).map
    (fun ls => (ls.vs.length, (freeLog ls).toOption.map fun p => p.2.count (.freeV 1))) =
      some (2, some 0) := by decide +kernel
  obtain ⟨ls, hls, hn⟩ := Option.map_eq_some_iff.mp hrun
  obtain ⟨h, evs, hf, hr⟩ := hall _ _ (load_of_toOption hls)
  rw [hf] at hn
  have hlen : ls.vs.length = 2 := congrArg Prod.fst hn
  have hcount : evs.count (.freeV 1) = 0 := Option.some.inj (congrArg Prod.snd hn)
  have hone := hr.values 1 (by omega)
  rw [hcount] at hone
  cases hone

end WfbYa.Log
