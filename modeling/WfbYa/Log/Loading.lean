/-
  WfbYa.Log.Loading — what `load_log` makes of a file, for every file.

  Each turn of the loop puts one record of `entries` into the store; the loop ends with the
  records, or in the assertion on the first size that is out of range.

  - `loadStep_entry`, `loadStep_none`, `loadStep_oversize`: one turn.
  - `loadLog_ok`, `loadLog_oversize`, `loadLog_some`: the file.
-/

import WfbYa.Log.Entries

namespace WfbYa.Log

open WfbYa.Lib

variable {ls : LogStore} {hd : RxLogFrameHeader} {f f' g g' : LogDataKv → LogDataKv} {x : LogDataV}
    {past : List Entry} {e : Entry}

/-! ## A value put under its keys -/

/-- A value at the end; the keys of its record made, if they are not there, and changed. -/
def LogStore.placed (ls : LogStore) (hd : RxLogFrameHeader) (f g : LogDataKv → LogDataKv) (x : LogDataV) : LogStore :=
  { ls with
    kvh := KeyedList.modify LogDataKv.key hd.seq.toNat f (KeyedList.alloc LogDataKv.key (.new ⟨.seq, hd.seq.toNat⟩) ls.kvh)
    blockKvh :=
      KeyedList.modify LogDataKv.key hd.blockIdx.toNat g
        (KeyedList.alloc LogDataKv.key (.new ⟨.blk, hd.blockIdx.toNat⟩) ls.blockKvh)
    vs := ls.vs ++ [x] }

/-- The same for a message. -/
def LogStore.noted (ls : LogStore) (hd : RxLogFrameHeader) (x : LogDataV) : LogStore :=
  { ls with
    msgKvh :=
      KeyedList.modify LogDataKv.key hd.seq.toNat (.insert ls.vs.length)
        (KeyedList.alloc LogDataKv.key (.new ⟨.msg, hd.seq.toNat⟩) ls.msgKvh)
    vs := ls.vs ++ [x] }

theorem modify_last (l : List LogDataV) (x : LogDataV) (h : LogDataV → LogDataV) : (l ++ [x]).modify l.length h = l ++ [h x] := by
  induction l with
  | nil => rfl
  | cons a l ih => simpa using ih

theorem logVAlloc_seq (h : isSeqType hd.type = true) :
    logVAlloc ls hd =
      some (ls.placed hd (.insert ls.vs.length) (.insert ls.vs.length)
        { LogDataV.zero with kv := some ⟨.seq, hd.seq.toNat⟩, blockKv := some ⟨.blk, hd.blockIdx.toNat⟩ }, ls.vs.length) := by
  unfold logVAlloc
  rw [isSeq_not_msg h, h]
  rfl

theorem logVAlloc_msg (h : isMsgType hd.type = true) :
    logVAlloc ls hd =
      some (ls.noted hd { LogDataV.zero with blockKv := some ⟨.msg, hd.seq.toNat⟩ }, ls.vs.length) := by
  unfold logVAlloc
  rw [h]
  rfl

theorem logVAlloc_none (hm : isMsgType hd.type = false) (hs : isSeqType hd.type = false) : logVAlloc ls hd = none := by
  unfold logVAlloc
  rw [hm, hs]
  rfl

@[simp] theorem placed_modV (h : LogDataV → LogDataV) : (ls.placed hd f g x).modV ls.vs.length h = ls.placed hd f g (h x) := by
  unfold LogStore.modV LogStore.placed
  dsimp only
  rw [modify_last]

@[simp] theorem noted_modV (h : LogDataV → LogDataV) : (ls.noted hd x).modV ls.vs.length h = ls.noted hd (h x) := by
  unfold LogStore.modV LogStore.noted
  dsimp only
  rw [modify_last]

@[simp] theorem placed_v : (ls.placed hd f g x).v ls.vs.length = x := by simp [LogStore.v, LogStore.placed]

@[simp] theorem noted_v : (ls.noted hd x).v ls.vs.length = x := by simp [LogStore.v, LogStore.noted]

theorem placed_modSeq (hf : ∀ kv, (f kv).key = kv.key) :
    (ls.placed hd f g x).modKv ⟨.seq, hd.seq.toNat⟩ f' = ls.placed hd (fun kv => f' (f kv)) g x := by
  unfold LogStore.modKv LogStore.placed
  dsimp only [LogStore.setKvs, LogStore.kvs]
  rw [KeyedList.modify_modify fun kv hkv => (hf kv).trans hkv]

theorem placed_modBlk (hg : ∀ kv, (g kv).key = kv.key) :
    (ls.placed hd f g x).modKv ⟨.blk, hd.blockIdx.toNat⟩ g' = ls.placed hd f (fun kv => g' (g kv)) x := by
  unfold LogStore.modKv LogStore.placed
  dsimp only [LogStore.setKvs, LogStore.kvs]
  rw [KeyedList.modify_modify fun kv hkv => (hg kv).trans hkv]

/-! ## The store with one more record -/

/-- Within a turn or between two, behind the file header `fh`. -/
structure Loading (fh : RxLogFileHeader) (epoch : TimeStamp) (ls : LogStore) (past : List Entry) : Prop where
  loaded : Loaded ls past
  epoch : ls.epoch = epoch
  channelId : ls.channelId = fh.channelId
  fecType : ls.fecType = fh.fecType
  fecK : ls.fecK = fh.fecK
  fecN : ls.fecN = fh.fecN

def LogStore.begun (ls : LogStore) (hd : RxLogFrameHeader) : LogStore :=
  if ls.epoch.sec = 0 then { ls with epoch := ⟨hd.tvSec.toInt64, hd.tvNsec.toInt64⟩ } else ls

variable {fh : RxLogFileHeader} {ep : TimeStamp}

theorem Loading.begun (h : Loading fh (epochOf past) ls past) (e : Entry) :
    Loading fh (epochOf (e :: past)) (ls.begun e.hd) past := by
  unfold LogStore.begun epochOf
  rw [← h.epoch]
  split
  · exact ⟨⟨h.loaded.vs, h.loaded.kvs, h.loaded.summary⟩, rfl, h.channelId, h.fecType, h.fecK, h.fecN⟩
  · exact ⟨h.loaded, rfl, h.channelId, h.fecType, h.fecK, h.fecN⟩

theorem under_one {t : KvType} {k k' : Nat} (h : under t k e = true) (hne : k' ≠ k) : under t k' e = false := by
  cases t <;>
  · simp only [under, Bool.and_eq_true, decide_eq_true_eq] at h ⊢
    simp [h.2, hne.symm]

theorem under_msg_of_seq (h : isSeqType e.hd.type = true) (k : Nat) : under .msg k e = false := by
  simp [under, Entry.isMsg, isSeq_not_msg h]

theorem msg_not_isSeq {type : UInt8} (h : isMsgType type = true) : isSeqType type = false := by
  by_contra hs
  rw [Bool.not_eq_false] at hs
  rw [isSeq_not_msg hs] at h
  cases h

theorem under_of_msg (h : isMsgType e.hd.type = true) {t : KvType} (ht : t ≠ .msg) (k : Nat) : under t k e = false := by
  cases t with
  | seq => simp [under, Entry.isSeq, msg_not_isSeq h]
  | blk => simp [under, Entry.isSeq, msg_not_isSeq h]
  | msg => exact absurd rfl ht

/-- A record under its sequence number and its block. -/
theorem Loading.placed (h : Loading fh ep ls past) (hs : isSeqType e.hd.type = true) (summary : LogSummary)
    (hf : ∀ kv, (f kv).key = kv.key) (hg : ∀ kv, (g kv).key = kv.key)
    (hseq : f (kvOf ls.fecK .seq past e.seq) = kvOf ls.fecK .seq (e :: past) e.seq)
    (hblk : g (kvOf ls.fecK .blk past e.block) = kvOf ls.fecK .blk (e :: past) e.block)
    (hx : x = entryV ls.fecK (epochOf (e :: past)) e) (hsum : summary = summaryOf (e :: past)) :
    Loading fh ep (({ ls with summary := summary }).placed e.hd f g x) (e :: past) := by
  have hus : under .seq e.seq e = true := by simp [under, Entry.isSeq, hs]
  have hub : under .blk e.block e = true := by simp [under, Entry.isSeq, hs]
  refine ⟨⟨?_, ?_, hsum⟩, h.epoch, h.channelId, h.fecType, h.fecK, h.fecN⟩
  · dsimp only [LogStore.placed]
    rw [h.loaded.vs, hx]
    rfl
  · intro t
    cases t with
    | seq => exact holds_cons (h.loaded.kvs .seq) hus (fun k' => under_one hus) hf hseq
    | blk => exact holds_cons (h.loaded.kvs .blk) hub (fun k' => under_one hub) hg hblk
    | msg => exact holds_cons_other (h.loaded.kvs .msg) (under_msg_of_seq hs)

theorem kvOf_vh_msg (fecK : UInt8) (hm : isMsgType e.hd.type = true) :
    (kvOf fecK .msg past e.seq).insert past.length = kvOf fecK .msg (e :: past) e.seq := by
  have hu : under .msg e.seq e = true := by simp [under, Entry.isMsg, hm]
  have hs : isSeqType e.hd.type = false := msg_not_isSeq hm
  unfold isSeqType at hs
  simp only [Bool.or_eq_false_iff, decide_eq_false_iff_not] at hs
  simp [kvOf, LogDataKv.insert, idxs, hu, fecSeen, decodedCount, Entry.isInet6, Entry.isCorrupt,
    Entry.isDecoded, Entry.isDecode, hs]

/-- A message under its number. -/
theorem Loading.noted (h : Loading fh ep ls past) (hm : isMsgType e.hd.type = true)
    (hx : x = entryV ls.fecK (epochOf (e :: past)) e) : Loading fh ep (ls.noted e.hd x) (e :: past) := by
  have hu : under .msg e.seq e = true := by simp [under, Entry.isMsg, hm]
  have hsum : summaryOf (e :: past) = summaryOf past := by
    have hs : isSeqType e.hd.type = false := msg_not_isSeq hm
    unfold isSeqType at hs
    simp only [Bool.or_eq_false_iff, decide_eq_false_iff_not] at hs
    simp [summaryOf, Entry.isInet6, Entry.isDecoded, Entry.isDecode, hs]
  refine ⟨⟨?_, ?_, ?_⟩, h.epoch, h.channelId, h.fecType, h.fecK, h.fecN⟩
  · dsimp only [LogStore.noted]
    rw [h.loaded.vs, hx]
    rfl
  · intro t
    cases t with
    | seq => exact holds_cons_other (h.loaded.kvs .seq) (under_of_msg hm (by decide))
    | blk => exact holds_cons_other (h.loaded.kvs .blk) (under_of_msg hm (by decide))
    | msg =>
      refine holds_cons (h.loaded.kvs .msg) hu (fun k' => under_one hu) (fun _ => rfl) ?_
      rw [h.loaded.vs, vsOf_length]
      exact kvOf_vh_msg ls.fecK hm
  · rw [hsum]
    exact h.loaded.summary

/-! ## What a record does to its keys -/

theorem corrupt_flags (ht : e.hd.type = frameTypeCorrupt) : e.isCorrupt = true ∧ e.isInet6 = false ∧ e.isDecode = false := by
  unfold Entry.isCorrupt Entry.isInet6 Entry.isDecode
  rw [ht]
  decide

theorem inet6_flags (ht : e.hd.type = frameTypeInet6) : e.isCorrupt = false ∧ e.isInet6 = true ∧ e.isDecode = false := by
  unfold Entry.isCorrupt Entry.isInet6 Entry.isDecode
  rw [ht]
  decide

theorem decode_flags (ht : e.hd.type = frameTypeDecode) : e.isCorrupt = false ∧ e.isInet6 = false ∧ e.isDecode = true := by
  unfold Entry.isCorrupt Entry.isInet6 Entry.isDecode
  rw [ht]
  decide

variable {fecK : UInt8} {t : KvType} {k : Nat}

theorem kvOf_corrupt (ht : e.hd.type = frameTypeCorrupt) (hu : under t k e = true) :
    ((kvOf fecK t past k).insert past.length).corrupted = kvOf fecK t (e :: past) k := by
  obtain ⟨h1, h2, h3⟩ := corrupt_flags ht
  simp [kvOf, LogDataKv.insert, LogDataKv.corrupted, idxs, fecSeen, decodedCount, Entry.isDecoded, hu, h1, h2, h3]

theorem kvOf_received (ht : e.hd.type = frameTypeInet6) (hu : under t k e = true) :
    ((kvOf fecK t past k).insert past.length).received = kvOf fecK t (e :: past) k := by
  obtain ⟨h1, h2, h3⟩ := inet6_flags ht
  simp [kvOf, LogDataKv.insert, LogDataKv.received, idxs, fecSeen, decodedCount, Entry.isDecoded, hu, h1, h2, h3]

/-- A decoded frame that is cut leaves no marks. -/
theorem kvOf_cut (ht : e.hd.type = frameTypeDecode) (hp : e.payload = none) (hu : under t k e = true) :
    (kvOf fecK t past k).insert past.length = kvOf fecK t (e :: past) k := by
  obtain ⟨h1, h2, h3⟩ := decode_flags ht
  simp [kvOf, LogDataKv.insert, idxs, fecSeen, decodedCount, Entry.isDecoded, hu, h1, h2, hp]

/-- No frame was received under the sequence number. -/
def unseen (s : Nat) (past : List Entry) : Bool := !past.any fun e => e.isInet6 && e.seq = s

/-- What a decoded frame does to its keys, the block's loss apart. -/
def LogDataKv.decodedBy (b : Bool) (kv : LogDataKv) : LogDataKv := if b then kv.decoded.byFec else kv.decoded

theorem kvOf_decoded {p : Bytes} (ht : e.hd.type = frameTypeDecode) (hp : e.payload = some p) (hu : under t k e = true) :
    (((kvOf fecK t past k).insert past.length).decodedBy (unseen e.seq past)).lost
      (decide (t = .blk ∧ decodedCount t k past + 1 < fecK.toNat)) = kvOf fecK t (e :: past) k := by
  obtain ⟨h1, h2, h3⟩ := decode_flags ht
  have h4 : e.isDecoded = true := by simp [Entry.isDecoded, h3, hp]
  by_cases hs : unseen e.seq past = true
  · have hany : (past.any fun e' => e'.isInet6 && e'.seq = e.seq) = false := by simpa [unseen] using hs
    simp [LogDataKv.decodedBy, hs, kvOf, LogDataKv.insert, LogDataKv.decoded, LogDataKv.byFec, LogDataKv.lost, idxs, fecSeen,
      decodedCount, hu, h1, h2, h4, hany]
    rw [Bool.eq_iff_iff, Bool.and_eq_true, decide_eq_true_iff, decide_eq_true_iff]
    exact decide_eq_true_iff
  · have hany : (past.any fun e' => e'.isInet6 && e'.seq = e.seq) = true := by simpa [unseen] using hs
    simp [LogDataKv.decodedBy, hs, kvOf, LogDataKv.insert, LogDataKv.decoded, LogDataKv.lost, idxs, fecSeen, decodedCount, hu, h1,
      h2, h4, hany]
    rw [Bool.eq_iff_iff, Bool.and_eq_true, decide_eq_true_iff, decide_eq_true_iff]
    exact decide_eq_true_iff

theorem kvOf_unseen (s : Nat) : decide ((kvOf fecK .seq past s).nEthernetFrame = 0) = unseen s past := by
  unfold unseen kvOf
  dsimp only
  by_cases h : (past.any fun e => e.isInet6 && e.seq = s) = true
  · obtain ⟨e, he, hp⟩ := List.any_eq_true.mp h
    have hseq : e.isInet6 = true ∧ e.seq = s := by simpa using hp
    have hs : e.isSeq = true := by
      have := hseq.1
      simp only [Entry.isInet6, decide_eq_true_eq] at this
      simp [Entry.isSeq, isSeqType, this]
    have hpos : 0 < past.countP fun e => under .seq s e && e.isInet6 :=
      List.countP_pos_iff.mpr ⟨e, he, by simp [under, hs, hseq.1, hseq.2]⟩
    rw [h, decide_eq_false (Nat.ne_of_gt hpos)]
    rfl
  · rw [Bool.not_eq_true] at h
    have hzero : (past.countP fun e => under .seq s e && e.isInet6) = 0 := by
      rw [List.countP_eq_zero]
      intro e he hu
      have := List.any_eq_false.mp h e he
      simp only [under, Bool.and_eq_true, decide_eq_true_eq] at hu this
      exact this ⟨hu.2, hu.1.2⟩
    rw [h, hzero]
    rfl

/-! ## One record by its type -/

variable {bs rest : Bytes}

/-- The references of a value to its keys. -/
def LogDataV.RefersTo (x : LogDataV) (hd : RxLogFrameHeader) : Prop :=
  x.kv = some ⟨.seq, hd.seq.toNat⟩ ∧ x.blockKv = some ⟨.blk, hd.blockIdx.toNat⟩

theorem markCorrupt_placed (hf : ∀ kv, (f kv).key = kv.key) (hg : ∀ kv, (g kv).key = kv.key) (hx : x.RefersTo hd) :
    markCorrupt (ls.placed hd f g x) ls.vs.length =
      ls.placed hd (fun kv => (f kv).corrupted) (fun kv => (g kv).corrupted) x := by
  unfold markCorrupt
  rw [placed_v, hx.1, hx.2]
  dsimp only [LogStore.modRef]
  rw [placed_modSeq hf, placed_modBlk hg]

theorem markInet6_placed (hf : ∀ kv, (f kv).key = kv.key) (hg : ∀ kv, (g kv).key = kv.key) (hx : x.RefersTo hd) :
    markInet6 (ls.placed hd f g x) ls.vs.length =
      ls.placed hd (fun kv => (f kv).received) (fun kv => (g kv).received) x := by
  unfold markInet6
  rw [placed_v, hx.1, hx.2]
  dsimp only [LogStore.modRef]
  rw [placed_modSeq hf, placed_modBlk hg]

/-- The key is searched for when the value is under it. -/
theorem markH265_placed (hf : ∀ kv, (f kv).key = kv.key) (hg : ∀ kv, (g kv).key = kv.key) (hx : x.RefersTo hd)
    (hkv : KeyedList.Holds LogDataKv.key (kvOf fecK .seq past) (keysOf .seq past) ls.kvh)
    (heth : ∀ kv, (f kv).nEthernetFrame = kv.nEthernetFrame) :
    markH265 (ls.placed hd f g x) ls.vs.length =
      ls.placed hd (fun kv => (f kv).decodedBy (unseen hd.seq.toNat past))
        (fun kv => ((g kv).decodedBy (unseen hd.seq.toNat past)).lost
          (decide (((g kv).decodedBy (unseen hd.seq.toNat past)).nH265Frame < ls.fecK.toNat))) x := by
  have hfind : (ls.placed hd (fun kv => (f kv).decoded) (fun kv => (g kv).decoded) x).kv? ⟨.seq, hd.seq.toNat⟩ =
      some (f (kvOf fecK .seq past hd.seq.toNat)).decoded :=
    hkv.find_put (fun _ => rfl) rfl (fun hk => kvOf_fresh hk) fun kv => hf kv
  have hzero : decide ((f (kvOf fecK .seq past hd.seq.toNat)).decoded.nEthernetFrame = 0) = unseen hd.seq.toNat past := by
    rw [← @kvOf_unseen past fecK]
    unfold LogDataKv.decoded
    dsimp only
    rw [heth]
  unfold markH265
  rw [placed_v, hx.1, hx.2]
  dsimp only
  rw [placed_modSeq hf, placed_modBlk hg, hfind, Option.any_some, hzero]
  unfold LogDataKv.decodedBy
  by_cases hs : unseen hd.seq.toNat past = true
  · rw [if_pos hs, placed_modSeq (f := fun kv => (f kv).decoded) hf, placed_modBlk (g := fun kv => (g kv).decoded) hg,
      placed_modBlk (g := fun kv => (g kv).decoded.byFec) hg]
    simp only [if_pos hs]
    rfl
  · rw [if_neg hs, placed_modBlk (g := fun kv => (g kv).decoded) hg]
    simp only [if_neg hs]
    rfl

theorem processPayload_oversize {v : Nat} {size : UInt32} (h : wifiMtu ≤ size.toNat) :
    processPayload ls v size bs = .error .assertFailed := by
  unfold processPayload
  rw [if_pos h]

theorem processPayload_whole {v : Nat} {size : UInt32} (hsize : size.toNat < wifiMtu) (hbuf : (ls.v v).buf = none)
    (hlen : size.toNat ≤ bs.length) :
    processPayload ls v size bs =
      .ok (if size = 0 then ls else ls.modV v fun x => { x with buf := some (bs.take size.toNat) },
        .ok (bs.drop size.toNat)) := by
  unfold processPayload
  rw [if_neg (Nat.not_le.mpr hsize)]
  by_cases h0 : size = 0
  · subst h0
    rw [if_pos rfl, if_pos rfl]
    rfl
  · rw [if_neg h0, if_neg h0, hbuf]
    simp [Nat.not_lt.mpr hlen]

theorem processPayload_cut {v : Nat} {size : UInt32} (hsize : size.toNat < wifiMtu) (hbuf : (ls.v v).buf = none)
    (hlen : bs.length < size.toNat) :
    processPayload ls v size bs = .ok (ls.modV v fun x => { x with buf := none, size := 0 }, .error "End of File\n") := by
  have h0 : size ≠ 0 := by
    rintro rfl
    exact Nat.not_lt_zero _ hlen
  unfold processPayload
  rw [if_neg (Nat.not_le.mpr hsize), if_neg h0, hbuf]
  simp [hlen]

/-! ## One turn of the loop -/

/-- A payload's size is out of range. -/
def Entry.oversize (e : Entry) : Bool := carriesPayload e.hd.type && decide (wifiMtu ≤ e.hd.size.toNat)

theorem readEntry_length {p : Entry × Bytes} (h : readEntry bs = some p) : p.2.length < bs.length := by
  unfold readEntry at h
  split at h
  · cases h
  · rename_i hlen
    have hpos : 0 < rxLogFrameHdrlen := by decide
    dsimp only at h
    split at h
    · split at h
      · obtain rfl := Option.some.inj h
        simp only [List.length_nil]
        omega
      · obtain rfl := Option.some.inj h
        simp only [List.length_drop]
        omega
    · split at h
      · obtain rfl := Option.some.inj h
        simp only [List.length_drop]
        omega
      · cases h

/-- What a record is read from. -/
inductive Reads (bs : Bytes) : Entry → Bytes → Prop
  | plain {hd : RxLogFrameHeader} (hc : carriesPayload hd.type = false) (hs : isSeqType hd.type = true) :
      Reads bs ⟨hd, some []⟩ bs
  | whole {hd : RxLogFrameHeader} (hc : carriesPayload hd.type = true) (hlen : hd.size.toNat ≤ bs.length) :
      Reads bs ⟨hd, some (bs.take hd.size.toNat)⟩ (bs.drop hd.size.toNat)
  | cut {hd : RxLogFrameHeader} (hc : carriesPayload hd.type = true) (hlen : bs.length < hd.size.toNat) :
      Reads bs ⟨hd, none⟩ []

theorem readEntry_cases {p : Entry × Bytes} (h : readEntry bs = some p) :
    rxLogFrameHdrlen ≤ bs.length ∧ p.1.hd = RxLogFrameHeader.ofRaw bs ∧ Reads (bs.drop rxLogFrameHdrlen) p.1 p.2 := by
  unfold readEntry at h
  split at h
  · cases h
  · rename_i hlen
    rw [Nat.not_lt] at hlen
    dsimp only at h
    split at h
    · rename_i hc
      split at h
      · rename_i hcut
        obtain rfl := Option.some.inj h
        exact ⟨hlen, rfl, .cut hc hcut⟩
      · rename_i hcut
        obtain rfl := Option.some.inj h
        exact ⟨hlen, rfl, .whole hc (Nat.not_lt.mp hcut)⟩
    · rename_i hc
      split at h
      · rename_i hs
        obtain rfl := Option.some.inj h
        exact ⟨hlen, rfl, .plain (Bool.not_eq_true _ ▸ hc) hs⟩
      · cases h

/-- The value of a record before its type is looked at. -/
def LogStore.filled (ls : LogStore) (hd : RxLogFrameHeader) (x : LogDataV) : LogDataV :=
  hd.fill ls.fecK (TimeStamp.sub ⟨hd.tvSec.toInt64, hd.tvNsec.toInt64⟩ ls.epoch) x

def seqValue (hd : RxLogFrameHeader) : LogDataV :=
  { LogDataV.zero with kv := some ⟨.seq, hd.seq.toNat⟩, blockKv := some ⟨.blk, hd.blockIdx.toNat⟩ }

def msgValue (hd : RxLogFrameHeader) : LogDataV := { LogDataV.zero with blockKv := some ⟨.msg, hd.seq.toNat⟩ }

/-- The store with the record's value, before its type is looked at. -/
def LogStore.filedSeq (ls : LogStore) (hd : RxLogFrameHeader) : LogStore :=
  ls.placed hd (.insert ls.vs.length) (.insert ls.vs.length) (ls.filled hd (seqValue hd))

def LogStore.filedMsg (ls : LogStore) (hd : RxLogFrameHeader) : LogStore := ls.noted hd (ls.filled hd (msgValue hd))

theorem msg_types {type : UInt8} (h : isMsgType type = true) :
    type ≠ frameTypeCorrupt ∧ type ≠ frameTypeInet6 ∧ type ≠ frameTypeDecode := by
  have hs := msg_not_isSeq h
  unfold isSeqType at hs
  simp only [Bool.or_eq_false_iff, decide_eq_false_iff_not] at hs
  exact ⟨hs.2, hs.1.1, hs.1.2⟩

/-- The buffer of a payload that is all there. -/
def payloadBuf (size : UInt32) (bs : Bytes) : Option Bytes := if size = 0 then none else some (bs.take size.toNat)

theorem payloadBuf_eq {size : UInt32} (hlen : size.toNat ≤ bs.length) :
    payloadBuf size bs = if bs.take size.toNat = [] then none else some (bs.take size.toNat) := by
  unfold payloadBuf
  by_cases h0 : size = 0
  · subst h0
    rfl
  · have hne : bs.take size.toNat ≠ [] := by
      intro h
      have hl := congrArg List.length h
      rw [List.length_take, Nat.min_eq_left hlen, List.length_nil] at hl
      exact h0 (UInt32.toNat_inj.mp hl)
    rw [if_neg h0, if_neg hne]

theorem buf_none (h : x.buf = none) : { x with buf := none } = x := by
  rw [← h]

theorem placed_buf {size : UInt32} (h : x.buf = none) :
    (if size = 0 then ls.placed hd f g x else (ls.placed hd f g x).modV ls.vs.length fun x =>
    { x with buf := some (bs.take size.toNat) }) =
      ls.placed hd f g { x with buf := payloadBuf size bs } := by
  unfold payloadBuf
  by_cases h0 : size = 0
  · rw [if_pos h0, if_pos h0, buf_none h]
  · rw [if_neg h0, if_neg h0, placed_modV]

theorem noted_buf {size : UInt32} (h : x.buf = none) :
    (if size = 0 then ls.noted hd x else (ls.noted hd x).modV ls.vs.length fun x => { x with buf := some (bs.take size.toNat) }) =
      ls.noted hd { x with buf := payloadBuf size bs } := by
  unfold payloadBuf
  by_cases h0 : size = 0
  · rw [if_pos h0, if_pos h0, buf_none h]
  · rw [if_neg h0, if_neg h0, noted_modV]

theorem decodedBy_key (b : Bool) (kv : LogDataKv) : (kv.decodedBy b).key = kv.key := by
  unfold LogDataKv.decodedBy
  split <;> rfl

theorem decodedBy_h265 (b : Bool) (kv : LogDataKv) : (kv.decodedBy b).nH265Frame = kv.nH265Frame + 1 := by
  unfold LogDataKv.decodedBy
  split <;> rfl

theorem decodedBy_not_lost {kv : LogDataKv} (h : kv.hasLostFrame = false) (b : Bool) :
    (kv.decodedBy b).lost false = kv.decodedBy b := by
  unfold LogDataKv.decodedBy
  split <;> simp [LogDataKv.lost, LogDataKv.decoded, LogDataKv.byFec, h]

section

variable (h : Loading fh (epochOf (e :: past)) ls past)
include h

theorem Loading.length : ls.vs.length = past.length := by rw [h.loaded.vs, vsOf_length]

theorem Loading.corrupt (ht : e.hd.type = frameTypeCorrupt) (hp : e.payload = some []) :
    ∃ ls', processType (ls.filedSeq e.hd) ls.vs.length e.hd bs = .ok (ls', .ok bs) ∧
      Loading fh (epochOf (e :: past)) ls' (e :: past) := by
  obtain ⟨h1, h2, h3⟩ := corrupt_flags ht
  have hs : isSeqType e.hd.type = true := by simp [isSeqType, ht]
  have hsum : ls.summary = summaryOf (e :: past) := by
    rw [h.loaded.summary]
    simp [summaryOf, Entry.isDecoded, h2, h3]
  have hx : { ls.filled e.hd (seqValue e.hd) with rxSrc := some e.hd.rxSrc, corrupt := true } =
      entryV ls.fecK (epochOf (e :: past)) e := by
    simp [entryV, LogStore.filled, RxLogFrameHeader.fill, seqValue, LogDataV.zero, h1, h2,
      Entry.isSeq, hs, h.epoch, hp, Entry.seq,
      Entry.block]
  refine ⟨_, ?_, h.placed hs ls.summary (f := fun kv => (kv.insert ls.vs.length).corrupted)
    (g := fun kv => (kv.insert ls.vs.length).corrupted) (fun _ => rfl) (fun _ => rfl) ?_ ?_ hx hsum⟩
  · unfold processType
    rw [if_pos ht]
    unfold LogStore.filedSeq
    rw [placed_modV, markCorrupt_placed (f := .insert _) (g := .insert _) (fun _ => rfl) (fun _ => rfl) ⟨rfl, rfl⟩]
  · rw [h.length]
    exact kvOf_corrupt ht (by simp [under, Entry.isSeq, hs])
  · rw [h.length]
    exact kvOf_corrupt ht (by simp [under, Entry.isSeq, hs])

theorem Loading.received (ht : e.hd.type = frameTypeInet6) (hp : e.payload = some []) :
    ∃ ls', processType (ls.filedSeq e.hd) ls.vs.length e.hd bs = .ok (ls', .ok bs) ∧
      Loading fh (epochOf (e :: past)) ls' (e :: past) := by
  obtain ⟨h1, h2, h3⟩ := inet6_flags ht
  have hs : isSeqType e.hd.type = true := by simp [isSeqType, ht]
  have hsum : ls.summary.pkt e.hd.dbm = summaryOf (e :: past) := by
    rw [h.loaded.summary]
    simp [summaryOf, h2]
  have hx : { ls.filled e.hd (seqValue e.hd) with rxSrc := some e.hd.rxSrc } = entryV ls.fecK (epochOf (e :: past)) e := by
    simp [entryV, LogStore.filled, RxLogFrameHeader.fill, seqValue, LogDataV.zero, h1, h2,
      Entry.isSeq, hs, h.epoch, hp, Entry.seq,
      Entry.block]
  have hne : e.hd.type ≠ frameTypeCorrupt := by
    rw [ht]
    decide
  refine ⟨_, ?_, h.placed hs (ls.summary.pkt e.hd.dbm) (f := fun kv => (kv.insert ls.vs.length).received)
    (g := fun kv => (kv.insert ls.vs.length).received) (fun _ => rfl) (fun _ => rfl) ?_ ?_ hx hsum⟩
  · unfold processType
    rw [if_neg hne, if_pos ht]
    unfold LogStore.filedSeq
    rw [placed_modV]
    have hmark := @markInet6_placed { ls with summary := ls.summary.pkt e.hd.dbm } e.hd (.insert ls.vs.length)
      (.insert ls.vs.length)
      { ls.filled e.hd (seqValue e.hd) with rxSrc := some e.hd.rxSrc } (fun _ => rfl) (fun _ => rfl) ⟨rfl, rfl⟩
    exact congrArg (fun l => Except.ok (l, Except.ok bs)) hmark
  · rw [h.length]
    exact kvOf_received ht (by simp [under, Entry.isSeq, hs])
  · rw [h.length]
    exact kvOf_received ht (by simp [under, Entry.isSeq, hs])

theorem Loading.decoded {p : Bytes} (ht : e.hd.type = frameTypeDecode) (hp : e.payload = some p)
    (hlen : e.hd.size.toNat ≤ bs.length) (htake : p = bs.take e.hd.size.toNat) (hsize : e.hd.size.toNat < wifiMtu) :
    ∃ ls', processType (ls.filedSeq e.hd) ls.vs.length e.hd bs = .ok (ls', .ok (bs.drop e.hd.size.toNat)) ∧
      Loading fh (epochOf (e :: past)) ls' (e :: past) := by
  obtain ⟨h1, h2, h3⟩ := decode_flags ht
  have hs : isSeqType e.hd.type = true := by simp [isSeqType, ht]
  have hdec : e.isDecoded = true := by simp [Entry.isDecoded, h3, hp]
  have hsum : ls.summary.frame e.hd.size = summaryOf (e :: past) := by
    rw [h.loaded.summary]
    simp [summaryOf, h2, hdec]
  have hx : { ls.filled e.hd (seqValue e.hd) with buf := payloadBuf e.hd.size bs } = entryV ls.fecK (epochOf (e :: past)) e := by
    simp [entryV, LogStore.filled, RxLogFrameHeader.fill, seqValue, LogDataV.zero, h1, h2,
      Entry.isSeq, hs, h.epoch, hp, Entry.seq,
      Entry.block, htake, payloadBuf_eq hlen]
  have hne : e.hd.type ≠ frameTypeCorrupt ∧ e.hd.type ≠ frameTypeInet6 := by
    rw [ht]
    decide
  refine ⟨_, ?_, h.placed hs (ls.summary.frame e.hd.size)
    (f := fun kv => (kv.insert ls.vs.length).decodedBy (unseen e.seq past))
    (g := fun kv => ((kv.insert ls.vs.length).decodedBy (unseen e.seq past)).lost
      (decide (((kv.insert ls.vs.length).decodedBy (unseen e.seq past)).nH265Frame < ls.fecK.toNat)))
    (fun kv => decodedBy_key _ (kv.insert _)) (fun kv => decodedBy_key _ (kv.insert _)) ?_ ?_ hx hsum⟩
  · unfold processType
    rw [if_neg hne.1, if_neg hne.2, if_pos ht]
    unfold LogStore.filedSeq
    rw [processPayload_whole hsize (by rw [placed_v]; rfl) hlen, placed_buf rfl]
    have hmark := @markH265_placed { ls with summary := ls.summary.frame e.hd.size } e.hd (.insert ls.vs.length)
      (.insert ls.vs.length)
      { ls.filled e.hd (seqValue e.hd) with buf := payloadBuf e.hd.size bs } past ls.fecK (fun _ => rfl) (fun _ => rfl) ⟨rfl, rfl⟩
      (h.loaded.kvs .seq) fun _ => rfl
    exact congrArg (fun l => Except.ok (l, Except.ok (bs.drop e.hd.size.toNat))) hmark
  · rw [h.length]
    rw [← kvOf_decoded ht hp (by simp [under, Entry.isSeq, hs])]
    have hno : decide (KvType.seq = .blk ∧ decodedCount .seq e.seq past + 1 < ls.fecK.toNat) = false := by simp
    rw [hno, decodedBy_not_lost (by simp [kvOf, LogDataKv.insert])]
  · rw [h.length, decodedBy_h265, ← kvOf_decoded ht hp (by simp [under, Entry.isSeq, hs])]
    congr 1
    simp [kvOf, LogDataKv.insert]

/-- A decoded frame that is cut stays in the store, and nothing counts it. -/
theorem Loading.decodeCut (ht : e.hd.type = frameTypeDecode) (hp : e.payload = none) (hlen : bs.length < e.hd.size.toNat)
    (hsize : e.hd.size.toNat < wifiMtu) :
    ∃ ls', processType (ls.filedSeq e.hd) ls.vs.length e.hd bs = .ok (ls', .error "End of File\n") ∧
      Loading fh (epochOf (e :: past)) ls' (e :: past) := by
  obtain ⟨h1, h2, h3⟩ := decode_flags ht
  have hs : isSeqType e.hd.type = true := by simp [isSeqType, ht]
  have hdec : e.isDecoded = false := by simp [Entry.isDecoded, hp]
  have hsum : ls.summary = summaryOf (e :: past) := by
    rw [h.loaded.summary]
    simp [summaryOf, h2, hdec]
  have hx : { ls.filled e.hd (seqValue e.hd) with buf := none, size := 0 } = entryV ls.fecK (epochOf (e :: past)) e := by
    simp [entryV, LogStore.filled, RxLogFrameHeader.fill, seqValue, LogDataV.zero, h1, h2,
      Entry.isSeq, hs, h.epoch, hp, Entry.seq,
      Entry.block]
  have hne : e.hd.type ≠ frameTypeCorrupt ∧ e.hd.type ≠ frameTypeInet6 := by
    rw [ht]
    decide
  refine ⟨_, ?_, h.placed hs ls.summary (f := .insert ls.vs.length) (g := .insert ls.vs.length) (fun _ => rfl) (fun _ => rfl)
    ?_ ?_ hx hsum⟩
  · unfold processType
    rw [if_neg hne.1, if_neg hne.2, if_pos ht]
    unfold LogStore.filedSeq
    rw [processPayload_cut hsize (by rw [placed_v]; rfl) hlen, placed_modV]
    rfl
  · rw [h.length]
    exact kvOf_cut ht hp (by simp [under, Entry.isSeq, hs])
  · rw [h.length]
    exact kvOf_cut ht hp (by simp [under, Entry.isSeq, hs])

/-- A message with its text. -/
theorem Loading.message {p : Bytes} (hm : isMsgType e.hd.type = true) (hp : e.payload = some p)
    (hlen : e.hd.size.toNat ≤ bs.length) (htake : p = bs.take e.hd.size.toNat) (hsize : e.hd.size.toNat < wifiMtu) :
    ∃ ls', processType (ls.filedMsg e.hd) ls.vs.length e.hd bs = .ok (ls', .ok (bs.drop e.hd.size.toNat)) ∧
      Loading fh (epochOf (e :: past)) ls' (e :: past) := by
  obtain ⟨h1, h2, h3⟩ := msg_types hm
  have hx : { ls.filled e.hd (msgValue e.hd) with buf := payloadBuf e.hd.size bs } = entryV ls.fecK (epochOf (e :: past)) e := by
    simp [entryV, LogStore.filled, RxLogFrameHeader.fill, msgValue, LogDataV.zero, Entry.isInet6, Entry.isCorrupt, h1, h2,
      Entry.isSeq, msg_not_isSeq hm, h.epoch, hp, Entry.seq, htake, payloadBuf_eq hlen]
  refine ⟨_, ?_, h.noted hm hx⟩
  unfold processType
  rw [if_neg h1, if_neg h2, if_neg h3, if_pos hm]
  unfold LogStore.filedMsg
  rw [processPayload_whole hsize (by rw [noted_v]; rfl) hlen, noted_buf rfl]

theorem Loading.messageCut (hm : isMsgType e.hd.type = true) (hp : e.payload = none) (hlen : bs.length < e.hd.size.toNat)
    (hsize : e.hd.size.toNat < wifiMtu) :
    ∃ ls', processType (ls.filedMsg e.hd) ls.vs.length e.hd bs = .ok (ls', .error "End of File\n") ∧
      Loading fh (epochOf (e :: past)) ls' (e :: past) := by
  obtain ⟨h1, h2, h3⟩ := msg_types hm
  have hx : { ls.filled e.hd (msgValue e.hd) with buf := none, size := 0 } = entryV ls.fecK (epochOf (e :: past)) e := by
    simp [entryV, LogStore.filled, RxLogFrameHeader.fill, msgValue, LogDataV.zero, Entry.isInet6, Entry.isCorrupt, h1, h2,
      Entry.isSeq, msg_not_isSeq hm, h.epoch, hp, Entry.seq]
  refine ⟨_, ?_, h.noted hm hx⟩
  unfold processType
  rw [if_neg h1, if_neg h2, if_neg h3, if_pos hm]
  unfold LogStore.filedMsg
  rw [processPayload_cut hsize (by rw [noted_v]; rfl) hlen, noted_modV]

end

/-! ## One turn of the loop, and all of them -/

/-- A turn once the first time stamp is known. -/
def processRecord (ls : LogStore) (hd : RxLogFrameHeader) (bs : Bytes) : Except Fault (LogStore × Option Bytes) :=
  match logVAlloc ls hd with
  | none => .ok (ls, none)
  | some p => (processType (p.1.modV p.2 (ls.filled hd)) p.2 hd bs).map fun p => (p.1, p.2.toOption)

theorem logVAlloc_fecK {p : LogStore × Nat} (h : logVAlloc ls hd = some p) : p.1.fecK = ls.fecK := by
  by_cases hm : isMsgType hd.type = true
  · rw [logVAlloc_msg hm] at h
    obtain rfl := Option.some.inj h
    rfl
  · by_cases hs : isSeqType hd.type = true
    · rw [logVAlloc_seq hs] at h
      obtain rfl := Option.some.inj h
      rfl
    · rw [logVAlloc_none (Bool.not_eq_true _ ▸ hm) (Bool.not_eq_true _ ▸ hs)] at h
      cases h

theorem loadStep_eq (hlen : rxLogFrameHdrlen ≤ bs.length) :
    loadStep ls bs = processRecord (ls.begun (.ofRaw bs)) (.ofRaw bs) (bs.drop rxLogFrameHdrlen) := by
  unfold loadStep processFrameHeader processRecord
  rw [if_neg (Nat.not_lt.mpr hlen)]
  cases halloc : logVAlloc (ls.begun (.ofRaw bs)) (.ofRaw bs) with
  | none =>
    unfold LogStore.begun at halloc ⊢
    dsimp only at halloc ⊢
    rw [halloc]
    rfl
  | some p =>
    have hk := logVAlloc_fecK halloc
    unfold LogStore.begun at halloc hk ⊢
    dsimp only at halloc hk ⊢
    unfold LogStore.filled
    rw [halloc]
    dsimp only
    rw [hk]
    generalize processType _ p.2 (.ofRaw bs) _ = r
    rcases r with err | ⟨ls', err | rest⟩ <;> rfl

theorem processRecord_seq (hs : isSeqType hd.type = true) :
    processRecord ls hd bs = (processType (ls.filedSeq hd) ls.vs.length hd bs).map fun p => (p.1, p.2.toOption) := by
  unfold processRecord LogStore.filedSeq
  rw [logVAlloc_seq hs]
  dsimp only
  rw [placed_modV]
  rfl

theorem processRecord_msg (hm : isMsgType hd.type = true) :
    processRecord ls hd bs = (processType (ls.filedMsg hd) ls.vs.length hd bs).map fun p => (p.1, p.2.toOption) := by
  unfold processRecord LogStore.filedMsg
  rw [logVAlloc_msg hm]
  dsimp only
  rw [noted_modV]
  rfl

theorem carriesPayload_cases {type : UInt8} (h : carriesPayload type = true) :
    type = frameTypeDecode ∨ isMsgType type = true := by
  unfold carriesPayload at h
  rwa [Bool.or_eq_true, decide_eq_true_eq] at h

theorem processRecord_entry (h : Loading fh (epochOf (e :: past)) ls past) (hr : Reads bs e rest) (hsize : e.oversize = false) :
    ∃ ls', processRecord ls e.hd bs = .ok (ls', if e.payload = none then none else some rest) ∧
      Loading fh (epochOf (e :: past)) ls' (e :: past) := by
  cases hr with
  | @plain hd hc hs =>
    rw [processRecord_seq hs]
    rcases isSeq_cases hs with ht | ht | ht
    · obtain ⟨ls', hp, hl⟩ := h.received ht rfl
      exact ⟨ls', by rw [hp]; rfl, hl⟩
    · rw [ht] at hc
      cases hc
    · obtain ⟨ls', hp, hl⟩ := h.corrupt ht rfl
      exact ⟨ls', by rw [hp]; rfl, hl⟩
  | @whole hd hc hlen =>
    have hlt : hd.size.toNat < wifiMtu := by simpa [Entry.oversize, hc] using hsize
    rcases carriesPayload_cases hc with ht | hm
    · obtain ⟨ls', hp, hl⟩ := h.decoded ht rfl hlen rfl hlt
      rw [processRecord_seq (by simp [isSeqType, ht]), hp]
      exact ⟨ls', rfl, hl⟩
    · obtain ⟨ls', hp, hl⟩ := h.message hm rfl hlen rfl hlt
      rw [processRecord_msg hm, hp]
      exact ⟨ls', rfl, hl⟩
  | @cut hd hc hlen =>
    have hlt : hd.size.toNat < wifiMtu := by simpa [Entry.oversize, hc] using hsize
    rcases carriesPayload_cases hc with ht | hm
    · obtain ⟨ls', hp, hl⟩ := h.decodeCut ht rfl hlen hlt
      rw [processRecord_seq (by simp [isSeqType, ht]), hp]
      exact ⟨ls', rfl, hl⟩
    · obtain ⟨ls', hp, hl⟩ := h.messageCut hm rfl hlen hlt
      rw [processRecord_msg hm, hp]
      exact ⟨ls', rfl, hl⟩

/-- The assertion in `process_payload`. -/
theorem processRecord_oversize {hd : RxLogFrameHeader} (hc : carriesPayload hd.type = true) (hsize : wifiMtu ≤ hd.size.toNat) :
    processRecord ls hd bs = .error .assertFailed := by
  rcases carriesPayload_cases hc with ht | hm
  · have hne : hd.type ≠ frameTypeCorrupt ∧ hd.type ≠ frameTypeInet6 := by
      rw [ht]
      decide
    rw [processRecord_seq (by simp [isSeqType, ht])]
    unfold processType
    rw [if_neg hne.1, if_neg hne.2, if_pos ht, processPayload_oversize hsize]
    rfl
  · obtain ⟨h1, h2, h3⟩ := msg_types hm
    rw [processRecord_msg hm]
    unfold processType
    rw [if_neg h1, if_neg h2, if_neg h3, if_pos hm, processPayload_oversize hsize]
    rfl

theorem loadStep_entry {p : Entry × Bytes} (h : Loading fh (epochOf past) ls past) (hr : readEntry bs = some p)
    (hsize : p.1.oversize = false) :
    ∃ ls', loadStep ls bs = .ok (ls', if p.1.payload = none then none else some p.2) ∧
      Loading fh (epochOf (p.1 :: past)) ls' (p.1 :: past) := by
  obtain ⟨hlen, hhd, hread⟩ := readEntry_cases hr
  rw [loadStep_eq hlen, ← hhd]
  exact processRecord_entry (h.begun p.1) hread hsize

theorem loadStep_oversize {p : Entry × Bytes} (hr : readEntry bs = some p) (hsize : p.1.oversize = true) :
    loadStep ls bs = .error .assertFailed := by
  obtain ⟨hlen, hhd, -⟩ := readEntry_cases hr
  unfold Entry.oversize at hsize
  rw [Bool.and_eq_true, decide_eq_true_eq] at hsize
  rw [loadStep_eq hlen, ← hhd]
  exact processRecord_oversize hsize.1 hsize.2

/-- Behind the last record the loop stops. -/
theorem loadStep_none (h : Loading fh (epochOf past) ls past) (hr : readEntry bs = none) :
    ∃ ls' ep, loadStep ls bs = .ok (ls', none) ∧ Loading fh ep ls' past := by
  by_cases hlen : rxLogFrameHdrlen ≤ bs.length
  · have htype : isMsgType (RxLogFrameHeader.ofRaw bs).type = false ∧ isSeqType (RxLogFrameHeader.ofRaw bs).type = false := by
      unfold readEntry at hr
      rw [if_neg (Nat.not_lt.mpr hlen)] at hr
      dsimp only at hr
      split at hr
      · split at hr <;> cases hr
      · rename_i hc
        split at hr
        · cases hr
        · rename_i hs
          unfold carriesPayload at hc
          rw [Bool.or_eq_true, not_or] at hc
          exact ⟨Bool.not_eq_true _ ▸ hc.2, Bool.not_eq_true _ ▸ hs⟩
    refine ⟨ls.begun (.ofRaw bs), _, ?_, h.begun ⟨.ofRaw bs, none⟩⟩
    rw [loadStep_eq hlen]
    unfold processRecord
    rw [logVAlloc_none htype.1 htype.2]
  · refine ⟨ls, _, ?_, h⟩
    unfold loadStep processFrameHeader
    rw [if_pos (Nat.not_le.mp hlen)]
    rfl

theorem entries_none {m : Nat} (h : readEntry bs = none) : entries m bs = [] := by
  cases m with
  | zero => rfl
  | succ m =>
    unfold entries
    rw [h]

theorem entries_some {m : Nat} {p : Entry × Bytes} (h : readEntry bs = some p) (hm : bs.length ≤ m) :
    ∃ m', p.2.length ≤ m' ∧ entries m bs = p.1 :: entries m' p.2 := by
  have hlt := readEntry_length h
  cases m with
  | zero => exact absurd hlt (by omega)
  | succ m =>
    refine ⟨m, by omega, ?_⟩
    rw [entries, h]

theorem cut_rest {p : Entry × Bytes} (h : readEntry bs = some p) (hp : p.1.payload = none) : p.2 = [] := by
  obtain ⟨-, -, hread⟩ := readEntry_cases h
  obtain ⟨e, rest⟩ := p
  dsimp only at hp hread ⊢
  cases hread with
  | plain => cases hp
  | whole => cases hp
  | cut => rfl

theorem loop_entries {n m : Nat} (h : Loading fh (epochOf past) ls past) (hn : bs.length < n) (hm : bs.length ≤ m)
    (hsize : ∀ e ∈ entries m bs, e.oversize = false) :
    ∃ ls' ep, Stream.loop Fault.endless loadStep n ls bs = .ok ls' ∧ Loading fh ep ls' ((entries m bs).reverse ++ past) := by
  induction n generalizing ls past bs m with
  | zero => exact absurd hn (Nat.not_lt_zero _)
  | succ n ih =>
    cases hr : readEntry bs with
    | none =>
      obtain ⟨ls', ep, hs, hl⟩ := loadStep_none h hr
      refine ⟨ls', ep, Stream.loop_stop hs, ?_⟩
      rw [entries_none hr]
      exact hl
    | some p =>
      obtain ⟨m', hm', hent⟩ := entries_some hr hm
      rw [hent] at hsize ⊢
      obtain ⟨ls', hs, hl⟩ := loadStep_entry h hr (hsize p.1 List.mem_cons_self)
      have hlt := readEntry_length hr
      rw [List.reverse_cons, List.append_assoc, List.singleton_append]
      by_cases hp : p.1.payload = none
      · rw [if_pos hp] at hs
        refine ⟨ls', epochOf (p.1 :: past), Stream.loop_stop hs, ?_⟩
        rw [cut_rest hr hp, entries_none (show readEntry [] = none from rfl)]
        exact hl
      · rw [if_neg hp] at hs
        obtain ⟨ls'', ep, hs', hl'⟩ := ih hl (by omega) hm' fun e he => hsize e (List.mem_cons_of_mem _ he)
        exact ⟨ls'', ep, (Stream.loop_next hs).trans hs', hl'⟩

theorem loop_oversize {n m : Nat} (h : Loading fh (epochOf past) ls past) (hn : bs.length < n) (hm : bs.length ≤ m)
    (hsize : ∃ e ∈ entries m bs, e.oversize = true) : Stream.loop Fault.endless loadStep n ls bs = .error .assertFailed := by
  induction n generalizing ls past bs m with
  | zero => exact absurd hn (Nat.not_lt_zero _)
  | succ n ih =>
    cases hr : readEntry bs with
    | none =>
      rw [entries_none hr] at hsize
      obtain ⟨e, he, -⟩ := hsize
      cases he
    | some p =>
      obtain ⟨m', hm', hent⟩ := entries_some hr hm
      rw [hent] at hsize
      have hlt := readEntry_length hr
      by_cases hover : p.1.oversize = true
      · exact Stream.loop_error (loadStep_oversize hr hover)
      · obtain ⟨ls', hs, hl⟩ := loadStep_entry h hr (Bool.not_eq_true _ ▸ hover)
        obtain ⟨e, he, hsz⟩ := hsize
        rcases List.mem_cons.mp he with rfl | he
        · exact absurd hsz hover
        · by_cases hp : p.1.payload = none
          · rw [cut_rest hr hp, entries_none (show readEntry [] = none from rfl)] at he
            cases he
          · rw [if_neg hp] at hs
            rw [Stream.loop_next hs]
            exact ih hl (by omega) hm' ⟨e, he, hsz⟩

/-! ## The file -/

/-- The file header is there, and of this version. -/
def HeaderOk (file : Bytes) : Prop :=
  rxLogFileHdrlen ≤ file.length ∧ (RxLogFileHeader.ofRaw file).signature = rxLogSignature ∧
    (RxLogFileHeader.ofRaw file).version = rxLogVersion

def LogStore.opened (fh : RxLogFileHeader) : LogStore :=
  { logStoreAlloc with channelId := fh.channelId, fecType := fh.fecType, fecK := fh.fecK, fecN := fh.fecN }

theorem opened_loading (fh : RxLogFileHeader) : Loading fh (epochOf []) (.opened fh) [] := by
  have hempty : ∀ t, keysOf t [] = ∅ := by
    intro t
    unfold keysOf
    simp
  refine ⟨⟨rfl, ?_, rfl⟩, rfl, rfl, rfl, rfl, rfl⟩
  intro t
  rw [hempty]
  cases t <;> exact KeyedList.holds_nil _ _

variable {file : Bytes}

theorem loadLog_header (h : HeaderOk file) :
    loadLog file = (Stream.loop Fault.endless loadStep ((file.drop rxLogFileHdrlen).length + 1) (.opened (.ofRaw file))
      (file.drop rxLogFileHdrlen)).map some := by
  unfold loadLog processFileHeader
  rw [if_neg (Nat.not_lt.mpr h.1), if_neg (not_not.mpr h.2.1), if_neg (not_not.mpr h.2.2)]
  dsimp only
  unfold LogStore.opened
  cases Stream.loop Fault.endless loadStep _ _ (file.drop rxLogFileHdrlen) <;> rfl

theorem loadLog_none (h : ¬ HeaderOk file) : loadLog file = .ok none := by
  unfold loadLog processFileHeader
  unfold HeaderOk at h
  by_cases h1 : file.length < rxLogFileHdrlen
  · rw [if_pos h1]
  · by_cases h2 : (RxLogFileHeader.ofRaw file).signature = rxLogSignature
    · by_cases h3 : (RxLogFileHeader.ofRaw file).version = rxLogVersion
      · exact absurd ⟨Nat.not_lt.mp h1, h2, h3⟩ h
      · rw [if_neg h1, if_neg (not_not.mpr h2), if_pos h3]
    · rw [if_neg h1, if_pos h2]

theorem drop_length_le : (file.drop rxLogFileHdrlen).length ≤ file.length := by
  rw [List.length_drop]
  exact Nat.sub_le _ _

/-- Sizes in range: the store of the file's records. -/
theorem loadLog_ok (h : HeaderOk file) (hsize : ∀ e ∈ fileEntries file, e.oversize = false) :
    ∃ ls ep, loadLog file = .ok (some ls) ∧ Loading (.ofRaw file) ep ls (fileEntries file).reverse := by
  obtain ⟨ls, ep, hs, hl⟩ := loop_entries (opened_loading (.ofRaw file)) (Nat.lt_succ_self _) drop_length_le hsize
  refine ⟨ls, ep, ?_, ?_⟩
  · rw [loadLog_header h, hs]
    rfl
  · rwa [List.append_nil] at hl

/-- A size out of range: the assertion. -/
theorem loadLog_oversize (h : HeaderOk file) (hsize : ∃ e ∈ fileEntries file, e.oversize = true) :
    loadLog file = .error .assertFailed := by
  rw [loadLog_header h, loop_oversize (opened_loading (.ofRaw file)) (Nat.lt_succ_self _) drop_length_le hsize]
  rfl

theorem loadLog_some (h : loadLog file = .ok (some ls)) :
    HeaderOk file ∧ (∀ e ∈ fileEntries file, e.oversize = false) ∧
      ∃ ep, Loading (.ofRaw file) ep ls (fileEntries file).reverse := by
  by_cases hok : HeaderOk file
  · by_cases hsize : ∃ e ∈ fileEntries file, e.oversize = true
    · rw [loadLog_oversize hok hsize] at h
      cases h
    · have hall : ∀ e ∈ fileEntries file, e.oversize = false := by
        intro e he
        by_contra hover
        exact hsize ⟨e, he, Bool.not_eq_false _ ▸ hover⟩
      obtain ⟨ls', ep, hs, hl⟩ := loadLog_ok hok hall
      rw [h] at hs
      obtain rfl := Option.some.inj (Except.ok.inj hs)
      exact ⟨hok, hall, ep, hl⟩
  · rw [loadLog_none hok] at h
    cases h

end WfbYa.Log
