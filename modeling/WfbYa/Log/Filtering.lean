/-
  WfbYa.Log.Filtering — what one `filter dbm` makes of a store, from the records alone.

  The marks and counters of an earlier command are no part of it: a store with the `Bones`
  of its records, loaded or filtered before, comes out the same.

  - `verdict`: what happens to a sequence number under a cut-off.
  - `finalSeq`, `finalBlk`, `flagOf`: the keys and the marks of the values.
  - `shellFilterDbm_spec`: one command.
-/

import WfbYa.Log.LogFilter
import WfbYa.Log.Representation

namespace WfbYa.Log

open WfbYa.Lib

/-! ## The rule -/

/-- A received frame at or below the cut-off. -/
def Entry.cut (c : Int8) (e : Entry) : Bool := e.isInet6 && (decide (e.hd.dbm ≠ dbmInval16) && decide (e.hd.dbm.toInt ≤ c.toInt))

/-- A received frame that is left. -/
def Entry.left (c : Int8) (e : Entry) : Bool := e.isInet6 && !e.cut c

def seqEth (c : Int8) (past : List Entry) (s : Nat) : Nat := past.countP fun e => under .seq s e && e.left c

def blkEth (c : Int8) (past : List Entry) (b : Nat) : Nat := past.countP fun e => under .blk b e && e.left c

/-- The last decoded frame under a sequence number, with its index. -/
def lastDecode (s : Nat) : List Entry → Option (Nat × Entry)
  | [] => none
  | e :: past => if under .seq s e && e.isDecode then some (past.length, e) else lastDecode s past

/-- The block of the first record under a sequence number. -/
def firstBlock (s : Nat) : List Entry → Option Nat
  | [] => none
  | e :: past => (firstBlock s past).or (if under .seq s e then some e.block else none)

inductive Verdict where
  /-- Nothing was decoded, and the number is below `fec_k`. -/
  | missing
  | absent
  | received
  | recovered
  | lost
  deriving DecidableEq, Repr

def Verdict.isLoss (w : Verdict) : Bool := w = .missing || w = .lost
def Verdict.keeps (w : Verdict) : Bool := w = .received || w = .recovered

def verdict (c : Int8) (fecK : UInt8) (past : List Entry) (s : Nat) : Verdict :=
  match lastDecode s past with
  | none => if s < fecK.toNat then .missing else .absent
  | some d =>
    if 0 < seqEth c past s then .received
    else if fecK.toNat ≤ blkEth c past d.2.block then .recovered
    else .lost

/-- A key with a number of received frames. -/
def LogDataKv.withEth (n : Nat) (kv : LogDataKv) : LogDataKv :=
  { kv with hasEthernetFrame := decide (0 < n), nEthernetFrame := n }

/-- What a verdict leaves at its sequence number. -/
def LogDataKv.judged (w : Verdict) (kv : LogDataKv) : LogDataKv :=
  { kv with hasLostFrame := w.isLoss, hasFecFrame := decide (w = .recovered), nH265Frame := if w.keeps then 1 else 0 }

def finalSeq (c : Int8) (fecK : UInt8) (past : List Entry) (s : Nat) : LogDataKv :=
  ((kvOf fecK .seq past s).clear.withEth (seqEth c past s)).judged (verdict c fecK past s)

/-- The sequence number's first record is of the block, and its verdict is one of `p`. -/
def charged (p : Verdict → Bool) (c : Int8) (fecK : UInt8) (past : List Entry) (b s : Nat) : Bool :=
  decide (firstBlock s past = some b) && p (verdict c fecK past s)

/-- A block, once the sequence numbers `done` are judged. -/
def finalBlk (c : Int8) (fecK : UInt8) (past : List Entry) (done : List Nat) (b : Nat) : LogDataKv :=
  { (kvOf fecK .blk past b).clear.withEth (blkEth c past b) with
    hasLostFrame := decide (blkEth c past b < fecK.toNat) || done.any (charged Verdict.isLoss c fecK past b)
    hasFecFrame := done.any (charged (fun w => w = .recovered) c fecK past b)
    nH265Frame := done.countP (charged Verdict.keeps c fecK past b) }

/-- The mark of the record `e`, the `i`-th. -/
def flagOf (c : Int8) (fecK : UInt8) (past : List Entry) (done : List Nat) (i : Nat) (e : Entry) : Bool :=
  e.cut c ||
    (decide (e.seq ∈ done) &&
      (decide ((lastDecode e.seq past).map Prod.fst = some i) && decide (verdict c fecK past e.seq = .lost)))

/-! ## Stores with the records' bones -/

variable {ls ls' : LogStore} {past : List Entry} {fecK : UInt8} {c : Int8} {done : List Nat}

/-- The values and keys of the records, whatever their marks and counters. -/
structure Bones (ls : LogStore) (past : List Entry) : Prop where
  vs : ls.vs.map (setFiltered false) = vsOf ls.fecK past
  others : ∀ i e, past.reverse[i]? = some e → e.isSeq = false → (ls.v i).filtered = false
  kvs : ∀ t, ∃ g, KeyedList.Holds LogDataKv.key g (keysOf t past) (ls.kvs t) ∧ ∀ k, (g k).clear = (kvOf ls.fecK t past k).clear

theorem Loaded.bones (h : Loaded ls past) : Bones ls past where
  vs := by
    rw [h.vs]
    have hall : ∀ v ∈ vsOf ls.fecK past, setFiltered false v = v := by
      intro v hv
      obtain ⟨e, -, ep, rfl⟩ := vsOf_mem hv
      rfl
    exact (List.map_congr_left hall).trans (List.map_id _)
  others := by
    intro i e hi _
    obtain ⟨ep, hv⟩ := h.v hi
    rw [hv]
    rfl
  kvs := fun t => ⟨_, h.kvs t, fun _ => rfl⟩

theorem v_of_get {i : Nat} {x : LogDataV} (h : ls.vs[i]? = some x) : ls.v i = x := by
  unfold LogStore.v
  rw [List.getD_eq_getElem?_getD, h]
  rfl

/-- A value's own fields. -/
theorem value_get (h : ls.vs.map (setFiltered false) = vsOf ls.fecK past) {i : Nat} {e : Entry} (hi : past.reverse[i]? = some e) :
    ∃ x ep, ls.vs[i]? = some x ∧ ls.v i = x ∧ setFiltered false x = entryV ls.fecK ep e := by
  obtain ⟨ep, hv⟩ := @vsOf_get past ls.fecK e i hi
  rw [← h, List.getElem?_map] at hv
  obtain ⟨x, hx, he⟩ := Option.map_eq_some_iff.mp hv
  exact ⟨x, ep, hx, v_of_get hx, he⟩

theorem value_type (h : ls.vs.map (setFiltered false) = vsOf ls.fecK past) {i : Nat} {e : Entry}
    (hi : past.reverse[i]? = some e) :
    (ls.v i).type = e.hd.type := by
  obtain ⟨x, ep, -, hv, he⟩ := value_get h hi
  rw [hv]
  exact congrArg LogDataV.type he

theorem value_dbm (h : ls.vs.map (setFiltered false) = vsOf ls.fecK past) {i : Nat} {e : Entry} (hi : past.reverse[i]? = some e) :
    (ls.v i).dbm = e.hd.dbm := by
  obtain ⟨x, ep, -, hv, he⟩ := value_get h hi
  rw [hv]
  exact congrArg LogDataV.dbm he

theorem value_blockKv (h : ls.vs.map (setFiltered false) = vsOf ls.fecK past) {i : Nat} {e : Entry}
    (hi : past.reverse[i]? = some e)
    (hs : e.isSeq = true) : (ls.v i).blockKv = some ⟨.blk, e.block⟩ := by
  obtain ⟨x, ep, -, hv, he⟩ := value_get h hi
  rw [hv]
  refine (congrArg LogDataV.blockKv he).trans ?_
  simp [entryV, hs]

theorem Bones.length (h : Bones ls past) : ls.vs.length = past.length := by
  rw [← List.length_map (setFiltered false), h.vs, vsOf_length]

/-! ## Marking values -/

/-- An update that is the same done twice, at each index of a list. -/
theorem foldl_modify {f : LogDataV → LogDataV} (hf : ∀ v, f (f v) = f v) (L : List Nat) (vs : List LogDataV) (i : Nat) :
    (L.foldl (fun vs v => vs.modify v f) vs)[i]? = vs[i]?.map fun v => if i ∈ L then f v else v := by
  induction L generalizing vs with
  | nil => simp
  | cons j L ih =>
    rw [List.foldl_cons, ih, List.getElem?_modify]
    cases vs[i]? with
    | none => rfl
    | some v =>
      by_cases hj : j = i
      · subst hj
        by_cases hmem : j ∈ L
        · simp [hmem, hf]
        · simp [hmem]
      · simp [hj, Ne.symm hj]

theorem foldl_modV (f : LogDataV → LogDataV) (L : List Nat) (ls : LogStore) :
    L.foldl (fun ls v => ls.modV v f) ls = { ls with vs := L.foldl (fun vs v => vs.modify v f) ls.vs } := by
  induction L generalizing ls with
  | nil => rfl
  | cons j L ih =>
    rw [List.foldl_cons, ih]
    rfl

theorem Bones.mem_seqVs (h : Bones ls past) {i : Nat} : i ∈ ls.seqVs ↔ ∃ e, past.reverse[i]? = some e ∧ e.isSeq = true := by
  obtain ⟨g, hg, hclear⟩ := h.kvs .seq
  unfold LogStore.seqVs
  rw [List.mem_flatMap]
  constructor
  · rintro ⟨kv, hkv, hi⟩
    obtain ⟨k, -, rfl⟩ := (hg.mem kv).mp hkv
    rw [show (g k).vh = idxs (under .seq k) past from congrArg LogDataKv.vh (hclear k)] at hi
    obtain ⟨e, he, hu⟩ := mem_idxs.mp hi
    simp only [under, Bool.and_eq_true] at hu
    exact ⟨e, he, hu.1⟩
  · rintro ⟨e, he, hs⟩
    have hu : under .seq e.seq e = true := by simp [under, hs]
    refine ⟨g e.seq, (hg.mem _).mpr ⟨e.seq, ⟨e, List.mem_reverse.mp (List.mem_of_getElem? he), hu⟩, rfl⟩, ?_⟩
    rw [show (g e.seq).vh = idxs (under .seq e.seq) past from congrArg LogDataKv.vh (hclear e.seq)]
    exact mem_idxs.mpr ⟨e, he, hu⟩

/-- Marking the values under the sequence numbers. -/
theorem Bones.marked (h : Bones ls past) {f : LogDataV → LogDataV} (hf : ∀ v, f (f v) = f v)
    (hbone : ∀ v, setFiltered false (f v) = setFiltered false v) :
    Bones (ls.seqVs.foldl (fun ls v => ls.modV v f) ls) past ∧
      (∀ i e, past.reverse[i]? = some e → e.isSeq = true →
        (ls.seqVs.foldl (fun ls v => ls.modV v f) ls).v i = f (ls.v i)) ∧
      ∃ vs, ls.seqVs.foldl (fun ls v => ls.modV v f) ls = { ls with vs := vs } := by
  have hget : ∀ i e, past.reverse[i]? = some e →
      (ls.seqVs.foldl (fun ls v => ls.modV v f) ls).v i = if e.isSeq then f (ls.v i) else ls.v i := by
    intro i e hi
    obtain ⟨x, ep, hx, hv, -⟩ := value_get h.vs hi
    rw [foldl_modV]
    unfold LogStore.v
    dsimp only
    rw [List.getD_eq_getElem?_getD, foldl_modify hf, List.getD_eq_getElem?_getD, hx]
    have hmem : i ∈ ls.seqVs ↔ e.isSeq = true := by
      rw [h.mem_seqVs]
      constructor
      · rintro ⟨e', hi', hs⟩
        obtain rfl : e = e' := Option.some.inj (hi.symm.trans hi')
        exact hs
      · exact fun hs => ⟨e, hi, hs⟩
    simp [hmem]
  refine ⟨⟨?_, ?_, ?_⟩, ?_, ?_⟩
  · rw [foldl_modV, ← h.vs]
    apply List.ext_getElem?
    intro i
    dsimp only
    rw [List.getElem?_map, foldl_modify hf, List.getElem?_map, Option.map_map]
    congr 1
    funext v
    dsimp only [Function.comp_apply]
    split
    · exact hbone v
    · rfl
  · intro i e hi hs
    rw [hget i e hi, if_neg (by simp [hs])]
    exact h.others i e hi hs
  · rw [foldl_modV]
    intro t
    obtain ⟨g, hg, hclear⟩ := h.kvs t
    refine ⟨g, ?_, hclear⟩
    cases t <;> exact hg
  · intro i e hi hs
    rw [hget i e hi, if_pos hs]
  · exact ⟨_, foldl_modV _ _ _⟩

/-- The received frames at or below the cut-off are marked, and nothing else. -/
structure Marked (c : Int8) (ls : LogStore) (past : List Entry) : Prop where
  bones : Bones ls past
  flags : ∀ i e, past.reverse[i]? = some e → (ls.v i).filtered = e.cut c

theorem cutOffV_idem (c : Int8) (v : LogDataV) : cutOffV c (cutOffV c v) = cutOffV c v := by
  unfold cutOffV
  by_cases h1 : v.type = frameTypeInet6
  · by_cases h2 : v.dbm = dbmInval16
    · simp [h1, h2]
    · simp [h1, h2, setFiltered]
  · simp [h1]

theorem cutOffV_bone (c : Int8) (v : LogDataV) : setFiltered false (cutOffV c v) = setFiltered false v := by
  unfold cutOffV
  split
  · rfl
  · split <;> rfl

theorem cut_inet6 {e : Entry} (h : e.cut c = true) : e.isInet6 = true := by
  unfold Entry.cut at h
  rw [Bool.and_eq_true] at h
  exact h.1

theorem inet6_isSeq {e : Entry} (h : e.isInet6 = true) : e.isSeq = true := by
  have ht : e.hd.type = frameTypeInet6 := by simpa [Entry.isInet6] using h
  simp [Entry.isSeq, isSeqType, ht]

theorem cut_isSeq {e : Entry} (h : e.isSeq = false) : e.cut c = false := by
  by_contra hc
  rw [Bool.not_eq_false] at hc
  rw [inet6_isSeq (cut_inet6 hc)] at h
  cases h

theorem decode_isSeq {e : Entry} (h : e.isDecode = true) : e.isSeq = true := by
  have ht : e.hd.type = frameTypeDecode := by simpa [Entry.isDecode] using h
  simp [Entry.isSeq, isSeqType, ht]

theorem decode_not_cut {e : Entry} (h : e.isDecode = true) : e.cut c = false := by
  have ht : e.hd.type = frameTypeDecode := by simpa [Entry.isDecode] using h
  by_contra hc
  rw [Bool.not_eq_false] at hc
  have hi := cut_inet6 hc
  rw [Entry.isInet6, ht] at hi
  cases hi

theorem decode_not_inet6 {e : Entry} (h : e.isDecode = true) : e.isInet6 = false := by
  have ht : e.hd.type = frameTypeDecode := by simpa [Entry.isDecode] using h
  exact (decode_flags ht).2.1

theorem cutOffV_flag {v : LogDataV} {e : Entry} (hf : v.filtered = false) (ht : v.type = e.hd.type) (hd : v.dbm = e.hd.dbm) :
    (cutOffV c v).filtered = e.cut c := by
  unfold cutOffV Entry.cut Entry.isInet6
  rw [ht, hd]
  by_cases h1 : e.hd.type = frameTypeInet6
  · by_cases h2 : e.hd.dbm = dbmInval16
    · simp [h1, h2, hf]
    · simp [h1, h2, setFiltered]
  · simp [h1, hf]

/-- `log_filter_reset`, and the marking in `log_filter_dbm`. -/
theorem Bones.cutOff (h : Bones ls past) (c : Int8) :
    ∃ vs, (logFilterReset ls).seqVs.foldl (fun ls v => ls.modV v (cutOffV c)) (logFilterReset ls) = { ls with vs := vs } ∧
      Marked c { ls with vs := vs } past := by
  obtain ⟨hb1, hf1, vs1, he1⟩ := h.marked (f := setFiltered false) (fun _ => rfl) fun _ => rfl
  obtain ⟨hb2, hf2, vs2, he2⟩ := hb1.marked (cutOffV_idem c) (cutOffV_bone c)
  refine ⟨vs2, ?_, ?_⟩
  · unfold logFilterReset
    rw [he2, he1]
  · rw [he1] at he2
    rw [he1, he2] at hb2
    refine ⟨hb2, ?_⟩
    intro i e hi
    by_cases hs : e.isSeq = true
    · have hv := hf2 i e hi hs
      rw [he1, he2] at hv
      rw [hv, ← he1]
      refine cutOffV_flag ?_ (value_type hb1.vs hi) (value_dbm hb1.vs hi)
      rw [hf1 i e hi hs]
      rfl
    · rw [Bool.not_eq_true] at hs
      rw [cut_isSeq hs]
      exact hb2.others i e hi hs

/-! ## The first pass -/

theorem withEth_received (n : Nat) (kv : LogDataKv) : (kv.withEth n).received = kv.withEth (n + 1) := by
  simp [LogDataKv.withEth, LogDataKv.received]

theorem withEth_zero (kv : LogDataKv) : kv.clear.withEth 0 = kv.clear := rfl

/-- The value is a received frame that is left. -/
def LogStore.leaves (ls : LogStore) (i : Nat) : Bool := decide ((ls.v i).type = frameTypeInet6) && !(ls.v i).filtered

theorem blockScan_step (n i : Nat) (kv : LogDataKv) :
    blockScan ls (kv.withEth n) i = kv.withEth (n + if ls.leaves i then 1 else 0) := by
  unfold blockScan LogStore.leaves
  by_cases h1 : (ls.v i).filtered = true
  · simp [h1]
  · by_cases h2 : (ls.v i).type = frameTypeInet6
    · simp [h1, h2, withEth_received]
    · simp [h1, h2]

theorem foldl_blockScan (L : List Nat) (n : Nat) (kv : LogDataKv) :
    L.foldl (blockScan ls) (kv.withEth n) = kv.withEth (n + L.countP ls.leaves) := by
  induction L generalizing n with
  | nil => rfl
  | cons i L ih =>
    rw [List.foldl_cons, blockScan_step, ih, List.countP_cons]
    congr 1
    omega

theorem Marked.leaves (h : Marked c ls past) {i : Nat} {e : Entry} (hi : past.reverse[i]? = some e) : ls.leaves i = e.left c := by
  unfold LogStore.leaves Entry.left Entry.isInet6
  rw [h.flags i e hi, value_type h.bones.vs hi]

/-- The blocks before any sequence number is judged. -/
theorem Marked.updated (h : Marked c ls past) {g : LogDataKv} {b : Nat} (hg : g.clear = (kvOf ls.fecK .blk past b).clear) :
    updateBlock ls g = finalBlk c ls.fecK past [] b := by
  have hvh : g.vh = idxs (under .blk b) past := congrArg LogDataKv.vh hg
  have hcount : (idxs (under .blk b) past).countP ls.leaves = blkEth c past b := idxs_countP fun i e hi => h.leaves hi
  unfold updateBlock finalBlk
  dsimp only
  rw [hvh, ← withEth_zero, foldl_blockScan, Nat.zero_add, hcount, hg]
  by_cases hlt : blkEth c past b < ls.fecK.toNat
  · simp [LogDataKv.withEth, LogDataKv.lost, hlt, LogDataKv.clear]
  · simp [LogDataKv.withEth, hlt, LogDataKv.clear]

/-! ## The second pass at one sequence number -/

theorem lastDecode_some {s : Nat} {d : Nat × Entry} (h : lastDecode s past = some d) :
    past.reverse[d.1]? = some d.2 ∧ under .seq s d.2 = true ∧ d.2.isDecode = true := by
  induction past with
  | nil => cases h
  | cons e past ih =>
    unfold lastDecode at h
    by_cases hu : (under .seq s e && e.isDecode) = true
    · rw [if_pos hu] at h
      obtain rfl := Option.some.inj h
      rw [Bool.and_eq_true] at hu
      exact ⟨by simp, hu.1, hu.2⟩
    · rw [if_neg hu] at h
      obtain ⟨hi, hrest⟩ := ih h
      refine ⟨?_, hrest⟩
      have hlt : d.1 < past.reverse.length := (List.getElem?_eq_some_iff.mp hi).1
      rwa [List.reverse_cons, List.getElem?_append_left hlt]

theorem firstBlock_some {s b : Nat} (h : firstBlock s past = some b) : ∃ e ∈ past, under .seq s e = true ∧ e.block = b := by
  induction past with
  | nil => cases h
  | cons e past ih =>
    unfold firstBlock at h
    cases hf : firstBlock s past with
    | some b' =>
      rw [hf] at h
      obtain rfl := Option.some.inj h
      obtain ⟨e', he', hu, hb⟩ := ih hf
      exact ⟨e', List.mem_cons_of_mem e he', hu, hb⟩
    | none =>
      rw [hf, Option.none_or] at h
      by_cases hu : under .seq s e = true
      · rw [if_pos hu] at h
        exact ⟨e, List.mem_cons_self, hu, Option.some.inj h⟩
      · rw [if_neg hu] at h
        cases h

theorem firstBlock_mem {s : Nat} (h : s ∈ keysOf .seq past) : ∃ b, firstBlock s past = some b := by
  induction past with
  | nil =>
    obtain ⟨e, he, -⟩ := h
    cases he
  | cons e past ih =>
    unfold firstBlock
    cases hf : firstBlock s past with
    | some b => exact ⟨b, rfl⟩
    | none =>
      obtain ⟨e', he', hu⟩ := h
      rcases List.mem_cons.mp he' with rfl | he'
      · exact ⟨e'.block, by simp [hu]⟩
      · obtain ⟨b, hb⟩ := ih ⟨e', he', hu⟩
        rw [hf] at hb
        cases hb

theorem seqEth_cons (e : Entry) (past : List Entry) (s : Nat) :
    seqEth c (e :: past) s = seqEth c past s + if under .seq s e && e.left c then 1 else 0 := List.countP_cons

/-- What the second pass finds under a sequence number. -/
def scanned (c : Int8) (kv : LogDataKv) (past : List Entry) (s : Nat) : SeqScan :=
  ⟨kv.clear.withEth (seqEth c past s), (lastDecode s past).map Prod.fst, (firstBlock s past).map (KvRef.mk .blk)⟩

theorem seqScan_block {s : Nat} {e : Entry} (kv : LogDataKv) (hu : under .seq s e = true) :
    (if (scanned c kv past s).blockKv = none then { scanned c kv past s with blockKv := some ⟨.blk, e.block⟩ }
      else scanned c kv past s) =
      { scanned c kv past s with blockKv := (firstBlock s (e :: past)).map (KvRef.mk .blk) } := by
  unfold scanned
  dsimp only
  rw [firstBlock]
  cases firstBlock s past with
  | none => simp [hu]
  | some b => simp

theorem seqScan_step {s : Nat} {e : Entry} (kv : LogDataKv) (hu : under .seq s e = true)
    (hf : (ls.v past.length).filtered = e.cut c) (ht : (ls.v past.length).type = e.hd.type)
    (hb : (ls.v past.length).blockKv = some ⟨.blk, e.block⟩) :
    seqScan ls (scanned c kv past s) past.length = scanned c kv (e :: past) s := by
  have hinet : e.isInet6 = decide (e.hd.type = frameTypeInet6) := rfl
  have hdec : e.isDecode = decide (e.hd.type = frameTypeDecode) := rfl
  unfold seqScan
  dsimp only
  rw [hb, hf, ht, seqScan_block kv hu]
  unfold scanned
  rw [seqEth_cons, lastDecode, hu]
  by_cases hcut : e.cut c = true
  · -- a marked record is a received frame
    have h1 := cut_inet6 hcut
    have h2 : e.isDecode = false := by
      rw [hinet, decide_eq_true_eq] at h1
      rw [hdec, h1]
      decide
    simp [hcut, h2, Entry.left]
  · rw [if_neg hcut]
    by_cases h1 : e.hd.type = frameTypeInet6
    · have h2 : e.hd.type ≠ frameTypeDecode := by
        rw [h1]
        decide
      have hl : e.left c = true := by simp [Entry.left, hinet, h1, hcut]
      have hd : e.isDecode = false := by simp [hdec, h2]
      rw [if_pos h1, if_neg h2]
      simp [hl, hd, withEth_received]
    · have hl : e.left c = false := by simp [Entry.left, hinet, h1]
      rw [if_neg h1]
      by_cases h2 : e.hd.type = frameTypeDecode
      · rw [if_pos h2]
        simp [hl, hdec, h2]
      · rw [if_neg h2]
        simp [hl, hdec, h2]

theorem foldl_seqScan {s : Nat} (kv : LogDataKv)
    (h : ∀ i e, past.reverse[i]? = some e → under .seq s e = true →
      (ls.v i).filtered = e.cut c ∧ (ls.v i).type = e.hd.type ∧ (ls.v i).blockKv = some ⟨.blk, e.block⟩) :
    (idxs (under .seq s) past).foldl (seqScan ls) ⟨kv.clear, none, none⟩ = scanned c kv past s := by
  induction past with
  | nil => rfl
  | cons e past ih =>
    have hold := ih fun i e' hi => by
      apply h
      have hlt : i < past.reverse.length := (List.getElem?_eq_some_iff.mp hi).1
      rwa [List.reverse_cons, List.getElem?_append_left hlt]
    rw [idxs, List.foldl_append, hold]
    by_cases hu : under .seq s e = true
    · obtain ⟨hf, ht, hb⟩ := h past.length e (by simp) hu
      rw [if_pos hu, List.foldl_cons, List.foldl_nil, seqScan_step kv hu hf ht hb]
    · rw [if_neg hu, List.foldl_nil]
      rw [Bool.not_eq_true] at hu
      unfold scanned
      rw [seqEth_cons, lastDecode, firstBlock, hu]
      simp

/-- What a verdict does to the block it is charged to. -/
def LogDataKv.charge (w : Verdict) (kv : LogDataKv) : LogDataKv :=
  { kv with
    hasLostFrame := kv.hasLostFrame || w.isLoss
    hasFecFrame := kv.hasFecFrame || decide (w = .recovered)
    nH265Frame := kv.nH265Frame + if w.keeps then 1 else 0 }

theorem finalBlk_charge {s b : Nat} (h : firstBlock s past = some b) :
    finalBlk c fecK past (done ++ [s]) b = (finalBlk c fecK past done b).charge (verdict c fecK past s) := by
  simp [finalBlk, LogDataKv.charge, charged, h, Bool.or_assoc, List.countP_append, List.countP_cons]

theorem finalBlk_other {s b b' : Nat} (h : firstBlock s past = some b) (hne : b' ≠ b) :
    finalBlk c fecK past (done ++ [s]) b' = finalBlk c fecK past done b' := by
  have hno : ¬ b = b' := fun he => hne he.symm
  simp [finalBlk, charged, h, hno, List.countP_append]

theorem flagOf_snoc (s i : Nat) (e : Entry) :
    flagOf c fecK past (done ++ [s]) i e =
      (flagOf c fecK past done i e ||
        (decide (e.seq = s) &&
          (decide ((lastDecode s past).map Prod.fst = some i) && decide (verdict c fecK past s = .lost)))) := by
  unfold flagOf
  by_cases hs : e.seq = s
  · subst hs
    by_cases hd : e.seq ∈ done
    · simp [hd]
    · simp [hd]
  · simp [hs]

/-- The sequence numbers `done` are judged. -/
structure Judged (c : Int8) (ls : LogStore) (past : List Entry) (done : List Nat) : Prop where
  vs : ls.vs.map (setFiltered false) = vsOf ls.fecK past
  flags : ∀ i e, past.reverse[i]? = some e → (ls.v i).filtered = flagOf c ls.fecK past done i e
  seq : ∃ g, KeyedList.Holds LogDataKv.key g (keysOf .seq past) ls.kvh ∧
    (∀ k, (g k).clear = (kvOf ls.fecK .seq past k).clear) ∧ ∀ s ∈ done, g s = finalSeq c ls.fecK past s
  blk : KeyedList.Holds LogDataKv.key (finalBlk c ls.fecK past done) (keysOf .blk past) ls.blockKvh

/-- The store once the sequence number `s`, its first record of block `b`, is judged too. -/
def LogStore.judge (ls : LogStore) (c : Int8) (past : List Entry) (s b : Nat) : LogStore :=
  { ls with
    vs := (lastDecode s past).elim ls.vs fun d => ls.vs.modify d.1 (setFiltered (decide (verdict c ls.fecK past s = .lost)))
    kvh := KeyedList.modify LogDataKv.key s (fun _ => finalSeq c ls.fecK past s) ls.kvh
    blockKvh := KeyedList.modify LogDataKv.key b (.charge (verdict c ls.fecK past s)) ls.blockKvh }

section

variable {s : Nat} {d : Nat × Entry}

theorem verdict_missing (hd : lastDecode s past = none) (hk : s < fecK.toNat) : verdict c fecK past s = .missing := by
  unfold verdict
  rw [hd]
  exact if_pos hk

theorem verdict_absent (hd : lastDecode s past = none) (hk : ¬ s < fecK.toNat) : verdict c fecK past s = .absent := by
  unfold verdict
  rw [hd]
  exact if_neg hk

theorem verdict_received (hd : lastDecode s past = some d) (heth : 0 < seqEth c past s) : verdict c fecK past s = .received := by
  unfold verdict
  rw [hd]
  exact if_pos heth

theorem verdict_recovered (hd : lastDecode s past = some d) (heth : ¬ 0 < seqEth c past s)
    (hk : fecK.toNat ≤ blkEth c past d.2.block) : verdict c fecK past s = .recovered := by
  unfold verdict
  rw [hd]
  exact (if_neg heth).trans (if_pos hk)

theorem verdict_lost (hd : lastDecode s past = some d) (heth : ¬ 0 < seqEth c past s)
    (hk : ¬ fecK.toNat ≤ blkEth c past d.2.block) : verdict c fecK past s = .lost := by
  unfold verdict
  rw [hd]
  exact (if_neg heth).trans (if_neg hk)

end

theorem judge_get {s b i : Nat} : (ls.judge c past s b).vs[i]? = ls.vs[i]?.map fun x =>
    if (lastDecode s past).map Prod.fst = some i then setFiltered (decide (verdict c ls.fecK past s = .lost)) x else x := by
  unfold LogStore.judge
  dsimp only
  cases lastDecode s past with
  | none => simp
  | some d =>
    rw [Option.elim_some, List.getElem?_modify]
    cases ls.vs[i]? with
    | none => rfl
    | some x => by_cases hi : d.1 = i <;> simp [hi]

theorem Judged.judge (h : Judged c ls past done) {s b : Nat} (hfirst : firstBlock s past = some b) :
    Judged c (ls.judge c past s b) past (done ++ [s]) where
  vs := by
    refine Eq.trans ?_ h.vs
    apply List.ext_getElem?
    intro i
    rw [List.getElem?_map, judge_get, List.getElem?_map, Option.map_map]
    congr 1
    funext x
    dsimp only [Function.comp_apply]
    split <;> rfl
  flags := by
    intro i e hi
    obtain ⟨x, ep, hx, hv, -⟩ := value_get h.vs hi
    have hflag := h.flags i e hi
    rw [hv] at hflag
    have hget : (ls.judge c past s b).vs[i]? = some (if (lastDecode s past).map Prod.fst = some i then
        setFiltered (decide (verdict c ls.fecK past s = .lost)) x else x) := by
      rw [judge_get, hx]
      rfl
    rw [v_of_get hget]
    refine Eq.trans ?_ (@flagOf_snoc past ls.fecK c done s i e).symm
    by_cases hl : (lastDecode s past).map Prod.fst = some i
    · obtain ⟨d, hd, rfl⟩ := Option.map_eq_some_iff.mp hl
      obtain ⟨hi', hu, hdec⟩ := lastDecode_some hd
      obtain rfl : e = d.2 := Option.some.inj (hi.symm.trans hi')
      have hseq : d.2.seq = s := by
        simp only [under, Bool.and_eq_true, decide_eq_true_eq] at hu
        exact hu.2
      have hcut : d.2.cut c = false := decode_not_cut hdec
      rw [if_pos hl]
      unfold flagOf
      rw [hseq, hl, hcut]
      by_cases hlost : verdict c ls.fecK past s = .lost
      · simp [setFiltered, hlost]
      · simp [setFiltered, hlost]
    · rw [if_neg hl, hflag]
      simp [hl]
  seq := by
    obtain ⟨g, hg, hclear, hdone⟩ := h.seq
    refine ⟨Function.update g s (finalSeq c ls.fecK past s), ?_, ?_, ?_⟩
    · refine hg.modified (fun k => congrArg LogDataKv.key (hclear k)) ?_ ?_ ?_
      · intro kv hkv
        rfl
      · intro _
        rw [Function.update_self]
      · intro k _ hne
        exact Function.update_of_ne hne _ _
    · intro k
      by_cases hk : k = s
      · subst hk
        rw [Function.update_self]
        rfl
      · rw [Function.update_of_ne hk]
        exact hclear k
    · intro k hk
      by_cases he : k = s
      · subst he
        exact Function.update_self ..
      · rw [Function.update_of_ne he]
        rcases List.mem_append.mp hk with hk | hk
        · exact hdone k hk
        · exact absurd (List.mem_singleton.mp hk) he
  blk := by
    refine h.blk.modified (fun _ => rfl) (fun _ hb => hb) ?_ ?_
    · intro _
      exact (finalBlk_charge hfirst).symm
    · intro b' _ hne
      exact finalBlk_other hfirst hne

theorem charge_lost {w : Verdict} (h : w.isLoss = true) : LogDataKv.charge w = .lost true := by
  funext kv
  cases w <;> simp_all [LogDataKv.charge, LogDataKv.lost, Verdict.isLoss, Verdict.keeps]

theorem charge_absent (kv : LogDataKv) : kv.charge .absent = kv := by simp [LogDataKv.charge, Verdict.isLoss, Verdict.keeps]

theorem charge_received : LogDataKv.charge .received = .decoded := by
  funext kv
  simp [LogDataKv.charge, LogDataKv.decoded, Verdict.isLoss, Verdict.keeps]

theorem charge_recovered : LogDataKv.charge .recovered = fun kv => kv.byFec.decoded := by
  funext kv
  simp [LogDataKv.charge, LogDataKv.decoded, LogDataKv.byFec, Verdict.isLoss, Verdict.keeps]

/-- Writing a key anew, and changing it. -/
theorem modify_const {s : Nat} {kv : LogDataKv} {f : LogDataKv → LogDataKv} (h : kv.key = s) (l : List LogDataKv) :
    KeyedList.modify LogDataKv.key s f (KeyedList.modify LogDataKv.key s (fun _ => kv) l) =
      KeyedList.modify LogDataKv.key s (fun _ => f kv) l := KeyedList.modify_modify (fun _ _ => h) l

theorem modify_byFec (b : Nat) (l : List LogDataKv) :
    KeyedList.modify LogDataKv.key b .decoded (KeyedList.modify LogDataKv.key b .byFec l) =
      KeyedList.modify LogDataKv.key b (fun kv => kv.byFec.decoded) l := by
  apply KeyedList.modify_modify
  intro kv hkv
  exact hkv

theorem updateSeq_judge (h : Judged c ls past done) {kv : LogDataKv} (hmem : kv.key ∈ keysOf .seq past)
    (hclear : kv.clear = (kvOf ls.fecK .seq past kv.key).clear) (hnew : kv.key ∉ done) (n : Nat) :
    ∃ b n', firstBlock kv.key past = some b ∧ updateSeq (ls, n) kv = .ok (ls.judge c past kv.key b, n') := by
  obtain ⟨b, hb⟩ := firstBlock_mem hmem
  have hscan : kv.vh.foldl (seqScan ls) ⟨kv.clear, none, none⟩ = scanned c kv past kv.key := by
    rw [show kv.vh = idxs (under .seq kv.key) past from congrArg LogDataKv.vh hclear]
    refine foldl_seqScan kv fun i e hi hu => ?_
    simp only [under, Bool.and_eq_true, decide_eq_true_eq] at hu
    refine ⟨?_, value_type h.vs hi, value_blockKv h.vs hi hu.1⟩
    rw [h.flags i e hi]
    unfold flagOf
    rw [hu.2, decide_eq_false hnew, Bool.false_and, Bool.or_false]
  have hfinal : finalSeq c ls.fecK past kv.key = (kv.clear.withEth (seqEth c past kv.key)).judged
    (verdict c ls.fecK past kv.key) := by
    unfold finalSeq
    rw [hclear]
  have hkey : (kv.clear.withEth (seqEth c past kv.key)).key = kv.key := rfl
  unfold updateSeq LogStore.judge
  dsimp only
  rw [hscan, hfinal]
  unfold scanned
  rw [hb]
  dsimp only [Option.map_some]
  simp only [LogStore.modKv, LogStore.setKvs, LogStore.kvs, LogStore.modV]
  cases hd : lastDecode kv.key past with
  | none =>
    dsimp only [Option.map_none, Option.elim_none]
    by_cases hk : kv.key < ls.fecK.toNat
    · refine ⟨b, n, rfl, (if_pos hk).trans ?_⟩
      rw [verdict_missing hd hk, modify_const hkey, charge_lost rfl]
      rfl
    · refine ⟨b, n, rfl, (if_neg hk).trans ?_⟩
      rw [verdict_absent hd hk, KeyedList.modify_same charge_absent]
      rfl
  | some d =>
    obtain ⟨hi, hu, hdec⟩ := lastDecode_some hd
    have hblk : (ls.v d.1).blockKv = some ⟨.blk, d.2.block⟩ := value_blockKv h.vs hi (decode_isSeq hdec)
    dsimp only [Option.map_some, Option.elim_some]
    by_cases heth : 0 < seqEth c past kv.key
    · refine ⟨b, n, rfl, (if_pos (decide_eq_true heth)).trans ?_⟩
      rw [verdict_received hd heth, modify_const hkey, charge_received]
      rfl
    · have hfind : ls.kv? ⟨.blk, d.2.block⟩ = some (finalBlk c ls.fecK past done d.2.block) := by
        refine h.blk.find (fun _ => rfl) ⟨d.2, List.mem_reverse.mp (List.mem_of_getElem? hi), ?_⟩
        simp [under, decode_isSeq hdec]
      have hno : (kv.clear.withEth (seqEth c past kv.key)).hasEthernetFrame = false := decide_eq_false heth
      have hblkEth : ∀ l, (((({ ls with kvh := l } : LogStore).v d.1).blockKv.bind ({ ls with kvh := l } : LogStore).kv?).any
          fun b => decide (ls.fecK.toNat ≤ b.nEthernetFrame)) = decide (ls.fecK.toNat ≤ blkEth c past d.2.block) := by
        intro l
        have hv : ({ ls with kvh := l } : LogStore).v d.1 = ls.v d.1 := rfl
        have hl : ({ ls with kvh := l } : LogStore).kv? ⟨.blk, d.2.block⟩ = ls.kv? ⟨.blk, d.2.block⟩ := rfl
        rw [hv, hblk, Option.bind_some, hl, hfind]
        rfl
      by_cases hk : ls.fecK.toNat ≤ blkEth c past d.2.block
      · refine ⟨b, n + 1, rfl, (if_neg (by simp [hno])).trans ((if_pos ?_).trans ?_)⟩
        · exact (hblkEth _).trans (decide_eq_true hk)
        · have hfec : (kv.clear.withEth (seqEth c past kv.key)).byFec.key = kv.key := rfl
          rw [verdict_recovered hd heth hk, charge_recovered, modify_const hkey, modify_const hfec, modify_byFec]
          rfl
      · refine ⟨b, n, rfl, (if_neg (by simp [hno])).trans ((if_neg ?_).trans ?_)⟩
        · rw [Bool.not_eq_true]
          exact (hblkEth _).trans (decide_eq_false hk)
        · rw [verdict_lost hd heth hk, charge_lost rfl, modify_const hkey]
          rfl

/-! ## One command -/

/-- The second pass over the sequence numbers that are left. -/
theorem Judged.pass (h : Judged c ls past done) {kvs : List LogDataKv}
    (hkvs : ∀ kv ∈ kvs, kv.key ∈ keysOf .seq past ∧ kv.clear = (kvOf ls.fecK .seq past kv.key).clear)
    (hnodup : (done ++ kvs.map LogDataKv.key).Nodup) (n : Nat) :
    ∃ vs kvh blockKvh n', kvs.foldlM updateSeq (ls, n) = .ok ({ ls with vs := vs, kvh := kvh, blockKvh := blockKvh }, n') ∧
      Judged c { ls with vs := vs, kvh := kvh, blockKvh := blockKvh } past (done ++ kvs.map LogDataKv.key) := by
  induction kvs generalizing ls done n with
  | nil =>
    refine ⟨ls.vs, ls.kvh, ls.blockKvh, n, rfl, ?_⟩
    rw [List.map_nil, List.append_nil]
    exact h
  | cons kv kvs ih =>
    obtain ⟨hmem, hclear⟩ := hkvs kv List.mem_cons_self
    have hnew : kv.key ∉ done := by
      intro hd
      rw [List.map_cons, List.nodup_append] at hnodup
      exact hnodup.2.2 _ hd _ List.mem_cons_self rfl
    obtain ⟨b, n', hb, hstep⟩ := updateSeq_judge h hmem hclear hnew n
    have hj := h.judge hb
    rw [List.map_cons, List.append_cons] at hnodup ⊢
    obtain ⟨vs, kvh, blockKvh, n'', hrun, hend⟩ := ih hj (fun kv' hkv' => hkvs kv' (List.mem_cons_of_mem kv hkv')) hnodup n'
    refine ⟨vs, kvh, blockKvh, n'', ?_, hend⟩
    rw [List.foldlM_cons, hstep]
    exact hrun

/-- The first pass. -/
theorem Marked.judged (h : Marked c ls past) : Judged c { ls with blockKvh := ls.blockKvh.map (updateBlock ls) } past [] := by
  refine ⟨h.bones.vs, ?_, ?_, ?_⟩
  · intro i e hi
    refine (h.flags i e hi).trans ?_
    simp [flagOf]
  · obtain ⟨g, hg, hclear⟩ := h.bones.kvs .seq
    exact ⟨g, hg, hclear, fun s hs => nomatch hs⟩
  · obtain ⟨g, hg, hclear⟩ := h.bones.kvs .blk
    refine hg.map (fun b _ => h.updated (hclear b)) fun b _ => ?_
    exact (congrArg LogDataKv.key (hclear b)).symm

/-- What a command makes of a store: every sequence number is judged, and nothing else
    changes. -/
structure FilteredTo (c : Int8) (ls ls' : LogStore) (past : List Entry) : Prop where
  rest : ls' = { ls with vs := ls'.vs, kvh := ls'.kvh, blockKvh := ls'.blockKvh }
  vs : ls'.vs.map (setFiltered false) = vsOf ls.fecK past
  flags : ∀ i e, past.reverse[i]? = some e → (ls'.v i).filtered = flagOf c ls.fecK past (ls.kvh.map LogDataKv.key) i e
  seq : KeyedList.Holds LogDataKv.key (finalSeq c ls.fecK past) (keysOf .seq past) ls'.kvh
  blk : KeyedList.Holds LogDataKv.key (finalBlk c ls.fecK past (ls.kvh.map LogDataKv.key)) (keysOf .blk past) ls'.blockKvh

theorem Bones.seq_keys (h : Bones ls past) {s : Nat} : s ∈ ls.kvh.map LogDataKv.key ↔ s ∈ keysOf .seq past := by
  obtain ⟨g, hg, hclear⟩ := h.kvs .seq
  exact hg.mem_keys fun k => congrArg LogDataKv.key (hclear k)

theorem shellFilterDbm_spec (h : Bones ls past) (c : Int8) : ∃ ls', shellFilterDbm ls c = .ok ls' ∧ FilteredTo c ls ls' past := by
  obtain ⟨vs, hmark, hm⟩ := h.cutOff c
  obtain ⟨g, hg, hclear⟩ := h.kvs .seq
  have hkvs : ∀ kv ∈ ls.kvh, kv.key ∈ keysOf .seq past ∧ kv.clear = (kvOf ls.fecK .seq past kv.key).clear := by
    intro kv hkv
    obtain ⟨k, hk, rfl⟩ := (hg.mem kv).mp hkv
    have hkey : (g k).key = k := congrArg LogDataKv.key (hclear k)
    rw [hkey]
    exact ⟨hk, hclear k⟩
  have hnodup : (([] : List Nat) ++ ls.kvh.map LogDataKv.key).Nodup := hg.keys_nodup
  obtain ⟨vs', kvh, blockKvh, n, hrun, hj⟩ := hm.judged.pass hkvs hnodup 0
  refine ⟨{ ls with vs := vs', kvh := kvh, blockKvh := blockKvh }, ?_, rfl, hj.vs, hj.flags, ?_, hj.blk⟩
  · unfold shellFilterDbm logFilterDbm
    rw [hmark]
    unfold logUpdateKv
    dsimp only at hrun ⊢
    rw [hrun]
    rfl
  · obtain ⟨g', hg', -, hdone⟩ := hj.seq
    refine hg'.congr fun s hs => hdone s ?_
    exact h.seq_keys.mpr hs

/-! ## Reading the outcome -/

theorem FilteredTo.fecK_eq (h : FilteredTo c ls ls' past) : ls'.fecK = ls.fecK := by rw [h.rest]

theorem FilteredTo.values (h : FilteredTo c ls ls' past) : ls'.vs.map (setFiltered false) = vsOf ls'.fecK past := by
  rw [h.fecK_eq, h.vs]

theorem FilteredTo.leaves (h : FilteredTo c ls ls' past) {i : Nat} {e : Entry} (hi : past.reverse[i]? = some e) :
    ls'.leaves i = e.left c := by
  unfold LogStore.leaves Entry.left
  rw [value_type h.values hi, h.flags i e hi]
  by_cases ht : e.isInet6 = true
  · have hl : (lastDecode e.seq past).map Prod.fst ≠ some i := by
      intro hl
      obtain ⟨d, hd, rfl⟩ := Option.map_eq_some_iff.mp hl
      obtain ⟨hi', -, hdec⟩ := lastDecode_some hd
      obtain rfl : e = d.2 := Option.some.inj (hi.symm.trans hi')
      rw [decode_not_inet6 hdec] at ht
      cases ht
    unfold flagOf
    rw [decide_eq_false hl]
    simp [Entry.isInet6]
  · rw [Bool.not_eq_true] at ht
    have hf : decide (e.hd.type = frameTypeInet6) = false := ht
    rw [hf, ht]
    rfl

theorem FilteredTo.mem_seq (h : FilteredTo c ls ls' past) {kv : LogDataKv} (hkv : kv ∈ ls'.kvh) :
    kv.key ∈ keysOf .seq past ∧ kv = finalSeq c ls.fecK past kv.key := by
  obtain ⟨s, hs, rfl⟩ := (h.seq.mem kv).mp hkv
  exact ⟨hs, rfl⟩

theorem FilteredTo.seq_vh (h : FilteredTo c ls ls' past) {kv : LogDataKv} (hkv : kv ∈ ls'.kvh) :
    kv.vh = idxs (under .seq kv.key) past := congrArg LogDataKv.vh (h.mem_seq hkv).2

/-- Only the last decoded frame of a number is ever marked. -/
theorem FilteredTo.decode_flag (h : FilteredTo c ls ls' past) (hb : Bones ls past) {i : Nat} {e : Entry}
    (hi : past.reverse[i]? = some e) (hd : e.isDecode = true) :
    (ls'.v i).filtered = true ↔ (lastDecode e.seq past).map Prod.fst = some i ∧ verdict c ls.fecK past e.seq = .lost := by
  have hmem : e.seq ∈ ls.kvh.map LogDataKv.key :=
    hb.seq_keys.mpr ⟨e, List.mem_reverse.mp (List.mem_of_getElem? hi), by simp [under, decode_isSeq hd]⟩
  rw [h.flags i e hi]
  unfold flagOf
  rw [decode_not_cut hd, decide_eq_true hmem]
  simp

/-- How many of a number's records are left. -/
theorem FilteredTo.any_leaves (h : FilteredTo c ls ls' past) {kv : LogDataKv} (hkv : kv ∈ ls'.kvh) :
    kv.vh.any ls'.leaves = true ↔ 0 < seqEth c past kv.key := by
  rw [h.seq_vh hkv]
  have hcount : (idxs (under .seq kv.key) past).countP ls'.leaves = seqEth c past kv.key := idxs_countP fun i e hi => h.leaves hi
  rw [← hcount, List.countP_pos_iff, List.any_eq_true]

end WfbYa.Log
