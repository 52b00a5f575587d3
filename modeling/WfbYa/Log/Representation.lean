/-
  WfbYa.Log.Representation — what a loaded store is, for every file.

  (1) `store_representation`. Each list of keys is in the order of the keys; every record is
  under the keys its header names, and under no other; a key's records are in file order.

  (2) `counters_iff`. The counters are those of the records in the store, exactly if the file
  is not cut within the payload of a decoded frame: that record stays in the store, and
  nothing counts it (`cut_breaks_counters`).

  (3) `robust_iff`. A store comes back exactly if no payload's size is out of range: the
  assertion is the only check (`long_message_breaks_loader`).
-/

import WfbYa.Log.Loading
import Mathlib.Data.List.TakeWhile

namespace WfbYa.Log

open WfbYa.Lib

variable {file : Bytes} {ls : LogStore} {past : List Entry} {fecK : UInt8}

/-! ## Indices -/

/-- What is read through the indices is read from the records. -/
theorem idxs_map {γ : Type} {p : Entry → Bool} {F : Nat → γ} {G : Entry → γ}
    (h : ∀ i e, past.reverse[i]? = some e → F i = G e) : (idxs p past).map F = (past.reverse.filter p).map G := by
  induction past with
  | nil => rfl
  | cons e past ih =>
    have hlast : (e :: past).reverse[past.length]? = some e := by simp
    have hold : ∀ i e', past.reverse[i]? = some e' → F i = G e' := by
      intro i e' hi
      apply h
      have hlt : i < past.reverse.length := (List.getElem?_eq_some_iff.mp hi).1
      rw [List.reverse_cons, List.getElem?_append_left hlt]
      exact hi
    rw [idxs, List.map_append, ih hold, List.reverse_cons, List.filter_append, List.map_append]
    by_cases hp : p e = true
    · simp [hp, h _ _ hlast]
    · simp [hp]

theorem mem_idxs {p : Entry → Bool} {i : Nat} : i ∈ idxs p past ↔ ∃ e, past.reverse[i]? = some e ∧ p e = true := by
  induction past with
  | nil => simp [idxs]
  | cons e past ih =>
    rw [idxs, List.mem_append, ih, List.reverse_cons]
    constructor
    · rintro (⟨e', hi, hp⟩ | hi)
      · have hlt : i < past.reverse.length := (List.getElem?_eq_some_iff.mp hi).1
        exact ⟨e', by rwa [List.getElem?_append_left hlt], hp⟩
      · by_cases hp : p e = true
        · rw [if_pos hp, List.mem_singleton] at hi
          subst hi
          exact ⟨e, by simp, hp⟩
        · rw [if_neg hp] at hi
          cases hi
    · rintro ⟨e', hi, hp⟩
      by_cases hlt : i < past.reverse.length
      · rw [List.getElem?_append_left hlt] at hi
        exact .inl ⟨e', hi, hp⟩
      · rw [List.getElem?_append_right (Nat.not_lt.mp hlt)] at hi
        have hzero : i - past.reverse.length = 0 := by
          by_contra hne
          obtain ⟨n, hn⟩ := Nat.exists_eq_succ_of_ne_zero hne
          rw [hn] at hi
          simp at hi
        rw [hzero] at hi
        obtain rfl : e = e' := by simpa using hi
        rw [List.length_reverse] at hzero hlt
        refine .inr ?_
        rw [if_pos hp, List.mem_singleton]
        omega

theorem idxs_lt {p : Entry → Bool} {i : Nat} (h : i ∈ idxs p past) : i < past.length := by
  obtain ⟨e, hi, -⟩ := mem_idxs.mp h
  have := (List.getElem?_eq_some_iff.mp hi).1
  rwa [List.length_reverse] at this

theorem idxs_sorted (p : Entry → Bool) (past : List Entry) : (idxs p past).Pairwise (· < ·) := by
  induction past with
  | nil => exact List.Pairwise.nil
  | cons e past ih =>
    rw [idxs, List.pairwise_append]
    refine ⟨ih, ?_, ?_⟩
    · split
      · exact List.pairwise_singleton _ _
      · exact List.Pairwise.nil
    · intro i hi j hj
      split at hj
      · rw [List.mem_singleton] at hj
        subst hj
        exact idxs_lt hi
      · cases hj

/-- The value of a record. -/
theorem vsOf_get {e : Entry} {i : Nat} (h : past.reverse[i]? = some e) :
    ∃ ep, (vsOf fecK past)[i]? = some (entryV fecK ep e) := by
  induction past with
  | nil => cases h
  | cons e' past ih =>
    rw [List.reverse_cons] at h
    rw [vsOf]
    by_cases hlt : i < past.length
    · rw [List.getElem?_append_left (by simpa using hlt)] at h ⊢
      exact ih h
    · rw [List.getElem?_append_right (by simpa using hlt)] at h ⊢
      rw [List.length_reverse] at h
      rw [vsOf_length]
      have hi : i - past.length = 0 := by
        by_contra hne
        obtain ⟨n, hn⟩ := Nat.exists_eq_succ_of_ne_zero hne
        rw [hn] at h
        simp at h
      rw [hi] at h ⊢
      obtain rfl : e' = e := by simpa using h
      exact ⟨_, rfl⟩

theorem Loaded.v (h : Loaded ls past) {e : Entry} {i : Nat} (hi : past.reverse[i]? = some e) :
    ∃ ep, ls.v i = entryV ls.fecK ep e := by
  obtain ⟨ep, hv⟩ := @vsOf_get past ls.fecK e i hi
  refine ⟨ep, ?_⟩
  unfold LogStore.v
  rw [h.vs, List.getD_eq_getElem?_getD, hv]
  rfl

/-- A key of a list is what the records make it. -/
theorem Loaded.kv (h : Loaded ls past) {t : KvType} {kv : LogDataKv} (hkv : kv ∈ ls.kvs t) : kv = kvOf ls.fecK t past kv.key := by
  obtain ⟨k, -, rfl⟩ := ((h.kvs t).mem kv).mp hkv
  rfl

/-! ## (1) Representation -/

/-- The record is under the key `k` and under no other of the list. -/
def InKey (ls : LogStore) (t : KvType) (k i : Nat) : Prop :=
  (∃ kv ∈ ls.kvs t, kv.key = k ∧ i ∈ kv.vh) ∧ ∀ kv ∈ ls.kvs t, i ∈ kv.vh → kv.key = k

def InNoKey (ls : LogStore) (t : KvType) (i : Nat) : Prop := ∀ kv ∈ ls.kvs t, i ∉ kv.vh

/-- The store represents the records, in file order. -/
structure Represents (ls : LogStore) (es : List Entry) : Prop where
  count : ls.vs.length = es.length
  values : ∀ i e, es[i]? = some e → (ls.v i).type = e.hd.type
  increasing : ∀ t, KeyedList.Sorted LogDataKv.key (ls.kvs t)
  fileOrder : ∀ t, ∀ kv ∈ ls.kvs t, kv.vh.Pairwise (· < ·)
  frames : ∀ i e, es[i]? = some e → e.isSeq = true →
    InKey ls .seq e.seq i ∧ InKey ls .blk e.block i ∧ InNoKey ls .msg i ∧
      (ls.v i).kv = some ⟨.seq, e.seq⟩ ∧ (ls.v i).blockKv = some ⟨.blk, e.block⟩
  messages : ∀ i e, es[i]? = some e → e.isMsg = true → InKey ls .msg e.seq i ∧ InNoKey ls .seq i ∧ InNoKey ls .blk i

theorem Loaded.inKey (h : Loaded ls past) {t : KvType} {k i : Nat} {e : Entry} (hi : past.reverse[i]? = some e)
    (hu : under t k e = true) : InKey ls t k i := by
  constructor
  · have hmem : e ∈ past := List.mem_reverse.mp (List.mem_of_getElem? hi)
    refine ⟨kvOf ls.fecK t past k, ((h.kvs t).mem _).mpr ⟨k, ⟨e, hmem, hu⟩, rfl⟩, rfl, ?_⟩
    exact mem_idxs.mpr ⟨e, hi, hu⟩
  · intro kv hkv hvh
    rw [h.kv hkv] at hvh
    obtain ⟨e', hi', hu'⟩ := mem_idxs.mp hvh
    obtain rfl : e = e' := Option.some.inj (hi.symm.trans hi')
    by_contra hne
    rw [under_one hu hne] at hu'
    cases hu'

theorem Loaded.inNoKey (h : Loaded ls past) {t : KvType} {i : Nat} {e : Entry} (hi : past.reverse[i]? = some e)
    (hu : ∀ k, under t k e = false) : InNoKey ls t i := by
  intro kv hkv hvh
  rw [h.kv hkv] at hvh
  obtain ⟨e', hi', hu'⟩ := mem_idxs.mp hvh
  obtain rfl : e = e' := Option.some.inj (hi.symm.trans hi')
  rw [hu] at hu'
  cases hu'

theorem Loaded.represents (h : Loaded ls past) : Represents ls past.reverse where
  count := by rw [h.vs, vsOf_length, List.length_reverse]
  values := by
    intro i e hi
    obtain ⟨ep, hv⟩ := h.v hi
    rw [hv]
    rfl
  increasing := fun t => (h.kvs t).sorted
  fileOrder := by
    intro t kv hkv
    rw [h.kv hkv]
    exact idxs_sorted _ _
  frames := by
    intro i e hi hs
    obtain ⟨ep, hv⟩ := h.v hi
    have hkv : (ls.v i).kv = some ⟨.seq, e.seq⟩ := by
      rw [hv]
      simp [entryV, hs]
    have hblk : (ls.v i).blockKv = some ⟨.blk, e.block⟩ := by
      rw [hv]
      simp [entryV, hs]
    exact ⟨h.inKey hi (by simp [under, hs]), h.inKey hi (by simp [under, hs]), h.inNoKey hi (under_msg_of_seq hs), hkv, hblk⟩
  messages := by
    intro i e hi hm
    exact ⟨h.inKey hi (by simp [under, hm]), h.inNoKey hi (under_of_msg hm (by decide)),
      h.inNoKey hi (under_of_msg hm (by decide))⟩

theorem store_representation (h : loadLog file = .ok (some ls)) : Represents ls (fileEntries file) := by
  obtain ⟨-, -, ep, hl⟩ := loadLog_some h
  rw [← List.reverse_reverse (fileEntries file)]
  exact hl.loaded.represents

/-- A file header, and what lies behind it. -/
def testFile (rest : Bytes) : Bytes := (⟨1, 1, 1, 2, 0, rxLogSignature⟩ : RxLogFileHeader).raw ++ rest

/-- The header of a test record: its type, sequence number, block and size. -/
def testHeader (type : UInt8) (seq blockIdx : UInt64) (size : UInt32) : RxLogFrameHeader :=
  ⟨1, 0, seq, blockIdx, size, 0, type, 2412, -42, .zero⟩

/-- Block 1 is received behind block 2. -/
def twoBlocks : Bytes :=
  testFile ((testHeader frameTypeInet6 4 2 8).raw ++ (testHeader frameTypeInet6 2 1 8).raw ++
    (testHeader frameTypeDecode 2 1 0).raw)

theorem load_of_toOption {r : Except Fault (Option LogStore)} (h : r.toOption.bind id = some ls) : r = .ok (some ls) := by
  rcases r with err | _ | ls'
  · cases h
  · cases h
  · rw [← show ls' = ls from Option.some.inj h]

theorem twoBlocks_loads : ∃ ls, loadLog twoBlocks = .ok (some ls) := by
  have hrun : ((loadLog twoBlocks).toOption.bind id).isSome = true := by decide +kernel
  obtain ⟨ls, hls⟩ := Option.isSome_iff_exists.mp hrun
  exact ⟨ls, load_of_toOption hls⟩

theorem twoBlocks_representation :
    ∃ ls, loadLog twoBlocks = .ok (some ls) ∧ ls.kvh.map LogDataKv.key = [2, 4] ∧ Represents ls (fileEntries twoBlocks) := by
  have hrun : ((loadLog twoBlocks).toOption.bind id).map (fun ls => ls.kvh.map LogDataKv.key) = some [2, 4] := by decide +kernel
  obtain ⟨ls, hls, hkeys⟩ := Option.map_eq_some_iff.mp hrun
  have hload := load_of_toOption hls
  exact ⟨ls, hload, hkeys, store_representation hload⟩

/-! ## (2) Counters -/

theorem max_pkt (a b : Int16) : max a b = if a < b then b else a := by
  show (if a ≤ b then b else a) = _
  split <;> split <;> grind

theorem min_pkt (a b : Int16) : min a b = if b < a then b else a := by
  show (if a ≤ b then a else b) = _
  split <;> split <;> grind

theorem max_frame (a b : UInt32) : max a b = if a < b then b else a := by
  show (if a ≤ b then b else a) = _
  split <;> split <;> grind

theorem min_frame (a b : UInt32) : min a b = if b < a then b else a := by
  show (if a ≤ b then a else b) = _
  split <;> split <;> grind

def LogDataV.isInet6 (v : LogDataV) : Bool := v.type = frameTypeInet6
def LogDataV.isDecode (v : LogDataV) : Bool := v.type = frameTypeDecode

/-- The signal strengths of the received frames that have one. -/
def dbms (vs : List LogDataV) : List Int16 := ((vs.filter LogDataV.isInet6).map LogDataV.dbm).filter fun d => d ≠ dbmInval16

/-- The sizes of the decoded frames. -/
def sizes (vs : List LogDataV) : List UInt32 := (vs.filter LogDataV.isDecode).map LogDataV.size

/-- The summary of the values, each field on its own. -/
def storeSummary (vs : List LogDataV) : LogSummary where
  nPkts := UInt32.ofNat (vs.filter LogDataV.isInet6).length
  nPktsWithDbm := UInt32.ofNat (dbms vs).length
  maxDbm := (dbms vs).foldl max (-128)
  minDbm := (dbms vs).foldl min 127
  nFrames := UInt32.ofNat (sizes vs).length
  maxFrameSize := (sizes vs).foldl max 0
  minFrameSize := (sizes vs).foldl min (UInt32.ofNat (2 ^ 32 - 1))
  totalBytes := UInt64.ofNat ((sizes vs).map UInt32.toNat).sum

theorem storeSummary_inet6 {vs : List LogDataV} {v : LogDataV} (h : v.type = frameTypeInet6) :
    storeSummary (vs ++ [v]) = (storeSummary vs).pkt v.dbm := by
  have h1 : v.isInet6 = true := by simp [LogDataV.isInet6, h]
  have h2 : v.isDecode = false := by
    unfold LogDataV.isDecode
    rw [h]
    decide
  have hsizes : sizes (vs ++ [v]) = sizes vs := by simp [sizes, h2]
  unfold storeSummary LogSummary.pkt
  rw [hsizes]
  by_cases hd : v.dbm = dbmInval16
  · have hdbms : dbms (vs ++ [v]) = dbms vs := by simp [dbms, h1, hd]
    simp [hdbms, hd, h1, UInt32.ofNat_add]
  · have hdbms : dbms (vs ++ [v]) = dbms vs ++ [v.dbm] := by simp [dbms, h1, hd]
    simp [hdbms, hd, h1, UInt32.ofNat_add, max_pkt, min_pkt]

theorem storeSummary_decode {vs : List LogDataV} {v : LogDataV} (h : v.type = frameTypeDecode) :
    storeSummary (vs ++ [v]) = (storeSummary vs).frame v.size := by
  have h1 : v.isInet6 = false := by
    unfold LogDataV.isInet6
    rw [h]
    decide
  have h2 : v.isDecode = true := by simp [LogDataV.isDecode, h]
  have hsizes : sizes (vs ++ [v]) = sizes vs ++ [v.size] := by simp [sizes, h2]
  have hdbms : dbms (vs ++ [v]) = dbms vs := by simp [dbms, h1]
  unfold storeSummary LogSummary.frame
  simp [hsizes, hdbms, h1, UInt32.ofNat_add, UInt64.ofNat_add, max_frame, min_frame]

theorem storeSummary_other {vs : List LogDataV} {v : LogDataV} (h1 : v.isInet6 = false) (h2 : v.isDecode = false) :
    storeSummary (vs ++ [v]) = storeSummary vs := by
  unfold storeSummary
  simp [sizes, dbms, h1, h2]

/-- The counters are those of the values, and a decoded frame's buffer has its size. -/
structure Accounted (ls : LogStore) : Prop where
  summary : ls.summary = storeSummary ls.vs
  payloads : ∀ v ∈ ls.vs, v.isDecode = true → v.size ≠ 0 → ∃ p, v.buf = some p ∧ p.length = v.size.toNat
  received : ∀ t, ∀ kv ∈ ls.kvs t, kv.nEthernetFrame = kv.vh.countP fun i => (ls.v i).isInet6
  decoded : ∀ t, ∀ kv ∈ ls.kvs t, kv.nH265Frame = kv.vh.countP fun i => (ls.v i).isDecode

/-- No decoded frame is cut. -/
def DecodesWhole (past : List Entry) : Prop := ∀ e ∈ past, e.isDecode = true → e.payload ≠ none

theorem vsOf_mem {v : LogDataV} (h : v ∈ vsOf fecK past) : ∃ e ∈ past, ∃ ep, v = entryV fecK ep e := by
  induction past with
  | nil => cases h
  | cons e past ih =>
    rw [vsOf, List.mem_append, List.mem_singleton] at h
    rcases h with h | h
    · obtain ⟨e', he', ep, hv⟩ := ih h
      exact ⟨e', List.mem_cons_of_mem e he', ep, hv⟩
    · exact ⟨e, List.mem_cons_self, _, h⟩

theorem idxs_countP {p : Entry → Bool} {Q : Nat → Bool} {q : Entry → Bool}
    (h : ∀ i e, past.reverse[i]? = some e → Q i = q e) : (idxs p past).countP Q = past.countP fun e => p e && q e := by
  have hmap : ((idxs p past).map Q).countP id = ((past.reverse.filter p).map q).countP id := congrArg _ (idxs_map h)
  rw [List.countP_map, List.countP_map, List.countP_filter, List.countP_reverse] at hmap
  refine hmap.trans (List.countP_congr fun e _ => ?_)
  simp [and_comm]

theorem entries_payload {n : Nat} {bs : Bytes} {e : Entry} (h : e ∈ entries n bs) (hc : carriesPayload e.hd.type = true)
    {p : Bytes} (hp : e.payload = some p) : p.length = e.hd.size.toNat := by
  induction n generalizing bs with
  | zero => cases h
  | succ n ih =>
    cases hr : readEntry bs with
    | none =>
      rw [entries_none hr] at h
      cases h
    | some q =>
      rw [entries, hr] at h
      rcases List.mem_cons.mp h with rfl | h
      · obtain ⟨-, -, hread⟩ := readEntry_cases hr
        obtain ⟨e, rest⟩ := q
        cases hread with
        | plain hc' => 
          dsimp only at hc
          rw [hc'] at hc
          cases hc
        | whole _ hlen =>
          obtain rfl := Option.some.inj hp
          rw [List.length_take, Nat.min_eq_left hlen]
        | cut => cases hp
      · exact ih h

theorem summaryOf_store (h : DecodesWhole past) : summaryOf past = storeSummary (vsOf fecK past) := by
  induction past with
  | nil => rfl
  | cons e past ih =>
    have hold := ih fun e' he' => h e' (List.mem_cons_of_mem e he')
    have hpay := h e List.mem_cons_self
    rw [summaryOf, vsOf, hold]
    by_cases h1 : e.isInet6 = true
    · rw [if_pos h1, storeSummary_inet6 (by simpa [Entry.isInet6, entryV] using h1)]
      rfl
    · rw [if_neg h1]
      by_cases h2 : e.isDecode = true
      · have hsome := hpay h2
        rw [if_pos (by simpa [Entry.isDecoded, h2, Option.isSome_iff_ne_none] using hsome),
          storeSummary_decode (by simpa [Entry.isDecode, entryV] using h2)]
        simp [entryV, hsome]
      · rw [if_neg (by simp [Entry.isDecoded, h2]), storeSummary_other]
        · simpa [LogDataV.isInet6, Entry.isInet6, entryV] using h1
        · simpa [LogDataV.isDecode, Entry.isDecode, entryV] using h2

theorem countP_lt {l : List Entry} {p q : Entry → Bool} {e : Entry} (h : ∀ e, p e = true → q e = true) (he : e ∈ l)
    (hq : q e = true) (hp : p e = false) : l.countP p < l.countP q := by
  induction l with
  | nil => cases he
  | cons e' l ih =>
    rw [List.countP_cons, List.countP_cons]
    rcases List.mem_cons.mp he with rfl | he
    · have hle : l.countP p ≤ l.countP q := List.countP_mono_left fun e _ => h e
      rw [hq, hp]
      simp
      omega
    · have hlt := ih he
      by_cases hpe : p e' = true
      · rw [if_pos hpe, if_pos (h e' hpe)]
        omega
      · rw [if_neg hpe]
        omega

theorem Loaded.count (h : Loaded ls past) {t : KvType} {kv : LogDataKv} (hkv : kv ∈ ls.kvs t) :
    (kv.vh.countP fun i => (ls.v i).isInet6) = (past.countP fun e => under t kv.key e && e.isInet6) ∧
      (kv.vh.countP fun i => (ls.v i).isDecode) = past.countP fun e => under t kv.key e && e.isDecode := by
  have hvh : kv.vh = idxs (under t kv.key) past := congrArg LogDataKv.vh (h.kv hkv)
  rw [hvh]
  constructor
  · apply idxs_countP
    intro i e hi
    obtain ⟨ep, hv⟩ := h.v hi
    rw [hv]
    rfl
  · apply idxs_countP
    intro i e hi
    obtain ⟨ep, hv⟩ := h.v hi
    rw [hv]
    rfl

theorem Loaded.accounted (h : Loaded ls past) (hwhole : DecodesWhole past)
    (hpay : ∀ e ∈ past, e.isDecode = true → ∀ p, e.payload = some p → p.length = e.hd.size.toNat) : Accounted ls where
  summary := by rw [h.summary, h.vs, summaryOf_store hwhole]
  payloads := by
    intro v hv hdec hsize
    rw [h.vs] at hv
    obtain ⟨e, he, ep, rfl⟩ := vsOf_mem hv
    have hd : e.isDecode = true := hdec
    obtain ⟨p, hp⟩ := Option.ne_none_iff_exists'.mp (hwhole e he hd)
    have hlen := hpay e he hd p hp
    have hs : (entryV ls.fecK ep e).size = e.hd.size := by simp [entryV, hp]
    rw [hs] at hsize ⊢
    have hne : p ≠ [] := by
      rintro rfl
      exact hsize (UInt32.toNat_inj.mp hlen.symm)
    exact ⟨p, by simp [entryV, hp, hne], hlen⟩
  received := by
    intro t kv hkv
    rw [(h.count hkv).1]
    exact congrArg LogDataKv.nEthernetFrame (h.kv hkv)
  decoded := by
    intro t kv hkv
    rw [(h.count hkv).2]
    refine (congrArg LogDataKv.nH265Frame (h.kv hkv)).trans (List.countP_congr fun e he => ?_)
    by_cases hd : e.isDecode = true
    · simp [Entry.isDecoded, hd, Option.isSome_iff_ne_none, hwhole e he hd]
    · simp [Entry.isDecoded, hd]

/-- A decoded frame that is cut is under its key, and the key does not count it. -/
theorem Loaded.cut_uncounted (h : Loaded ls past) {e : Entry} (he : e ∈ past) (hd : e.isDecode = true) (hp : e.payload = none) :
    ¬ Accounted ls := by
  intro hacc
  have hu : under .seq e.seq e = true := by
    have ht : e.hd.type = frameTypeDecode := by simpa [Entry.isDecode] using hd
    simp [under, Entry.isSeq, isSeqType, ht]
  have hkv : kvOf ls.fecK .seq past e.seq ∈ ls.kvs .seq := ((h.kvs .seq).mem _).mpr ⟨e.seq, ⟨e, he, hu⟩, rfl⟩
  have hcount := hacc.decoded .seq _ hkv
  rw [(h.count hkv).2] at hcount
  have hlt : (past.countP fun e' => under .seq e.seq e' && e'.isDecoded) < past.countP fun e' =>
    under .seq e.seq e' && e'.isDecode := by
    refine countP_lt (fun e' h' => ?_) he ?_ ?_
    · simp only [Entry.isDecoded, Bool.and_eq_true] at h' ⊢
      exact ⟨h'.1, h'.2.1⟩
    · rw [hu, hd]
      rfl
    · simp [Entry.isDecoded, hp]
  exact absurd hcount (Nat.ne_of_lt hlt)

theorem counters_iff (h : loadLog file = .ok (some ls)) : Accounted ls ↔ DecodesWhole (fileEntries file) := by
  obtain ⟨-, -, ep, hl⟩ := loadLog_some h
  constructor
  · intro hacc e he hd hp
    exact hl.loaded.cut_uncounted (List.mem_reverse.mpr he) hd hp hacc
  · intro hwhole
    refine hl.loaded.accounted (fun e he => hwhole e (List.mem_reverse.mp he)) fun e he hd p hp => ?_
    exact entries_payload (List.mem_reverse.mp he)
      (by simp [carriesPayload, show e.hd.type = frameTypeDecode by simpa [Entry.isDecode] using hd]) hp

theorem twoBlocks_counters : ∃ ls, loadLog twoBlocks = .ok (some ls) ∧ ls.summary.nFrames = 1 ∧
    (Accounted ls ↔ DecodesWhole (fileEntries twoBlocks)) := by
  have hrun : ((loadLog twoBlocks).toOption.bind id).map (fun ls => ls.summary.nFrames) = some 1 := by decide +kernel
  obtain ⟨ls, hls, hn⟩ := Option.map_eq_some_iff.mp hrun
  have hload := load_of_toOption hls
  exact ⟨ls, hload, hn, counters_iff hload⟩

/-- Four bytes are said to follow; one does. -/
def cutFile : Bytes := testFile ((testHeader frameTypeDecode 2 1 4).raw ++ [7])

theorem cut_breaks_counters : ¬ ∀ (file : Bytes) (ls : LogStore), loadLog file = .ok (some ls) → Accounted ls := by
  intro h
  have hrun : ((loadLog cutFile).toOption.bind id).map (fun ls => (ls.summary.nFrames, (storeSummary ls.vs).nFrames)) =
    some (0, 1) := by
    decide +kernel
  obtain ⟨ls, hls, hn⟩ := Option.map_eq_some_iff.mp hrun
  have hsum := (h _ _ (load_of_toOption hls)).summary
  rw [← hsum] at hn
  have h1 := congrArg Prod.fst hn
  have h2 := congrArg Prod.snd hn
  dsimp only at h1 h2
  rw [h1] at h2
  exact absurd h2 (by decide)

/-! ## (3) Sizes out of range -/

/-- The records up to the first with a payload's size out of range. -/
def inRange (es : List Entry) : List Entry := es.takeWhile fun e => !e.oversize

/-- A store comes back, with the records that were read. -/
def Robust (file : Bytes) : Prop := ∃ ls, loadLog file = .ok (some ls) ∧ Loaded ls (inRange (fileEntries file)).reverse

theorem inRange_all {es : List Entry} (h : ∀ e ∈ es, e.oversize = false) : inRange es = es := by
  unfold inRange
  rw [List.takeWhile_eq_self_iff]
  intro e he
  rw [h e he]
  rfl

theorem robust_iff (h : HeaderOk file) : Robust file ↔ ∀ e ∈ fileEntries file, e.oversize = false := by
  constructor
  · rintro ⟨ls, hload, -⟩
    exact (loadLog_some hload).2.1
  · intro hall
    obtain ⟨ls, ep, hload, hl⟩ := loadLog_ok h hall
    refine ⟨ls, hload, ?_⟩
    rw [inRange_all hall]
    exact hl.loaded

theorem twoBlocks_robust : HeaderOk twoBlocks ∧ (Robust twoBlocks ↔ ∀ e ∈ fileEntries twoBlocks, e.oversize = false) := by
  have hok : HeaderOk twoBlocks := by
    unfold HeaderOk
    decide +kernel
  exact ⟨hok, robust_iff hok⟩

example : (fileEntries twoBlocks).length = 3 := by decide +kernel

/-- A message said to be as long as a whole frame. -/
def longMessage : Bytes := testFile (testHeader frameTypeMsgInfo 0 0 4045).raw

theorem long_message_breaks_loader : ¬ ∀ file, HeaderOk file → Robust file := by
  intro h
  have hok : HeaderOk longMessage := by
    unfold HeaderOk
    decide +kernel
  obtain ⟨ls, hload, -⟩ := h longMessage hok
  have hfail : (loadLog longMessage).toOption.isNone = true := by decide +kernel
  rw [hload] at hfail
  cases hfail

end WfbYa.Log
