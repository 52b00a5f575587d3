/-
  WfbYa.Log.Exports — what the exporters make of a store that was filtered.

  `exports_agree_iff`. They list the same frames, and the counters in the JSON documents go
  with their events, exactly if no frame is marked and every block has as many decoded frames
  as begin in it: the JSON documents list marked frames as well, and a decoded frame is
  counted where its number begins, but listed where it is.

  - `lists_once_iff`: a document is right about the frames if none is marked.
  - `FilteredTo.seq_counts` / `FilteredTo.blk_counts`: the counters, once nothing is marked.
-/

import WfbYa.Log.Documents
import WfbYa.Log.LogHist
import WfbYa.Log.LogH265
import WfbYa.Log.Recovery
import WfbYa.Log.BlockSums

namespace WfbYa.Log

open WfbYa.Lib

variable {file : Bytes} {ls ls0 ls' : LogStore} {past : List Entry} {t : KvType} {v : LogDataV} {final : String} {c : Int8}
  {is : List Nat} {i : Nat} {kv : LogDataKv}

/-! ## Listing -/

/-- A received or decoded frame. -/
def LogDataV.isFrame (v : LogDataV) : Bool := v.type = frameTypeInet6 || v.type = frameTypeDecode

/-- Of the frames, those that are not marked, once each. -/
def ListsOnce (ls : LogStore) (is : List Nat) : Prop :=
  (is.filter fun i => (ls.v i).isFrame).Nodup ∧
    ∀ i, i ∈ is.filter (fun i => (ls.v i).isFrame) ↔ i < ls.vs.length ∧ (ls.v i).isFrame = true ∧ (ls.v i).filtered = false

/-- The event is of the value, as far as it tells. -/
def Describes (v : LogDataV) (ev : Members) : Prop :=
  ("Type", .str (sVType v)) ∈ ev ∧ ("TimeStamp", .seconds (fTimestamp v)) ∈ ev

def DocLists (ls : LogStore) (doc : List KvObj) : Prop :=
  ∃ is, List.Forall₂ (fun i ev => Describes (ls.v i) ev) is (doc.flatMap KvObj.event) ∧ ListsOnce ls is

def CsvLists (ls : LogStore) (rows : List (List (Option String))) : Prop :=
  ∃ ps : List (LogDataKv × Nat), rows = csvHdr :: ps.map (fun p => csvSerializeV p.1 (ls.v p.2)) ∧ ListsOnce ls (ps.map Prod.snd)

theorem isFrame_seq (h : v.isFrame = true) : isSeqType v.type = true := by
  unfold LogDataV.isFrame at h
  simp only [Bool.or_eq_true, decide_eq_true_eq] at h
  rcases h with h | h <;> rw [h] <;> rfl

theorem Bones.listed_nodup (h : Bones ls past) (t : KvType) : (ls.listed t).Nodup := by
  refine (h.traversal t).imp ?_
  intro i j hpre heq
  subst heq
  obtain ⟨r, r', hr, hr', hlt⟩ := hpre
  obtain rfl := Option.some.inj (hr.symm.trans hr')
  omega

theorem Bones.mem_frames (h : Bones ls past) (ht : t ≠ .msg) : i ∈ (ls.listed t).filter (fun i => (ls.v i).isFrame) ↔
    i < ls.vs.length ∧ (ls.v i).isFrame = true := by
  rw [List.mem_filter, h.mem_listed ht]
  constructor
  · intro ⟨⟨hlt, _⟩, hf⟩
    exact ⟨hlt, hf⟩
  · intro ⟨hlt, hf⟩
    exact ⟨⟨hlt, isFrame_seq hf⟩, hf⟩

theorem csv_lists (h : Bones ls past) : CsvLists ls (csvSerialize ls) := by
  refine ⟨ls.kvh.flatMap fun kv => (kv.vh.filter fun i => !(ls.v i).filtered).map fun i => (kv, i), ?_, ?_⟩
  · unfold csvSerialize
    rw [List.map_flatMap]
    simp only [List.map_map]
    rfl
  · have his : (ls.kvh.flatMap fun kv => (kv.vh.filter fun i => !(ls.v i).filtered).map fun i => (kv, i)).map Prod.snd =
        (ls.listed .seq).filter fun i => !(ls.v i).filtered := by
      unfold LogStore.listed
      rw [List.map_flatMap, List.filter_flatMap]
      simp only [List.map_map]
      congr 1
      funext kv
      exact List.map_id _
    rw [his]
    refine ⟨((h.listed_nodup .seq).filter _).filter _, ?_⟩
    intro i
    rw [List.mem_filter, List.mem_filter, h.mem_listed (by decide)]
    constructor
    · intro ⟨⟨⟨hlt, _⟩, hf⟩, hframe⟩
      exact ⟨hlt, hframe, by simpa using hf⟩
    · intro ⟨hlt, hframe, hf⟩
      exact ⟨⟨⟨hlt, isFrame_seq hframe⟩, by simpa using hf⟩, hframe⟩

/-! ## The events of a document -/

theorem mem_type (x : JVal) : ("Type", x) ∈ eventText t final v ↔ x = .str (sVType v) := by
  unfold eventText eventTail
  have hsource : ("Type", x) ∉ (if v.rxSrc.isSome then [("SourceNode", JVal.str (sourceText t final v))] else []) := by
    split <;> simp
  have hfreq : ("Type", x) ∉ (if 0 < v.freq then [("SourceNode", JVal.uint v.freq.toNat)] else []) := by split <;> simp
  have hdbm : ("Type", x) ∉ (if dbmShown v.dbm then [("dbm", JVal.int v.dbm.toInt)] else []) := by split <;> simp
  have hsize : ("Type", x) ∉ (if 0 < v.size then [("DataSize", JVal.uint v.size.toNat)] else []) := by split <;> simp
  rw [List.mem_append, List.mem_append, List.mem_append, List.mem_append]
  cases t <;> simp [eventHead, hsource, hfreq, hdbm, hsize]

theorem describes_own : Describes v (eventText t final v) := by
  refine ⟨(mem_type _).mpr rfl, List.mem_append_left _ ?_⟩
  cases t <;> exact List.mem_cons_self

/-- The types go by their names. -/
theorem sVType_frame : v.isFrame = decide (sVType v = "Receive" ∨ sVType v = "Decode") := by
  unfold LogDataV.isFrame sVType
  by_cases hc : v.type = frameTypeCorrupt
  · rw [hc]
    decide
  · by_cases hi : v.type = frameTypeInet6
    · rw [hi]
      decide
    · by_cases hd : v.type = frameTypeDecode
      · rw [hd]
        decide
      · simp [hc, hi, hd]

example : { LogDataV.zero with type := frameTypeCorrupt }.isFrame = false := by decide +kernel

theorem document_events (h : Bones ls past) (ht : t ≠ .msg) (sAddr : String) :
    (jsonSerializeKvh ls (ls.kvs t) sAddr).flatMap KvObj.event =
      (ls.listed t).map fun i => eventText t (lastSource ((ls.listed t).map ls.v) sAddr) (ls.v i) := by
  rw [document_eq h ht]
  generalize lastSource ((ls.listed t).map ls.v) sAddr = final
  unfold LogStore.listed
  rw [List.flatMap_map, List.map_flatMap]
  rfl

/-- No received or decoded frame is marked. -/
def NoneMarked (ls : LogStore) : Prop := ∀ i, i < ls.vs.length → (ls.v i).isFrame = true → (ls.v i).filtered = false

theorem described_types {js : List Nat}
    (h : List.Forall₂ (fun i ev => Describes (ls.v i) ev) is (js.map fun i => eventText t final (ls.v i))) :
    is.map (fun i => sVType (ls.v i)) = js.map fun i => sVType (ls.v i) := by
  induction js generalizing is with
  | nil =>
    cases h
    rfl
  | cons j js ih =>
    rcases h with _ | ⟨hd, hrest⟩
    rw [List.map_cons, List.map_cons, ih hrest]
    rw [JVal.str.inj ((mem_type _).mp hd.1)]

theorem lists_once_iff (h : Bones ls past) (ht : t ≠ .msg) (sAddr : String) :
    DocLists ls (jsonSerializeKvh ls (ls.kvs t) sAddr) ↔ NoneMarked ls := by
  unfold DocLists
  rw [document_events h ht]
  constructor
  · intro ⟨is, hdesc, hnodup, hmem⟩
    have hframes : ∀ l : List Nat, (l.filter fun i => (ls.v i).isFrame).length =
        (l.map fun i => sVType (ls.v i)).countP fun s => decide (s = "Receive" ∨ s = "Decode") := by
      intro l
      rw [List.countP_map, List.countP_eq_length_filter]
      congr 1
      apply List.filter_congr
      intro i _
      exact sVType_frame
    have hlen : ((ls.listed t).filter fun i => (ls.v i).isFrame).length ≤ (is.filter fun i => (ls.v i).isFrame).length := by
      rw [hframes, hframes, described_types hdesc]
    have hsub : is.filter (fun i => (ls.v i).isFrame) ⊆ (ls.listed t).filter fun i => (ls.v i).isFrame := by
      intro i hi
      obtain ⟨hlt, hframe, -⟩ := (hmem i).mp hi
      exact (h.mem_frames ht).mpr ⟨hlt, hframe⟩
    have hperm := (List.subperm_of_subset hnodup hsub).perm_of_length_le hlen
    intro i hlt hframe
    exact ((hmem i).mp (hperm.mem_iff.mpr ((h.mem_frames ht).mpr ⟨hlt, hframe⟩))).2.2
  · intro hnone
    refine ⟨ls.listed t, forall2_map.mpr fun i _ => describes_own, (h.listed_nodup t).filter _, ?_⟩
    intro i
    rw [h.mem_frames ht]
    constructor
    · intro ⟨hlt, hframe⟩
      exact ⟨hlt, hframe, hnone i hlt hframe⟩
    · intro ⟨hlt, hframe, _⟩
      exact ⟨hlt, hframe⟩

/-! ## Using marked frames -/

def LogStore.isMarked (ls : LogStore) (i : Nat) : Bool := (ls.v i).isFrame && (ls.v i).filtered

def LogDataKv.without (p : Nat → Bool) (kv : LogDataKv) : LogDataKv := { kv with vh := kv.vh.filter fun i => !p i }

/-- The store without its marked frames. -/
def LogStore.unmarked (ls : LogStore) : LogStore :=
  { ls with kvh := ls.kvh.map (.without ls.isMarked), blockKvh := ls.blockKvh.map (.without ls.isMarked) }

theorem without_none (h : Bones ls past) (hnone : NoneMarked ls) : (ls.kvs t).map (.without ls.isMarked) = ls.kvs t := by
  refine (List.map_congr_left fun kv hkv => ?_).trans (List.map_id _)
  have hvh : kv.vh.filter (fun i => !ls.isMarked i) = kv.vh := by
    rw [List.filter_eq_self]
    intro i hi
    unfold LogStore.isMarked
    cases hf : (ls.v i).isFrame with
    | false => rfl
    | true => simp [hnone i (h.vh_lt hkv hi) hf]
  unfold LogDataKv.without
  rw [hvh]
  rfl

theorem unmarked_none (h : Bones ls past) (hnone : NoneMarked ls) : ls.unmarked = ls := by
  have hseq : ls.kvh.map (.without ls.isMarked) = ls.kvh := without_none (t := .seq) h hnone
  have hblk : ls.blockKvh.map (.without ls.isMarked) = ls.blockKvh := without_none (t := .blk) h hnone
  unfold LogStore.unmarked
  rw [hseq, hblk]

/-! ## The counters -/

def ofType (s : String) (ev : Members) : Bool := decide (("Type", JVal.str s) ∈ ev)

/-- No two decoded frames under one number. -/
def OneDecode (ls : LogStore) (kv : LogDataKv) : Prop :=
  ∀ i ∈ kv.vh, ∀ j ∈ kv.vh, (ls.v i).isDecode = true → (ls.v j).isDecode = true → (ls.v i).kv = (ls.v j).kv → i = j

/-- The counters of a key's object are those of its events. -/
def CountsEvents (ls : LogStore) (kv : LogDataKv) (obj : KvObj) : Prop :=
  ("EthernetFrames", .uint (obj.event.countP (ofType "Receive"))) ∈ obj.members ∧
    (OneDecode ls kv → ("H265Frames", .uint (obj.event.countP (ofType "Decode"))) ∈ obj.members)

def DocCounts (ls : LogStore) (t : KvType) (doc : List KvObj) : Prop :=
  ∀ obj ∈ doc, ∀ kv ∈ ls.kvs t, ("Key", .uint kv.key) ∈ obj.members → CountsEvents ls kv obj

theorem ofType_receive : ofType "Receive" (eventText t final v) = decide (v.type = frameTypeInet6) := by
  unfold ofType
  rw [decide_eq_decide, mem_type]
  unfold sVType
  by_cases hc : v.type = frameTypeCorrupt
  · rw [hc]
    decide
  · by_cases hi : v.type = frameTypeInet6
    · rw [hi]
      decide
    · by_cases hd : v.type = frameTypeDecode
      · rw [hd]
        decide
      · simp [hc, hi, hd]

theorem ofType_decode : ofType "Decode" (eventText t final v) = v.isDecode := by
  unfold ofType LogDataV.isDecode
  rw [decide_eq_decide, mem_type]
  unfold sVType
  by_cases hc : v.type = frameTypeCorrupt
  · rw [hc]
    decide
  · by_cases hi : v.type = frameTypeInet6
    · rw [hi]
      decide
    · by_cases hd : v.type = frameTypeDecode
      · rw [hd]
        decide
      · simp [hc, hi, hd]

theorem mem_ethernet {n : Nat} : ("EthernetFrames", .uint n) ∈ (objOf ls t final kv).members ↔ n = kv.nEthernetFrame := by
  unfold objOf
  cases t <;> simp [objMembers]

theorem mem_h265 {n : Nat} : ("H265Frames", .uint n) ∈ (objOf ls t final kv).members ↔ n = kv.nH265Frame := by
  unfold objOf
  cases t <;> simp [objMembers]

theorem mem_key {k : Nat} : ("Key", .uint k) ∈ (objOf ls t final kv).members ↔ k = kv.key := by
  unfold objOf
  cases t <;> simp [objMembers]

theorem countsEvents_iff : CountsEvents ls kv (objOf ls t final kv) ↔
    kv.vh.countP (fun i => (ls.v i).type = frameTypeInet6) = kv.nEthernetFrame ∧
      (OneDecode ls kv → kv.vh.countP (fun i => (ls.v i).isDecode) = kv.nH265Frame) := by
  unfold CountsEvents
  rw [mem_ethernet, mem_h265]
  have hreceive : (objOf ls t final kv).event.countP (ofType "Receive") = kv.vh.countP fun i =>
    (ls.v i).type = frameTypeInet6 := by
    unfold objOf
    rw [List.countP_map]
    exact List.countP_congr fun i _ => by rw [Function.comp_apply, ofType_receive]
  have hdecode : (objOf ls t final kv).event.countP (ofType "Decode") = kv.vh.countP fun i => (ls.v i).isDecode := by
    unfold objOf
    rw [List.countP_map]
    exact List.countP_congr fun i _ => by rw [Function.comp_apply, ofType_decode]
  rw [hreceive, hdecode]

theorem Bones.key_inj (h : Bones ls past) {kv' : LogDataKv} (hkv : kv ∈ ls.kvs t) (hkv' : kv' ∈ ls.kvs t)
    (hkey : kv.key = kv'.key) :
    kv = kv' := by
  obtain ⟨g, hg, hclear⟩ := h.kvs t
  obtain ⟨k, -, rfl⟩ := (hg.mem kv).mp hkv
  obtain ⟨k', -, rfl⟩ := (hg.mem kv').mp hkv'
  have hk : (g k).key = k := congrArg LogDataKv.key (hclear k)
  have hk' : (g k').key = k' := congrArg LogDataKv.key (hclear k')
  rw [hk, hk'] at hkey
  rw [hkey]

theorem docCounts_iff (h : Bones ls past) (ht : t ≠ .msg) (sAddr : String) :
    DocCounts ls t (jsonSerializeKvh ls (ls.kvs t) sAddr) ↔
    ∀ kv ∈ ls.kvs t, kv.vh.countP (fun i => (ls.v i).type = frameTypeInet6) = kv.nEthernetFrame ∧
      (OneDecode ls kv → kv.vh.countP (fun i => (ls.v i).isDecode) = kv.nH265Frame) := by
  unfold DocCounts
  rw [document_eq h ht]
  constructor
  · intro hall kv hkv
    exact countsEvents_iff.mp (hall _ (List.mem_map_of_mem hkv) kv hkv (mem_key.mpr rfl))
  · intro hall obj hobj kv hkv hkey
    obtain ⟨kv', hkv', rfl⟩ := List.mem_map.mp hobj
    obtain rfl := h.key_inj hkv hkv' (mem_key.mp hkey)
    exact countsEvents_iff.mpr (hall kv hkv)

/-! ## Counters after a command -/

/-- The decoded numbers that begin in a block. -/
def LogStore.decodedIn (ls : LogStore) (b : Nat) : Nat :=
  ls.kvh.countP fun kv => decide ((ls.v (kv.vh.headD 0)).blockIdx.toNat = b) && kv.vh.any fun i => (ls.v i).isDecode

theorem firstBlock_eq (s : Nat) (past : List Entry) :
    firstBlock s past = (idxs (under .seq s) past).head?.bind fun i => past.reverse[i]?.map Entry.block := by
  induction past with
  | nil => rfl
  | cons e past ih =>
    unfold firstBlock idxs
    rw [ih, List.head?_append, List.reverse_cons]
    rcases hidx : idxs (under .seq s) past with _ | ⟨i, is⟩
    · by_cases hu : under .seq s e = true
      · simp [hu]
      · simp [hu]
    · have hlt : i < past.reverse.length := by
        rw [List.length_reverse]
        exact idxs_lt (hidx ▸ List.mem_cons_self)
      simp [List.getElem?_append_left hlt, List.getElem?_eq_getElem hlt]

theorem Bones.starts_iff (h : Bones ls past) (hkv : kv ∈ ls.kvh) (b : Nat) :
    (ls.v (kv.vh.headD 0)).blockIdx.toNat = b ↔ firstBlock kv.key past = some b := by
  have hvh := h.vh (t := .seq) hkv
  have hne := h.vh_ne (t := .seq) hkv
  obtain ⟨i, is, his⟩ := List.exists_cons_of_ne_nil hne
  have hi : i ∈ idxs (under .seq kv.key) past := by
    rw [← hvh, his]
    exact List.mem_cons_self
  obtain ⟨e, he, -⟩ := mem_idxs.mp hi
  obtain ⟨x, ep, -, hv, hx⟩ := value_get h.vs he
  have hblock : x.blockIdx = e.hd.blockIdx := congrArg LogDataV.blockIdx hx
  rw [firstBlock_eq, ← hvh, his]
  simp only [List.headD_cons, List.head?_cons, Option.bind_some, he, Option.map_some, Option.some.injEq]
  rw [hv, hblock]
  rfl

theorem Bones.isDecode_eq (h : Bones ls past) {e : Entry} (hi : past.reverse[i]? = some e) : (ls.v i).isDecode = e.isDecode := by
  unfold LogDataV.isDecode
  rw [value_type h.vs hi]
  rfl

theorem Bones.countP_decode (h : Bones ls past) (hkv : kv ∈ ls.kvs t) :
    kv.vh.countP (fun i => (ls.v i).isDecode) = past.countP fun e => under t kv.key e && e.isDecode := by
  rw [h.vh hkv]
  exact idxs_countP fun i e hi => h.isDecode_eq hi

theorem Bones.any_decode (h : Bones ls past) (hkv : kv ∈ ls.kvh) :
    (kv.vh.any fun i => (ls.v i).isDecode) = true ↔ lastDecode kv.key past ≠ none := by
  rw [Ne, lastDecode_none, List.any_eq_true, ← List.countP_pos_iff, h.countP_decode (t := .seq) hkv]
  exact Nat.pos_iff_ne_zero

section

variable (h : FilteredTo c ls0 ls past) (hb0 : Bones ls0 past) (hnone : NoneMarked ls)

include h hb0 hnone

theorem FilteredTo.left_eq {e : Entry} (he : e ∈ past) : e.left c = e.isInet6 := by
  have hb := h.bones hb0
  obtain ⟨i, hi⟩ := List.getElem?_of_mem (List.mem_reverse.mpr he)
  rw [← h.leaves hi]
  unfold LogStore.leaves
  have htype := value_type hb.vs hi
  cases ht : e.isInet6 with
  | false =>
    have hne : (ls.v i).type ≠ frameTypeInet6 := by
      rw [htype]
      simpa [Entry.isInet6] using ht
    simp [hne]
  | true =>
    have heq : (ls.v i).type = frameTypeInet6 := by
      rw [htype]
      simpa [Entry.isInet6] using ht
    have hlt : i < ls.vs.length := by
      rw [hb.length, ← List.length_reverse]
      exact (List.getElem?_eq_some_iff.mp hi).1
    rw [hnone i hlt (by simp [LogDataV.isFrame, heq]), heq]
    rfl

theorem FilteredTo.eth_eq (kvEth : LogDataKv → Nat) (hkv : kv ∈ ls.kvs t)
    (heth : kvEth kv = past.countP fun e => under t kv.key e && e.left c) :
    kv.vh.countP (fun i => (ls.v i).type = frameTypeInet6) = kvEth kv := by
  have hb := h.bones hb0
  rw [heth, hb.vh hkv]
  rw [idxs_countP (q := fun e => e.isInet6) fun i e hi => by rw [value_type hb.vs hi]; rfl]
  exact List.countP_congr fun e he => by rw [h.left_eq hb0 hnone he]

/-- With no decoded frame marked, a verdict keeps the frame if there is one. -/
theorem FilteredTo.keeps_iff (s : Nat) : (verdict c ls0.fecK past s).keeps = true ↔ lastDecode s past ≠ none := by
  have hb := h.bones hb0
  cases hd : lastDecode s past with
  | none =>
    by_cases hk : s < ls0.fecK.toNat
    · rw [verdict_missing hd hk]
      simp [Verdict.keeps]
    · rw [verdict_absent hd hk]
      simp [Verdict.keeps]
  | some d =>
    obtain ⟨hi, hu, hdec⟩ := lastDecode_some hd
    have hs : d.2.seq = s := by
      simp only [under, Bool.and_eq_true, decide_eq_true_eq] at hu
      exact hu.2
    have hlt : d.1 < ls.vs.length := by
      rw [hb.length, ← List.length_reverse]
      exact (List.getElem?_eq_some_iff.mp hi).1
    have hframe : (ls.v d.1).isFrame = true := by
      have hde := hb.isDecode_eq hi
      rw [hdec] at hde
      unfold LogDataV.isDecode at hde
      simp [LogDataV.isFrame, of_decide_eq_true hde]
    have hlost : verdict c ls0.fecK past s ≠ .lost := by
      intro hl
      have hmarked := (h.decode_flag hb0 hi hdec).mpr ⟨by rw [hs, hd]; rfl, by rw [hs]; exact hl⟩
      rw [hnone d.1 hlt hframe] at hmarked
      cases hmarked
    by_cases heth : 0 < seqEth c past s
    · rw [verdict_received hd heth]
      simp [Verdict.keeps]
    · by_cases hblk : ls0.fecK.toNat ≤ blkEth c past d.2.block
      · rw [verdict_recovered hd heth hblk]
        simp [Verdict.keeps]
      · exact absurd (verdict_lost hd heth hblk) hlost

theorem FilteredTo.seq_counts (hkv : kv ∈ ls.kvh) : kv.vh.countP (fun i => (ls.v i).type = frameTypeInet6) = kv.nEthernetFrame ∧
    (OneDecode ls kv → kv.vh.countP (fun i => (ls.v i).isDecode) = kv.nH265Frame) := by
  have hb := h.bones hb0
  obtain ⟨hs, hfinal⟩ := h.mem_seq hkv
  constructor
  · refine h.eth_eq hb0 hnone (t := .seq) LogDataKv.nEthernetFrame hkv ?_
    rw [hfinal]
    rfl
  · intro hone
    have hh265 : kv.nH265Frame = if (verdict c ls0.fecK past kv.key).keeps then 1 else 0 := by
      rw [hfinal]
      rfl
    have hle : kv.vh.countP (fun i => (ls.v i).isDecode) ≤ 1 := by
      have hnodup : kv.vh.Nodup := by
        rw [hb.vh (t := .seq) hkv]
        exact (idxs_sorted _ _).imp Nat.ne_of_lt
      rw [List.countP_eq_length_filter]
      rcases hfil : kv.vh.filter (fun i => (ls.v i).isDecode) with _ | ⟨i, _ | ⟨j, js⟩⟩
      · exact Nat.zero_le _
      · exact Nat.le_refl _
      · have hi := List.mem_filter.mp (hfil ▸ (List.mem_cons_self : i ∈ i :: j :: js))
        have hj := List.mem_filter.mp (hfil ▸ (List.mem_cons_of_mem _ List.mem_cons_self : j ∈ i :: j :: js))
        have hsame : (ls.v i).kv = (ls.v j).kv :=
          (hb.vh_ref (t := .seq) hkv hi.1).trans (hb.vh_ref (t := .seq) hkv hj.1).symm
        have hij := hone i hi.1 j hj.1 hi.2 hj.2 hsame
        have hnd := hnodup.filter fun i => (ls.v i).isDecode
        rw [hfil, hij] at hnd
        exact absurd List.mem_cons_self (List.nodup_cons.mp hnd).1
    have hkeeps : (verdict c ls0.fecK past kv.key).keeps = true ↔ 0 < kv.vh.countP fun i => (ls.v i).isDecode := by
      rw [h.keeps_iff hb0 hnone, ← hb.any_decode hkv, List.any_eq_true, List.countP_pos_iff]
    rw [hh265]
    split
    · rename_i hk
      have := hkeeps.mp hk
      omega
    · rename_i hk
      have := mt hkeeps.mpr hk
      omega

theorem FilteredTo.blk_counts (hkv : kv ∈ ls.blockKvh) :
    kv.vh.countP (fun i => (ls.v i).type = frameTypeInet6) = kv.nEthernetFrame ∧
    kv.nH265Frame = ls.decodedIn kv.key := by
  have hb := h.bones hb0
  obtain ⟨b, hbk, rfl⟩ := (h.blk.mem kv).mp hkv
  constructor
  · exact h.eth_eq hb0 hnone (t := .blk) LogDataKv.nEthernetFrame hkv rfl
  · have hn : (finalBlk c ls0.fecK past (ls0.kvh.map LogDataKv.key) b).nH265Frame =
        (ls.kvh.map LogDataKv.key).countP (charged Verdict.keeps c ls0.fecK past b) := by
      rw [h.keys hb0]
      rfl
    rw [hn, List.countP_map]
    refine List.countP_congr fun s hs => ?_
    unfold charged
    simp only [Function.comp_apply, Bool.and_eq_true, decide_eq_true_eq]
    rw [h.keeps_iff hb0 hnone, hb.any_decode hs, hb.starts_iff hs]
    rfl

end

/-! ## The exporters together -/

/-- With `filtered`, a filter command was run. -/
structure ExportsAgree (ls : LogStore) (filtered : Prop) (sAddr : String) : Prop where
  csv : CsvLists ls (csvSerialize ls)
  json : DocLists ls (jsonSerialize ls sAddr)
  jsonBlock : DocLists ls (jsonSerializeBlock ls sAddr)
  hist : logHist ls = logHist ls.unmarked
  replay : ∀ env w turns ctx, sendData env w turns ctx ls = sendData env w turns ctx ls.unmarked
  counts : filtered → DocCounts ls .seq (jsonSerialize ls sAddr) ∧ DocCounts ls .blk (jsonSerializeBlock ls sAddr)

/-- Every block has as many decoded frames as begin in it, where none was decoded twice. -/
def BlocksMatch (ls : LogStore) : Prop :=
  ∀ b ∈ ls.blockKvh, OneDecode ls b → b.vh.countP (fun i => (ls.v i).isDecode) = ls.decodedIn b.key

/-- For every file and every sequence of filter commands. -/
theorem exports_agree_iff {cs : List Int8} (h : CommandsGive file cs ls) (sAddr : String) :
    ExportsAgree ls (cs ≠ []) sAddr ↔ NoneMarked ls ∧ (cs ≠ [] → BlocksMatch ls) := by
  obtain ⟨ls0, hload, hrun⟩ := h
  obtain ⟨-, -, ep, hl⟩ := loadLog_some hload
  have hb0 := hl.loaded.bones
  have hb := hb0.commands hrun
  have hlast : cs ≠ [] → ∃ c, FilteredTo c ls0 ls (fileEntries file).reverse := by
    intro hne
    have hcs := List.dropLast_concat_getLast hne
    obtain ⟨ls', hrun', hf⟩ := commands_spec hb0 cs.dropLast (cs.getLast hne)
    rw [hcs, hrun] at hrun'
    cases hrun'
    exact ⟨_, hf⟩
  have hseq := lists_once_iff hb (t := .seq) (by decide) sAddr
  have hblk := lists_once_iff hb (t := .blk) (by decide) sAddr
  have hcseq := docCounts_iff hb (t := .seq) (by decide) sAddr
  have hcblk := docCounts_iff hb (t := .blk) (by decide) sAddr
  constructor
  · intro hagree
    have hnone := hseq.mp hagree.json
    refine ⟨hnone, fun hne b hmem hone => ?_⟩
    obtain ⟨c, hf⟩ := hlast hne
    rw [((hcblk.mp (hagree.counts hne).2) b hmem).2 hone]
    exact (hf.blk_counts hb0 hnone hmem).2
  · intro ⟨hnone, hmatch⟩
    refine ⟨csv_lists hb, hseq.mpr hnone, hblk.mpr hnone, ?_, ?_, ?_⟩
    · rw [unmarked_none hb hnone]
    · intro env w turns ctx
      rw [unmarked_none hb hnone]
    · intro hne
      obtain ⟨c, hf⟩ := hlast hne
      refine ⟨hcseq.mpr fun kv hkv => hf.seq_counts hb0 hnone hkv, hcblk.mpr fun b hmem => ?_⟩
      obtain ⟨h1, h2⟩ := hf.blk_counts hb0 hnone hmem
      exact ⟨h1, fun hone => (hmatch hne b hmem hone).trans h2.symm⟩

instance : Decidable (NoneMarked ls) :=
  inferInstanceAs (Decidable (∀ i, i < ls.vs.length → (ls.v i).isFrame = true → (ls.v i).filtered = false))

instance : Decidable (OneDecode ls kv) := inferInstanceAs (Decidable (∀ i ∈ kv.vh, ∀ j ∈ kv.vh, _))

instance : Decidable (BlocksMatch ls) := inferInstanceAs (Decidable (∀ b ∈ ls.blockKvh, _))

theorem twoBlocks_exports : ∃ ls, CommandsGive twoBlocks [-60] ls ∧ ExportsAgree ls ([-60] ≠ ([] : List Int8)) "" := by
  obtain ⟨ls, hls, hrun⟩ := commands_run twoBlocks [-60] (fun ls => decide (NoneMarked ls ∧ BlocksMatch ls)) (by decide +kernel)
  obtain ⟨hnone, hmatch⟩ := of_decide_eq_true hrun
  exact ⟨ls, hls, (exports_agree_iff hls "").mpr ⟨hnone, fun _ => hmatch⟩⟩

/-- One frame was received, at the cut-off. -/
theorem marked_breaks_exports : ∃ ls, CommandsGive (testFile (testHeader frameTypeInet6 0 0 8).raw) [-42] ls ∧
    csvSerialize ls = [csvHdr] ∧
    (jsonSerialize ls "").map (fun o => (o.members.filter fun m => m.1 = "EthernetFrames", o.event.map (ofType "Receive"))) =
      [([("EthernetFrames", .uint 0)], [true])] ∧
    ¬ ExportsAgree ls ([-42] ≠ ([] : List Int8)) "" := by
  obtain ⟨ls, hls, hrun⟩ := commands_run (testFile (testHeader frameTypeInet6 0 0 8).raw) [-42]
    (fun ls => decide (csvSerialize ls = [csvHdr] ∧
    (jsonSerialize ls "").map (fun o => (o.members.filter fun m => m.1 = "EthernetFrames", o.event.map (ofType "Receive"))) =
      [([("EthernetFrames", .uint 0)], [true])] ∧ ¬ NoneMarked ls)) (by decide +kernel)
  obtain ⟨hcsv, hjson, hmarked⟩ := of_decide_eq_true hrun
  refine ⟨ls, hls, hcsv, hjson, fun hagree => ?_⟩
  obtain ⟨past, hb⟩ := Analysed.bones ⟨_, _, hls⟩
  exact hmarked ((lists_once_iff hb (t := .seq) (by decide) "").mp hagree.json)

end WfbYa.Log
