/-
  WfbYa.Log.Documents — what the JSON documents say of a store.

  `json_faithful_iff`. Both documents say of every record what is so, exactly if no record has
  a frequency and all sources are one: a frequency is added under the name of the source,
  and the document by blocks shows the last source for each.

  - `document_eq`: the document, key by key and record by record.
-/

import WfbYa.Log.LogJson
import WfbYa.Log.Analysed
import Mathlib.Data.List.Forall2

namespace WfbYa.Log

open WfbYa.Lib

variable {ls : LogStore} {past : List Entry} {t : KvType} {v : LogDataV} {final sAddr : String}

/-! ## The document -/

/-- The buffer behind these values. -/
def lastSource (vs : List LogDataV) (sAddr : String) : String := vs.foldl (fun s v => sSource v s) sAddr

def eventHead : KvType → LogDataV → Members
  | .seq, v => [("TimeStamp", .seconds (fTimestamp v)), ("Type", .str (sVType v))]
  | _, v => [("TimeStamp", .seconds (fTimestamp v)), ("BlockIndex", .uint v.blockIdx.toNat),
      ("FragmentIndex", .uint v.fragmentIdx.toNat), ("Type", .str (sVType v))]

/-- The source that is shown, with `final` in the buffer when the document is written. -/
def sourceText (t : KvType) (final : String) (v : LogDataV) : String :=
  match t with
  | .seq => (v.rxSrc.map inetNtop).getD final
  | _ => final

example : sourceText .blk "::2" .zero = "::2" := by decide +kernel

def eventText (t : KvType) (final : String) (v : LogDataV) : Members := eventHead t v ++ eventTail (.str (sourceText t final v)) v

def eventOf : KvType → LogDataV → String → Members
  | .seq => seqEvent
  | _ => blkEvent

def objMembers (ls : LogStore) (kv : LogDataKv) : KvType → Members
  | .seq =>
    let v := ls.v (kv.vh.headD 0)
    [("Key", .uint kv.key), ("BlockIndex", .uint v.blockIdx.toNat), ("FragmentIndex", .uint v.fragmentIdx.toNat),
      ("IsParity", .bool v.isParity), ("IsFEC", .bool kv.hasFecFrame), ("EthernetFrames", .uint kv.nEthernetFrame),
      ("H265Frames", .uint kv.nH265Frame)]
  | _ => [("Key", .uint kv.key), ("HasLostFrame", .bool kv.hasLostFrame), ("IsFEC", .bool kv.hasFecFrame),
      ("EthernetFrames", .uint kv.nEthernetFrame), ("H265Frames", .uint kv.nH265Frame)]

def objOf (ls : LogStore) (t : KvType) (final : String) (kv : LogDataKv) : KvObj :=
  ⟨objMembers ls kv t, kv.vh.map fun i => eventText t final (ls.v i)⟩

theorem eventTail_written (src : JVal) : writeMembers final (eventTail src v) = eventTail (src.written final) v := by
  unfold writeMembers eventTail
  rw [List.map_append, List.map_append, List.map_append]
  congr 1
  · congr 1
    · congr 1
      · split <;> rfl
      · split <;> rfl
    · split <;> rfl
  · split <;> rfl

/-- Without a source, none is shown. -/
theorem eventTail_none (h : v.rxSrc = none) (src src' : JVal) : eventTail src v = eventTail src' v := by
  unfold eventTail
  rw [h]
  rfl

theorem event_written (ht : t ≠ .msg) (s : String) : writeMembers final (eventOf t v (sSource v s)) = eventText t final v := by
  cases t with
  | seq =>
    unfold eventOf seqEvent eventText eventHead sourceText
    rw [writeMembers, List.map_append, ← writeMembers, ← writeMembers, eventTail_written]
    congr 1
    rcases hsrc : v.rxSrc with _ | a
    · exact eventTail_none hsrc _ _
    · unfold sSource
      rw [hsrc]
      rfl
  | blk =>
    unfold eventOf blkEvent eventText eventHead sourceText
    rw [writeMembers, List.map_append, ← writeMembers, ← writeMembers, eventTail_written]
    rfl
  | msg => exact absurd rfl ht

theorem addEvents_written (ht : t ≠ .msg) (vs : List LogDataV) (s : String) :
    (addEvents (eventOf t) vs s).1.map (writeMembers final) = vs.map (eventText t final) ∧
      (addEvents (eventOf t) vs s).2 = lastSource vs s := by
  induction vs generalizing s with
  | nil => exact ⟨rfl, rfl⟩
  | cons v vs ih =>
    obtain ⟨h1, h2⟩ := ih (sSource v s)
    refine ⟨?_, h2⟩
    rw [List.map_cons, ← h1, ← @event_written t v final ht s]
    rfl

theorem wfbMutObjKv_written {kv : LogDataKv} (htype : kv.type = t) (ht : t ≠ .msg) (hne : kv.vh ≠ []) (s : String) :
    (wfbMutObjKv ls kv s).1.toList.map (KvObj.written final) = [objOf ls t final kv] ∧
      (wfbMutObjKv ls kv s).2 = lastSource (kv.vh.map ls.v) s := by
  obtain ⟨i, is, hvh⟩ := List.exists_cons_of_ne_nil hne
  obtain ⟨h1, h2⟩ := @addEvents_written t final ht ((i :: is).map ls.v) s
  unfold wfbMutObjKv objOf
  rw [htype]
  cases t with
  | seq =>
    unfold wfbMutObjKvSeq
    rw [hvh]
    refine ⟨?_, h2⟩
    rw [List.map_map] at h1
    dsimp only [Option.toList]
    rw [List.map_singleton]
    unfold KvObj.written
    dsimp only [eventOf] at h1 ⊢
    rw [h1]
    unfold objMembers
    rw [hvh]
    rfl
  | blk =>
    unfold wfbMutObjKvBlk
    rw [hvh]
    refine ⟨?_, h2⟩
    rw [List.map_map] at h1
    dsimp only [Option.toList]
    rw [List.map_singleton]
    unfold KvObj.written
    dsimp only [eventOf] at h1 ⊢
    rw [h1]
    rfl
  | msg => exact absurd rfl ht

theorem kvh2yyjson_written {kvs : List LogDataKv} (htype : ∀ kv ∈ kvs, kv.type = t) (ht : t ≠ .msg) (hne : ∀ kv ∈ kvs, kv.vh ≠ [])
    (s : String) : (kvh2yyjson ls kvs s).1.map (KvObj.written final) = kvs.map (objOf ls t final) ∧
      (kvh2yyjson ls kvs s).2 = lastSource ((kvs.flatMap LogDataKv.vh).map ls.v) s := by
  induction kvs generalizing s with
  | nil => exact ⟨rfl, rfl⟩
  | cons kv kvs ih =>
    obtain ⟨h1, h2⟩ := @wfbMutObjKv_written ls t final kv (htype kv List.mem_cons_self) ht (hne kv List.mem_cons_self) s
    obtain ⟨h3, h4⟩ := ih (fun kv hkv => htype kv (List.mem_cons_of_mem _ hkv))
      (fun kv hkv => hne kv (List.mem_cons_of_mem _ hkv))
      (wfbMutObjKv ls kv s).2
    unfold kvh2yyjson
    dsimp only
    constructor
    · rw [List.map_append, h1, h3]
      rfl
    · rw [h4, h2, List.flatMap_cons, List.map_append]
      unfold lastSource
      rw [List.foldl_append]

theorem Bones.kv_type (h : Bones ls past) {kv : LogDataKv} (hkv : kv ∈ ls.kvs t) : kv.type = t := by
  obtain ⟨g, hg, hclear⟩ := h.kvs t
  obtain ⟨k, -, rfl⟩ := (hg.mem kv).mp hkv
  exact congrArg LogDataKv.type (hclear k)

theorem Bones.vh_ne (h : Bones ls past) {kv : LogDataKv} (hkv : kv ∈ ls.kvs t) : kv.vh ≠ [] := by
  rw [h.vh hkv]
  obtain ⟨g, hg, hclear⟩ := h.kvs t
  obtain ⟨k, ⟨e, he, hu⟩, rfl⟩ := (hg.mem kv).mp hkv
  obtain ⟨i, hi⟩ := List.getElem?_of_mem (List.mem_reverse.mpr he)
  rw [show (g k).key = k from congrArg LogDataKv.key (hclear k)]
  exact List.ne_nil_of_mem (mem_idxs.mpr ⟨e, hi, hu⟩)

theorem document_eq (h : Bones ls past) (ht : t ≠ .msg) (sAddr : String) : jsonSerializeKvh ls (ls.kvs t) sAddr =
    (ls.kvs t).map (objOf ls t (lastSource ((ls.listed t).map ls.v) sAddr)) := by
  have hne : ∀ kv ∈ ls.kvs t, kv.vh ≠ [] := fun kv hkv => h.vh_ne hkv
  have htype : ∀ kv ∈ ls.kvs t, kv.type = t := fun kv hkv => h.kv_type hkv
  unfold jsonSerializeKvh
  dsimp only
  rw [(kvh2yyjson_written htype ht hne sAddr).1, (@kvh2yyjson_written ls t "" _ htype ht hne sAddr).2]
  rfl

/-! ## What an event says -/

/-- The event says of the record what is so: its own source, its frequency under a name of
    its own, its signal strength, and no name twice. -/
structure EventFaithful (v : LogDataV) (ev : Members) : Prop where
  distinct : (ev.map Prod.fst).Nodup
  source : ∀ x, ("SourceNode", x) ∈ ev ↔ ∃ a, v.rxSrc = some a ∧ x = .str (inetNtop a)
  frequency : 0 < v.freq → ∃ name, name ≠ "SourceNode" ∧ (name, .uint v.freq.toNat) ∈ ev
  dbm : ∀ x, ("dbm", x) ∈ ev ↔ dbmShown v.dbm = true ∧ x = .int v.dbm.toInt

theorem mem_source (x : JVal) : ("SourceNode", x) ∈ eventText t final v ↔
    v.rxSrc.isSome = true ∧ x = .str (sourceText t final v) ∨ 0 < v.freq ∧ x = .uint v.freq.toNat := by
  unfold eventText eventTail
  have hhead : ("SourceNode", x) ∉ eventHead t v := by cases t <;> simp [eventHead]
  have hdbm : ("SourceNode", x) ∉ (if dbmShown v.dbm then [("dbm", JVal.int v.dbm.toInt)] else []) := by split <;> simp
  have hsize : ("SourceNode", x) ∉ (if 0 < v.size then [("DataSize", JVal.uint v.size.toNat)] else []) := by split <;> simp
  rw [List.mem_append, List.mem_append, List.mem_append, List.mem_append]
  simp [hhead, hdbm, hsize]

theorem mem_dbm (x : JVal) : ("dbm", x) ∈ eventText t final v ↔ dbmShown v.dbm = true ∧ x = .int v.dbm.toInt := by
  unfold eventText eventTail
  have hhead : ("dbm", x) ∉ eventHead t v := by cases t <;> simp [eventHead]
  have hsource : ("dbm", x) ∉ (if v.rxSrc.isSome then [("SourceNode", JVal.str (sourceText t final v))] else []) := by
    split <;> simp
  have hfreq : ("dbm", x) ∉ (if 0 < v.freq then [("SourceNode", JVal.uint v.freq.toNat)] else []) := by split <;> simp
  have hsize : ("dbm", x) ∉ (if 0 < v.size then [("DataSize", JVal.uint v.size.toNat)] else []) := by split <;> simp
  rw [List.mem_append, List.mem_append, List.mem_append, List.mem_append]
  simp [hhead, hsource, hfreq, hsize]

theorem event_distinct (hfreq : v.freq = 0) : ((eventText t final v).map Prod.fst).Nodup := by
  have hsub : ((eventText t final v).map Prod.fst).Sublist
      (["TimeStamp", "BlockIndex", "FragmentIndex", "Type"] ++ (["SourceNode"] ++ [] ++ ["dbm"] ++ ["DataSize"])) := by
    unfold eventText eventTail
    rw [hfreq, List.map_append, List.map_append, List.map_append, List.map_append]
    refine .append ?_ (.append (.append (.append ?_ ?_) ?_) ?_)
    · cases t with
      | seq => exact (by decide : List.Sublist ["TimeStamp", "Type"] ["TimeStamp", "BlockIndex", "FragmentIndex", "Type"])
      | blk => exact List.Sublist.refl _
      | msg => exact List.Sublist.refl _
    · split
      · exact List.Sublist.refl _
      · exact List.nil_sublist _
    · exact List.Sublist.refl _
    · split
      · exact List.Sublist.refl _
      · exact List.nil_sublist _
    · split
      · exact List.Sublist.refl _
      · exact List.nil_sublist _
  exact hsub.nodup (by decide)

theorem event_faithful_iff : EventFaithful v (eventText t final v) ↔
    v.freq = 0 ∧ ∀ a, v.rxSrc = some a → sourceText t final v = inetNtop a := by
  constructor
  · intro h
    constructor
    · by_contra hne
      have hpos : 0 < v.freq := UInt16.pos_iff_ne_zero.mpr hne
      obtain ⟨a, -, hx⟩ := (h.source _).mp ((mem_source _).mpr (.inr ⟨hpos, rfl⟩))
      cases hx
    · intro a ha
      obtain ⟨a', ha', hx⟩ := (h.source _).mp ((mem_source _).mpr (.inl ⟨by rw [ha]; rfl, rfl⟩))
      cases ha.symm.trans ha'
      exact JVal.str.inj hx
  · intro ⟨hfreq, hsource⟩
    refine ⟨event_distinct hfreq, ?_, ?_, mem_dbm⟩
    · intro x
      rw [mem_source, hfreq]
      constructor
      · intro h
        rcases h with ⟨hsome, hx⟩ | ⟨hlt, -⟩
        · obtain ⟨a, ha⟩ := Option.isSome_iff_exists.mp hsome
          exact ⟨a, ha, by rw [hx, hsource a ha]⟩
        · exact absurd hlt (by decide)
      · intro ⟨a, ha, hx⟩
        exact .inl ⟨by rw [ha]; rfl, by rw [hx, hsource a ha]⟩
    · intro hpos
      rw [hfreq] at hpos
      exact absurd hpos (by decide)

/-- One object for each key, one event for each of its records, in the order of the list. -/
def DocFaithful (ls : LogStore) (t : KvType) (doc : List KvObj) : Prop :=
  List.Forall₂ (fun kv obj => ("Key", .uint kv.key) ∈ obj.members ∧ (obj.members.map Prod.fst ++ ["Event"]).Nodup ∧
    List.Forall₂ (fun i ev => EventFaithful (ls.v i) ev) kv.vh obj.event) (ls.kvs t) doc

theorem objOf_names (kv : LogDataKv) : ("Key", .uint kv.key) ∈ (objOf ls t final kv).members ∧
    ((objOf ls t final kv).members.map Prod.fst ++ ["Event"]).Nodup := by
  unfold objOf
  cases t <;> simp [objMembers]

theorem forall2_map {α β : Type} {R : α → β → Prop} {f : α → β} {l : List α} :
    List.Forall₂ R l (l.map f) ↔ ∀ a ∈ l, R a (f a) := by
  rw [List.forall₂_map_right_iff, List.forall₂_same]

theorem doc_faithful_iff (h : Bones ls past) (ht : t ≠ .msg) (sAddr : String) :
    DocFaithful ls t (jsonSerializeKvh ls (ls.kvs t) sAddr) ↔
    ∀ i ∈ ls.listed t, (ls.v i).freq = 0 ∧
      ∀ a, (ls.v i).rxSrc = some a → sourceText t (lastSource ((ls.listed t).map ls.v) sAddr) (ls.v i) = inetNtop a := by
  unfold DocFaithful
  rw [document_eq h ht, forall2_map]
  constructor
  · intro hall i hi
    obtain ⟨kv, hkv, hvh⟩ := List.mem_flatMap.mp hi
    exact event_faithful_iff.mp (forall2_map.mp (hall kv hkv).2.2 i hvh)
  · intro hall kv hkv
    obtain ⟨h1, h2⟩ := @objOf_names ls t (lastSource ((ls.listed t).map ls.v) sAddr) kv
    refine ⟨h1, h2, forall2_map.mpr ?_⟩
    intro i hvh
    exact event_faithful_iff.mpr (hall i (List.mem_flatMap.mpr ⟨kv, hkv, hvh⟩))

/-! ## The last source -/

theorem lastSource_some {vs : List LogDataV} {a : In6Addr} (hv : v ∈ vs) (ha : v.rxSrc = some a) (s : String) :
    ∃ v' ∈ vs, ∃ a', v'.rxSrc = some a' ∧ lastSource vs s = inetNtop a' := by
  induction vs using List.reverseRecOn generalizing v a with
  | nil => cases hv
  | append_singleton vs v1 ih =>
    unfold lastSource at ih ⊢
    rw [List.foldl_append, List.foldl_cons, List.foldl_nil]
    rcases hsrc : v1.rxSrc with _ | a1
    · rcases List.mem_append.mp hv with hv | hv
      · obtain ⟨v', hv', a', ha', hs⟩ := ih hv ha
        refine ⟨v', List.mem_append_left _ hv', a', ha', ?_⟩
        unfold sSource
        rw [hsrc]
        exact hs
      · rw [List.mem_singleton.mp hv, hsrc] at ha
        cases ha
    · refine ⟨v1, List.mem_append_right _ List.mem_cons_self, a1, hsrc, ?_⟩
      unfold sSource
      rw [hsrc]

/-- A record that is listed in both documents. -/
def LogStore.isListed (ls : LogStore) (i : Nat) : Prop := i < ls.vs.length ∧ isSeqType (ls.v i).type = true

/-- For every store, whatever the buffer held. -/
theorem json_faithful_iff (h : Analysed ls) (sAddr sAddr' : String) :
    DocFaithful ls .seq (jsonSerialize ls sAddr) ∧ DocFaithful ls .blk (jsonSerializeBlock ls sAddr') ↔
      (∀ i, ls.isListed i → (ls.v i).freq = 0) ∧
        ∀ i j a b, ls.isListed i → ls.isListed j → (ls.v i).rxSrc = some a → (ls.v j).rxSrc = some b →
          inetNtop a = inetNtop b := by
  obtain ⟨past, hb⟩ := h.bones
  have hseq : ∀ i, i ∈ ls.listed .seq ↔ ls.isListed i := fun i => hb.mem_listed (by decide)
  have hblk : ∀ i, i ∈ ls.listed .blk ↔ ls.isListed i := fun i => hb.mem_listed (by decide)
  have h1 := doc_faithful_iff hb (t := .seq) (by decide) sAddr
  have h2 := doc_faithful_iff hb (t := .blk) (by decide) sAddr'
  unfold jsonSerialize jsonSerializeBlock
  constructor
  · intro ⟨hs, hd⟩
    have hshown := h2.mp hd
    refine ⟨fun i hi => (hshown i ((hblk i).mpr hi)).1, ?_⟩
    intro i j a b hi hj ha hbj
    rw [← (hshown i ((hblk i).mpr hi)).2 a ha, ← (hshown j ((hblk j).mpr hj)).2 b hbj]
    rfl
  · intro ⟨hfreq, hone⟩
    constructor
    · refine h1.mpr fun i hi => ⟨hfreq i ((hseq i).mp hi), ?_⟩
      intro a ha
      unfold sourceText
      rw [ha]
      rfl
    · refine h2.mpr fun i hi => ⟨hfreq i ((hblk i).mp hi), ?_⟩
      intro a ha
      obtain ⟨v', hv', b, hbv, hlast⟩ := lastSource_some (List.mem_map_of_mem hi) ha sAddr'
      obtain ⟨j, hj, rfl⟩ := List.mem_map.mp hv'
      exact hlast.trans (hone j i b a ((hblk j).mp hj) ((hblk i).mp hi) hbv ha)

/-- A received frame of this source, without a frequency. -/
def sourceRecord (seq : UInt64) (a : In6Addr) : Bytes := { testHeader frameTypeInet6 seq 0 8 with freq := 0, rxSrc := a }.raw

/-- `::1` and `::2`. -/
def node1 : In6Addr := ⟨List.replicate 15 0 ++ [1], rfl⟩
def node2 : In6Addr := ⟨List.replicate 15 0 ++ [2], rfl⟩

theorem one_source_faithful :
    ∃ ls, Analysed ls ∧ DocFaithful ls .seq (jsonSerialize ls "") ∧ DocFaithful ls .blk (jsonSerializeBlock ls "") := by
  obtain ⟨ls, hls, hrun⟩ := analysed_run (testFile (sourceRecord 0 node1 ++ sourceRecord 1 node1))
    [-50] (fun ls => ls.vs.all fun v =>
    decide (v.freq = 0) && v.rxSrc.all fun a => decide (a = node1)) (by decide +kernel)
  have hall : ∀ i, ls.isListed i → (ls.v i).freq = 0 ∧ ∀ a, (ls.v i).rxSrc = some a → a = node1 := by
    intro i hi
    have hv := List.all_eq_true.mp hrun _ (ls.v_mem hi.1)
    rw [Bool.and_eq_true, decide_eq_true_iff] at hv
    refine ⟨hv.1, fun a ha => ?_⟩
    have hnode := hv.2
    rw [ha] at hnode
    exact of_decide_eq_true hnode
  refine ⟨ls, hls, (json_faithful_iff hls "" "").mpr ⟨fun i hi => (hall i hi).1, ?_⟩⟩
  intro i j a b hi hj ha hb
  rw [(hall i hi).2 a ha, (hall j hj).2 b hb]

/-- Two receivers, and one that tells its frequency. -/
theorem sources_break_json :
    (∃ ls, Analysed ls ∧ ls.vs.map LogDataV.rxSrc = [some node1, some node2] ∧
      (jsonSerializeBlock ls "").map (fun o => o.event.map fun ev => ev.filter fun m => m.1 = "SourceNode") =
        [[[("SourceNode", .str "::2")], [("SourceNode", .str "::2")]]]) ∧
    ∃ ls, Analysed ls ∧
      (jsonSerialize ls "").map (fun o => o.event.map fun ev => ev.filter fun m => m.1 = "SourceNode") =
        [[[("SourceNode", .str "::"), ("SourceNode", .uint 2412)]]] := by
  constructor
  · obtain ⟨ls, hls, hrun⟩ := analysed_run (testFile (sourceRecord 0 node1 ++ sourceRecord 1 node2)) [] (fun ls => decide
      (ls.vs.map LogDataV.rxSrc = [some node1, some node2] ∧
        (jsonSerializeBlock ls "").map (fun o => o.event.map fun ev => ev.filter fun m => m.1 = "SourceNode") =
          [[[("SourceNode", .str "::2")], [("SourceNode", .str "::2")]]])) (by decide +kernel)
    exact ⟨ls, hls, of_decide_eq_true hrun⟩
  · obtain ⟨ls, hls, hrun⟩ := analysed_run (testFile (testHeader frameTypeInet6 0 0 8).raw) [] (fun ls => decide
      ((jsonSerialize ls "").map (fun o => o.event.map fun ev => ev.filter fun m => m.1 = "SourceNode") =
        [[[("SourceNode", .str "::"), ("SourceNode", .uint 2412)]]])) (by decide +kernel)
    exact ⟨ls, hls, of_decide_eq_true hrun⟩

end WfbYa.Log
