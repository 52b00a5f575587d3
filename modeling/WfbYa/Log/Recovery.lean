/-
  WfbYa.Log.Recovery — what a filtered store says of recovered and of lost frames.

  (1) `fec_rule_iff`. The receiver gives a frame back once `fec_k` fragments of its block are
  there. The filter asks for `fec_k` records, so the two agree exactly if the copies of a
  fragment never make up the number (`copies_break_fec_rule`).

  (2) `loss_flags_iff`. A frame that was never decoded is told to be a primary by its number
  in the stream, not in its block: past the first block none is found to be lost
  (`second_block_not_lost`).
-/

import WfbYa.Log.Cutoffs
import Mathlib.Data.Finset.Card

namespace WfbYa.Log

open WfbYa.Lib

variable {file : Bytes} {ls ls' : LogStore} {past : List Entry} {fecK : UInt8} {c : Int8}

/-! ## (1) FEC -/

/-- How many sequence numbers have a received frame of the block left. -/
def LogStore.fragmentsLeft (ls : LogStore) (block : Option KvRef) : Nat :=
  ls.kvh.countP fun kv => kv.vh.any fun i => ls.leaves i && (ls.v i).blockKv = block

/-- A number's only decoded frame stands exactly if a received frame of its own is left, or
    `fec_k` fragments of its block have one. -/
def FecRule (ls : LogStore) : Prop :=
  ∀ kv ∈ ls.kvh, (kv.vh.countP fun i => (ls.v i).isDecode) = 1 → ∀ i ∈ kv.vh, (ls.v i).isDecode = true →
    ((ls.v i).filtered = false ↔ kv.vh.any ls.leaves = true ∨ ls.fecK.toNat ≤ ls.fragmentsLeft (ls.v i).blockKv)

instance (ls : LogStore) : Decidable (FecRule ls) :=
  inferInstanceAs (Decidable (∀ kv ∈ ls.kvh, (kv.vh.countP fun i => (ls.v i).isDecode) = 1 →
    ∀ i ∈ kv.vh, (ls.v i).isDecode = true →
      ((ls.v i).filtered = false ↔ kv.vh.any ls.leaves = true ∨ ls.fecK.toNat ≤ ls.fragmentsLeft (ls.v i).blockKv)))

/-- The sequence numbers with a received frame of the block left. -/
def distinctEth (c : Int8) (past : List Entry) (b : Nat) : Nat :=
  ((past.filter fun e => under .blk b e && e.left c).map Entry.seq).toFinset.card

/-- The decoded frames under a sequence number. -/
def decodes (past : List Entry) (s : Nat) : Nat := past.countP fun e => under .seq s e && e.isDecode

/-- A lone decoded frame without a received one of its own: where `fec_k` received frames of
    its block are left, they are of `fec_k` fragments. -/
def CopiesDistinct (c : Int8) (fecK : UInt8) (past : List Entry) : Prop :=
  ∀ e ∈ past, e.isDecode = true → decodes past e.seq = 1 → seqEth c past e.seq = 0 →
    fecK.toNat ≤ blkEth c past e.block → fecK.toNat ≤ distinctEth c past e.block

theorem decodes_cons (e : Entry) (past : List Entry) (s : Nat) :
    decodes (e :: past) s = decodes past s + if under .seq s e && e.isDecode then 1 else 0 := List.countP_cons

theorem decodes_pos {s : Nat} {e : Entry} (he : e ∈ past) (hu : under .seq s e = true) (hd : e.isDecode = true) :
    0 < decodes past s := List.countP_pos_iff.mpr ⟨e, he, by simp [hu, hd]⟩

theorem distinctEth_le (c : Int8) (past : List Entry) (b : Nat) : distinctEth c past b ≤ blkEth c past b := by
  unfold distinctEth blkEth
  rw [List.countP_eq_length_filter]
  exact (List.toFinset_card_le _).trans_eq (List.length_map _)

/-- A number's only decoded frame is its last. -/
theorem lastDecode_single {s i : Nat} {e : Entry} (hi : past.reverse[i]? = some e) (hu : under .seq s e = true)
    (hd : e.isDecode = true) (hone : decodes past s = 1) : lastDecode s past = some (i, e) := by
  induction past with
  | nil => cases hi
  | cons e' past ih =>
    rw [decodes_cons] at hone
    rw [List.reverse_cons] at hi
    unfold lastDecode
    by_cases hlast : (under .seq s e' && e'.isDecode) = true
    · rw [if_pos hlast] at hone ⊢
      -- it is the record found: there is no other
      by_cases hlt : i < past.reverse.length
      · rw [List.getElem?_append_left hlt] at hi
        have hpos := decodes_pos (List.mem_reverse.mp (List.mem_of_getElem? hi)) hu hd
        omega
      · have hle := (List.getElem?_eq_some_iff.mp hi).1
        rw [List.length_append, List.length_singleton] at hle
        obtain rfl : i = past.reverse.length := by omega
        have he : e' = e := by simpa using hi
        rw [he, List.length_reverse]
    · rw [if_neg hlast] at hone ⊢
      have hlt : i < past.reverse.length := by
        by_contra hge
        rw [List.getElem?_append_right (Nat.not_lt.mp hge)] at hi
        obtain rfl : e' = e := by
          have hmem := List.mem_of_getElem? hi
          exact (List.mem_singleton.mp hmem).symm
        exact hlast (by simp [hu, hd])
      rw [List.getElem?_append_left hlt] at hi
      exact ih hi hone

theorem FilteredTo.isDecode (h : FilteredTo c ls ls' past) {i : Nat} {e : Entry} (hi : past.reverse[i]? = some e) :
    (ls'.v i).isDecode = e.isDecode := by
  unfold LogDataV.isDecode Entry.isDecode
  rw [value_type h.values hi]

theorem FilteredTo.decodes_eq (h : FilteredTo c ls ls' past) {kv : LogDataKv} (hkv : kv ∈ ls'.kvh) :
    (kv.vh.countP fun i => (ls'.v i).isDecode) = decodes past kv.key := by
  rw [h.seq_vh hkv]
  exact idxs_countP fun i e hi => h.isDecode hi

theorem FilteredTo.fragment_left (h : FilteredTo c ls ls' past) {kv : LogDataKv} (hkv : kv ∈ ls'.kvh) (b : Nat) :
    (kv.vh.any fun i => ls'.leaves i && (ls'.v i).blockKv = some ⟨.blk, b⟩) = true ↔
      ∃ e ∈ past, (under .blk b e && e.left c) = true ∧ e.seq = kv.key := by
  rw [h.seq_vh hkv, List.any_eq_true]
  constructor
  · rintro ⟨i, hmem, hi⟩
    obtain ⟨e, he, hu⟩ := mem_idxs.mp hmem
    simp only [under, Bool.and_eq_true, decide_eq_true_eq] at hu hi
    rw [h.leaves he, value_blockKv h.values he hu.1] at hi
    have hb : e.block = b := by simpa using hi.2
    exact ⟨e, List.mem_reverse.mp (List.mem_of_getElem? he), by simp [under, hu.1, hb, hi.1], hu.2⟩
  · rintro ⟨e, he, hleft, hseq⟩
    obtain ⟨i, hi⟩ := List.getElem?_of_mem (List.mem_reverse.mpr he)
    simp only [under, Bool.and_eq_true, decide_eq_true_eq] at hleft
    refine ⟨i, mem_idxs.mpr ⟨e, hi, by simp [under, hleft.1.1, hseq]⟩, ?_⟩
    rw [h.leaves hi, value_blockKv h.values hi hleft.1.1, hleft.1.2, hleft.2]
    simp

/-- The fragments left in a block, counted over the keys or over the records. -/
theorem FilteredTo.fragmentsLeft (h : FilteredTo c ls ls' past) (b : Nat) :
    ls'.fragmentsLeft (some ⟨.blk, b⟩) = distinctEth c past b := by
  unfold LogStore.fragmentsLeft distinctEth
  have hnodup : ((ls'.kvh.filter fun kv => kv.vh.any fun i => ls'.leaves i && (ls'.v i).blockKv = some ⟨.blk, b⟩).map
    LogDataKv.key).Nodup :=
    h.seq.keys_nodup.sublist (List.filter_sublist.map _)
  rw [List.countP_eq_length_filter, ← @List.length_map _ _ _ LogDataKv.key, ← List.toFinset_card_of_nodup hnodup]
  congr 1
  ext s
  simp only [List.mem_toFinset, List.mem_map, List.mem_filter]
  constructor
  · rintro ⟨kv, ⟨hkv, hleft⟩, rfl⟩
    obtain ⟨e, he, hb, hs⟩ := (h.fragment_left hkv b).mp hleft
    exact ⟨e, ⟨he, hb⟩, hs⟩
  · rintro ⟨e, ⟨he, hb⟩, rfl⟩
    have hseq : e.isSeq = true := by
      simp only [under, Bool.and_eq_true] at hb
      exact hb.1.1
    have hkv : finalSeq c ls.fecK past e.seq ∈ ls'.kvh := (h.seq.mem _).mpr ⟨e.seq, ⟨e, he, by simp [under, hseq]⟩, rfl⟩
    exact ⟨_, ⟨hkv, (h.fragment_left hkv b).mpr ⟨e, he, hb, rfl⟩⟩, rfl⟩

/-- A lone decoded frame stands if a received frame of its own is left, or `fec_k` received
    frames of its block are. -/
theorem FilteredTo.stands (h : FilteredTo c ls ls' past) (hb : Bones ls past) {i : Nat} {e : Entry}
    (hi : past.reverse[i]? = some e) (hd : e.isDecode = true) (hone : decodes past e.seq = 1) :
    (ls'.v i).filtered = false ↔ 0 < seqEth c past e.seq ∨ ls.fecK.toNat ≤ blkEth c past e.block := by
  have hlast := lastDecode_single hi (by simp [under, decode_isSeq hd]) hd hone
  rw [← Bool.not_eq_true, h.decode_flag hb hi hd, hlast]
  simp only [Option.map_some, true_and]
  by_cases heth : 0 < seqEth c past e.seq
  · rw [verdict_received hlast heth]
    simp [heth]
  · by_cases hk : ls.fecK.toNat ≤ blkEth c past e.block
    · rw [verdict_recovered hlast heth hk]
      simp [hk]
    · rw [verdict_lost hlast heth hk]
      simp [heth, hk]

theorem FilteredTo.fecRule_iff (h : FilteredTo c ls ls' past) (hb : Bones ls past) :
    FecRule ls' ↔ CopiesDistinct c ls.fecK past := by
  -- the rule at one decoded frame, on the records
  have hrule : ∀ kv ∈ ls'.kvh, ∀ i e, past.reverse[i]? = some e → e.isDecode = true → e.seq = kv.key →
      ((kv.vh.any ls'.leaves = true ∨ ls'.fecK.toNat ≤ ls'.fragmentsLeft (ls'.v i).blockKv) ↔
        0 < seqEth c past e.seq ∨ ls.fecK.toNat ≤ distinctEth c past e.block) := by
    intro kv hkv i e hi hd hseq
    rw [h.any_leaves hkv, value_blockKv h.values hi (decode_isSeq hd), h.fragmentsLeft, h.fecK_eq, hseq]
  constructor
  · intro hfec e he hd hone heth hk
    obtain ⟨i, hi⟩ := List.getElem?_of_mem (List.mem_reverse.mpr he)
    have hu : under .seq e.seq e = true := by simp [under, decode_isSeq hd]
    have hkv : finalSeq c ls.fecK past e.seq ∈ ls'.kvh := (h.seq.mem _).mpr ⟨e.seq, ⟨e, he, hu⟩, rfl⟩
    have hvh : i ∈ (finalSeq c ls.fecK past e.seq).vh := mem_idxs.mpr ⟨e, hi, hu⟩
    have hiff := hfec _ hkv ((h.decodes_eq hkv).trans hone) i hvh ((h.isDecode hi).trans hd)
    rw [h.stands hb hi hd hone, hrule _ hkv i e hi hd rfl] at hiff
    rcases hiff.mp (.inr hk) with hpos | hdist
    · omega
    · exact hdist
  · intro hcond kv hkv hone i hvh hd
    rw [h.seq_vh hkv] at hvh
    obtain ⟨e, hi, hu⟩ := mem_idxs.mp hvh
    simp only [under, Bool.and_eq_true, decide_eq_true_eq] at hu
    rw [h.isDecode hi] at hd
    rw [h.decodes_eq hkv, ← hu.2] at hone
    rw [h.stands hb hi hd hone, hrule kv hkv i e hi hd hu.2]
    constructor
    · rintro (heth | hk)
      · exact .inl heth
      · by_cases heth : 0 < seqEth c past e.seq
        · exact .inl heth
        · refine .inr (hcond e (List.mem_reverse.mp (List.mem_of_getElem? hi)) hd hone ?_ hk)
          omega
    · rintro (heth | hk)
      · exact .inl heth
      · exact .inr (hk.trans (distinctEth_le c past e.block))

theorem fec_rule_iff (h : loadLog file = .ok (some ls)) (cs : List Int8) (c : Int8) :
    ∃ ls', (cs ++ [c]).foldlM shellFilterDbm ls = .ok ls' ∧
    (FecRule ls' ↔ CopiesDistinct c ls.fecK (fileEntries file).reverse) := by
  obtain ⟨-, -, ep, hl⟩ := loadLog_some h
  have hb := hl.loaded.bones
  obtain ⟨ls', hrun, hf⟩ := commands_spec hb cs c
  exact ⟨ls', hrun, hf.fecRule_iff hb⟩

theorem twoBlocks_fec_rule : ∃ ls ls', loadLog twoBlocks = .ok (some ls) ∧ ls.fecK = 1 ∧
    ([] ++ [-60] : List Int8).foldlM shellFilterDbm ls = .ok ls' ∧
      (FecRule ls' ↔ CopiesDistinct (-60) ls.fecK (fileEntries twoBlocks).reverse) := by
  have hrun : ((loadLog twoBlocks).toOption.bind id).map LogStore.fecK = some 1 := by decide +kernel
  obtain ⟨ls, hls, hk⟩ := Option.map_eq_some_iff.mp hrun
  have hload := load_of_toOption hls
  obtain ⟨ls', hfilter, hiff⟩ := fec_rule_iff hload [] (-60)
  exact ⟨ls, ls', hload, hk, hfilter, hiff⟩

/-- Two copies of fragment 0 are left; fragment 1 is not, and FEC needs two. -/
def copiesFile : Bytes :=
  (⟨1, 1, 2, 3, 0, rxLogSignature⟩ : RxLogFileHeader).raw ++
    ((testHeader frameTypeInet6 0 0 8).raw ++ (testHeader frameTypeInet6 0 0 8).raw ++
      ({ testHeader frameTypeInet6 1 0 8 with dbm := -90 } : RxLogFrameHeader).raw ++ (testHeader frameTypeDecode 1 0 0).raw)

example : (fileEntries copiesFile).map Entry.seq = [0, 0, 1, 1] := by decide +kernel

theorem copies_break_fec_rule : ¬ ∀ (file : Bytes) (ls : LogStore) (c : Int8), loadLog file = .ok (some ls) → 1 ≤ ls.fecK →
    ∃ ls', shellFilterDbm ls c = .ok ls' ∧ FecRule ls' := by
  intro h
  have hrun : ((loadLog copiesFile).toOption.bind id).map (fun ls =>
      (decide (1 ≤ ls.fecK), (shellFilterDbm ls (-80)).toOption.map fun ls' => decide (FecRule ls'))) =
        some (true, some false) := by
    decide +kernel
  obtain ⟨ls, hls, hout⟩ := Option.map_eq_some_iff.mp hrun
  have hk := of_decide_eq_true (congrArg Prod.fst hout)
  obtain ⟨ls', hfilter, hrule⟩ := h copiesFile ls (-80) (load_of_toOption hls) hk
  have hno := congrArg Prod.snd hout
  rw [hfilter] at hno
  exact of_decide_eq_false (Option.some.inj hno) hrule

/-! ## (2) Losses -/

/-- A decoded frame that is not marked. -/
def LogStore.decodeStands (ls : LogStore) (i : Nat) : Bool := (ls.v i).isDecode && !(ls.v i).filtered

def LogStore.primaryKv (ls : LogStore) (kv : LogDataKv) : Prop := ∀ i ∈ kv.vh, (ls.v i).fragmentIdx.toNat < ls.fecK.toNat

def LogStore.parityKv (ls : LogStore) (kv : LogDataKv) : Prop := ∀ i ∈ kv.vh, ls.fecK.toNat ≤ (ls.v i).fragmentIdx.toNat

/-- A primary is lost exactly if no decoded frame of it stands. -/
def PrimariesFlagged (ls : LogStore) : Prop :=
  ∀ kv ∈ ls.kvh, ls.primaryKv kv → (kv.hasLostFrame = true ↔ kv.vh.any ls.decodeStands = false)

instance (ls : LogStore) : Decidable (PrimariesFlagged ls) :=
  inferInstanceAs (Decidable (∀ kv ∈ ls.kvh, (∀ i ∈ kv.vh, (ls.v i).fragmentIdx.toNat < ls.fecK.toNat) →
    (kv.hasLostFrame = true ↔ kv.vh.any ls.decodeStands = false)))

structure LossFlags (ls : LogStore) : Prop where
  primaries : PrimariesFlagged ls
  blocks : ∀ kv ∈ ls.kvh, ls.primaryKv kv → kv.hasLostFrame = true →
    ∀ i ∈ kv.vh, ∀ b ∈ ls.blockKvh, (ls.v i).blockKv = some ⟨.blk, b.key⟩ → b.hasLostFrame = true
  parities : ∀ kv ∈ ls.kvh, ls.parityKv kv → kv.hasLostFrame = false

/-- Every record of the number is of a fragment in `p`, and there is one. -/
def FragmentsIn (p : Nat → Prop) (past : List Entry) (s : Nat) : Prop :=
  s ∈ keysOf .seq past ∧ ∀ e ∈ past, under .seq s e = true → p e.hd.fragmentIdx.toNat

/-- The number's frame is not to be had: it was never decoded, and the number is below
    `fec_k`; or neither it nor `fec_k` frames of its block are left. -/
def Loses (c : Int8) (fecK : UInt8) (past : List Entry) (s : Nat) : Prop :=
  (lastDecode s past = none → s < fecK.toNat) ∧
    ∀ d, lastDecode s past = some d → seqEth c past s = 0 ∧ blkEth c past d.2.block < fecK.toNat

/-- Where the flags tell the losses. -/
structure LossesSeen (c : Int8) (fecK : UInt8) (past : List Entry) : Prop where
  /-- A primary that was never decoded is of the first block. -/
  undecoded : ∀ s, FragmentsIn (· < fecK.toNat) past s → lastDecode s past = none → s < fecK.toNat
  /-- Where the last decoded frame falls, there is no earlier one. -/
  once : ∀ s, FragmentsIn (· < fecK.toNat) past s → ∀ d, lastDecode s past = some d →
    seqEth c past s = 0 → blkEth c past d.2.block < fecK.toNat → decodes past s = 1
  /-- A block among a lost primary's records is short itself, or a lost number begins in it. -/
  blocks : ∀ s, FragmentsIn (· < fecK.toNat) past s → Loses c fecK past s → ∀ e ∈ past, under .seq s e = true →
    blkEth c past e.block < fecK.toNat ∨ ∃ s', firstBlock s' past = some e.block ∧ Loses c fecK past s'
  /-- A parity that was never decoded is not of the first block. -/
  parityUndecoded : ∀ s, FragmentsIn (fecK.toNat ≤ ·) past s → lastDecode s past = none → fecK.toNat ≤ s
  parityDecoded : ∀ s, FragmentsIn (fecK.toNat ≤ ·) past s → ∀ d, lastDecode s past = some d →
    0 < seqEth c past s ∨ fecK.toNat ≤ blkEth c past d.2.block

theorem loses_iff {s : Nat} : (verdict c fecK past s).isLoss = true ↔ Loses c fecK past s := by
  unfold Loses
  cases hd : lastDecode s past with
  | none =>
    by_cases hk : s < fecK.toNat
    · rw [verdict_missing hd hk]
      simp [Verdict.isLoss, hk]
    · rw [verdict_absent hd hk]
      simp [Verdict.isLoss, hk]
  | some d =>
    by_cases heth : 0 < seqEth c past s
    · rw [verdict_received hd heth]
      simp [Verdict.isLoss, Nat.ne_of_gt heth]
    · have hzero : seqEth c past s = 0 := by omega
      by_cases hk : fecK.toNat ≤ blkEth c past d.2.block
      · rw [verdict_recovered hd heth hk]
        simp [Verdict.isLoss, hk]
      · rw [verdict_lost hd heth hk]
        simp [Verdict.isLoss, hzero, Nat.lt_of_not_le hk]

theorem lastDecode_none {s : Nat} : lastDecode s past = none ↔ decodes past s = 0 := by
  induction past with
  | nil => simp [lastDecode, decodes]
  | cons e past ih =>
    rw [decodes_cons]
    unfold lastDecode
    by_cases hlast : (under .seq s e && e.isDecode) = true
    · simp [hlast]
    · rw [if_neg hlast, if_neg hlast]
      exact ih

/-- If every decoded frame of the number is its last, there is one. -/
theorem decodes_one {s : Nat} {d : Nat × Entry} (hlast : lastDecode s past = some d)
    (h : ∀ i e, past.reverse[i]? = some e → under .seq s e = true → e.isDecode = true → i = d.1) : decodes past s = 1 := by
  induction past with
  | nil => cases hlast
  | cons e past ih =>
    have hold : ∀ i e', past.reverse[i]? = some e' → under .seq s e' = true → e'.isDecode = true → i = d.1 := by
      intro i e' hi
      apply h
      have hlt : i < past.reverse.length := (List.getElem?_eq_some_iff.mp hi).1
      rwa [List.reverse_cons, List.getElem?_append_left hlt]
    rw [decodes_cons]
    unfold lastDecode at hlast
    by_cases hnew : (under .seq s e && e.isDecode) = true
    · rw [if_pos hnew] at hlast ⊢
      obtain rfl := Option.some.inj hlast
      have hzero : decodes past s = 0 := by
        by_contra hne
        obtain ⟨e', he', hp⟩ := List.countP_pos_iff.mp (Nat.pos_of_ne_zero hne)
        obtain ⟨i, hi⟩ := List.getElem?_of_mem (List.mem_reverse.mpr he')
        rw [Bool.and_eq_true] at hp
        have hlt := (List.getElem?_eq_some_iff.mp hi).1
        rw [hold i e' hi hp.1 hp.2, List.length_reverse] at hlt
        exact absurd hlt (Nat.lt_irrefl _)
      rw [hzero]
    · rw [if_neg hnew] at hlast ⊢
      exact ih hlast hold

theorem FilteredTo.fragmentIdx (h : FilteredTo c ls ls' past) {i : Nat} {e : Entry} (hi : past.reverse[i]? = some e) :
    (ls'.v i).fragmentIdx.toNat = e.hd.fragmentIdx.toNat := by
  obtain ⟨x, ep, -, hv, he⟩ := value_get h.values hi
  have hf : x.fragmentIdx = e.hd.fragmentIdx.toUInt64 := congrArg LogDataV.fragmentIdx he
  rw [hv, hf, UInt8.toNat_toUInt64]

/-- What all values of a key meet, all records of the number do. -/
theorem FilteredTo.fragmentsIn (h : FilteredTo c ls ls' past) (p : Nat → Prop) {kv : LogDataKv} (hkv : kv ∈ ls'.kvh) :
    (∀ i ∈ kv.vh, p (ls'.v i).fragmentIdx.toNat) ↔ FragmentsIn p past kv.key := by
  rw [h.seq_vh hkv]
  constructor
  · intro hall
    refine ⟨(h.mem_seq hkv).1, fun e he hu => ?_⟩
    obtain ⟨i, hi⟩ := List.getElem?_of_mem (List.mem_reverse.mpr he)
    rw [← h.fragmentIdx hi]
    exact hall i (mem_idxs.mpr ⟨e, hi, hu⟩)
  · intro hall i hmem
    obtain ⟨e, hi, hu⟩ := mem_idxs.mp hmem
    rw [h.fragmentIdx hi]
    exact hall.2 e (List.mem_reverse.mp (List.mem_of_getElem? hi)) hu

theorem FilteredTo.seq_lost (h : FilteredTo c ls ls' past) {kv : LogDataKv} (hkv : kv ∈ ls'.kvh) :
    kv.hasLostFrame = true ↔ Loses c ls.fecK past kv.key := by
  rw [← loses_iff]
  exact Bool.eq_iff_iff.mp (congrArg LogDataKv.hasLostFrame (h.mem_seq hkv).2)

theorem FilteredTo.blk_lost (h : FilteredTo c ls ls' past) (hb : Bones ls past) {b : LogDataKv} (hmem : b ∈ ls'.blockKvh) :
    b.hasLostFrame = true ↔
      blkEth c past b.key < ls.fecK.toNat ∨ ∃ s, firstBlock s past = some b.key ∧ Loses c ls.fecK past s := by
  obtain ⟨k, -, rfl⟩ := (h.blk.mem b).mp hmem
  unfold finalBlk
  dsimp only
  rw [Bool.or_eq_true, decide_eq_true_eq, List.any_eq_true]
  refine or_congr Iff.rfl ⟨?_, ?_⟩
  · rintro ⟨s, -, hcharged⟩
    unfold charged at hcharged
    rw [Bool.and_eq_true, decide_eq_true_eq, loses_iff] at hcharged
    exact ⟨s, hcharged⟩
  · rintro ⟨s, hfirst, hl⟩
    obtain ⟨e, he, hu, -⟩ := firstBlock_some hfirst
    refine ⟨s, hb.seq_keys.mpr ⟨e, he, hu⟩, ?_⟩
    unfold charged
    rw [Bool.and_eq_true, decide_eq_true_eq, loses_iff]
    exact ⟨hfirst, hl⟩

/-- No decoded frame of a number stands if there is none, or one that is lost. -/
theorem FilteredTo.none_stands (h : FilteredTo c ls ls' past) (hb : Bones ls past) {kv : LogDataKv} (hkv : kv ∈ ls'.kvh) :
    kv.vh.any ls'.decodeStands = false ↔
      lastDecode kv.key past = none ∨ verdict c ls.fecK past kv.key = .lost ∧ decodes past kv.key = 1 := by
  rw [h.seq_vh hkv, List.any_eq_false]
  constructor
  · intro hno
    -- whatever was decoded is marked, so it is the last, and lost
    have hmarked : ∀ i e, past.reverse[i]? = some e → under .seq kv.key e = true → e.isDecode = true →
        (lastDecode kv.key past).map Prod.fst = some i ∧ verdict c ls.fecK past kv.key = .lost := by
      intro i e hi hu hd
      have hstand := hno i (mem_idxs.mpr ⟨e, hi, hu⟩)
      unfold LogStore.decodeStands at hstand
      rw [h.isDecode hi, hd, Bool.true_and, Bool.not_eq_true', Bool.not_eq_false] at hstand
      have hflag := (h.decode_flag hb hi hd).mp hstand
      simp only [under, Bool.and_eq_true, decide_eq_true_eq] at hu
      rwa [hu.2] at hflag
    cases hlast : lastDecode kv.key past with
    | none => exact .inl rfl
    | some d =>
      obtain ⟨hi, hu, hd⟩ := lastDecode_some hlast
      refine .inr ⟨(hmarked d.1 d.2 hi hu hd).2, decodes_one hlast fun i e hi hu hd => ?_⟩
      have hfst := (hmarked i e hi hu hd).1
      rw [hlast] at hfst
      exact (Option.some.inj hfst).symm
  · intro hcase i hmem
    obtain ⟨e, hi, hu⟩ := mem_idxs.mp hmem
    unfold LogStore.decodeStands
    rw [h.isDecode hi, Bool.not_eq_true]
    by_cases hd : e.isDecode = true
    · rcases hcase with hnone | ⟨hlost, hone⟩
      · have hpos := decodes_pos (List.mem_reverse.mp (List.mem_of_getElem? hi)) hu hd
        rw [lastDecode_none.mp hnone] at hpos
        exact absurd hpos (Nat.lt_irrefl _)
      · have hlast := lastDecode_single hi hu hd hone
        simp only [under, Bool.and_eq_true, decide_eq_true_eq] at hu
        have hflag := (h.decode_flag hb hi hd).mpr (by rw [hu.2, hlast]; exact ⟨rfl, hlost⟩)
        rw [hd, hflag]
        rfl
    · rw [Bool.not_eq_true] at hd
      rw [hd, Bool.false_and]

/-- The flag of a primary. -/
theorem primary_iff {s : Nat} :
    (Loses c fecK past s ↔ lastDecode s past = none ∨ verdict c fecK past s = .lost ∧ decodes past s = 1) ↔
      (lastDecode s past = none → s < fecK.toNat) ∧
        ∀ d, lastDecode s past = some d → seqEth c past s = 0 → blkEth c past d.2.block < fecK.toNat → decodes past s = 1 := by
  unfold Loses
  cases hd : lastDecode s past with
  | none => simp
  | some d =>
    by_cases heth : 0 < seqEth c past s
    · rw [verdict_received hd heth]
      simp [Nat.ne_of_gt heth]
    · have hzero : seqEth c past s = 0 := by omega
      by_cases hk : fecK.toNat ≤ blkEth c past d.2.block
      · rw [verdict_recovered hd heth hk]
        simp [Nat.not_lt.mpr hk]
      · rw [verdict_lost hd heth hk]
        simp [hzero, Nat.lt_of_not_le hk]

theorem parity_iff {s : Nat} :
    ¬ Loses c fecK past s ↔ (lastDecode s past = none → fecK.toNat ≤ s) ∧
      ∀ d, lastDecode s past = some d → 0 < seqEth c past s ∨ fecK.toNat ≤ blkEth c past d.2.block := by
  unfold Loses
  cases hd : lastDecode s past with
  | none => simp
  | some d =>
    simp only [reduceCtorEq, false_implies, true_and, Option.some.injEq, forall_eq']
    omega

theorem FilteredTo.lossFlags_iff (h : FilteredTo c ls ls' past) (hb : Bones ls past) :
    LossFlags ls' ↔ LossesSeen c ls.fecK past := by
  -- a number with records, as a key and back
  have hkey : ∀ s, s ∈ keysOf .seq past → finalSeq c ls.fecK past s ∈ ls'.kvh := fun s hs => (h.seq.mem _).mpr ⟨s, hs, rfl⟩
  have hprim : ∀ kv ∈ ls'.kvh, ls'.primaryKv kv ↔ FragmentsIn (· < ls.fecK.toNat) past kv.key := by
    intro kv hkv
    unfold LogStore.primaryKv
    rw [h.fecK_eq]
    exact h.fragmentsIn (· < ls.fecK.toNat) hkv
  have hpar : ∀ kv ∈ ls'.kvh, ls'.parityKv kv ↔ FragmentsIn (ls.fecK.toNat ≤ ·) past kv.key := by
    intro kv hkv
    unfold LogStore.parityKv
    rw [h.fecK_eq]
    exact h.fragmentsIn (ls.fecK.toNat ≤ ·) hkv
  constructor
  · rintro ⟨hp, hblk, hq⟩
    have hprimary : ∀ s, FragmentsIn (· < ls.fecK.toNat) past s →
        (Loses c ls.fecK past s ↔ lastDecode s past = none ∨ verdict c ls.fecK past s = .lost ∧ decodes past s = 1) := by
      intro s hs
      have hkv := hkey s hs.1
      have hiff := hp _ hkv ((hprim _ hkv).mpr hs)
      rwa [h.seq_lost hkv, h.none_stands hb hkv] at hiff
    have hparity : ∀ s, FragmentsIn (ls.fecK.toNat ≤ ·) past s → ¬ Loses c ls.fecK past s := by
      intro s hs hl
      have hkv := hkey s hs.1
      have hno := hq _ hkv ((hpar _ hkv).mpr hs)
      rw [(h.seq_lost hkv).mpr hl] at hno
      cases hno
    refine ⟨?_, ?_, ?_, ?_, ?_⟩
    · exact fun s hs => (primary_iff.mp (hprimary s hs)).1
    · exact fun s hs => (primary_iff.mp (hprimary s hs)).2
    · intro s hs hl e he hu
      have hkv := hkey s hs.1
      obtain ⟨i, hi⟩ := List.getElem?_of_mem (List.mem_reverse.mpr he)
      have hseq : e.isSeq = true := by
        simp only [under, Bool.and_eq_true] at hu
        exact hu.1
      have hmem : finalBlk c ls.fecK past (ls.kvh.map LogDataKv.key) e.block ∈ ls'.blockKvh :=
        (h.blk.mem _).mpr ⟨e.block, ⟨e, he, by simp [under, hseq]⟩, rfl⟩
      refine (h.blk_lost hb hmem).mp (hblk _ hkv ((hprim _ hkv).mpr hs) ((h.seq_lost hkv).mpr hl) i ?_ _ hmem ?_)
      · exact mem_idxs.mpr ⟨e, hi, hu⟩
      · exact value_blockKv h.values hi hseq
    · exact fun s hs => (parity_iff.mp (hparity s hs)).1
    · exact fun s hs => (parity_iff.mp (hparity s hs)).2
  · intro hcond
    refine ⟨?_, ?_, ?_⟩
    · intro kv hkv hs
      rw [hprim kv hkv] at hs
      rw [h.seq_lost hkv, h.none_stands hb hkv]
      exact primary_iff.mpr ⟨hcond.undecoded _ hs, hcond.once _ hs⟩
    · intro kv hkv hs hl i hmem b hbmem hblk
      rw [hprim kv hkv] at hs
      rw [h.seq_lost hkv] at hl
      rw [h.seq_vh hkv] at hmem
      obtain ⟨e, hi, hu⟩ := mem_idxs.mp hmem
      have hseq : e.isSeq = true := by
        simp only [under, Bool.and_eq_true] at hu
        exact hu.1
      rw [value_blockKv h.values hi hseq] at hblk
      have hbk : e.block = b.key := by simpa using hblk
      rw [h.blk_lost hb hbmem, ← hbk]
      exact hcond.blocks _ hs hl e (List.mem_reverse.mp (List.mem_of_getElem? hi)) hu
    · intro kv hkv hs
      rw [hpar kv hkv] at hs
      rw [← Bool.not_eq_true, h.seq_lost hkv]
      exact parity_iff.mpr ⟨hcond.parityUndecoded _ hs, hcond.parityDecoded _ hs⟩

theorem loss_flags_iff (h : loadLog file = .ok (some ls)) (cs : List Int8) (c : Int8) :
    ∃ ls', (cs ++ [c]).foldlM shellFilterDbm ls = .ok ls' ∧
    (LossFlags ls' ↔ LossesSeen c ls.fecK (fileEntries file).reverse) := by
  obtain ⟨-, -, ep, hl⟩ := loadLog_some h
  have hb := hl.loaded.bones
  obtain ⟨ls', hrun, hf⟩ := commands_spec hb cs c
  exact ⟨ls', hrun, hf.lossFlags_iff hb⟩

theorem twoBlocks_loss_flags :
    ∃ ls ls', loadLog twoBlocks = .ok (some ls) ∧ ([-60] ++ [-42] : List Int8).foldlM shellFilterDbm ls = .ok ls' ∧
    (LossFlags ls' ↔ LossesSeen (-42) ls.fecK (fileEntries twoBlocks).reverse) := by
  obtain ⟨ls, hload⟩ := twoBlocks_loads
  obtain ⟨ls', hfilter, hiff⟩ := loss_flags_iff hload [-60] (-42)
  exact ⟨ls, ls', hload, hfilter, hiff⟩

/-- The primary of block 2 was received and not decoded, and its number is past `fec_k`. -/
theorem second_block_not_lost : ¬ ∀ (file : Bytes) (ls : LogStore) (c : Int8), loadLog file = .ok (some ls) → 1 ≤ ls.fecK →
    ∃ ls', shellFilterDbm ls c = .ok ls' ∧ LossFlags ls' := by
  intro h
  have hrun : ((loadLog twoBlocks).toOption.bind id).map (fun ls =>
      (decide (1 ≤ ls.fecK), (shellFilterDbm ls (-60)).toOption.map fun ls' => decide (PrimariesFlagged ls'))) =
        some (true, some false) := by
    decide +kernel
  obtain ⟨ls, hls, hout⟩ := Option.map_eq_some_iff.mp hrun
  have hk := of_decide_eq_true (congrArg Prod.fst hout)
  obtain ⟨ls', hfilter, hflags⟩ := h twoBlocks ls (-60) (load_of_toOption hls) hk
  have hno := congrArg Prod.snd hout
  rw [hfilter] at hno
  exact of_decide_eq_false (Option.some.inj hno) hflags.primaries

end WfbYa.Log
