/-
  WfbYa.Log.BlockSums — a block's counters and those of its sequence numbers.

  The loader marks both keys of a value; `filter dbm` counts the values of a block first, and
  charges the block with each sequence number after that. The two agree where every
  sequence number is of one block.

  - `BlockSums`: the block counters are sums.
  - `Loaded.sums`, `FilteredTo.sums`: of a loaded store, and after any command.
  - `commands_sums`: after any commands.
-/

import WfbYa.Lib.Fibers
import WfbYa.Log.Cutoffs

namespace WfbYa.Log

open WfbYa.Lib

variable {ls ls' : LogStore} {past : List Entry} {fecK : UInt8} {c : Int8} {b : Nat}

/-! ## The rule -/

/-- The sequence numbers that have a value of the block. -/
def seqKeys (ls : LogStore) (b : Nat) : List LogDataKv :=
  ls.kvh.filter fun kv => kv.vh.any fun i => decide ((ls.v i).blockKv = some ⟨.blk, b⟩)

structure BlockSums (ls : LogStore) : Prop where
  ethernet : ∀ b ∈ ls.blockKvh, b.nEthernetFrame = ((seqKeys ls b.key).map LogDataKv.nEthernetFrame).sum
  h265 : ∀ b ∈ ls.blockKvh, b.nH265Frame = ((seqKeys ls b.key).map LogDataKv.nH265Frame).sum
  fec : ∀ b ∈ ls.blockKvh, b.hasFecFrame = true ↔ ∃ kv ∈ seqKeys ls b.key, kv.hasFecFrame = true

/-- Records with one sequence number are of one block. -/
def OneBlock (past : List Entry) : Prop :=
  ∀ e ∈ past, ∀ e' ∈ past, e.isSeq = true → e'.isSeq = true → e.seq = e'.seq → e.block = e'.block

/-! ## The sequence numbers of a block -/

theorem under_seq {e : Entry} {s : Nat} : under .seq s e = true ↔ e.isSeq = true ∧ e.seq = s := by simp [under]

theorem under_blk {e : Entry} : under .blk b e = true ↔ e.isSeq = true ∧ e.block = b := by simp [under]

/-- `ks` are the sequence numbers with a record of the block, and `g` is at each of them what
    the store has. -/
structure SeqsOf (ls : LogStore) (past : List Entry) (b : Nat) (g : Nat → LogDataKv) (ks : List Nat) : Prop where
  nodup : ks.Nodup
  mem : ∀ s, s ∈ ks ↔ ∃ e ∈ past, under .seq s e = true ∧ e.block = b
  keys : seqKeys ls b = ks.map g

/-- A value refers to the block of its record. -/
theorem Bones.any_block (h : Bones ls past) (s b : Nat) :
    ((idxs (under .seq s) past).any fun i => decide ((ls.v i).blockKv = some ⟨.blk, b⟩)) = true ↔
      ∃ e ∈ past, under .seq s e = true ∧ e.block = b := by
  rw [List.any_eq_true]
  constructor
  · rintro ⟨i, hi, hv⟩
    obtain ⟨e, he, hu⟩ := mem_idxs.mp hi
    rw [value_blockKv h.vs he (under_seq.mp hu).1] at hv
    refine ⟨e, List.mem_reverse.mp (List.mem_of_getElem? he), hu, ?_⟩
    simpa using hv
  · rintro ⟨e, he, hu, rfl⟩
    obtain ⟨i, hi⟩ := List.mem_iff_getElem?.mp (List.mem_reverse.mpr he)
    refine ⟨i, mem_idxs.mpr ⟨e, hi, hu⟩, ?_⟩
    rw [value_blockKv h.vs hi (under_seq.mp hu).1]
    simp

theorem Bones.seqsOf (h : Bones ls past) {g : Nat → LogDataKv} (hg : KeyedList.Holds LogDataKv.key g (keysOf .seq past) ls.kvh)
    (hclear : ∀ k, (g k).clear = (kvOf ls.fecK .seq past k).clear) (b : Nat) :
    SeqsOf ls past b g ((seqKeys ls b).map LogDataKv.key) := by
  have hkey : ∀ k, (g k).key = k := fun k => congrArg LogDataKv.key (hclear k)
  have hvh : ∀ k, (g k).vh = idxs (under .seq k) past := fun k => congrArg LogDataKv.vh (hclear k)
  refine ⟨?_, ?_, ?_⟩
  · exact hg.keys_nodup.sublist (List.Sublist.map _ List.filter_sublist)
  · intro s
    unfold seqKeys
    rw [List.mem_map]
    constructor
    · rintro ⟨kv, hkv, rfl⟩
      obtain ⟨hmem, hany⟩ := List.mem_filter.mp hkv
      obtain ⟨k, -, rfl⟩ := (hg.mem kv).mp hmem
      rw [hvh] at hany
      rw [hkey]
      exact (h.any_block k b).mp hany
    · intro hs
      have hany := (h.any_block s b).mpr hs
      obtain ⟨e, he, hu, -⟩ := hs
      refine ⟨g s, List.mem_filter.mpr ⟨(hg.mem _).mpr ⟨s, ⟨e, he, hu⟩, rfl⟩, ?_⟩, hkey s⟩
      rw [hvh]
      exact hany
  · rw [List.map_map]
    conv_lhs => rw [← List.map_id (seqKeys ls b)]
    apply List.map_congr_left
    intro kv hkv
    obtain ⟨k, -, rfl⟩ := (hg.mem kv).mp (List.mem_filter.mp hkv).1
    dsimp only [id, Function.comp_apply]
    rw [hkey]

variable {g : Nat → LogDataKv} {ks : List Nat}

/-- A record of a sequence number of the block is of the block. -/
theorem SeqsOf.under_blk (h : SeqsOf ls past b g ks) (hone : OneBlock past) {s : Nat} (hs : s ∈ ks) {e : Entry} (he : e ∈ past)
    (hu : under .seq s e = true) : under .blk b e = true := by
  obtain ⟨e', he', hu', hb⟩ := (h.mem s).mp hs
  obtain ⟨hseq, rfl⟩ := under_seq.mp hu
  obtain ⟨hseq', heq⟩ := under_seq.mp hu'
  refine Log.under_blk.mpr ⟨hseq, ?_⟩
  rw [hone e he e' he' hseq hseq' heq.symm, hb]

theorem SeqsOf.seq_mem (h : SeqsOf ls past b g ks) {e : Entry} (he : e ∈ past) (hu : under .blk b e = true) : e.seq ∈ ks := by
  obtain ⟨hseq, hb⟩ := Log.under_blk.mp hu
  exact (h.mem e.seq).mpr ⟨e, he, under_seq.mpr ⟨hseq, rfl⟩, hb⟩

/-- What is counted under the block is counted under its sequence numbers. -/
theorem SeqsOf.count (h : SeqsOf ls past b g ks) (hone : OneBlock past) (q : Entry → Bool) :
    (past.countP fun e => under .blk b e && q e) = (ks.map fun s => past.countP fun e => under .seq s e && q e).sum := by
  rw [← Fibers.sum_countP Entry.seq h.nodup (fun e he hp => h.seq_mem he (Bool.and_eq_true _ _ ▸ hp).1)]
  congr 1
  apply List.map_congr_left
  intro s hs
  apply List.countP_congr
  intro e he
  rw [Bool.and_eq_true, Bool.and_eq_true, Bool.and_eq_true, decide_eq_true_iff]
  constructor
  · rintro ⟨rfl, hu, hq⟩
    exact ⟨under_seq.mpr ⟨(Log.under_blk.mp hu).1, rfl⟩, hq⟩
  · rintro ⟨hu, hq⟩
    exact ⟨(under_seq.mp hu).2, h.under_blk hone hs he hu, hq⟩


/-! ## A loaded store -/

/-- A decoded frame with no copy of it received before. -/
theorem fecSeen_iff {p : Entry → Bool} :
    fecSeen p past = true ↔ ∃ e before, e :: before <:+ past ∧ p e = true ∧ e.isDecoded = true ∧ unseen e.seq before = true := by
  induction past with
  | nil => simp [fecSeen]
  | cons e past ih =>
    unfold fecSeen
    rw [Bool.or_eq_true, ih]
    constructor
    · rintro (⟨e', before, hsuf, h⟩ | h)
      · exact ⟨e', before, hsuf.trans (List.suffix_cons e past), h⟩
      · rw [Bool.and_eq_true, Bool.and_eq_true] at h
        exact ⟨e, past, List.suffix_rfl, h.1.1, h.1.2, h.2⟩
    · rintro ⟨e', before, hsuf, hp, hd, hu⟩
      rcases List.suffix_cons_iff.mp hsuf with heq | hsuf
      · cases heq
        right
        rw [Bool.and_eq_true, Bool.and_eq_true]
        exact ⟨⟨hp, hd⟩, hu⟩
      · exact .inl ⟨e', before, hsuf, hp, hd, hu⟩

theorem decoded_isSeq {e : Entry} (h : e.isDecoded = true) : e.isSeq = true := by
  unfold Entry.isDecoded at h
  rw [Bool.and_eq_true] at h
  exact decode_isSeq h.1

theorem Loaded.sums (h : Loaded ls past) (hone : OneBlock past) : BlockSums ls := by
  have hseqs : ∀ b, SeqsOf ls past b (kvOf ls.fecK .seq past) ((seqKeys ls b).map LogDataKv.key) :=
    h.bones.seqsOf (h.kvs .seq) fun _ => rfl
  have hblk : ∀ b ∈ ls.blockKvh, b = kvOf ls.fecK .blk past b.key := fun b hb => h.kv (t := .blk) hb
  refine ⟨?_, ?_, ?_⟩
  · intro b hb
    have hs := hseqs b.key
    rw [hs.keys, List.map_map, hblk b hb]
    exact hs.count hone Entry.isInet6
  · intro b hb
    have hs := hseqs b.key
    rw [hs.keys, List.map_map, hblk b hb]
    exact hs.count hone Entry.isDecoded
  · intro b hb
    have hs := hseqs b.key
    rw [hblk b hb]
    show fecSeen (under .blk b.key) past = true ↔ _
    rw [fecSeen_iff]
    constructor
    · rintro ⟨e, before, hsuf, hu, hd, hnew⟩
      have he : e ∈ past := hsuf.subset List.mem_cons_self
      refine ⟨kvOf ls.fecK .seq past e.seq, ?_, ?_⟩
      · show _ ∈ seqKeys ls b.key
        rw [hs.keys]
        exact List.mem_map.mpr ⟨e.seq, hs.seq_mem he hu, rfl⟩
      · exact fecSeen_iff.mpr ⟨e, before, hsuf, under_seq.mpr ⟨decoded_isSeq hd, rfl⟩, hd, hnew⟩
    · rintro ⟨kv, hkv, hfec⟩
      change kv ∈ seqKeys ls b.key at hkv
      rw [hs.keys] at hkv
      obtain ⟨s, hmem, rfl⟩ := List.mem_map.mp hkv
      obtain ⟨e, before, hsuf, hu, hd, hnew⟩ := fecSeen_iff.mp (show fecSeen (under .seq s) past = true from hfec)
      exact ⟨e, before, hsuf, hs.under_blk hone hmem (hsuf.subset List.mem_cons_self) hu, hd, hnew⟩

/-! ## A filtered store -/

theorem OneBlock.first (hone : OneBlock past) {s : Nat} :
    firstBlock s past = some b ↔ ∃ e ∈ past, under .seq s e = true ∧ e.block = b := by
  constructor
  · exact firstBlock_some
  · rintro ⟨e, he, hu, rfl⟩
    obtain ⟨b, hb⟩ := firstBlock_mem ⟨e, he, hu⟩
    obtain ⟨e', he', hu', rfl⟩ := firstBlock_some hb
    obtain ⟨hseq, hs⟩ := under_seq.mp hu
    obtain ⟨hseq', hs'⟩ := under_seq.mp hu'
    rw [hb, hone e he e' he' hseq hseq' (hs.trans hs'.symm)]

/-- The sequence numbers a block is charged with are those of the block. -/
theorem SeqsOf.charged (h : SeqsOf ls past b g ks) (hone : OneBlock past) {s : Nat} (p : Verdict → Bool) :
    charged p c fecK past b s = true ↔ s ∈ ks ∧ p (verdict c fecK past s) = true := by
  unfold Log.charged
  rw [Bool.and_eq_true, decide_eq_true_iff, hone.first, ← h.mem]

theorem FilteredTo.sums (h : FilteredTo c ls ls' past) (hb : Bones ls past) (hone : OneBlock past) : BlockSums ls' := by
  have hclear : ∀ s, (finalSeq c ls.fecK past s).clear = (kvOf ls'.fecK .seq past s).clear := by
    intro s
    rw [h.fecK_eq]
    rfl
  have hseqs : ∀ b, SeqsOf ls' past b (finalSeq c ls.fecK past) ((seqKeys ls' b).map LogDataKv.key) :=
    (h.bones hb).seqsOf h.seq hclear
  have hblk : ∀ b ∈ ls'.blockKvh, b = finalBlk c ls.fecK past (ls.kvh.map LogDataKv.key) b.key := by
    intro b hb
    obtain ⟨k, -, rfl⟩ := (h.blk.mem b).mp hb
    rfl
  have hdone : ∀ {b : Nat} {ks : List Nat}, SeqsOf ls' past b (finalSeq c ls.fecK past) ks →
    ∀ s ∈ ks, s ∈ ls.kvh.map LogDataKv.key := by
    intro b ks hs s hmem
    obtain ⟨e, he, hu, -⟩ := (hs.mem s).mp hmem
    exact hb.seq_keys.mpr ⟨e, he, hu⟩
  have hnodup : (ls.kvh.map LogDataKv.key).Nodup := by
    obtain ⟨g, hg, -⟩ := hb.kvs .seq
    exact hg.keys_nodup
  refine ⟨?_, ?_, ?_⟩
  · intro b hb
    have hs := hseqs b.key
    rw [hs.keys, List.map_map, hblk b hb]
    exact hs.count hone (Entry.left c)
  · intro b hb'
    have hs := hseqs b.key
    rw [hs.keys, List.map_map, hblk b hb']
    refine Eq.trans ?_ (Fibers.sum_ite (fun s => (verdict c ls.fecK past s).keeps) _).symm
    apply Fibers.countP_eq hnodup hs.nodup
    intro s
    rw [hs.charged hone]
    exact ⟨fun hc => hc.2, fun hc => ⟨hdone hs s hc.1, hc⟩⟩
  · intro b hb'
    have hs := hseqs b.key
    have hfec : (finalBlk c ls.fecK past (ls.kvh.map LogDataKv.key) b.key).hasFecFrame = true ↔
        ∃ s ∈ ls.kvh.map LogDataKv.key, Log.charged (fun w => w = .recovered) c ls.fecK past b.key s = true := List.any_eq_true
    rw [hblk b hb', hfec]
    show _ ↔ ∃ kv ∈ seqKeys ls' b.key, kv.hasFecFrame = true
    rw [hs.keys]
    constructor
    · rintro ⟨s, -, hc⟩
      obtain ⟨hmem, hv⟩ := (hs.charged hone _).mp hc
      exact ⟨_, List.mem_map.mpr ⟨s, hmem, rfl⟩, hv⟩
    · rintro ⟨kv, hkv, hv⟩
      obtain ⟨s, hmem, rfl⟩ := List.mem_map.mp hkv
      exact ⟨s, hdone hs s hmem, (hs.charged hone _).mpr ⟨hmem, hv⟩⟩

/-! ## Any commands -/

theorem commands_sums (h : Loaded ls past) (hone : OneBlock past) (cs : List Int8) :
    ∃ ls', cs.foldlM shellFilterDbm ls = .ok ls' ∧ BlockSums ls' := by
  by_cases hcs : cs = []
  · subst hcs
    exact ⟨ls, rfl, h.sums hone⟩
  · rw [← List.dropLast_append_getLast hcs]
    obtain ⟨ls', hrun, hf⟩ := commands_spec h.bones cs.dropLast (cs.getLast hcs)
    exact ⟨ls', hrun, hf.sums h.bones hone⟩

end WfbYa.Log
