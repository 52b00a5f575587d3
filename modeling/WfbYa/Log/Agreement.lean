/-
  WfbYa.Log.Agreement — the loader's counters, and the filter's with nothing filtered.

  The loader keeps its marks up record by record; the filter makes them anew from the
  values. `unfiltered_agrees_iff` says at which files they come out the same: everything
  below `fec_k` was decoded, everything decoded was decoded once, after it was received if it
  was, and each block counts the frames that begin in it. A frame of the first block that
  was received and never decoded is enough to break it (`undecoded_disagrees`).
-/

import WfbYa.Log.Recovery

namespace WfbYa.Log

open WfbYa.Lib

variable {file : Bytes} {ls ls' : LogStore} {past : List Entry} {fecK : UInt8} {c : Int8}

/-! ## What is compared -/

/-- The counters and marks of a key, under its number. -/
def LogDataKv.counters (kv : LogDataKv) : Nat × Nat × Nat × Bool × Bool :=
  (kv.key, kv.nEthernetFrame, kv.nH265Frame, kv.hasFecFrame, kv.hasLostFrame)

/-- The two figures of `summary_output` under "AFTER FILTER". -/
def afterFilter (ls : LogStore) : Nat × Nat := (ls.kvh.countP LogDataKv.hasFecFrame, ls.blockKvh.countP LogDataKv.hasLostFrame)

structure Agrees (ls ls' : LogStore) : Prop where
  seq : ls.kvh.map LogDataKv.counters = ls'.kvh.map LogDataKv.counters
  blk : ls.blockKvh.map LogDataKv.counters = ls'.blockKvh.map LogDataKv.counters
  summary : afterFilter ls = afterFilter ls'

/-- The summary is read from the counters. -/
theorem agrees_iff : Agrees ls ls' ↔
    ls.kvh.map LogDataKv.counters = ls'.kvh.map LogDataKv.counters ∧
      ls.blockKvh.map LogDataKv.counters = ls'.blockKvh.map LogDataKv.counters := by
  constructor
  · intro h
    exact ⟨h.seq, h.blk⟩
  · rintro ⟨hseq, hblk⟩
    refine ⟨hseq, hblk, ?_⟩
    have hfec : ∀ l : List LogDataKv, l.countP LogDataKv.hasFecFrame = (l.map LogDataKv.counters).countP fun x => x.2.2.2.1 := by
      intro l
      rw [List.countP_map]
      rfl
    have hlost : ∀ l : List LogDataKv, l.countP LogDataKv.hasLostFrame =
      (l.map LogDataKv.counters).countP fun x => x.2.2.2.2 := by
      intro l
      rw [List.countP_map]
      rfl
    unfold afterFilter
    rw [hfec, hfec, hlost, hlost, hseq, hblk]

/-- No received frame is at or below the cut-off. -/
def NothingFiltered (ls : LogStore) (c : Int8) : Prop :=
  ∀ v ∈ ls.vs, v.type = frameTypeInet6 → v.dbm = dbmInval16 ∨ c.toInt < v.dbm.toInt

/-! ## On the records -/

/-- The received frames under a key. -/
def received (t : KvType) (k : Nat) (past : List Entry) : Nat := past.countP fun e => under t k e && e.isInet6

/-- The decoded numbers whose first record is of the block. -/
def decodedIn (b : Nat) (past : List Entry) : Nat :=
  ((past.filter fun e => e.isDecode && decide (firstBlock e.seq past = some b)).map Entry.seq).toFinset.card

/-- What the loader and the filter count alike. -/
structure CountsAlike (fecK : UInt8) (past : List Entry) : Prop where
  /-- Every number below `fec_k` was decoded. -/
  below : ∀ s ∈ keysOf .seq past, lastDecode s past = none → fecK.toNat ≤ s
  /-- A decoded frame was received, or could be made up from its block. -/
  recoverable : ∀ s d, lastDecode s past = some d → 0 < received .seq s past ∨ fecK.toNat ≤ received .blk d.2.block past
  once : ∀ s d, lastDecode s past = some d → decodedCount .seq s past = 1
  /-- What was received was received before it was decoded. -/
  inOrder : ∀ s d, lastDecode s past = some d → 0 < received .seq s past → fecSeen (under .seq s) past = false
  /-- A block counts a decoded frame for every decoded number that begins in it. -/
  blkDecoded : ∀ b ∈ keysOf .blk past, decodedCount .blk b past = decodedIn b past
  /-- In a block a frame was decoded before it was received if one begins there that was
      never received. -/
  blkFec : ∀ b ∈ keysOf .blk past, fecSeen (under .blk b) past = true ↔
    ∃ s, firstBlock s past = some b ∧ lastDecode s past ≠ none ∧ received .seq s past = 0
  /-- A block is short of decoded frames, and has one, if it is short of received ones. -/
  blkLost : ∀ b ∈ keysOf .blk past, 0 < decodedCount .blk b past ∧ decodedCount .blk b past < fecK.toNat ↔
    received .blk b past < fecK.toNat

section

variable (hcut : ∀ e ∈ past, e.cut c = false)

include hcut

theorem left_uncut {e : Entry} (he : e ∈ past) : e.left c = e.isInet6 := by
  unfold Entry.left
  rw [hcut e he]
  simp

theorem seqEth_uncut (s : Nat) : seqEth c past s = received .seq s past := by
  apply List.countP_congr
  intro e he
  rw [left_uncut hcut he]

theorem blkEth_uncut (b : Nat) : blkEth c past b = received .blk b past := by
  apply List.countP_congr
  intro e he
  rw [left_uncut hcut he]

end

theorem decodedCount_le_decodes (s : Nat) : decodedCount .seq s past ≤ decodes past s := by
  apply List.countP_mono_left
  intro e _ h
  simp only [Entry.isDecoded, Bool.and_eq_true] at h ⊢
  exact ⟨h.1, h.2.1⟩

theorem fecSeen_none {p : Entry → Bool} (h : past.countP (fun e => p e && e.isDecoded) = 0) : fecSeen p past = false := by
  induction past with
  | nil => rfl
  | cons e past ih =>
    rw [List.countP_cons] at h
    have hno : (p e && e.isDecoded) = false := by
      by_contra hp
      rw [Bool.not_eq_false] at hp
      rw [if_pos hp] at h
      omega
    unfold fecSeen
    rw [ih (by omega), hno]
    rfl

/-- A frame that was decoded and never received. -/
theorem fecSeen_unreceived {s : Nat} (h : 0 < decodedCount .seq s past) (hno : received .seq s past = 0) :
    fecSeen (under .seq s) past = true := by
  induction past with
  | nil => cases h
  | cons e past ih =>
    unfold decodedCount at h
    unfold received at hno
    rw [List.countP_cons] at h hno
    unfold fecSeen
    rw [Bool.or_eq_true]
    by_cases hp : (under .seq s e && e.isDecoded) = true
    · right
      rw [hp, Bool.true_and, Bool.not_eq_true', List.any_eq_false]
      intro e' he' hrec
      simp only [under, Bool.and_eq_true, decide_eq_true_eq] at hp hrec
      have hpos : 0 < past.countP fun e => under .seq s e && e.isInet6 := by
        refine List.countP_pos_iff.mpr ⟨e', he', ?_⟩
        simp [under, inet6_isSeq hrec.1, hrec.1, hrec.2, hp.1.2]
      omega
    · left
      rw [if_neg hp] at h
      exact ih h (by unfold received; omega)

theorem decodes_of_decodedCount {s : Nat} (h : 0 < decodedCount .seq s past) : lastDecode s past ≠ none := by
  rw [Ne, lastDecode_none]
  have hle := @decodedCount_le_decodes past s
  omega

/-! ## The sequence numbers -/

/-- What a number must meet for the filter to count it as the loader did. -/
structure SeqAlike (fecK : UInt8) (past : List Entry) (s : Nat) : Prop where
  below : lastDecode s past = none → fecK.toNat ≤ s
  recoverable : ∀ d, lastDecode s past = some d → 0 < received .seq s past ∨ fecK.toNat ≤ received .blk d.2.block past
  once : ∀ d, lastDecode s past = some d → decodedCount .seq s past = 1
  inOrder : ∀ d, lastDecode s past = some d → 0 < received .seq s past → fecSeen (under .seq s) past = false

theorem counters_seq (s : Nat) : (kvOf fecK .seq past s).counters =
    (s, received .seq s past, decodedCount .seq s past, fecSeen (under .seq s) past, false) := rfl

theorem counters_finalSeq (hcut : ∀ e ∈ past, e.cut c = false) (s : Nat) : (finalSeq c fecK past s).counters =
    (s, received .seq s past, if (verdict c fecK past s).keeps then 1 else 0, decide (verdict c fecK past s = .recovered),
      (verdict c fecK past s).isLoss) := by
  rw [← seqEth_uncut hcut]
  rfl

theorem seqAlike_none {s : Nat} (hd : lastDecode s past = none) : SeqAlike fecK past s ↔ fecK.toNat ≤ s := by
  constructor
  · intro h
    exact h.below hd
  · intro hk
    have hno : ∀ d, lastDecode s past ≠ some d := by simp [hd]
    exact ⟨fun _ => hk, fun d h => absurd h (hno d), fun d h => absurd h (hno d), fun d h => absurd h (hno d)⟩

theorem seqAlike_some {s : Nat} {d : Nat × Entry} (hd : lastDecode s past = some d) : SeqAlike fecK past s ↔
    (0 < received .seq s past ∨ fecK.toNat ≤ received .blk d.2.block past) ∧ decodedCount .seq s past = 1 ∧
      (0 < received .seq s past → fecSeen (under .seq s) past = false) := by
  constructor
  · intro h
    exact ⟨h.recoverable d hd, h.once d hd, h.inOrder d hd⟩
  · rintro ⟨hrec, hone, hord⟩
    refine ⟨fun hno => ?_, fun d' hd' => ?_, fun _ _ => hone, fun _ _ => hord⟩
    · rw [hd] at hno
      cases hno
    · rw [hd] at hd'
      obtain rfl := Option.some.inj hd'
      exact hrec

theorem seqAlike_iff (hcut : ∀ e ∈ past, e.cut c = false) (s : Nat) :
    (kvOf fecK .seq past s).counters = (finalSeq c fecK past s).counters ↔ SeqAlike fecK past s := by
  rw [counters_seq, counters_finalSeq hcut]
  simp only [Prod.mk.injEq, true_and]
  cases hd : lastDecode s past with
  | none =>
    have hzero : decodedCount .seq s past = 0 := by
      by_contra hne
      exact decodes_of_decodedCount (Nat.pos_of_ne_zero hne) hd
    have hfec : fecSeen (under .seq s) past = false := fecSeen_none hzero
    rw [seqAlike_none hd, hzero, hfec]
    by_cases hk : s < fecK.toNat
    · rw [verdict_missing hd hk]
      simp [Verdict.isLoss, Nat.not_le.mpr hk]
    · rw [verdict_absent hd hk]
      simp [Verdict.isLoss, Verdict.keeps, Nat.not_lt.mp hk]
  | some d =>
    have hseq := @seqEth_uncut past c hcut s
    have hblk := blkEth_uncut hcut d.2.block
    rw [seqAlike_some hd]
    by_cases heth : 0 < seqEth c past s
    · rw [verdict_received hd heth, ← hseq]
      simp [Verdict.isLoss, Verdict.keeps, heth]
    · have hrec : received .seq s past = 0 := by omega
      by_cases hk : fecK.toNat ≤ blkEth c past d.2.block
      · rw [verdict_recovered hd heth hk, hrec, ← hblk]
        simp only [Verdict.keeps, Verdict.isLoss, hk]
        constructor
        · rintro ⟨hone, -, -⟩
          exact ⟨.inr trivial, hone, fun h => absurd h (Nat.lt_irrefl _)⟩
        · rintro ⟨-, hone, -⟩
          exact ⟨hone, fecSeen_unreceived (by omega) hrec, rfl⟩
      · rw [verdict_lost hd heth hk, hrec, ← hblk]
        simp [Verdict.isLoss, hk]

/-! ## The blocks -/

/-- With every number as the loader counts it: no verdict is a loss, and one keeps its frame
    if there is a decoded one. -/
theorem SeqAlike.verdict (h : SeqAlike fecK past s) (hcut : ∀ e ∈ past, e.cut c = false) :
    (Log.verdict c fecK past s).isLoss = false ∧
      ((Log.verdict c fecK past s).keeps = true ↔ lastDecode s past ≠ none) ∧
        (Log.verdict c fecK past s = .recovered ↔ lastDecode s past ≠ none ∧ received .seq s past = 0) := by
  cases hd : lastDecode s past with
  | none =>
    rw [verdict_absent hd (Nat.not_lt.mpr (h.below hd))]
    simp [Verdict.isLoss, Verdict.keeps]
  | some d =>
    by_cases heth : 0 < seqEth c past s
    · rw [verdict_received hd heth]
      rw [seqEth_uncut hcut] at heth
      simp [Verdict.isLoss, Verdict.keeps, Nat.ne_of_gt heth]
    · have hblk : fecK.toNat ≤ blkEth c past d.2.block := by
        rw [blkEth_uncut hcut]
        rw [seqEth_uncut hcut] at heth
        rcases h.recoverable d hd with hpos | hle
        · exact absurd hpos heth
        · exact hle
      rw [verdict_recovered hd heth hblk]
      rw [seqEth_uncut hcut] at heth
      have hzero : received .seq s past = 0 := by omega
      simp [Verdict.isLoss, Verdict.keeps, hzero]

section

variable {done : List Nat} (hcut : ∀ e ∈ past, e.cut c = false) (hdone : ∀ s, s ∈ done ↔ s ∈ keysOf .seq past)
  (hseq : ∀ s ∈ keysOf .seq past, SeqAlike fecK past s)

include hcut hdone hseq

theorem charged_keeps (hnodup : done.Nodup) (b : Nat) : done.countP (charged Verdict.keeps c fecK past b) = decodedIn b past := by
  unfold decodedIn
  rw [List.countP_eq_length_filter, ← List.toFinset_card_of_nodup (hnodup.filter _)]
  congr 1
  ext s
  unfold charged
  simp only [List.mem_toFinset, List.mem_filter, List.mem_map, Bool.and_eq_true, decide_eq_true_eq]
  constructor
  · rintro ⟨hs, hfirst, hk⟩
    have hdec := ((hseq s ((hdone s).mp hs)).verdict hcut).2.1.mp hk
    obtain ⟨d, hd⟩ := Option.ne_none_iff_exists'.mp hdec
    obtain ⟨hi, hu, hde⟩ := lastDecode_some hd
    simp only [under, Bool.and_eq_true, decide_eq_true_eq] at hu
    exact ⟨d.2, ⟨List.mem_reverse.mp (List.mem_of_getElem? hi), hde, by rwa [hu.2]⟩, hu.2⟩
  · rintro ⟨e, ⟨he, hde, hfirst⟩, rfl⟩
    have hu : under .seq e.seq e = true := by simp [under, decode_isSeq hde]
    have hs : e.seq ∈ keysOf .seq past := ⟨e, he, hu⟩
    refine ⟨(hdone _).mpr hs, hfirst, ((hseq _ hs).verdict hcut).2.1.mpr ?_⟩
    rw [Ne, lastDecode_none]
    exact Nat.ne_of_gt (decodes_pos he hu hde)

theorem charged_recovered (b : Nat) : done.any (charged (fun w => w = .recovered) c fecK past b) = true ↔
    ∃ s, firstBlock s past = some b ∧ lastDecode s past ≠ none ∧ received .seq s past = 0 := by
  rw [List.any_eq_true]
  unfold charged
  simp only [Bool.and_eq_true, decide_eq_true_eq]
  constructor
  · rintro ⟨s, hs, hfirst, hv⟩
    exact ⟨s, hfirst, ((hseq s ((hdone s).mp hs)).verdict hcut).2.2.mp hv⟩
  · rintro ⟨s, hfirst, hv⟩
    obtain ⟨e, he, hu, -⟩ := firstBlock_some hfirst
    have hs : s ∈ keysOf .seq past := ⟨e, he, hu⟩
    exact ⟨s, (hdone s).mpr hs, hfirst, ((hseq s hs).verdict hcut).2.2.mpr hv⟩

theorem charged_loss (b : Nat) : done.any (charged Verdict.isLoss c fecK past b) = false := by
  rw [List.any_eq_false]
  intro s hs
  unfold charged
  rw [((hseq s ((hdone s).mp hs)).verdict hcut).1]
  simp

theorem blkAlike_iff (hnodup : done.Nodup) (b : Nat) :
    (kvOf fecK .blk past b).counters = (finalBlk c fecK past done b).counters ↔
      decodedCount .blk b past = decodedIn b past ∧
        (fecSeen (under .blk b) past = true ↔
          ∃ s, firstBlock s past = some b ∧ lastDecode s past ≠ none ∧ received .seq s past = 0) ∧
        (0 < decodedCount .blk b past ∧ decodedCount .blk b past < fecK.toNat ↔ received .blk b past < fecK.toNat) := by
  have hkv : (kvOf fecK .blk past b).counters = (b, received .blk b past, decodedCount .blk b past, fecSeen (under .blk b) past,
      decide (0 < decodedCount .blk b past ∧ decodedCount .blk b past <
        fecK.toNat)) := by simp [LogDataKv.counters, kvOf, received]
  have hblk : (finalBlk c fecK past done b).counters = (b, received .blk b past, decodedIn b past,
      done.any (charged (fun w => w = .recovered) c fecK past b), decide (received .blk b past < fecK.toNat)) := by
    unfold LogDataKv.counters finalBlk
    dsimp only
    rw [charged_loss hcut hdone hseq, charged_keeps hcut hdone hseq hnodup, blkEth_uncut hcut, Bool.or_false]
    rfl
  rw [hkv, hblk, ← charged_recovered hcut hdone hseq b]
  simp only [Prod.mk.injEq, true_and, decide_eq_decide]
  rw [Bool.eq_iff_iff]

end

/-! ## The two together -/

theorem countsAlike_iff : CountsAlike fecK past ↔ (∀ s ∈ keysOf .seq past, SeqAlike fecK past s) ∧
    ∀ b ∈ keysOf .blk past, decodedCount .blk b past = decodedIn b past ∧
      (fecSeen (under .blk b) past = true ↔
        ∃ s, firstBlock s past = some b ∧ lastDecode s past ≠ none ∧ received .seq s past = 0) ∧
      (0 < decodedCount .blk b past ∧ decodedCount .blk b past < fecK.toNat ↔ received .blk b past < fecK.toNat) := by
  constructor
  · intro h
    refine ⟨fun s hs => ⟨h.below s hs, h.recoverable s, h.once s, h.inOrder s⟩, fun b hb => ?_⟩
    exact ⟨h.blkDecoded b hb, h.blkFec b hb, h.blkLost b hb⟩
  · rintro ⟨hseq, hblk⟩
    have hkey : ∀ s d, lastDecode s past = some d → s ∈ keysOf .seq past := by
      intro s d hd
      obtain ⟨hi, hu, -⟩ := lastDecode_some hd
      exact ⟨d.2, List.mem_reverse.mp (List.mem_of_getElem? hi), hu⟩
    refine ⟨fun s hs => (hseq s hs).below, fun s d hd => (hseq s (hkey s d hd)).recoverable d hd,
      fun s d hd => (hseq s (hkey s d hd)).once d hd, fun s d hd => (hseq s (hkey s d hd)).inOrder d hd, ?_, ?_, ?_⟩
    · exact fun b hb => (hblk b hb).1
    · exact fun b hb => (hblk b hb).2.1
    · exact fun b hb => (hblk b hb).2.2

theorem FilteredTo.agrees_iff (h : FilteredTo c ls ls' past) (hl : Loaded ls past) (hcut : ∀ e ∈ past, e.cut c = false) :
    Agrees ls ls' ↔ CountsAlike ls.fecK past := by
  have hseq : ls.kvh.map LogDataKv.counters = ls'.kvh.map LogDataKv.counters ↔
    ∀ s ∈ keysOf .seq past, SeqAlike ls.fecK past s := by
    refine ((hl.kvs .seq).map_eq_iff h.seq (fun _ => rfl) (fun _ => rfl) _).trans ?_
    exact forall₂_congr fun s _ => seqAlike_iff hcut s
  rw [Log.agrees_iff, countsAlike_iff, hseq]
  refine and_congr_right fun hall => ?_
  refine ((hl.kvs .blk).map_eq_iff h.blk (fun _ => rfl) (fun _ => rfl) _).trans ?_
  exact forall₂_congr fun b _ => blkAlike_iff hcut (fun _ => hl.bones.seq_keys) hall (hl.kvs .seq).keys_nodup b

theorem Loaded.uncut (h : Loaded ls past) (hno : NothingFiltered ls c) {e : Entry} (he : e ∈ past) : e.cut c = false := by
  obtain ⟨i, hi⟩ := List.getElem?_of_mem (List.mem_reverse.mpr he)
  obtain ⟨ep, hv⟩ := @vsOf_get past ls.fecK e i hi
  rw [← h.vs] at hv
  by_contra hc
  rw [Bool.not_eq_false] at hc
  have hinet := cut_inet6 hc
  unfold Entry.cut at hc
  simp only [Bool.and_eq_true, decide_eq_true_eq] at hc
  rcases hno _ (List.mem_of_getElem? hv) (of_decide_eq_true hinet) with hinval | hlt
  · exact hc.2.1 hinval
  · exact absurd hc.2.2 (Int.not_le.mpr hlt)

theorem unfiltered_agrees_iff (h : loadLog file = .ok (some ls)) (hno : NothingFiltered ls c) :
    ∃ ls', shellFilterDbm ls c = .ok ls' ∧ (Agrees ls ls' ↔ CountsAlike ls.fecK (fileEntries file).reverse) := by
  obtain ⟨-, -, ep, hl⟩ := loadLog_some h
  obtain ⟨ls', hrun, hf⟩ := shellFilterDbm_spec hl.loaded.bones c
  exact ⟨ls', hrun, hf.agrees_iff hl.loaded fun e he => hl.loaded.uncut hno he⟩

instance (ls : LogStore) (c : Int8) : Decidable (NothingFiltered ls c) :=
  inferInstanceAs (Decidable (∀ v ∈ ls.vs, v.type = frameTypeInet6 → v.dbm = dbmInval16 ∨ c.toInt < v.dbm.toInt))

theorem twoBlocks_agrees : ∃ ls ls', loadLog twoBlocks = .ok (some ls) ∧ NothingFiltered ls (-60) ∧
    shellFilterDbm ls (-60) = .ok ls' ∧ (Agrees ls ls' ↔ CountsAlike ls.fecK (fileEntries twoBlocks).reverse) := by
  have hrun : ((loadLog twoBlocks).toOption.bind id).map (fun ls => decide (NothingFiltered ls (-60))) = some true := by
    decide +kernel
  obtain ⟨ls, hls, hno⟩ := Option.map_eq_some_iff.mp hrun
  have hload := load_of_toOption hls
  obtain ⟨ls', hfilter, hiff⟩ := unfiltered_agrees_iff hload (of_decide_eq_true hno)
  exact ⟨ls, ls', hload, of_decide_eq_true hno, hfilter, hiff⟩

/-- A frame of the first block is received, and that is all. -/
def undecoded : Bytes := testFile (testHeader frameTypeInet6 0 0 8).raw

example : ((loadLog undecoded).toOption.bind id).map (fun ls => ls.kvh.map LogDataKv.counters) =
    some [(0, 1, 0, false, false)] := by
  decide +kernel

theorem undecoded_disagrees : ¬ ∀ (file : Bytes) (ls : LogStore) (c : Int8), loadLog file = .ok (some ls) → NothingFiltered ls c →
    ∃ ls', shellFilterDbm ls c = .ok ls' ∧ Agrees ls ls' := by
  intro h
  have hrun : ((loadLog undecoded).toOption.bind id).map (fun ls => (decide (NothingFiltered ls (-60)),
      (shellFilterDbm ls (-60)).toOption.map fun ls' => decide (afterFilter ls = afterFilter ls'))) =
        some (true, some false) := by
    decide +kernel
  obtain ⟨ls, hls, hout⟩ := Option.map_eq_some_iff.mp hrun
  obtain ⟨ls', hfilter, hagrees⟩ := h undecoded ls (-60) (load_of_toOption hls) (of_decide_eq_true (congrArg Prod.fst hout))
  have hno := congrArg Prod.snd hout
  rw [hfilter] at hno
  exact of_decide_eq_false (Option.some.inj hno) hagrees.summary

end WfbYa.Log
