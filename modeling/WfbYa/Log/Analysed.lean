/-
  WfbYa.Log.Analysed — the stores the shell's commands work on: a loaded one, and what any
  filter commands made of it.

  - `Analysed.bones`: the records of the file are still what its values and lists are made of.
  - `Bones.traversal`: going through the keys of a list and the values of each visits the
    values of the list in the order of their keys, and of the file within a key.
-/

import WfbYa.Log.Cutoffs

namespace WfbYa.Log

open WfbYa.Lib

/-- The store of the file, filtered by these cut-offs one after another. -/
def CommandsGive (file : Bytes) (cs : List Int8) (ls : LogStore) : Prop :=
  ∃ ls0, loadLog file = .ok (some ls0) ∧ cs.foldlM shellFilterDbm ls0 = .ok ls

/-- A store that was loaded, then filtered any number of times. -/
def Analysed (ls : LogStore) : Prop := ∃ file cs, CommandsGive file cs ls

variable {ls ls' : LogStore} {past : List Entry} {t : KvType} {i : Nat}

theorem Bones.commands (h : Bones ls past) {cs : List Int8} (hrun : cs.foldlM shellFilterDbm ls = .ok ls') : Bones ls' past := by
  induction cs generalizing ls with
  | nil =>
    cases hrun
    exact h
  | cons c cs ih =>
    obtain ⟨ls1, h1, hf⟩ := shellFilterDbm_spec h c
    rw [List.foldlM_cons, h1] at hrun
    exact ih (hf.bones h) hrun

theorem Analysed.bones (h : Analysed ls) : ∃ past, Bones ls past := by
  obtain ⟨file, cs, ls0, hload, hrun⟩ := h
  obtain ⟨-, -, ep, hl⟩ := loadLog_some hload
  exact ⟨_, hl.loaded.bones.commands hrun⟩

theorem commands_run (file : Bytes) (cs : List Int8) (p : LogStore → Bool)
    (h : ((loadLog file).toOption.bind id).any (fun ls => Machine.returns (cs.foldlM shellFilterDbm ls) p) = true) :
    ∃ ls, CommandsGive file cs ls ∧ p ls = true := by
  obtain ⟨ls0, hls, hp⟩ := (Option.any_eq_true _ _).mp h
  obtain ⟨ls, hrun, hq⟩ := Machine.returns_iff.mp hp
  exact ⟨ls, ⟨ls0, load_of_toOption hls, hrun⟩, hq⟩

theorem analysed_run (file : Bytes) (cs : List Int8) (p : LogStore → Bool)
    (h : ((loadLog file).toOption.bind id).any (fun ls => Machine.returns (cs.foldlM shellFilterDbm ls) p) = true) :
    ∃ ls, Analysed ls ∧ p ls = true := by
  obtain ⟨ls, hls, hp⟩ := commands_run file cs p h
  exact ⟨ls, ⟨file, cs, hls⟩, hp⟩

theorem LogStore.v_mem (ls : LogStore) (h : i < ls.vs.length) : ls.v i ∈ ls.vs := by
  unfold LogStore.v
  rw [List.getD_eq_getElem?_getD, List.getElem?_eq_getElem h]
  exact List.getElem_mem h

/-! ## Traversals -/

/-- The key a value points to: of its sequence number, or of its block or message. -/
def LogDataV.ref (v : LogDataV) : KvType → Option KvRef
  | .seq => v.kv
  | .blk => v.blockKv
  | .msg => v.blockKv

/-- Every value under the keys of a list, in the order of the keys. -/
def LogStore.listed (ls : LogStore) (t : KvType) : List Nat := (ls.kvs t).flatMap LogDataKv.vh

/-- The value is under a smaller key, or further in front under the same. -/
def LogStore.precedes (ls : LogStore) (t : KvType) (i j : Nat) : Prop :=
  ∃ r r', (ls.v i).ref t = some r ∧ (ls.v j).ref t = some r' ∧ (r.key < r'.key ∨ r.key = r'.key ∧ i < j)

theorem under_known {k : Nat} {e : Entry} (h : under t k e = true) : e.isSeq = decide (t ≠ .msg) := by
  cases t with
  | seq =>
    simp only [under, Bool.and_eq_true] at h
    simp [h.1]
  | blk =>
    simp only [under, Bool.and_eq_true] at h
    simp [h.1]
  | msg =>
    simp only [under, Bool.and_eq_true] at h
    simpa [Entry.isSeq] using msg_not_isSeq h.1

theorem Bones.ref (h : Bones ls past) {k : Nat} {e : Entry} (hi : past.reverse[i]? = some e) (hu : under t k e = true) :
    (ls.v i).ref t = some ⟨t, k⟩ := by
  obtain ⟨x, ep, -, hv, he⟩ := value_get h.vs hi
  have hseq := under_known hu
  have hkv : x.kv = (entryV ls.fecK ep e).kv := (congrArg LogDataV.kv he :)
  have hblk : x.blockKv = (entryV ls.fecK ep e).blockKv := (congrArg LogDataV.blockKv he :)
  rw [hv]
  cases t with
  | seq =>
    simp only [under, Bool.and_eq_true, decide_eq_true_eq] at hu
    simp [LogDataV.ref, hkv, entryV, hu.1, hu.2]
  | blk =>
    simp only [under, Bool.and_eq_true, decide_eq_true_eq] at hu
    simp [LogDataV.ref, hblk, entryV, hu.1, hu.2]
  | msg =>
    simp only [under, Bool.and_eq_true, decide_eq_true_eq] at hu
    simp [LogDataV.ref, hblk, entryV, hseq, hu.2]

theorem Bones.vh (h : Bones ls past) {kv : LogDataKv} (hkv : kv ∈ ls.kvs t) : kv.vh = idxs (under t kv.key) past := by
  obtain ⟨g, hg, hclear⟩ := h.kvs t
  obtain ⟨k, -, rfl⟩ := (hg.mem kv).mp hkv
  rw [show (g k).key = k from congrArg LogDataKv.key (hclear k)]
  exact congrArg LogDataKv.vh (hclear k)

theorem Bones.vh_ref (h : Bones ls past) {kv : LogDataKv} (hkv : kv ∈ ls.kvs t) (hi : i ∈ kv.vh) :
    (ls.v i).ref t = some ⟨t, kv.key⟩ := by
  rw [h.vh hkv] at hi
  obtain ⟨e, he, hu⟩ := mem_idxs.mp hi
  exact h.ref he hu

theorem Bones.vh_lt (h : Bones ls past) {kv : LogDataKv} (hkv : kv ∈ ls.kvs t) (hi : i ∈ kv.vh) : i < ls.vs.length := by
  rw [h.vh hkv] at hi
  rw [h.length]
  exact idxs_lt hi

theorem Bones.traversal (h : Bones ls past) (t : KvType) : (ls.listed t).Pairwise (ls.precedes t) := by
  obtain ⟨g, hg, -⟩ := h.kvs t
  unfold LogStore.listed
  rw [List.pairwise_flatMap]
  constructor
  · intro kv hkv
    have hsorted : kv.vh.Pairwise (· < ·) := h.vh hkv ▸ idxs_sorted _ _
    refine hsorted.imp_of_mem ?_
    intro i j hi hj hlt
    exact ⟨_, _, h.vh_ref hkv hi, h.vh_ref hkv hj, .inr ⟨rfl, hlt⟩⟩
  · refine hg.sorted.imp_of_mem ?_
    intro kv kv' hkv hkv' hlt i hi j hj
    exact ⟨_, _, h.vh_ref hkv hi, h.vh_ref hkv' hj, .inl hlt⟩

/-- A value of a kind that has sequence numbers is under its number and under its block. -/
theorem Bones.mem_listed (h : Bones ls past) (ht : t ≠ .msg) :
    i ∈ ls.listed t ↔ i < ls.vs.length ∧ isSeqType (ls.v i).type = true := by
  obtain ⟨g, hg, hclear⟩ := h.kvs t
  unfold LogStore.listed
  rw [List.mem_flatMap]
  constructor
  · intro ⟨kv, hkv, hi⟩
    refine ⟨h.vh_lt hkv hi, ?_⟩
    rw [h.vh hkv] at hi
    obtain ⟨e, he, hu⟩ := mem_idxs.mp hi
    rw [value_type h.vs he]
    exact (under_known hu).trans (by simp [ht])
  · intro ⟨hlt, hs⟩
    rw [h.length, ← List.length_reverse] at hlt
    obtain ⟨e, he⟩ : ∃ e, past.reverse[i]? = some e := ⟨_, List.getElem?_eq_getElem hlt⟩
    rw [value_type h.vs he] at hs
    have hseq : e.isSeq = true := hs
    obtain ⟨k, hu⟩ : ∃ k, under t k e = true := by
      cases t with
      | seq => exact ⟨e.seq, by simp [under, hseq]⟩
      | blk => exact ⟨e.block, by simp [under, hseq]⟩
      | msg => exact absurd rfl ht
    refine ⟨g k, (hg.mem _).mpr ⟨k, ⟨e, List.mem_reverse.mp (List.mem_of_getElem? he), hu⟩, rfl⟩, ?_⟩
    rw [show (g k).vh = idxs (under t k) past from congrArg LogDataKv.vh (hclear k)]
    exact mem_idxs.mpr ⟨e, he, hu⟩

end WfbYa.Log
